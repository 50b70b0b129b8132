import CpuSim.Sim.Config

/-!
# Branch predictor

`uarch/branch_predictor.cpp`: a tagged, direct-mapped BTB and a table of 2-bit saturating
counters, both indexed by the pc without its low two bits.
-/

namespace CpuSim

/-- `BranchPredictor::BtbEntry`. -/
structure BtbEntry where
  valid : Bool := false
  tag : Word := 0
  target : Word := 0
  cond : Bool := false
  deriving DecidableEq, Repr

/-- `BranchPredictor::Prediction`. -/
structure Prediction where
  taken : Bool := false
  target : Word := 0
  deriving DecidableEq, Repr

/-- `BranchPredictor`. -/
structure BranchPredictor where
  bht : List Nat
  bhtMask : Word
  btb : List BtbEntry
  btbMask : Word
  btbIndexBits : Nat
  deriving DecidableEq, Repr

namespace BranchPredictor

/-- The constructor: counters start weakly not-taken, the BTB empty. -/
def new (bhtEntries btbEntries : Nat) : BranchPredictor :=
  { bht := List.replicate bhtEntries 1
    bhtMask := BitVec.ofNat 32 (bhtEntries - 1)
    btb := List.replicate btbEntries {}
    btbMask := BitVec.ofNat 32 (btbEntries - 1)
    btbIndexBits := log2Exact btbEntries }

def bhtIndex (bp : BranchPredictor) (pc : Word) : Nat := ((pc >>> 2) &&& bp.bhtMask).toNat

def btbIndex (bp : BranchPredictor) (pc : Word) : Nat := ((pc >>> 2) &&& bp.btbMask).toNat

def btbTag (bp : BranchPredictor) (pc : Word) : Word := (pc >>> 2) >>> bp.btbIndexBits

def counter (bp : BranchPredictor) (pc : Word) : Nat := bp.bht.getD (bp.bhtIndex pc) 0

def entry (bp : BranchPredictor) (pc : Word) : BtbEntry := bp.btb.getD (bp.btbIndex pc) {}

/-- `BranchPredictor::predict`: a miss predicts not-taken; on a hit a conditional branch goes
    by its counter and an unconditional jump is always taken. -/
def predict (bp : BranchPredictor) (pc : Word) : Prediction :=
  let e := bp.entry pc
  if !e.valid || e.tag != bp.btbTag pc then {}
  else { taken := if e.cond then decide (2 ≤ bp.counter pc) else true, target := e.target }

/-- The saturating update of one counter. -/
def bump (taken : Bool) (c : Nat) : Nat :=
  if taken then (if c < 3 then c + 1 else c) else c - 1

/-- `BranchPredictor::update`. -/
def update (bp : BranchPredictor) (pc : Word) (isCond taken : Bool) (target : Word) :
    BranchPredictor :=
  { bp with
    bht := if isCond then bp.bht.set (bp.bhtIndex pc) (bump taken (bp.counter pc)) else bp.bht
    btb := bp.btb.set (bp.btbIndex pc)
      { valid := true, tag := bp.btbTag pc, target := target, cond := isCond } }

end BranchPredictor

end CpuSim
