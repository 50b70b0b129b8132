import CpuSim.Base.Runs
import CpuSim.Memory.Cache
import CpuSim.Uarch.Stages

/-!
# The core

`sim/core.cpp` with the stage objects it wires. A stage's `evaluate()` and `latch()` are
functions on the whole core, because the C++ stages hold references to one another's latches
and set flags on one another. `none` is an aborted access: the range assertion of
`FlatMem::offset`, or an index past the backing vector.
-/

namespace CpuSim

open Rv32i

/-! ## Memory ports -/

/-- What a stage's `IMemory&` is bound to: the flat memory, or an L1 cache over it. -/
inductive Port where
  | flat (m : FlatMem)
  | cached (c : Cache FlatMem)

namespace Port

/-- The `FlatMem` that holds the data. -/
def ram : Port → FlatMem
  | flat m => m
  | cached c => c.backing

/-- The port over a given byte vector. -/
def load : Port → List Byte → Port
  | flat m, bytes => flat { m with mem := bytes }
  | cached c, bytes => cached { c with backing := { c.backing with mem := bytes } }

/-- The prefetch probe of an I-cache. -/
def stats : Port → Option SimStats
  | flat _ => none
  | cached c => c.stats

instance : IMemory Port where
  loadWord
    | flat m => IMemory.loadWord m
    | cached c => IMemory.loadWord c
  loadHalf
    | flat m => IMemory.loadHalf m
    | cached c => IMemory.loadHalf c
  loadByte
    | flat m => IMemory.loadByte m
    | cached c => IMemory.loadByte c
  storeWord
    | flat m => fun addr val => (IMemory.storeWord m addr val).map flat
    | cached c => fun addr val => (IMemory.storeWord c addr val).map cached
  storeHalf
    | flat m => fun addr val => (IMemory.storeHalf m addr val).map flat
    | cached c => fun addr val => (IMemory.storeHalf c addr val).map cached
  storeByte
    | flat m => fun addr val => (IMemory.storeByte m addr val).map flat
    | cached c => fun addr val => (IMemory.storeByte c addr val).map cached
  ready
    | flat m => fun addr isWrite => ((m.ready addr isWrite).1, flat (m.ready addr isWrite).2)
    | cached c => fun addr isWrite =>
      ((c.ready addr isWrite).1, cached (c.ready addr isWrite).2)
  tick
    | flat m => flat m.tick
    | cached c => cached c.tick

end Port

/-! ## Stage objects -/

/-- `FetchStage`. -/
structure FetchStage where
  pc : Word
  nextPc : Word := 0
  stall : Bool := false
  redirect : Bool := false
  redirectTarget : Word := 0
  fetchStall : Bool := false
  deriving DecidableEq, Repr

def FetchStage.setStall (f : FetchStage) : FetchStage := { f with stall := true }

def FetchStage.setRedirect (f : FetchStage) (target : Word) : FetchStage :=
  { f with redirect := true, redirectTarget := target }

/-- `DecodeStage`. -/
structure DecodeStage where
  stall : Bool := false
  flush : Bool := false
  deriving DecidableEq, Repr

def DecodeStage.setFlush (d : DecodeStage) : DecodeStage := { d with flush := true }

/-- `ForwardUnit`. -/
structure ForwardUnit where
  prevMemWb : MemWb := {}
  prevMemWbNext : MemWb := {}
  deriving DecidableEq, Repr

/-- `ExecuteStage`. -/
structure ExecuteStage where
  redirect : Bool := false
  redirectTarget : Word := 0
  control : Bool := false
  train : Bool := false
  trainPc : Word := 0
  trainCond : Bool := false
  trainTaken : Bool := false
  trainTarget : Word := 0
  deriving DecidableEq, Repr

/-- `MemAccessStage`. -/
structure MemAccessStage where
  stalling : Bool := false
  deriving DecidableEq, Repr

/-- `WritebackStage`. -/
structure WritebackStage where
  pending : Bool := false
  rd : RegIdx := 0
  val : Word := 0
  deriving DecidableEq, Repr

/-- `HazardUnit`. -/
structure HazardUnit where
  stall : Bool := false
  deriving DecidableEq, Repr

/-- `HaltReason`. -/
inductive HaltReason where
  | none | ebreak | illegal
  deriving DecidableEq, Repr

/-- `Core`. -/
structure Core where
  iport : Port
  dport : Port
  rf : RegFile := RegFile.zero
  bpred : Option BranchPredictor
  stats : SimStats := {}
  ifId : Latch IfId := Latch.bubble
  idEx : Latch IdEx := Latch.bubble
  exMem : Latch ExMem := Latch.bubble
  memWb : Latch MemWb := Latch.bubble
  fetch : FetchStage
  decode : DecodeStage := {}
  fwd : ForwardUnit := {}
  ex : ExecuteStage := {}
  mem : MemAccessStage := {}
  wb : WritebackStage := {}
  hazard : HazardUnit := {}
  halted : Bool := false
  haltReason : HaltReason := .none
  haltPc : Word := 0
  haltRaw : Word := 0

namespace Core

/-- The instruction port a configuration selects. -/
def newIport (cfg : SimConfig) : Port :=
  let imem := FlatMem.new cfg.ramBaseAddr cfg.ramSizeBytes cfg.imemLatencyCycles
  if cfg.icacheEnabled then
    .cached (Cache.new imem cfg.icacheLineBytes cfg.icacheSets cfg.icacheHitLatencyCycles
      cfg.icacheWays cfg.icachePrefetchEnabled cfg.icachePrefetchDegree (some {}))
  else .flat imem

/-- The data port a configuration selects. The D-cache never prefetches. -/
def newDport (cfg : SimConfig) : Port :=
  let dram := FlatMem.new cfg.ramBaseAddr cfg.ramSizeBytes cfg.dmemLatencyCycles
  if cfg.dcacheEnabled then
    .cached (Cache.new dram cfg.dcacheLineBytes cfg.dcacheSets cfg.dcacheHitLatencyCycles
      cfg.dcacheWays false 1 none)
  else .flat dram

/-- The constructor, where the assertions in it hold. -/
def new (cfg : SimConfig) : Core :=
  { iport := newIport cfg
    dport := newDport cfg
    bpred := if cfg.bpredEnabled then
      some (BranchPredictor.new cfg.bpredBhtEntries cfg.bpredBtbEntries) else none
    fetch := { pc := cfg.ramBaseAddr } }

/-- The assertions that the `Cache` constructor runs into: those of `log2_exact` on its lines and
    sets, and that of `TreePlru` on its ways. -/
def assertsCache (lineBytes sets ways : Nat) : Bool :=
  assertsPow2 lineBytes && assertsPow2 sets && assertsPow2 ways

/-- The constructor with its assertions. The predictor asserts the size of its BTB and not that
    of its counter table. -/
def construct (cfg : SimConfig) : Option Core :=
  if (!cfg.icacheEnabled || assertsCache cfg.icacheLineBytes cfg.icacheSets cfg.icacheWays) &&
      (!cfg.dcacheEnabled || assertsCache cfg.dcacheLineBytes cfg.dcacheSets cfg.dcacheWays) &&
      (!cfg.bpredEnabled || assertsPow2 cfg.bpredBtbEntries) then some (new cfg)
  else none

theorem assertsCache_iff {lineBytes sets ways : Nat} :
    assertsCache lineBytes sets ways = true ↔ IsPow2 lineBytes ∧ IsPow2 sets ∧ IsPow2 ways := by
  unfold assertsCache
  rw [Bool.and_eq_true, Bool.and_eq_true, assertsPow2_iff, assertsPow2_iff, assertsPow2_iff,
    and_assoc]

/-- A core is constructed when every cache and predictor that is there has power-of-two shape. -/
theorem construct_eq_some {cfg : SimConfig} {c : Core} :
    construct cfg = some c ↔ c = new cfg ∧
      (cfg.icacheEnabled = true →
        IsPow2 cfg.icacheLineBytes ∧ IsPow2 cfg.icacheSets ∧ IsPow2 cfg.icacheWays) ∧
      (cfg.dcacheEnabled = true →
        IsPow2 cfg.dcacheLineBytes ∧ IsPow2 cfg.dcacheSets ∧ IsPow2 cfg.dcacheWays) ∧
      (cfg.bpredEnabled = true → IsPow2 cfg.bpredBtbEntries) := by
  unfold construct
  rw [Option.ite_none_right_eq_some, Option.some.injEq]
  simp only [Bool.and_eq_true, Bool.or_eq_true, Bool.not_eq_true', assertsCache_iff,
    assertsPow2_iff, and_assoc]
  have himp : ∀ (b : Bool) (P : Prop), (b = false ∨ P) ↔ (b = true → P) := by
    intro b P
    cases b <;> simp
  rw [himp, himp, himp, eq_comm]
  tauto

/-- The first `size` bytes of an image. -/
def bytesOf (size : Nat) (image : Nat → Byte) : List Byte := (List.range size).map image

/-- A core before its first tick: constructed, both memories filled through the backdoor
    writes (`load_program`, `load_elf`, `store_word`) and the registers set by `write_reg`. -/
def boot (cfg : SimConfig) (imem dmem : Nat → Byte) (rf : RegFile) : Core :=
  { new cfg with
    iport := (newIport cfg).load (bytesOf cfg.ramSizeBytes imem)
    dport := (newDport cfg).load (bytesOf cfg.ramSizeBytes dmem)
    rf := rf }

/-! ## Evaluate phase -/

/-- `FetchStage::evaluate`. A redirect already set on the stage overrides the prediction. -/
def fetchEvaluate (c : Core) : Option Core :=
  (fetchWord c.iport c.bpred c.fetch.pc).map fun f =>
    { c with
      iport := f.imem
      ifId := c.ifId.write f.out
      fetch :=
        { c.fetch with
          fetchStall := f.fetchStall
          nextPc := if f.fetchStall then c.fetch.pc
            else if c.fetch.redirect then c.fetch.redirectTarget else f.predictedPc } }

def decodeEvaluate (c : Core) : Core :=
  { c with idEx := c.idEx.write (decodeInsn c.rf c.ifId.reg) }

def fwdEvaluate (c : Core) : Core :=
  { c with fwd := { c.fwd with prevMemWbNext := c.memWb.reg } }

/-- `fwd_.resolve(...)` on the committed latches. -/
def resolveReg (c : Core) (reg : RegIdx) (cur : Word) : Word :=
  resolve c.exMem.reg c.memWb.reg c.fwd.prevMemWb reg cur

/-- What EX computes from ID/EX and the forwarded operands; nothing for a bubble. -/
def exOut (c : Core) : ExecOut :=
  let id := c.idEx.reg
  if id.valid then
    executeInsn id (c.resolveReg id.rs1 id.rs1Val) (c.resolveReg id.rs2 id.rs2Val)
  else {}

/-- `ExecuteStage::evaluate`. -/
def exEvaluate (c : Core) : Core :=
  let x := c.exOut
  { c with
    exMem := c.exMem.write x.out
    ex := if c.idEx.reg.valid then
        { redirect := x.redirect
          redirectTarget := x.redirectTarget
          control := x.control
          train := c.bpred.isSome && x.trainable
          trainPc := c.idEx.reg.pc
          trainCond := x.trainCond
          trainTaken := x.out.branchTaken
          trainTarget := x.out.branchTarget }
      else { c.ex with redirect := false, train := false, control := false } }

/-- `MemAccessStage::evaluate`. -/
def memEvaluate (c : Core) : Option Core :=
  (accessMem c.dport c.exMem.reg).map fun m =>
    { c with dport := m.dmem, memWb := c.memWb.write m.out, mem := { stalling := m.stalling } }

/-- `WritebackStage::evaluate`. -/
def wbEvaluate (c : Core) : Core :=
  let wb := c.memWb.reg
  { c with
    wb := if writesBack wb then { pending := true, rd := wb.rd, val := wb.wbVal }
      else { pending := false, rd := 0, val := 0 } }

/-- `HazardUnit::evaluate`. -/
def hazardEvaluate (c : Core) : Core :=
  { c with hazard := { stall := loadUseHazard c.idEx.reg c.ifId.reg } }

/-! ## Latch phase -/

/-- `WritebackStage::latch`. -/
def wbLatch (c : Core) : Core :=
  { c with
    rf := if c.wb.pending then c.rf.write c.wb.rd c.wb.val else c.rf
    wb := { c.wb with pending := false } }

/-- `ForwardUnit::latch`. -/
def fwdLatch (c : Core) : Core :=
  { c with fwd := { c.fwd with prevMemWb := c.fwd.prevMemWbNext } }

/-- `ExecuteStage::latch`: signal IF and ID on a redirect, probe and train. -/
def exLatch (c : Core) : Core :=
  { c with
    fetch := if c.ex.redirect then c.fetch.setRedirect c.ex.redirectTarget else c.fetch
    decode := if c.ex.redirect then c.decode.setFlush else c.decode
    stats := if c.ex.control then c.stats.countBranch c.ex.redirect else c.stats
    bpred := if c.ex.train then
        c.bpred.map fun bp =>
          bp.update c.ex.trainPc c.ex.trainCond c.ex.trainTaken c.ex.trainTarget
      else c.bpred
    exMem := c.exMem.latch
    ex := { c.ex with redirect := false, train := false, control := false } }

/-- `MemAccessStage::latch`. -/
def memLatch (c : Core) : Core :=
  { c with dport := IMemory.tick c.dport, memWb := c.memWb.latch }

/-- `HazardUnit::latch`. -/
def hazardLatch (c : Core) : Core :=
  { c with
    fetch := if c.hazard.stall then c.fetch.setStall else c.fetch
    decode := if c.hazard.stall then c.decode.setFlush else c.decode
    hazard := { stall := false } }

/-- `DecodeStage::latch`. -/
def decodeLatch (c : Core) : Core :=
  { c with
    idEx := if c.decode.flush then c.idEx.flush
      else if !c.decode.stall then c.idEx.latch else c.idEx
    decode := { stall := false, flush := false } }

/-- `FetchStage::latch`. -/
def fetchLatch (c : Core) : Core :=
  let f := c.fetch
  { c with
    iport := IMemory.tick c.iport
    ifId := if f.redirect then c.ifId.flush else if !f.stall then c.ifId.latch else c.ifId
    fetch :=
      { f with
        pc := if f.redirect then f.redirectTarget
          else if !f.stall && !f.fetchStall then f.nextPc else f.pc
        stall := false
        redirect := false } }

/-! ## One clock cycle -/

/-- `Core::capture_ex_operands`. -/
def captureExOperands (c : Core) : Core :=
  let held := c.idEx.reg
  let captured :=
    { held with
      rs1Val := c.resolveReg held.rs1 held.rs1Val
      rs2Val := c.resolveReg held.rs2 held.rs2Val }
  { c with idEx := if held.valid then (c.idEx.write captured).latch else c.idEx }

/-- An EBREAK or an illegal instruction is at the MEM/WB input. -/
def halting (c : Core) : Bool := c.memWb.reg.valid && isHalting c.memWb.reg.op

/-- The halt check of `Core::tick` on the MEM/WB input. -/
def noteHalt (c : Core) : Core :=
  let wb := c.memWb.reg
  { c with
    halted := if c.halting then true else c.halted
    haltReason := if c.halting then (if wb.op = .ebreak then .ebreak else .illegal)
      else c.haltReason
    haltPc := if c.halting then wb.pc else c.haltPc
    haltRaw := if c.halting then wb.raw else c.haltRaw }

/-- `if (wb_in.valid) ++stats_.instructions`. -/
def noteRetire (c : Core) : Core :=
  { c with stats := if c.memWb.reg.valid then c.stats.countInstruction else c.stats }

def countCycle (c : Core) : Core := { c with stats := c.stats.countCycle }

/-- The stages of `Core::tick`. -/
inductive Stage where
  | fetch | decode | forward | execute | memory | writeback | hazard
  deriving DecidableEq, Repr

def evaluate : Stage → Core → Option Core
  | .fetch, c => c.fetchEvaluate
  | .decode, c => some c.decodeEvaluate
  | .forward, c => some c.fwdEvaluate
  | .execute, c => some c.exEvaluate
  | .memory, c => c.memEvaluate
  | .writeback, c => some c.wbEvaluate
  | .hazard, c => some c.hazardEvaluate

def latch : Stage → Core → Core
  | .fetch, c => c.fetchLatch
  | .decode, c => c.decodeLatch
  | .forward, c => c.fwdLatch
  | .execute, c => c.exLatch
  | .memory, c => c.memLatch
  | .writeback, c => c.wbLatch
  | .hazard, c => c.hazardLatch

/-- The `evaluate()` calls of one tick, in the given order. -/
def evaluateIn (order : List Stage) (c : Core) : Option Core :=
  order.foldlM (fun c s => c.evaluate s) c

/-- The `latch()` calls of one tick, in the given order. -/
def latchIn (order : List Stage) (c : Core) : Core :=
  order.foldl (fun c s => c.latch s) c

/-- The order in which the source calls `evaluate()`. -/
def evaluateOrder : List Stage :=
  [.fetch, .decode, .forward, .execute, .memory, .writeback, .hazard]

/-- The order in which the source calls `latch()` on a cycle without a MEM stall. -/
def latchOrder : List Stage :=
  [.writeback, .forward, .execute, .memory, .hazard, .decode, .fetch]

/-- The `latch()` calls of a stall cycle: only what is downstream of MEM moves. -/
def stallLatchOrder : List Stage := [.writeback, .forward, .memory]

/-- `Core::tick` with the two call orders as parameters. -/
def tickIn (evals latches : List Stage) (c : Core) : Option Core :=
  if c.halted then some c
  else do
    let c ← c.evaluateIn evals
    let c' := c.noteHalt.noteRetire
    if c.mem.stalling then
      some (c'.captureExOperands.latchIn stallLatchOrder).countCycle
    else
      some (c'.latchIn latches).countCycle

/-- `Core::tick`. -/
def tick (c : Core) : Option Core := tickIn evaluateOrder latchOrder c

/-- The state after `n` calls of `tick()`, none of which aborted. -/
def ticks (c : Core) (n : Nat) : Option Core := Runs.run tick n c

/-- The instruction a tick from this state retires. -/
def retires (c : Core) : List MemWb :=
  if !c.halted && c.memWb.reg.valid then [c.memWb.reg] else []

/-- The MEM/WB entries retired by the first `n` ticks. -/
def retired (c : Core) (n : Nat) : List MemWb := Runs.log tick retires n c

/-! ## Inspection -/

def cycles (c : Core) : Nat := c.stats.cycles

def instructions (c : Core) : Nat := c.stats.instructions

/-- `Core::stats`: the pipeline's counters with the I-cache's two. -/
def allStats (c : Core) : SimStats :=
  { c.stats with
    icachePrefetchUseful := (c.iport.stats.getD {}).icachePrefetchUseful
    icachePrefetchUseless := (c.iport.stats.getD {}).icachePrefetchUseless }

end Core

end CpuSim
