import CpuSim.Isa.Encoding

/-!
# Configuration and statistics

`SimConfig` holds every constructor knob of the simulator and `SimStats` is the probe the
pipeline and the I-cache count into. The 64-bit counters are natural numbers here: no step
reads them, so the model does not wrap them.
-/

namespace CpuSim

/-- `SimConfig`, with the defaults of the source. -/
structure SimConfig where
  ramBaseAddr : Word := 0x80000000
  ramSizeBytes : Nat := 0x10000
  dmemLatencyCycles : Nat := 1
  dcacheEnabled : Bool := false
  dcacheLineBytes : Nat := 32
  dcacheSets : Nat := 64
  dcacheHitLatencyCycles : Nat := 1
  dcacheWays : Nat := 1
  imemLatencyCycles : Nat := 1
  icacheEnabled : Bool := false
  icacheLineBytes : Nat := 32
  icacheSets : Nat := 64
  icacheHitLatencyCycles : Nat := 1
  icacheWays : Nat := 1
  icachePrefetchEnabled : Bool := false
  icachePrefetchDegree : Nat := 1
  bpredEnabled : Bool := false
  bpredBhtEntries : Nat := 256
  bpredBtbEntries : Nat := 64
  deriving DecidableEq, Repr

/-- `SimStats`. -/
structure SimStats where
  cycles : Nat := 0
  instructions : Nat := 0
  branchCorrect : Nat := 0
  branchMispredicts : Nat := 0
  icachePrefetchUseful : Nat := 0
  icachePrefetchUseless : Nat := 0
  deriving DecidableEq, Repr

namespace SimStats

def countCycle (s : SimStats) : SimStats := { s with cycles := s.cycles + 1 }

def countInstruction (s : SimStats) : SimStats := { s with instructions := s.instructions + 1 }

/-- The branch probe: a control-flow instruction resolved in EX, with or without a redirect. -/
def countBranch (s : SimStats) (redirect : Bool) : SimStats :=
  if redirect then { s with branchMispredicts := s.branchMispredicts + 1 }
  else { s with branchCorrect := s.branchCorrect + 1 }

def countUseful (s : SimStats) : SimStats :=
  { s with icachePrefetchUseful := s.icachePrefetchUseful + 1 }

def countUseless (s : SimStats) : SimStats :=
  { s with icachePrefetchUseless := s.icachePrefetchUseless + 1 }

end SimStats

/-- A power of two, as `log2_exact` and the `TreePlru` constructor assert it. -/
def IsPow2 (n : Nat) : Prop := ∃ k, n = 2 ^ k

/-- The test that they assert, `v && (v & (v - 1)) == 0`. -/
def assertsPow2 (v : Nat) : Bool := v != 0 && v &&& (v - 1) == 0

theorem assertsPow2_iff {v : Nat} : assertsPow2 v = true ↔ IsPow2 v := by
  unfold assertsPow2
  rw [Bool.and_eq_true, bne_iff_ne, beq_iff_eq]
  exact Nat.ne_zero_and_sub_one_eq_zero_iff_isPowerOfTwo

/-- What a cache constructor relies on: power-of-two shape, and tag, index and offset
    fields that fit a 32-bit address. -/
structure CacheShape (lineBytes sets ways : Nat) : Prop where
  linePow2 : IsPow2 lineBytes
  setsPow2 : IsPow2 sets
  waysPow2 : IsPow2 ways
  fits : lineBytes * sets < 2 ^ 32

/-- A latency knob that survives the `static_cast<int>` of the timers. -/
def LatencyOk (latency : Nat) : Prop := 1 ≤ latency ∧ latency < 2 ^ 31

/-- The configurations the constructors are meant for. Every knob is a C++ `unsigned`. -/
structure SimConfig.Valid (cfg : SimConfig) : Prop where
  dmem : LatencyOk cfg.dmemLatencyCycles
  imem : LatencyOk cfg.imemLatencyCycles
  dcache : cfg.dcacheEnabled = true →
    CacheShape cfg.dcacheLineBytes cfg.dcacheSets cfg.dcacheWays ∧
      LatencyOk cfg.dcacheHitLatencyCycles
  icache : cfg.icacheEnabled = true →
    CacheShape cfg.icacheLineBytes cfg.icacheSets cfg.icacheWays ∧
      LatencyOk cfg.icacheHitLatencyCycles
  bpred : cfg.bpredEnabled = true →
    IsPow2 cfg.bpredBhtEntries ∧ IsPow2 cfg.bpredBtbEntries ∧ cfg.bpredBtbEntries < 2 ^ 32

/-- `log2_exact`: the loop that halves `v` down to 1 counts `Nat.log2 v` steps. -/
def log2Exact (v : Nat) : Nat := Nat.log2 v

@[simp] theorem log2Exact_two_pow (k : Nat) : log2Exact (2 ^ k) = k := Nat.log2_two_pow

/-- `static_cast<int>` of an `unsigned`. -/
def toInt32 (n : Nat) : Int := (BitVec.ofNat 32 n).toInt

theorem toInt32_of_latencyOk {n : Nat} (h : LatencyOk n) : toInt32 n = n := by
  obtain ⟨_, hlt⟩ := h
  unfold toInt32
  rw [BitVec.toInt_eq_toNat_of_lt] <;> simp only [BitVec.toNat_ofNat] <;> omega

end CpuSim
