import CpuSim.Rtl.Correct

/-!
# Prediction and architecture

EX compares only the direction of a branch with its prediction and takes an equal direction
for an equal target. That is right as long as every taken prediction IF reads carries the
target of the instruction it is read for (`Honest`), which index and tag of the BTB ensure on
word-aligned programs (`CpuSim.Rtl.Prediction`). They drop the low two bits of the pc, so two
instructions half a word apart share an entry, and the prediction of one steers the other.
-/

namespace CpuSim

open Rv32i Machine

namespace Pipe

/-- What follows the instruction in IF/ID, and the one in ID/EX, is what was predicted for it. -/
structure Steered (p : Pipe) (code : ByteMap) : Prop where
  fetched : p.ifId.valid = true → p.ifId.raw = wordAt code p.ifId.pc ∧ Follows p.ifId p.pc
  decoded : p.idEx.valid = true → p.idEx.Holds (decode (wordAt code p.idEx.pc) p.idEx.pc) ∧
    (p.idEx.predictedTaken = true →
      (isCondBranch p.idEx.op = true ∨ p.idEx.op = .jal) ∧ p.frontPc = p.idEx.pc + p.idEx.imm)

variable {p q : Pipe} {code : ByteMap} {f : FetchOut Port} {m : MemOut Port}

theorem Steered.stall (h : p.Steered code) : (p.stallNext f m).Steered code := by
  have hid : (p.stallNext f m).idEx = p.captured := rfl
  refine ⟨h.fetched, ?_⟩
  intro hv
  rw [hid, captured_valid] at hv
  rw [hid, captured_pc, captured_op]
  obtain ⟨hd, hp⟩ := h.decoded hv
  refine ⟨Tracks.captured_holds hd, ?_⟩
  rw [captured_of_valid hv]
  exact hp

/-- IF/ID after a tick on which every stage moves. -/
theorem flow_ifId (p : Pipe) (f : FetchOut Port) (m : MemOut Port) :
    (p.flowNext f m).ifId =
      if p.exec.redirect then {} else if p.hazard then p.ifId else f.out := rfl

theorem flow_pc (p : Pipe) (f : FetchOut Port) (m : MemOut Port) :
    (p.flowNext f m).pc = if p.exec.redirect then p.exec.redirectTarget
      else if p.hazard || f.fetchStall then p.pc else f.predictedPc := rfl

theorem Steered.flow (h : p.Steered code) (hf : p.fetch = some f) (himage : p.iport.bytes = code)
    (hhonest : Honest code p.bpred p.pc) : (p.flowNext f m).Steered code := by
  have hid := flow_ifId p f m
  have hpc := flow_pc p f m
  have hbubble : p.exec.redirect = true ∨ p.hazard = true →
      (p.flowNext f m).idEx.valid = false := by
    intro hb
    rw [Bool.eq_false_iff, ne_eq, Tracks.flow_idEx_valid]
    obtain hb | hb := hb <;> simp [hb]
  cases hr : p.exec.redirect with
  | true =>
    rw [hr, if_pos rfl] at hid
    have hb := hbubble (.inl hr)
    exact ⟨fun hv => (by rw [hid] at hv; cases hv), fun hv => (by rw [hb] at hv; cases hv)⟩
  | false =>
    rw [hr, if_neg (by simp)] at hid hpc
    cases hz : p.hazard with
    | true =>
      have hb := hbubble (.inr hz)
      rw [hz] at hid hpc
      simp only [if_true, Bool.true_or] at hid hpc
      refine ⟨?_, fun hv => (by rw [hb] at hv; cases hv)⟩
      rw [hid, hpc]
      exact h.fetched
    | false =>
      rw [hz] at hid hpc
      simp only [Bool.false_eq_true, if_false, Bool.false_or] at hid hpc
      obtain ⟨hfront, hfollows⟩ :=
        Tracks.front_of_fetch (q := p.flowNext f m) hf himage rfl hhonest hid hpc
      refine ⟨fun hv => ⟨?_, hfollows hv⟩, fun hv => ?_⟩
      · rw [hid] at hv ⊢
        obtain ⟨h1, h2, -⟩ := fetch_served hf hv
        rw [h1, h2, himage]
      · obtain ⟨-, -, hfv⟩ := (Tracks.flow_idEx_valid p f m).mp hv
        obtain ⟨hraw, hfol⟩ := h.fetched hfv
        have hd := decodeInsn_holds p.rf hfv
        have hdpc : (decodeInsn p.rf p.ifId).pc = p.ifId.pc := hd.pc.trans (decode_pc _ _)
        have hpt : (decodeInsn p.rf p.ifId).predictedTaken = p.ifId.predictedTaken := by
          simp [decodeInsn, hfv]
        rw [Tracks.flow_idEx p f m hv, hdpc, hfront, hpt, hd.op, hd.imm]
        refine ⟨by rw [← hraw]; exact hd, fun ht => ?_⟩
        unfold Follows at hfol
        rw [ht, if_pos rfl] at hfol
        exact hfol

/-- Running ticks with honest predictions keep the front end where it was steered. -/
theorem steered_of_ticks (h : p.Steered code) (himage : p.iport.bytes = code) {n : Nat}
    (hhonest : ∀ k < n, ∀ r, p.ticks k = some r → r.halted = false → Honest code r.bpred r.pc)
    (hq : p.ticks n = some q) : q.Steered code ∧ q.iport.bytes = code := by
  induction n generalizing q with
  | zero =>
    simp only [ticks, Runs.run_zero, Option.some.injEq] at hq
    subst hq
    exact ⟨h, himage⟩
  | succ n ih =>
    obtain ⟨u, hu, huq⟩ := (Runs.run_succ_eq_some tick).mp hq
    obtain ⟨hs, hi⟩ := ih (fun k hk => hhonest k (by omega)) hu
    cases hh : u.halted with
    | true =>
      obtain rfl := eq_of_tick_of_halted hh huq
      exact ⟨hs, hi⟩
    | false =>
      obtain ⟨f, m, hf, -, ⟨-, rfl⟩ | ⟨-, rfl⟩⟩ := tick_cases hh huq
      · exact ⟨hs.stall, (fetch_imem hf).trans hi⟩
      · exact ⟨hs.flow hf hi (hhonest n (by omega) u hu hh),
          (Port.bytes_tick _).trans ((fetch_imem hf).trans hi)⟩

/-- When EX resolves a branch taken that was predicted taken, what was fetched behind it is its
    target. -/
theorem Steered.target_eq (h : p.Steered code) (hv : p.idEx.valid = true)
    (hp : p.idEx.predictedTaken = true) : p.frontPc = p.exec.out.branchTarget := by
  obtain ⟨-, hpred⟩ := h.decoded hv
  obtain ⟨hop, hpc⟩ := hpred hp
  have hne : p.idEx.op ≠ .jalr := by
    intro hj
    rw [hj] at hop
    simp [isCondBranch] at hop
  rw [hpc]
  unfold exec executeInsn
  rw [if_pos hv]
  simp [hne]

end Pipe

namespace Core

/-- A configuration with the predictor switched on or off. -/
def withPredictor (cfg : SimConfig) (enabled : Bool) : SimConfig :=
  { cfg with bpredEnabled := enabled }

/-- Every prediction IF reads in the first `n` ticks carries the target of the instruction it is
    read for. -/
def HonestRun (c : Core) (code : ByteMap) (n : Nat) : Prop :=
  ∀ k < n, ∀ d, c.ticks k = some d → d.halted = false → Honest code d.bpred d.fetch.pc

instance (code : ByteMap) (bp : Option BranchPredictor) (pc : Word) :
    Decidable (Honest code bp pc) := by unfold Honest; infer_instance

instance (c : Core) (code : ByteMap) (n : Nat) : Decidable (c.HonestRun code n) :=
  inferInstanceAs (Decidable (∀ k < n, ∀ d ∈ c.ticks k, d.halted = false →
    Honest code d.bpred d.fetch.pc))

/-- The pc fetched right after the instruction in ID/EX. -/
def fetchedNext (c : Core) : Word := if c.ifId.reg.valid then c.ifId.reg.pc else c.fetch.pc

/-- The runs with and without the predictor retire the same instructions with the same effects,
    and a taken branch that was predicted taken is followed by the fetch of its target. -/
def PredictorInvisible (cfg : SimConfig) (imem dmem : Nat → Byte) (rf : RegFile) (n : Nat) :
    Prop :=
  ∀ c, (boot (withPredictor cfg true) imem dmem rf).ticks n = some c →
    (∀ m d, (boot (withPredictor cfg false) imem dmem rf).ticks m = some d →
      (∀ (i : Nat) (a b : MemWb),
        ((boot (withPredictor cfg true) imem dmem rf).retired n)[i]? = some a →
        ((boot (withPredictor cfg false) imem dmem rf).retired m)[i]? = some b →
        a.commit = b.commit) ∧
      (c.halted = true → d.halted = true →
        ((boot (withPredictor cfg true) imem dmem rf).retired n).map MemWb.commit =
          ((boot (withPredictor cfg false) imem dmem rf).retired m).map MemWb.commit)) ∧
    (c.idEx.reg.valid = true → c.idEx.reg.predictedTaken = true →
      c.exOut.out.branchTaken = true → c.fetchedNext = c.exOut.out.branchTarget)

theorem honest_of_ticks {c : Core} {code : ByteMap} {n : Nat} (hc : c.Quiet)
    (h : c.HonestRun code n) : ∀ k < n, ∀ q, c.view.ticks k = some q → q.halted = false →
      Honest code q.bpred q.pc := by
  intro k hk q hq hrun
  rw [← view_ticks hc] at hq
  obtain ⟨d, hd, rfl⟩ := Option.map_eq_some_iff.mp hq
  exact h k hk d hd hrun

/-- A small core; `withPredictor` adds a predictor of eight entries. -/
def aliasing : SimConfig :=
  { ramBaseAddr := 0, ramSizeBytes := 64, bpredBhtEntries := 8, bpredBtbEntries := 8 }

/-- `jal x0, 0`: a loop of one jump, predicted taken from its second fetch on. -/
def selfLoop : Nat → Byte := halfwords [0x006F, 0]

/-- `beq x30, x6, +16` at 0, `jal x0, +8` at 2, EBREAK at 10 and `jal x0, -14` at 16. The first
    two instructions overlap, and they share a BTB entry. -/
def overlappingJumps : Nat → Byte :=
  halfwords [0x0863, 0x006F, 0x0080, 0, 0, 0x0073, 0x0010, 0, 0xF06F, 0xFF3F]

end Core

end CpuSim
