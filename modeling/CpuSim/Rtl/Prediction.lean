import CpuSim.Rtl.Refinement

/-!
# What the predictor knows

Index and tag of the BTB determine a word-aligned pc, and EX trains it only with branches and
JAL, whose targets do not depend on registers. So on a word-aligned program a taken prediction
carries the instruction's own target (`honest_of_sound`), and a run keeps it so.
-/

namespace CpuSim

open Rv32i Machine

namespace BranchPredictor

/-- A BTB of `2 ^ k` entries as the constructor builds it. -/
structure Shaped (bp : BranchPredictor) (k : Nat) : Prop where
  le : k ≤ 32
  mask : bp.btbMask = BitVec.ofNat 32 (2 ^ k - 1)
  bits : bp.btbIndexBits = k

theorem shaped_new {bht btb : Nat} (h : IsPow2 btb) (hlt : btb < 2 ^ 32) :
    ∃ k, (new bht btb).Shaped k := by
  obtain ⟨k, rfl⟩ := h
  have hk : k < 32 := (Nat.pow_lt_pow_iff_right (by omega)).mp hlt
  exact ⟨k, by omega, rfl, log2Exact_two_pow k⟩

section Fields

variable {bp : BranchPredictor} {k : Nat}

theorem Shaped.btbIndex_eq (h : bp.Shaped k) (pc : Word) :
    bp.btbIndex pc = pc.toNat / 4 % 2 ^ k := by
  have hle : 2 ^ k ≤ 2 ^ 32 := Nat.pow_le_pow_right (by omega) h.le
  have hpos := Nat.two_pow_pos k
  unfold btbIndex
  rw [h.mask, BitVec.toNat_and, BitVec.toNat_ushiftRight, BitVec.toNat_ofNat,
    Nat.shiftRight_eq_div_pow, Nat.mod_eq_of_lt (by omega : 2 ^ k - 1 < 2 ^ 32),
    Nat.and_two_pow_sub_one_eq_mod]

theorem Shaped.btbTag_eq (h : bp.Shaped k) (pc : Word) :
    (bp.btbTag pc).toNat = pc.toNat / 4 / 2 ^ k := by
  unfold btbTag
  rw [h.bits, BitVec.toNat_ushiftRight, BitVec.toNat_ushiftRight, Nat.shiftRight_eq_div_pow,
    Nat.shiftRight_eq_div_pow]

/-- Index and tag together are the pc without its low two bits. -/
theorem Shaped.word_eq (h : bp.Shaped k) {pc pc' : Word} (hi : bp.btbIndex pc = bp.btbIndex pc')
    (ht : bp.btbTag pc = bp.btbTag pc') : pc >>> 2 = pc' >>> 2 := by
  rw [h.btbIndex_eq, h.btbIndex_eq] at hi
  have ht' : pc.toNat / 4 / 2 ^ k = pc'.toNat / 4 / 2 ^ k := by
    rw [← h.btbTag_eq, ← h.btbTag_eq, ht]
  have hdiv : pc.toNat / 4 = pc'.toNat / 4 := by
    rw [← Nat.div_add_mod (pc.toNat / 4) (2 ^ k), ← Nat.div_add_mod (pc'.toNat / 4) (2 ^ k), hi,
      ht']
  apply BitVec.eq_of_toNat_eq
  rw [BitVec.toNat_ushiftRight, BitVec.toNat_ushiftRight, Nat.shiftRight_eq_div_pow,
    Nat.shiftRight_eq_div_pow]
  exact hdiv

/-- They determine a word-aligned pc. -/
theorem Shaped.pc_eq (h : bp.Shaped k) {pc pc' : Word} (ha : pc.toNat % 4 = 0)
    (ha' : pc'.toNat % 4 = 0) (hi : bp.btbIndex pc = bp.btbIndex pc')
    (ht : bp.btbTag pc = bp.btbTag pc') : pc = pc' := by
  have hword := congrArg BitVec.toNat (h.word_eq hi ht)
  rw [BitVec.toNat_ushiftRight, BitVec.toNat_ushiftRight, Nat.shiftRight_eq_div_pow,
    Nat.shiftRight_eq_div_pow] at hword
  apply BitVec.eq_of_toNat_eq
  omega

theorem Shaped.update (h : bp.Shaped k) (pc : Word) (isCond taken : Bool) (target : Word) :
    (bp.update pc isCond taken target).Shaped k := ⟨h.le, h.mask, h.bits⟩

theorem entry_update (pc : Word) (isCond taken : Bool) (target : Word) (pc' : Word) :
    (bp.update pc isCond taken target).entry pc' =
        { valid := true, tag := bp.btbTag pc, target := target, cond := isCond } ∧
        bp.btbIndex pc' = bp.btbIndex pc ∨
      (bp.update pc isCond taken target).entry pc' = bp.entry pc' := by
  have he : (bp.update pc isCond taken target).entry pc' = (bp.btb.set (bp.btbIndex pc)
      { valid := true, tag := bp.btbTag pc, target := target, cond := isCond }).getD
        (bp.btbIndex pc') {} := rfl
  rw [he, List.getD_eq_getElem?_getD]
  by_cases hi : bp.btbIndex pc' = bp.btbIndex pc
  · rw [hi]
    by_cases hlt : bp.btbIndex pc < bp.btb.length
    · left; rw [List.getElem?_set_self hlt]; exact ⟨rfl, rfl⟩
    · right
      rw [List.set_eq_of_length_le (by omega), entry, hi, List.getD_eq_getElem?_getD]
  · right
    rw [List.getElem?_set_ne (Ne.symm hi), entry, List.getD_eq_getElem?_getD]

end Fields

/-- A taken prediction comes from a BTB entry with the tag of the pc. -/
theorem hit_of_taken {bp : BranchPredictor} {pc : Word} (h : (bp.predict pc).taken = true) :
    (bp.entry pc).valid = true ∧ (bp.entry pc).tag = bp.btbTag pc ∧
      (bp.predict pc).target = (bp.entry pc).target := by
  unfold predict at h ⊢
  dsimp only at h ⊢
  by_cases hmiss : (!(bp.entry pc).valid || (bp.entry pc).tag != bp.btbTag pc) = true
  · rw [if_pos hmiss] at h
    cases h
  · rw [if_neg hmiss]
    simp only [Bool.or_eq_true, Bool.not_eq_true', bne_iff_ne, ne_eq, not_or, Bool.not_eq_false,
      not_not] at hmiss
    exact ⟨hmiss.1, hmiss.2, rfl⟩

/-- Every BTB entry that answers for a word-aligned pc describes the instruction there. -/
def Sound (bp : BranchPredictor) (code : ByteMap) : Prop :=
  ∀ pc : Word, pc.toNat % 4 = 0 → (bp.entry pc).valid = true → (bp.entry pc).tag = bp.btbTag pc →
    (isCondBranch (decode (wordAt code pc) pc).op = true ∨
        (decode (wordAt code pc) pc).op = .jal) ∧
      (bp.entry pc).target = pc + (decode (wordAt code pc) pc).imm

theorem entry_new (bht btb : Nat) (pc : Word) : (new bht btb).entry pc = {} := by
  unfold entry new
  rw [List.getD_eq_getElem?_getD, List.getElem?_replicate]
  split <;> rfl

theorem sound_new (bht btb : Nat) (code : ByteMap) : (new bht btb).Sound code := by
  intro pc _ hv
  rw [entry_new] at hv
  cases hv

theorem Sound.update {bp : BranchPredictor} {code : ByteMap} {k : Nat} (hs : bp.Shaped k)
    (h : bp.Sound code) {pc target : Word} (isCond taken : Bool) (ha : pc.toNat % 4 = 0)
    (hop : isCondBranch (decode (wordAt code pc) pc).op = true ∨
      (decode (wordAt code pc) pc).op = .jal)
    (htgt : target = pc + (decode (wordAt code pc) pc).imm) :
    (bp.update pc isCond taken target).Sound code := by
  intro pc' ha' hv ht
  obtain ⟨he, hi⟩ | he := @entry_update bp pc isCond taken target pc'
  · rw [he] at ht ⊢
    have hpc : pc = pc' := hs.pc_eq ha ha' hi.symm ht
    rw [← hpc]
    exact ⟨hop, htgt⟩
  · rw [he] at hv ht ⊢
    exact h pc' ha' hv ht

end BranchPredictor

/-- The predictor a core may have is sound for `code`. -/
def Knows (o : Option BranchPredictor) (code : ByteMap) : Prop :=
  ∀ bp, o = some bp → bp.Sound code ∧ ∃ k, bp.Shaped k

/-- A sound predictor is honest about word-aligned pcs. -/
theorem honest_of_knows {o : Option BranchPredictor} {code : ByteMap} (h : Knows o code) {pc : Word}
    (ha : pc.toNat % 4 = 0) : Honest code o pc := by
  intro ht
  cases o with
  | none => cases ht
  | some bp =>
    obtain ⟨hs, -⟩ := h bp rfl
    have hp : predictAt (some bp) pc = bp.predict pc := rfl
    rw [hp] at ht ⊢
    obtain ⟨hv, htag, htarget⟩ := BranchPredictor.hit_of_taken ht
    rw [htarget]
    exact hs pc ha hv htag

namespace Machine

/-- Every pc the machine reaches is a multiple of 4. -/
def Aligned (code : ByteMap) (s : Machine) : Prop := ∀ j, (s.after code j).pc.toNat % 4 = 0

end Machine

namespace Pipe

variable {p q : Pipe} {code : ByteMap} {s : Machine}

/-- Training by an instruction the machine executes keeps the predictor sound. -/
theorem Tracks.knows_trained (h : p.Tracks code s) (hl : p.exLive = true)
    (ha : s.Aligned code) (hk : Knows p.bpred code) : Knows p.trained code := by
  intro bp hbp
  unfold trained at hbp
  by_cases htr : p.exec.trainable = true
  · rw [if_pos htr] at hbp
    obtain ⟨bp0, hbp0, rfl⟩ := Option.map_eq_some_iff.mp hbp
    obtain ⟨hs, k, hshape⟩ := hk bp0 hbp0
    have hv : p.idEx.valid = true := by
      unfold exec at htr
      by_contra hv
      rw [if_neg hv] at htr
      cases htr
    have hholds := h.idEx_holds hv hl
    have hpc := (h.ex hv hl).1
    have hal : p.idEx.pc.toNat % 4 = 0 := by
      rw [hpc, atEx, atMem, advance_eq_after, advance_eq_after, after_add]
      exact ha _
    have hdec : decode (wordAt code p.idEx.pc) p.idEx.pc = (p.atEx code s).insn code := by
      rw [hpc]; rfl
    have hop : isCondBranch ((p.atEx code s).insn code).op = true ∨
        ((p.atEx code s).insn code).op = .jal := by
      rw [h.exec_eq hv hl] at htr
      have htr' : (isCondBranch p.idEx.op || p.idEx.op == .jal) = true := htr
      rw [hholds.op] at htr'
      simpa using htr'
    have hne : ((p.atEx code s).insn code).op ≠ .jalr := by
      intro hj
      rw [hj] at hop
      simp [isCondBranch] at hop
    have htgt : p.exec.out.branchTarget = p.idEx.pc + ((p.atEx code s).insn code).imm := by
      rw [h.exec_eq hv hl, executeAt_branchTarget hholds, Machine.target, if_neg hne, ← hholds.pc]
    refine ⟨hs.update hshape _ _ hal ?_ ?_, k, hshape.update _ _ _ _⟩
    · rw [hdec]; exact hop
    · rw [hdec]; exact htgt
  · rw [if_neg htr] at hbp
    exact hk bp hbp

theorem Tracks.knows_tick (h : p.Tracks code s) (ha : s.Aligned code)
    (hrun : p.halting = false) (hk : Knows p.bpred code) (ht : p.tick = some q)
    (hl : q.memLive = true) : Knows q.bpred code := by
  obtain ⟨f, m, -, hm, ⟨-, rfl⟩ | ⟨hs, rfl⟩⟩ := tick_cases h.running ht
  · exact hk
  · exact h.knows_trained (Tracks.flow_memLive hm hs hrun hl) ha hk

/-- On a word-aligned program the predictor stays sound until the halting instruction is in
    MEM/WB, so every fetch of an instruction the machine executes is predicted honestly. -/
theorem knows_of_ticks (h : p.Tracks code s) (ha : s.Aligned code) (hk : Knows p.bpred code)
    {n : Nat} (hq : p.ticks n = some q) (hrun : q.halted = false) (hl : q.memLive = true) :
    Knows q.bpred code := by
  induction n using Nat.strong_induction_on generalizing q with
  | _ n ih =>
    cases n with
    | zero =>
      simp only [ticks, Runs.run_zero, Option.some.injEq] at hq
      subst hq
      exact hk
    | succ n =>
      obtain ⟨u, hu, hut⟩ := (Runs.run_succ_eq_some tick).mp hq
      obtain ⟨huh, hnh⟩ := running_of_tick hut hrun
      have hul : u.memLive = true := by simp [memLive, hnh]
      have hku := ih n (by omega) hu huh hul
      have href : u.Refines (p.retired n) code s := by
        refine refines_of_ticks h (fun k hkn r hr hrr hrl j hj => ?_) hu
        exact honest_of_knows (ih k (by omega) hr hrr hrl) (hj ▸ ha j)
      obtain ⟨-, htr⟩ | hstop := href.phase
      · refine htr.knows_tick (fun j => ?_) hnh hku hut hl
        rw [after_add]
        exact ha _
      · rw [hstop.halted] at huh; cases huh

/-- On a word-aligned program the pipeline refines the machine. -/
theorem refines_of_aligned (h : p.Tracks code s) (ha : s.Aligned code) (hk : Knows p.bpred code)
    {n : Nat} (hq : p.ticks n = some q) : q.Refines (p.retired n) code s := by
  refine refines_of_ticks h (fun k _ r hr hrr hrl j hj => ?_) hq
  exact honest_of_knows (knows_of_ticks h ha hk hr hrr hrl) (hj ▸ ha j)

end Pipe

end CpuSim
