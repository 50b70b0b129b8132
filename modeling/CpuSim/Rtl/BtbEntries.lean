import CpuSim.Rtl.Speculation

/-!
# The entries of the BTB

`Rtl.Prediction` follows the instructions the machine executes. EX also trains with wrong-path
instructions, so here every instruction in the front end is tied to the word stored at its pc.
With word-aligned pcs each valid BTB entry then describes the instruction whose pc its index
and tag spell (`btb_truthful`).
-/

namespace CpuSim

open Rv32i Machine

/-! ## What an entry says -/

/-- The pc that a tag spells together with the index of its entry. -/
def BranchPredictor.entryPc (bits : Nat) (tag : Word) (index : Nat) : Word :=
  ((tag <<< bits) ||| BitVec.ofNat 32 index) <<< 2

/-- The entry describes the instruction stored at a pc: a conditional branch or a JAL, told
    apart by `cond`, with its target. -/
structure BtbEntry.Describes (e : BtbEntry) (ram : FlatMem) (pc : Word) : Prop where
  stored : ram.InRange pc 4
  kind : isCondBranch (decode (wordAt ram.bytes pc) pc).op = true ∨
    (decode (wordAt ram.bytes pc) pc).op = .jal
  cond : e.cond = isCondBranch (decode (wordAt ram.bytes pc) pc).op
  target : e.target = pc + (decode (wordAt ram.bytes pc) pc).imm

theorem BtbEntry.Describes.congr {e : BtbEntry} {ram ram' : FlatMem} {pc : Word}
    (hc : ram.contents = ram'.contents) (h : e.Describes ram pc) : e.Describes ram' pc := by
  have hb := FlatMem.bytes_congr hc
  refine ⟨(FlatMem.inRange_congr hc pc 4).mp h.stored, ?_, ?_, ?_⟩
  · rw [← hb]; exact h.kind
  · rw [← hb]; exact h.cond
  · rw [← hb]; exact h.target

namespace BranchPredictor

variable {bp : BranchPredictor} {k : Nat} {ram : FlatMem}

/-- Index and tag of a word-aligned pc spell that pc. -/
theorem Shaped.entryPc_eq (h : bp.Shaped k) {pc : Word} (ha : pc.toNat % 4 = 0) :
    entryPc bp.btbIndexBits (bp.btbTag pc) (bp.btbIndex pc) = pc := by
  have hlt : pc.toNat < 2 ^ 32 := pc.isLt
  have hidx := h.btbIndex_eq pc
  have hmod : pc.toNat / 4 % 2 ^ k < 2 ^ k := Nat.mod_lt _ (Nat.two_pow_pos k)
  have hsplit : 2 ^ k * (pc.toNat / 4 / 2 ^ k) + pc.toNat / 4 % 2 ^ k = pc.toNat / 4 :=
    Nat.div_add_mod _ _
  have htag : pc.toNat / 4 / 2 ^ k * 2 ^ k ≤ pc.toNat / 4 := Nat.div_mul_le_self _ _
  apply BitVec.eq_of_toNat_eq
  unfold entryPc
  rw [h.bits, BitVec.toNat_shiftLeft, BitVec.toNat_or, BitVec.toNat_shiftLeft, h.btbTag_eq, hidx,
    BitVec.toNat_ofNat, Nat.shiftLeft_eq, Nat.shiftLeft_eq]
  rw [Nat.mod_eq_of_lt (by omega : pc.toNat / 4 / 2 ^ k * 2 ^ k < 2 ^ 32),
    Nat.mod_eq_of_lt (by omega : pc.toNat / 4 % 2 ^ k < 2 ^ 32), Nat.mul_comm _ (2 ^ k),
    ← Nat.two_pow_add_eq_or_of_lt hmod, hsplit]
  omega

/-- Every valid entry describes the instruction whose pc its index and tag spell, and every
    counter has two bits. -/
structure Truthful (bp : BranchPredictor) (ram : FlatMem) : Prop where
  shaped : ∃ k, bp.Shaped k
  entries : ∀ (i : Nat) (e : BtbEntry), bp.btb[i]? = some e → e.valid = true →
    e.Describes ram (entryPc bp.btbIndexBits e.tag i)
  counters : ∀ c ∈ bp.bht, c ≤ 3

theorem truthful_new {bht btb : Nat} (h : IsPow2 btb) (hlt : btb < 2 ^ 32) (ram : FlatMem) :
    (new bht btb).Truthful ram := by
  refine ⟨shaped_new h hlt, ?_, ?_⟩
  · intro i e he hv
    obtain rfl : e = {} := (List.mem_replicate.mp (List.mem_of_getElem? he)).2
    cases hv
  · intro c hc
    obtain rfl : c = 1 := (List.mem_replicate.mp hc).2
    omega

theorem bump_le {c : Nat} (taken : Bool) (h : c ≤ 3) : bump taken c ≤ 3 := by
  unfold bump
  split
  · split <;> omega
  · omega

theorem Truthful.counter_le (h : bp.Truthful ram) (pc : Word) : bp.counter pc ≤ 3 := by
  unfold counter
  rw [List.getD_eq_getElem?_getD]
  cases hc : bp.bht[bp.bhtIndex pc]? with
  | none => exact Nat.zero_le 3
  | some c => exact h.counters c (List.mem_of_getElem? hc)

/-- Training with the instruction stored at a word-aligned pc. -/
theorem Truthful.update (h : bp.Truthful ram) {pc target : Word} {isCond : Bool} (taken : Bool)
    (ha : pc.toNat % 4 = 0)
    (hd : ∀ tag, (BtbEntry.mk true tag target isCond).Describes ram pc) :
    (bp.update pc isCond taken target).Truthful ram := by
  obtain ⟨k, hk⟩ := h.shaped
  refine ⟨⟨k, hk.update _ _ _ _⟩, ?_, ?_⟩
  · intro i e he hv
    change (bp.btb.set (bp.btbIndex pc) _)[i]? = some e at he
    change e.Describes ram (entryPc bp.btbIndexBits e.tag i)
    by_cases hi : bp.btbIndex pc = i
    · subst hi
      rw [List.getElem?_set_self'] at he
      obtain ⟨-, -, rfl⟩ := Option.map_eq_some_iff.mp he
      simp only [Function.const_apply, hk.entryPc_eq ha]
      exact hd _
    · rw [List.getElem?_set_ne hi] at he
      exact h.entries i e he hv
  · intro c hc
    change c ∈ (if isCond then bp.bht.set (bp.bhtIndex pc) (bump taken (bp.counter pc))
      else bp.bht) at hc
    split at hc
    · rcases List.mem_or_eq_of_mem_set hc with hc | rfl
      · exact h.counters c hc
      · exact bump_le taken (h.counter_le pc)
    · exact h.counters c hc

/-- A taken prediction for a word-aligned pc carries the target of the instruction there. -/
theorem Truthful.predict (h : bp.Truthful ram) {pc : Word} (ha : pc.toNat % 4 = 0)
    (ht : (bp.predict pc).taken = true) :
    ∃ e : BtbEntry, e.Describes ram pc ∧ (bp.predict pc).target = e.target := by
  obtain ⟨k, hk⟩ := h.shaped
  obtain ⟨hv, htag, htarget⟩ := hit_of_taken ht
  refine ⟨bp.entry pc, ?_, htarget⟩
  unfold entry at hv htag ⊢
  rw [List.getD_eq_getElem?_getD] at hv htag ⊢
  cases he : bp.btb[bp.btbIndex pc]? with
  | none =>
    rw [he] at hv
    cases hv
  | some e =>
    rw [he] at hv htag
    have hdesc := h.entries _ e he hv
    change e.tag = _ at htag
    rw [htag, hk.entryPc_eq ha] at hdesc
    exact hdesc

end BranchPredictor

/-! ## The front end on any path -/

namespace Pipe

variable {p q : Pipe} {ram : FlatMem}

/-- Whatever path it is on, an instruction in the front end is the one stored at its pc. -/
structure Fetched (p : Pipe) (ram : FlatMem) : Prop where
  image : p.iport.contents = ram.contents
  ifId : p.ifId.valid = true →
    ram.InRange p.ifId.pc 4 ∧ p.ifId.raw = wordAt ram.bytes p.ifId.pc
  idEx : p.idEx.valid = true →
    ram.InRange p.idEx.pc 4 ∧ p.idEx.Holds (decode (wordAt ram.bytes p.idEx.pc) p.idEx.pc)

/-- What IF hands on is the word at the pc. -/
theorem Fetched.out (h : p.Fetched ram) {f : FetchOut Port} (hf : p.fetch = some f)
    (hv : f.out.valid = true) :
    ram.InRange f.out.pc 4 ∧ f.out.raw = wordAt ram.bytes f.out.pc := by
  obtain ⟨-, ⟨-, ho, -⟩ | ⟨-, hin, -, ho, -⟩⟩ := fetchWord_eq_some hf
  · rw [ho] at hv
    cases hv
  · have hbytes : p.iport.bytes = ram.bytes := FlatMem.bytes_congr h.image
    rw [ho, ← hbytes]
    exact ⟨(FlatMem.inRange_congr h.image _ _).mp hin, rfl⟩

theorem Fetched.imem (h : p.Fetched ram) {f : FetchOut Port} (hf : p.fetch = some f) :
    f.imem.contents = ram.contents := by
  rw [(fetchWord_eq_some hf).1, Port.contents_ready]
  exact h.image

theorem Fetched.stall (h : p.Fetched ram) {f : FetchOut Port} (hf : p.fetch = some f)
    (m : MemOut Port) : (p.stallNext f m).Fetched ram := by
  refine ⟨h.imem hf, h.ifId, ?_⟩
  intro hv
  change p.captured.valid = true at hv
  change ram.InRange p.captured.pc 4 ∧
    p.captured.Holds (decode (wordAt ram.bytes p.captured.pc) p.captured.pc)
  rw [captured_valid] at hv
  rw [captured_pc]
  obtain ⟨hin, hholds⟩ := h.idEx hv
  exact ⟨hin, Tracks.captured_holds hholds⟩

theorem Fetched.flow (h : p.Fetched ram) {f : FetchOut Port} (hf : p.fetch = some f)
    (m : MemOut Port) : (p.flowNext f m).Fetched ram := by
  have hif : (p.flowNext f m).ifId =
      if p.exec.redirect then {} else if p.hazard then p.ifId else f.out := rfl
  refine ⟨?_, ?_, ?_⟩
  · change (IMemory.tick f.imem).contents = _
    rw [Port.contents_tick]
    exact h.imem hf
  · intro hv
    rw [hif] at hv ⊢
    by_cases hr : p.exec.redirect = true
    · rw [if_pos hr] at hv
      cases hv
    · rw [if_neg hr] at hv ⊢
      by_cases hz : p.hazard = true
      · rw [if_pos hz] at hv ⊢
        exact h.ifId hv
      · rw [if_neg hz] at hv ⊢
        exact h.out hf hv
  · intro hv
    obtain ⟨-, -, hfv⟩ := (Tracks.flow_idEx_valid p f m).mp hv
    obtain ⟨hin, hraw⟩ := h.ifId hfv
    have hholds := decodeInsn_holds p.rf hfv
    have hpc : (decodeInsn p.rf p.ifId).pc = p.ifId.pc := hholds.pc.trans (decode_pc _ _)
    rw [Tracks.flow_idEx p f m hv, hpc, ← hraw]
    exact ⟨hin, hholds⟩

theorem Fetched.tick (h : p.Fetched ram) (ht : p.tick = some q) : q.Fetched ram := by
  cases hh : p.halted with
  | true => exact eq_of_tick_of_halted hh ht ▸ h
  | false =>
    obtain ⟨f, m, hf, -, ⟨-, rfl⟩ | ⟨-, rfl⟩⟩ := tick_cases hh ht
    · exact h.stall hf m
    · exact h.flow hf m

/-- EX trains with a branch or a JAL, its class and its own target. -/
theorem exec_trainable (htr : p.exec.trainable = true) :
    p.idEx.valid = true ∧ (isCondBranch p.idEx.op = true ∨ p.idEx.op = .jal) ∧
      p.exec.trainCond = isCondBranch p.idEx.op ∧
      p.exec.out.branchTarget = p.idEx.pc + p.idEx.imm := by
  unfold exec at htr ⊢
  by_cases hv : p.idEx.valid = true
  · rw [if_pos hv] at htr ⊢
    have hop : isCondBranch p.idEx.op = true ∨ p.idEx.op = .jal := by
      simpa [executeInsn] using htr
    have hne : p.idEx.op ≠ .jalr := by
      intro hj
      rw [hj] at hop
      simp [isCondBranch] at hop
    refine ⟨hv, hop, rfl, ?_⟩
    simp [executeInsn, hne]
  · rw [if_neg hv] at htr
    cases htr

/-- Training on any path keeps the predictor truthful, as long as the pc in EX is aligned. -/
theorem Fetched.truthful_trained (h : p.Fetched ram)
    (ha : p.idEx.valid = true → p.idEx.pc.toNat % 4 = 0)
    (hbp : ∀ bp, p.bpred = some bp → bp.Truthful ram) :
    ∀ bp, p.trained = some bp → bp.Truthful ram := by
  intro bp hb
  unfold trained at hb
  by_cases htr : p.exec.trainable = true
  · rw [if_pos htr] at hb
    obtain ⟨bp₀, hb₀, rfl⟩ := Option.map_eq_some_iff.mp hb
    obtain ⟨hv, hop, hcond, htgt⟩ := exec_trainable htr
    obtain ⟨hin, hholds⟩ := h.idEx hv
    refine (hbp bp₀ hb₀).update _ (ha hv) ?_
    intro tag
    refine ⟨hin, ?_, ?_, ?_⟩
    · rw [← hholds.op]
      exact hop
    · rw [← hholds.op]
      exact hcond
    · rw [← hholds.imm]
      exact htgt
  · rw [if_neg htr] at hb
    exact hbp bp hb

/-- The front end and the predictor over a run whose pcs in EX are aligned. -/
theorem truthful_of_ticks (h : p.Fetched ram) (hbp : ∀ bp, p.bpred = some bp → bp.Truthful ram)
    {n : Nat} (ha : ∀ j < n, ∀ u, p.ticks j = some u → u.idEx.valid = true →
      u.idEx.pc.toNat % 4 = 0) (hq : p.ticks n = some q) :
    q.Fetched ram ∧ ∀ bp, q.bpred = some bp → bp.Truthful ram := by
  induction n generalizing q with
  | zero =>
    simp only [ticks, Runs.run_zero, Option.some.injEq] at hq
    exact hq ▸ ⟨h, hbp⟩
  | succ n ih =>
    obtain ⟨u, hu, huq⟩ := (Runs.run_succ_eq_some tick).mp hq
    obtain ⟨hfu, hbu⟩ := ih (fun j hj => ha j (by omega)) hu
    refine ⟨hfu.tick huq, ?_⟩
    cases hh : u.halted with
    | true => exact eq_of_tick_of_halted hh huq ▸ hbu
    | false =>
      obtain ⟨f, m, -, -, ⟨-, rfl⟩ | ⟨-, rfl⟩⟩ := tick_cases hh huq
      · exact hbu
      · exact hfu.truthful_trained (ha n (by omega) u hu) hbu

end Pipe

namespace Core

/-- In a run whose pcs in EX are all aligned, every valid BTB entry describes the instruction
    whose pc its index and tag spell, the counters have two bits, and a taken prediction for an
    aligned pc carries the target of the instruction stored there. -/
theorem btb_truthful {cfg : SimConfig} (hpow : IsPow2 cfg.bpredBtbEntries)
    (hlt : cfg.bpredBtbEntries < 2 ^ 32) {imem dmem : Nat → Byte} {rf : RegFile} {n : Nat}
    {c : Core} (hc : (boot cfg imem dmem rf).ticks n = some c)
    (ha : ∀ j < n, ∀ d, (boot cfg imem dmem rf).ticks j = some d → d.idEx.reg.valid = true →
      d.idEx.reg.pc.toNat % 4 = 0)
    {bp : BranchPredictor} (hbp : c.bpred = some bp) :
    (∀ (i : Nat) (e : BtbEntry), bp.btb[i]? = some e → e.valid = true →
      e.Describes c.iport.ram (BranchPredictor.entryPc bp.btbIndexBits e.tag i)) ∧
    (∀ count ∈ bp.bht, count ≤ 3) ∧
    ∀ pc : Word, pc.toNat % 4 = 0 → (bp.predict pc).taken = true →
      (isCondBranch (Rv32i.decode (wordAt c.iport.bytes pc) pc).op = true ∨
        (Rv32i.decode (wordAt c.iport.bytes pc) pc).op = .jal) ∧
      (bp.predict pc).target = pc + (Rv32i.decode (wordAt c.iport.bytes pc) pc).imm := by
  have hquiet := quiet_boot cfg imem dmem rf
  have hfetched : (boot cfg imem dmem rf).view.Fetched (boot cfg imem dmem rf).iport.ram :=
    ⟨rfl, fun h => (by cases h), fun h => (by cases h)⟩
  have hboot : ∀ bp, (boot cfg imem dmem rf).view.bpred = some bp →
      bp.Truthful (boot cfg imem dmem rf).iport.ram := by
    intro bp hb
    change (if cfg.bpredEnabled then _ else none) = some bp at hb
    split at hb
    · cases hb
      exact BranchPredictor.truthful_new hpow hlt _
    · cases hb
  have haligned : ∀ j < n, ∀ u, (boot cfg imem dmem rf).view.ticks j = some u →
      u.idEx.valid = true → u.idEx.pc.toNat % 4 = 0 := by
    intro j hj u hu
    rw [← view_ticks hquiet] at hu
    obtain ⟨d, hd, rfl⟩ := Option.map_eq_some_iff.mp hu
    exact ha j hj d hd
  obtain ⟨hf, ht⟩ := Pipe.truthful_of_ticks hfetched hboot haligned (view_of_ticks hquiet hc)
  have hram : (boot cfg imem dmem rf).iport.ram.contents = c.iport.ram.contents := hf.image.symm
  have htruth := ht bp hbp
  refine ⟨?_, htruth.counters, ?_⟩
  · intro i e he hv
    exact (htruth.entries i e he hv).congr hram
  · intro pc hpc htaken
    obtain ⟨e, hdesc, htgt⟩ := htruth.predict hpc htaken
    have hd := hdesc.congr hram
    rw [htgt]
    exact ⟨hd.kind, hd.target⟩

/-- A RAM of 32 bytes and a predictor with two BTB entries. -/
def smallBtb : SimConfig :=
  { ramBaseAddr := 0, ramSizeBytes := 32, bpredEnabled := true, bpredBhtEntries := 4,
    bpredBtbEntries := 2 }

theorem btb_truthful_selfLoop :
    ∃ c bp, (boot smallBtb selfLoop (fun _ => 0) RegFile.zero).ticks 4 = some c ∧
      c.bpred = some bp ∧ bp.btb[0]? = some { valid := true } ∧
      ({ valid := true } : BtbEntry).Describes c.iport.ram 0#32 := by
  let start := boot smallBtb selfLoop (fun _ => 0) RegFile.zero
  obtain ⟨c, hc, hbtb⟩ := Option.map_eq_some_iff.mp (by decide +kernel :
    (start.ticks 4).map (fun c => c.bpred.map fun bp => bp.btb[0]?) =
      some (some (some { valid := true })))
  obtain ⟨bp, hbp, he⟩ := Option.map_eq_some_iff.mp hbtb
  have hmap : ∀ j < 4, (start.ticks j).map (fun d => d.idEx.reg.pc.toNat % 4) = some 0 := by
    decide +kernel
  have hpow : IsPow2 smallBtb.bpredBtbEntries := ⟨1, rfl⟩
  have ha : ∀ j < 4, ∀ d, start.ticks j = some d → d.idEx.reg.valid = true →
      d.idEx.reg.pc.toNat % 4 = 0 := by
    intro j hj d hd _
    have hstep := hmap j hj
    rw [hd] at hstep
    exact Option.some.inj hstep
  have hdesc := (btb_truthful hpow (by decide) hc ha hbp).1 0 _ he rfl
  have hpc : BranchPredictor.entryPc bp.btbIndexBits 0 0 = 0#32 := by
    simp [BranchPredictor.entryPc]
  exact ⟨c, bp, hc, hbp, he, hpc ▸ hdesc⟩

end Core

end CpuSim
