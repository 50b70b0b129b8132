import CpuSim.Rtl.Foresight
import CpuSim.Rtl.Timeline

/-!
# Where the pipeline goes off the program

IF runs ahead of EX by two words, each right behind the last one or at a target that the
predictor answered with, and by more when the instruction in EX stops the core. Which words
these may be is a matter of the program alone (`Ahead`, `Overruns`). Where two branches share a
word the target of one may even be executed for the other, and then the pipeline is at a state
the machine is never in (`Roams`). `Roaming` is the invariant that places every latch and the pc
among these words, whatever the memories and the predictor do.
-/

namespace CpuSim

open Rv32i

namespace Machine

/-! ## States and words that the pipeline may come to -/

section Words

variable (predicts : Bool) (code : ByteMap) (s₀ : Machine)

/-- EX trains the predictor with the instruction at `s`. -/
def trains (s : Machine) : Bool := isCondBranch (s.insn code).op || (s.insn code).op == .jal

/-- The states that the pipeline may execute: those of the machine, and with a predictor also
    those behind a taken instruction at the target of another one in the same word. -/
inductive Roams : Machine → Prop
  | start : Roams s₀
  | step {s : Machine} : Roams s → Roams (s.step code)
  | astray {s t : Machine} : predicts = true → Roams s → Roams t →
      s.taken (s.insn code) = true → t.trains code = true → t.pc >>> 2 = s.pc >>> 2 →
      Roams { s.step code with pc := t.target (t.insn code) }

/-- The predictor may answer for `x` with `y`, the target of a branch or JAL in the same word. -/
def Answers (x y : Word) : Prop :=
  predicts = true ∧ ∃ t, Roams predicts code s₀ t ∧ t.trains code = true ∧
    t.pc >>> 2 = x >>> 2 ∧ t.target (t.insn code) = y

/-- Behind `x`, predicted taken or not, IF goes on to `y`. -/
def Leads (taken : Bool) (x y : Word) : Prop :=
  if taken then Answers predicts code s₀ x y else y = x + 4

/-- IF may go from `x` to `y` in `n` fetches. -/
def Ahead : Nat → Word → Word → Prop
  | 0, x, y => y = x
  | n + 1, x, y => ∃ z taken, Ahead n x z ∧ Leads predicts code s₀ taken z y

/-- The machine at the word behind the one it stops at, with the registers that EX forwards: the
    stopping instruction passes EX like any other, which adds its operand and its immediate. -/
def behind (s : Machine) : Machine :=
  { s with pc := s.pc + 4, regs := s.regs.write (s.insn code).rd (s.effAddr (s.insn code)) }

/-- The words that IF may fetch once the instruction on which `s` stops has left EX: two behind
    the next one, where that one goes, and a third word unless it redirects or is a load that the
    second one waits for. -/
def Overruns (s : Machine) (y : Word) : Prop :=
  (∃ n ≤ 2, Ahead predicts code s₀ n (s.pc + 4) y) ∨
    y = (s.behind code).nextPc ((s.behind code).insn code) ∨
    ((predicts = false → (s.behind code).taken ((s.behind code).insn code) = false ∧
        Pipe.usesAt code (s.behind code) 0 = false) ∧
      Ahead predicts code s₀ 3 (s.pc + 4) y)

end Words

variable {predicts : Bool} {code : ByteMap} {s s₀ : Machine} {x y z : Word}

theorem Roams.after (n : Nat) : Roams predicts code s₀ (s₀.after code n) := by
  induction n with
  | zero => exact .start
  | succ n ih =>
    rw [after_succ]
    exact .step ih

/-- Without a predictor the pipeline only executes what the machine does. -/
theorem Roams.eq_after (h : Roams false code s₀ s) : ∃ n, s = s₀.after code n := by
  induction h with
  | start => exact ⟨0, rfl⟩
  | step _ ih =>
    obtain ⟨n, rfl⟩ := ih
    exact ⟨n + 1, (after_succ n s₀).symm⟩
  | astray hp => cases hp

theorem Ahead.zero (x : Word) : Ahead predicts code s₀ 0 x x := rfl

theorem Ahead.next {n : Nat} {taken : Bool} (h : Ahead predicts code s₀ n x z)
    (hl : Leads predicts code s₀ taken z y) : Ahead predicts code s₀ (n + 1) x y :=
  ⟨z, taken, h, hl⟩

/-- The predictor has nothing to answer with: it is off, or the program trains it nowhere. -/
def Silent (predicts : Bool) (code : ByteMap) (s₀ : Machine) : Prop :=
  predicts = true → ∀ t, Roams predicts code s₀ t → t.trains code = false

theorem silent_off : Silent false code s₀ := fun hon => nomatch hon

/-- Then one word follows the other. -/
theorem leads_iff (h : Silent predicts code s₀) (taken : Bool) :
    Leads predicts code s₀ taken x y ↔ taken = false ∧ y = x + 4 := by
  unfold Leads
  cases taken with
  | false => simp
  | true =>
    refine iff_of_false ?_ (fun hc => nomatch hc.1)
    rintro ⟨hp, t, ht, htrains, -⟩
    rw [h hp t ht] at htrains
    cases htrains

theorem ahead_iff (h : Silent predicts code s₀) (n : Nat) :
    Ahead predicts code s₀ n x y ↔ y = x + BitVec.ofNat 32 (4 * n) := by
  induction n generalizing y with
  | zero => simp [Ahead]
  | succ n ih =>
    have hnext : x + BitVec.ofNat 32 (4 * n) + 4 = x + BitVec.ofNat 32 (4 * (n + 1)) := by
      rw [BitVec.add_assoc, Nat.mul_succ, BitVec.ofNat_add]
      rfl
    constructor
    · rintro ⟨z, taken, hz, hl⟩
      rw [((leads_iff h taken).mp hl).2, ih.mp hz, hnext]
    · intro hy
      exact (ih.mpr rfl).next ((leads_iff h false).mpr ⟨rfl, hy.trans hnext.symm⟩)

/-- The target of a branch or JAL is the same from every state at its pc. -/
theorem target_of_trains (h : s.trains code = true) :
    s.target (s.insn code) = s.pc + (s.insn code).imm := by
  have hne : (s.insn code).op ≠ .jalr := by
    intro hj
    unfold trains at h
    rw [hj] at h
    cases h
  have hpc : (s.insn code).pc = s.pc := decode_pc _ _
  rw [target, if_neg hne, hpc]

end Machine

open Machine

/-! ## The predictor -/

/-- The predictor that a core may have answers with targets of instructions that the pipeline may
    execute. -/
def Taught (predicts : Bool) (code : ByteMap) (s₀ : Machine) (o : Option BranchPredictor) :
    Prop :=
  ∀ bp, o = some bp → predicts = true ∧ (∃ k, bp.Shaped k) ∧
    ∀ pc, (bp.entry pc).valid = true → (bp.entry pc).tag = bp.btbTag pc →
      Answers predicts code s₀ pc (bp.entry pc).target

section Predictor

variable {predicts : Bool} {code : ByteMap} {s s₀ : Machine} {o : Option BranchPredictor}

/-- An empty BTB answers for nothing. -/
theorem taught_new {bht btb : Nat} (h : IsPow2 btb) (hlt : btb < 2 ^ 32) (code : ByteMap)
    (s₀ : Machine) : Taught true code s₀ (some (.new bht btb)) := by
  intro bp hbp
  obtain rfl := Option.some.inj hbp
  refine ⟨rfl, BranchPredictor.shaped_new h hlt, fun pc hv => ?_⟩
  rw [BranchPredictor.entry_new] at hv
  cases hv

/-- Training with an instruction that the pipeline may execute. -/
theorem Taught.update (h : Taught predicts code s₀ o) (hs : Roams predicts code s₀ s)
    (ht : s.trains code = true) (isCond taken : Bool) :
    Taught predicts code s₀
      (o.map fun bp => bp.update s.pc isCond taken (s.target (s.insn code))) := by
  intro bp hbp
  obtain ⟨bp₀, hbp₀, rfl⟩ := Option.map_eq_some_iff.mp hbp
  obtain ⟨hp, ⟨k, hk⟩, hentries⟩ := h bp₀ hbp₀
  refine ⟨hp, ⟨k, hk.update _ _ _ _⟩, fun pc hv htag => ?_⟩
  obtain ⟨he, hi⟩ | he := @BranchPredictor.entry_update bp₀ s.pc isCond taken
    (s.target (s.insn code)) pc
  · rw [he] at htag ⊢
    exact ⟨hp, s, hs, ht, hk.word_eq hi.symm htag, rfl⟩
  · rw [he] at hv htag ⊢
    exact hentries pc hv htag

/-- Where IF goes on behind the word it fetches. -/
theorem Taught.leads (h : Taught predicts code s₀ o) (pc : Word) :
    Leads predicts code s₀ (predictAt o pc).taken pc
      (if (predictAt o pc).taken then (predictAt o pc).target else pc + 4) := by
  unfold Leads
  cases ht : (predictAt o pc).taken with
  | false => simp
  | true =>
    rw [if_pos rfl, if_pos rfl]
    cases o with
    | none => cases ht
    | some bp =>
      obtain ⟨-, -, hentries⟩ := h bp rfl
      change (bp.predict pc).taken = true at ht
      change Answers predicts code s₀ pc (bp.predict pc).target
      obtain ⟨hv, htag, htarget⟩ := BranchPredictor.hit_of_taken ht
      rw [htarget]
      exact hentries pc hv htag

end Predictor

namespace Pipe

/-- Where the front end goes on behind the instruction in ID/EX. -/
def turn (p : Pipe) : Word := if p.exec.redirect then p.exec.redirectTarget else p.frontPc

/-! ## The invariant -/

/-- Every latch of `p` holds what the pipeline may have there: MEM/WB, EX/MEM and ID/EX the next
    instructions from `s` on, each at a state it may execute; ID/EX, IF/ID and the pc follow one
    another as IF leads. Behind an instruction that stops the core ID/EX has the next word, and
    when that instruction is in MEM/WB, EX/MEM has it and the pc does not overrun by more. -/
structure Roaming (p : Pipe) (predicts : Bool) (code : ByteMap) (s₀ s sm sx : Machine) : Prop
    extends p.Carries code s sm sx where
  atWb : Roams predicts code s₀ s
  atMem : p.memLive = true → Roams predicts code s₀ sm
  atEx : p.exLive = true → Roams predicts code s₀ sx
  front : p.exLive = true → p.idEx.valid = false → p.frontPc = sx.pc
  led : p.memLive = true → p.idEx.valid = true →
    Leads predicts code s₀ p.idEx.predictedTaken p.idEx.pc p.frontPc
  fed : p.memLive = true → p.ifId.valid = true →
    Leads predicts code s₀ p.ifId.predictedTaken p.ifId.pc p.pc
  taught : p.memLive = true → Taught predicts code s₀ p.bpred
  next : p.memLive = true → p.exMem.valid = true → isHalting p.exMem.op = true →
    (if p.idEx.valid then p.idEx.pc else p.frontPc) = sm.pc + 4 ∧
      (p.idEx.valid = true → p.exec = executeAt (sm.behind code) p.idEx)
  last : p.halting = true →
    Overruns predicts code s₀ s p.pc ∧
      (p.exMem.valid = true → p.exMem.Holds code (s.behind code))

namespace Roaming

variable {p : Pipe} {predicts : Bool} {code : ByteMap} {s₀ s sm sx si : Machine}
  {f : FetchOut Port} {m : MemOut Port}

/-- The word at the pc is at most one further than the one that the front end works on. -/
theorem ahead_frontPc (h : p.Roaming predicts code s₀ s sm sx) (hl : p.memLive = true) {n : Nat}
    {x : Word} (hx : Ahead predicts code s₀ n x p.frontPc) :
    Ahead predicts code s₀ (n + p.ifId.valid.toNat) x p.pc := by
  unfold frontPc at hx
  cases hv : p.ifId.valid with
  | false => simpa [hv] using hx
  | true =>
    rw [hv, if_pos rfl] at hx
    exact hx.next (h.fed hl hv)

/-- With an instruction in ID/EX the front end works on the one behind it. -/
theorem ahead_idEx (h : p.Roaming predicts code s₀ s sm sx) (hl : p.memLive = true)
    (hv : p.idEx.valid = true) :
    Ahead predicts code s₀ (1 + p.ifId.valid.toNat) p.idEx.pc p.pc :=
  h.ahead_frontPc hl ((Ahead.zero p.idEx.pc).next (h.led hl hv))

/-! ### A tick on which MEM stalls -/

/-- A stall moves MEM/WB alone, and what stalls does not stop the core. -/
theorem stall (h : p.Roaming predicts code s₀ s sm sx) (hf : p.fetch = some f)
    (hm : p.mem = some m) (hs : m.stalling = true) (hrun : p.halting = false) :
    (p.stallNext f m).Roaming predicts code s₀ sm sm sx := by
  obtain ⟨hexv, hop, hout, -⟩ := mem_stalled hm hs
  have hlive : p.memLive = true := by simp [memLive, hrun]
  have hid : (p.stallNext f m).idEx = p.captured := rfl
  have hpredicted : p.captured.predictedTaken = p.idEx.predictedTaken := by
    unfold captured
    split <;> rfl
  refine ⟨h.toCarries.stall hf hm hs hrun, h.atMem hlive, fun _ => h.atMem hlive, ?_, ?_, ?_,
    fun _ => h.fed hlive, fun _ => h.taught hlive, ?_, ?_⟩
  · intro hl
    rw [Tracks.stall_exLive hout hrun] at hl
    exact h.atEx hl
  · intro hl hv
    rw [Tracks.stall_exLive hout hrun] at hl
    rw [hid, captured_valid] at hv
    exact h.front hl hv
  · intro _ hv
    rw [hid, captured_valid] at hv
    rw [hid, captured_pc, hpredicted]
    exact h.led hlive hv
  · intro _ _ hhalt
    change isHalting p.exMem.op = true at hhalt
    cases hc : p.exMem.op <;> simp [hc, isHalting, isMemOp, isStore] at hop hhalt
  · intro hhalt
    change (m.out.valid && isHalting m.out.op) = true at hhalt
    rw [hout] at hhalt
    cases hhalt

/-! ### A tick on which every stage moves -/

/-- The state at which the pipeline executes what comes behind ID/EX. -/
theorem exists_next (h : p.Roaming predicts code s₀ s sm sx) :
    ∃ si, sx.Passes code p.idEx.valid si ∧
      (p.idLive = true → Roams predicts code s₀ si ∧ p.turn = si.pc) := by
  by_cases hidl : p.idLive = true
  swap
  · exact ⟨_, passes_advance _ _ _, fun hc => absurd hc hidl⟩
  have hxl := idLive_exLive hidl
  have hroam := h.atEx hxl
  cases hv : p.idEx.valid with
  | false =>
    refine ⟨sx, rfl, fun _ => ⟨hroam, ?_⟩⟩
    unfold turn
    rw [(exec_bubble hv).1]
    exact h.front hxl hv
  | true =>
    have hruns := h.runs_of_idLive hv hidl
    have hpc := (h.ex hv hxl).1
    cases hr : p.exec.redirect with
    | true =>
      refine ⟨sx.step code, ⟨rfl, rfl⟩, fun _ => ⟨.step hroam, ?_⟩⟩
      unfold turn
      rw [hr, if_pos rfl, h.redirectTarget_nextPc hxl hr, step_of_runs hruns]
    | false =>
      have htaken : sx.taken (sx.insn code) = p.idEx.predictedTaken := by
        rw [h.redirect_eq hv hxl] at hr
        simpa using hr
      have hled := h.led (exLive_memLive hxl) hv
      rw [← htaken, hpc] at hled
      unfold Leads at hled
      unfold turn
      rw [hr]
      cases ht : sx.taken (sx.insn code) with
      | false =>
        rw [ht] at hled
        refine ⟨sx.step code, ⟨rfl, rfl⟩, fun _ => ⟨.step hroam, ?_⟩⟩
        have hipc : (sx.insn code).pc = sx.pc := decode_pc _ _
        rw [step_of_runs hruns]
        dsimp only [nextPc]
        rw [ht, hipc]
        exact hled
      | true =>
        -- the target may be that of another instruction in the same word
        rw [ht, if_pos rfl] at hled
        obtain ⟨hp, t, hroamt, htrain, hword, htarget⟩ := hled
        exact ⟨{ sx.step code with pc := t.target (t.insn code) }, ⟨rfl, rfl⟩,
          fun _ => ⟨.astray hp hroam hroamt ht htrain hword, htarget.symm⟩⟩

/-- Behind an instruction that stops the core IF goes on with the next word. -/
theorem turn_of_halting (h : p.Roaming predicts code s₀ s sm sx) (hl : p.exLive = true)
    (hv : p.idEx.valid = true) (hh : isHalting p.idEx.op = true) : p.turn = sx.pc + 4 := by
  have hpc := (h.ex hv hl).1
  have hipc : (sx.insn code).pc = sx.pc := decode_pc _ _
  have hop := (h.idEx_holds hv hl).op
  have htaken : sx.taken (sx.insn code) = false := taken_of_straight (.inl (hop ▸ hh))
  unfold turn
  cases hr : p.exec.redirect with
  | true =>
    rw [if_pos rfl, h.redirectTarget_nextPc hl hr, nextPc, htaken, hipc]
    rfl
  | false =>
    have hpredicted : p.idEx.predictedTaken = false := by
      rw [h.redirect_eq hv hl, htaken] at hr
      simpa using hr
    have hled := h.led (exLive_memLive hl) hv
    rw [hpredicted, hpc] at hled
    exact hled

/-- EX only trains with instructions that the pipeline may execute. -/
theorem taught_trained (h : p.Roaming predicts code s₀ s sm sx) (hl : p.exLive = true) :
    Taught predicts code s₀ p.trained := by
  have htaught := h.taught (exLive_memLive hl)
  unfold trained
  cases htr : p.exec.trainable with
  | false => exact htaught
  | true =>
    obtain ⟨hv, hop, -, htarget⟩ := exec_trainable htr
    have hholds := h.idEx_holds hv hl
    have hpc := (h.ex hv hl).1
    have htrains : sx.trains code = true := by
      unfold trains
      rw [← hholds.op]
      simpa using hop
    rw [if_pos rfl, htarget, hholds.imm, hpc, ← target_of_trains htrains]
    exact htaught.update (h.atEx hl) htrains _ _

/-- The instruction that enters ID/EX is the one at the turn, else IF goes on there. -/
theorem flow_turn (hf : p.fetch = some f) (m : MemOut Port) :
    (if (p.flowNext f m).idEx.valid then (p.flowNext f m).idEx.pc else (p.flowNext f m).frontPc) =
        p.turn ∧
      ((p.flowNext f m).idEx.valid = true → (p.flowNext f m).frontPc = p.pc) := by
  have hid := flow_ifId p f m
  have hpc := flow_pc p f m
  have hfv := fetch_valid hf
  unfold frontPc turn
  rw [hid, hpc]
  cases hv : (p.flowNext f m).idEx.valid with
  | true =>
    obtain ⟨hr, hz, hfv'⟩ := (Tracks.flow_idEx_valid p f m).mp hv
    have hd : (p.flowNext f m).idEx.pc = p.ifId.pc := by
      rw [Tracks.flow_idEx p f m hv]
      exact (decodeInsn_holds p.rf hfv').pc.trans (decode_pc _ _)
    rw [hr, hz, hd, if_pos rfl, frontPc, hfv']
    refine ⟨rfl, fun _ => ?_⟩
    cases hst : f.fetchStall with
    | true => simp [hfv, hst]
    | false =>
      have hout : f.out.valid = true := by rw [hfv, hst]; rfl
      simp [hout, (fetch_served hf hout).1]
  | false =>
    refine ⟨?_, fun hc => by cases hc⟩
    cases hr : p.exec.redirect with
    | true => rfl
    | false =>
      cases hz : p.hazard with
      | true => rfl
      | false =>
        have hempty : p.ifId.valid = false := by
          by_contra hfv'
          have hval := (Tracks.flow_idEx_valid p f m).mpr
            ⟨hr, hz, (Bool.not_eq_false _).mp hfv'⟩
          rw [hv] at hval
          cases hval
        cases hst : f.fetchStall with
        | true => simp [hfv, hst, frontPc, hempty]
        | false =>
          have hout : f.out.valid = true := by rw [hfv, hst]; rfl
          simp [hout, (fetch_served hf hout).1, frontPc, hempty]

/-- Behind an instruction that stops the core EX works on the registers it forwards. -/
theorem flow_exec_next (h : p.Carries code s sm sx) (hm : p.mem = some m)
    (hs : m.stalling = false) (hrun : p.halting = false) (hl : p.exLive = true)
    (hv : p.idEx.valid = true) (hh : isHalting p.idEx.op = true)
    (hv' : (p.flowNext f m).idEx.valid = true) :
    (p.flowNext f m).exec = executeAt (sx.behind code) (p.flowNext f m).idEx := by
  have hholds := h.idEx_holds hv hl
  have hout : p.exec.out.aluOut = sx.effAddr (sx.insn code) := by
    rw [h.exec_eq hv hl]
    exact executeAt_aluOut_of_halting hholds (hholds.op ▸ hh)
  have hoperand : ∀ r, (p.flowNext f m).operand r (p.rf.read r) =
      (sx.behind code).regs.read r := by
    intro r
    by_cases hr : r = 0#5
    · subst hr
      simp [operand, resolve]
    · rw [h.flow_operand_behind hm hs hrun hl hr, exec_valid, hv, exec_rd hv, hout, hholds.rd]
      change _ = (sx.regs.write (sx.insn code).rd (sx.effAddr (sx.insn code))).read r
      rw [RegFile.read_write]
      by_cases hrd : (sx.insn code).rd = r
      · subst hrd
        simp [hr]
      · simp [hrd, Ne.symm hrd]
  obtain ⟨-, -, hfv⟩ := (Tracks.flow_idEx_valid p f m).mp hv'
  have hval : (decodeInsn p.rf p.ifId).rs1Val = p.rf.read (decodeInsn p.rf p.ifId).rs1 ∧
      (decodeInsn p.rf p.ifId).rs2Val = p.rf.read (decodeInsn p.rf p.ifId).rs2 := by
    simp [decodeInsn, hfv]
  unfold exec executeAt
  rw [if_pos hv', Tracks.flow_idEx p f m hv', hval.1, hval.2, hoperand, hoperand]

/-- The word behind the one the machine stops at, when it is in ID/EX. -/
theorem next_holds (h : p.Roaming predicts code s₀ s sm sx) (hl : p.memLive = true)
    (hv : p.exMem.valid = true) (hh : isHalting p.exMem.op = true)
    (hidv : p.idEx.valid = true) : p.idEx.Holds ((sm.behind code).insn code) := by
  have hpc := (h.next hl hv hh).1
  rw [hidv, if_pos rfl] at hpc
  have hd := h.decoded hidv
  rw [hpc] at hd
  exact hd

/-- While the instruction on which the machine stops is in EX/MEM, the pc is as many words behind
    the next one as there are in ID/EX and IF/ID. -/
theorem ahead_next (h : p.Roaming predicts code s₀ s sm sx) (hl : p.memLive = true)
    (hv : p.exMem.valid = true) (hh : isHalting p.exMem.op = true) :
    Ahead predicts code s₀ (p.idEx.valid.toNat + p.ifId.valid.toNat) (sm.pc + 4) p.pc := by
  have hpc := (h.next hl hv hh).1
  cases hidv : p.idEx.valid with
  | true =>
    rw [hidv, if_pos rfl] at hpc
    have hahead := h.ahead_idEx hl hidv
    rw [hpc] at hahead
    exact hahead
  | false =>
    rw [hidv] at hpc
    exact h.ahead_frontPc hl hpc

/-- Without a predictor the hazard unit sees what the program says of the two words behind. -/
theorem usesAt_next (h : p.Roaming false code s₀ s sm sx) (hl : p.memLive = true)
    (hv : p.exMem.valid = true) (hh : isHalting p.exMem.op = true) (hidv : p.idEx.valid = true)
    (hfv : p.ifId.valid = true) (hr : p.exec.redirect = false) :
    (sm.behind code).taken ((sm.behind code).insn code) = false ∧
      usesAt code (sm.behind code) 0 = p.hazard := by
  have hholds := h.next_holds hl hv hh hidv
  obtain ⟨hpc, hexec⟩ := h.next hl hv hh
  rw [hidv, if_pos rfl] at hpc
  obtain ⟨hpredicted, hfront⟩ := (leads_iff silent_off _).mp (h.led hl hidv)
  have htaken : (sm.behind code).taken ((sm.behind code).insn code) = false := by
    rw [hexec hidv, executeAt_redirect hholds, hpredicted] at hr
    simpa using hr
  refine ⟨htaken, ?_⟩
  unfold usesAt hazard loadUseHazard
  dsimp only
  rw [after_zero, ← hholds.op, ← hholds.rd, hidv, Bool.true_and]
  cases hload : isLoad p.idEx.op with
  | false => simp
  | true =>
    have hruns : (sm.behind code).halts code = false := by
      rw [halts_eq, ← hholds.op]
      cases hc : p.idEx.op <;> simp [hc, isLoad] at hload <;> rfl
    have hbpc : (sm.behind code).pc = p.idEx.pc := hpc.symm
    have hipc : ((sm.behind code).insn code).pc = p.idEx.pc := (decode_pc _ _).trans hbpc
    have hnext : ((sm.behind code).after code 1).pc = p.ifId.pc := by
      unfold frontPc at hfront
      rw [hfv, if_pos rfl] at hfront
      rw [after_succ, after_zero, step_of_runs hruns, hfront]
      change (sm.behind code).nextPc _ = _
      rw [nextPc, htaken, hipc]
      rfl
    rw [hnext, ← h.fetched hfv]

/-- Where the pc is when the instruction on which the machine stops reaches MEM/WB. -/
theorem flow_overruns (h : p.Roaming predicts code s₀ s sm sx) (hf : p.fetch = some f)
    (hl : p.memLive = true) (hv : p.exMem.valid = true) (hh : isHalting p.exMem.op = true)
    (m : MemOut Port) : Overruns predicts code s₀ sm (p.flowNext f m).pc := by
  have hahead := h.ahead_next hl hv hh
  have hle : ∀ a b : Bool, a.toNat + b.toNat ≤ 2 := by decide
  rw [flow_pc]
  cases hr : p.exec.redirect with
  | true =>
    -- the next word is a branch or jump that EX redirects on
    have hidv := exec_redirect_valid hr
    right; left
    rw [if_pos rfl, (h.next hl hv hh).2 hidv,
      executeAt_redirectTarget (h.next_holds hl hv hh hidv)]
  | false =>
    cases hw : p.hazard || f.fetchStall with
    | true => exact .inl ⟨_, hle _ _, hahead⟩
    | false =>
      obtain ⟨hz, hst⟩ := Bool.or_eq_false_iff.mp hw
      have hout : f.out.valid = true := by rw [fetch_valid hf, hst]; rfl
      have hnext : Ahead predicts code s₀ (p.idEx.valid.toNat + p.ifId.valid.toNat + 1)
          (sm.pc + 4) f.predictedPc := by
        have hleads := (h.taught hl).leads p.pc
        rw [← (fetch_served hf hout).2.2.2] at hleads
        exact hahead.next hleads
      cases hidv : p.idEx.valid with
      | false =>
        rw [hidv] at hnext
        exact .inl ⟨_, by have := p.ifId.valid.toNat_le; simp only [Bool.toNat_false]; omega, hnext⟩
      | true =>
        cases hfv : p.ifId.valid with
        | false =>
          rw [hidv, hfv] at hnext
          exact .inl ⟨2, Nat.le_refl 2, hnext⟩
        | true =>
          rw [hidv, hfv] at hnext
          refine .inr (.inr ⟨fun hp => ?_, hnext⟩)
          subst hp
          have huses := h.usesAt_next hl hv hh hidv hfv hr
          exact ⟨huses.1, huses.2.trans hz⟩

/-- IF goes on from the word in IF/ID as it was led. -/
theorem flow_fed (h : p.Roaming predicts code s₀ s sm sx) (hf : p.fetch = some f)
    (hl : p.memLive = true) (m : MemOut Port) (hv : (p.flowNext f m).ifId.valid = true) :
    Leads predicts code s₀ (p.flowNext f m).ifId.predictedTaken (p.flowNext f m).ifId.pc
      (p.flowNext f m).pc := by
  rw [flow_ifId] at hv
  rw [flow_ifId, flow_pc]
  cases hr : p.exec.redirect with
  | true =>
    rw [hr] at hv
    cases hv
  | false =>
    cases hz : p.hazard with
    | true =>
      rw [hr, hz] at hv
      exact h.fed hl hv
    | false =>
      rw [hr, hz] at hv
      change f.out.valid = true at hv
      obtain ⟨hpc, -, htaken, hnext⟩ := fetch_served hf hv
      have hst : f.fetchStall = false := by
        rw [fetch_valid hf] at hv
        simpa using hv
      change Leads predicts code s₀ f.out.predictedTaken f.out.pc
        (if f.fetchStall then p.pc else f.predictedPc)
      rw [hst, hpc, htaken, hnext]
      exact (h.taught hl).leads p.pc

/-- The front end goes on from the word in ID/EX as IF was led there. -/
theorem flow_led (h : p.Roaming predicts code s₀ s sm sx) (hf : p.fetch = some f)
    (hl : p.memLive = true) (m : MemOut Port) (hv : (p.flowNext f m).idEx.valid = true) :
    Leads predicts code s₀ (p.flowNext f m).idEx.predictedTaken (p.flowNext f m).idEx.pc
      (p.flowNext f m).frontPc := by
  obtain ⟨-, -, hfv⟩ := (Tracks.flow_idEx_valid p f m).mp hv
  have hd : (decodeInsn p.rf p.ifId).predictedTaken = p.ifId.predictedTaken ∧
      (decodeInsn p.rf p.ifId).pc = p.ifId.pc := by
    simp [decodeInsn, hfv]
  rw [(flow_turn hf m).2 hv, Tracks.flow_idEx p f m hv, hd.1, hd.2]
  exact h.fed hl hfv

/-- With the instruction on which the machine stops in MEM/WB, EX/MEM has the next one. -/
theorem flow_last (h : p.Roaming predicts code s₀ s sm sx) (hf : p.fetch = some f)
    (hm : p.mem = some m) (hs : m.stalling = false) (hl : p.memLive = true)
    (hh : (p.flowNext f m).halting = true) :
    Overruns predicts code s₀ sm (p.flowNext f m).pc ∧
      ((p.flowNext f m).exMem.valid = true →
        (p.flowNext f m).exMem.Holds code (sm.behind code)) := by
  rw [Tracks.flow_halting hm hs] at hh
  obtain ⟨hv, hop⟩ := Bool.and_eq_true_iff.mp hh
  refine ⟨h.flow_overruns hf hl hv hop m, fun hev => ?_⟩
  change p.exec.out.valid = true at hev
  rw [exec_valid] at hev
  change p.exec.out.Holds code (sm.behind code)
  rw [(h.next hl hv hop).2 hev]
  exact executeAt_holds (h.next_holds hl hv hop hev)

/-- Every stage moves, and the instruction that enters ID/EX is one that may be executed. -/
theorem flow (h : p.Roaming predicts code s₀ s sm sx) (hf : p.fetch = some f)
    (hm : p.mem = some m) (hs : m.stalling = false) (hrun : p.halting = false) :
    ∃ si, (p.flowNext f m).Roaming predicts code s₀ sm sx si := by
  obtain ⟨si, hto, hsi⟩ := h.exists_next
  have hlive : p.memLive = true := by simp [memLive, hrun]
  have hturn := (flow_turn hf m).1
  have hidl : (p.flowNext f m).exLive = true → p.idLive = true := Tracks.flow_exLive hm hs hrun
  have hxl : (p.flowNext f m).memLive = true → p.exLive = true := Tracks.flow_memLive hm hs hrun
  refine ⟨si, h.toCarries.flow hf hm hs hrun hto ?_, h.atMem hlive, fun hl => h.atEx (hxl hl),
    fun hl => (hsi (hidl hl)).1, ?_, fun _ => h.flow_led hf hlive m,
    fun _ => h.flow_fed hf hlive m, fun hl => h.taught_trained (hxl hl), ?_,
    h.flow_last hf hm hs hlive⟩
  · intro hv hl
    obtain ⟨hr, -, hfv⟩ := (Tracks.flow_idEx_valid p f m).mp hv
    have hnext := (hsi (hidl hl)).2
    unfold turn frontPc at hnext
    rw [hr, hfv] at hnext
    exact hnext
  · intro hl hv
    rw [hv] at hturn
    exact hturn.trans (hsi (hidl hl)).2
  · intro hl hv hh
    change p.exec.out.valid = true at hv
    change isHalting p.exec.out.op = true at hh
    rw [exec_valid] at hv
    rw [exec_op hv] at hh
    exact ⟨hturn.trans (h.turn_of_halting (hxl hl) hv hh),
      flow_exec_next h.toCarries hm hs hrun (hxl hl) hv hh⟩

/-- One tick before the core halts. -/
theorem tick {q : Pipe} (h : p.Roaming predicts code s₀ s sm sx) (hrun : p.halting = false)
    (ht : p.tick = some q) : ∃ s' sm' sx', q.Roaming predicts code s₀ s' sm' sx' := by
  obtain ⟨f, m, hf, hm, ⟨hs, rfl⟩ | ⟨hs, rfl⟩⟩ := tick_cases h.running ht
  · exact ⟨_, _, _, h.stall hf hm hs hrun⟩
  · exact ⟨_, _, h.flow hf hm hs hrun⟩

end Roaming

/-- While nothing past ID/EX stops the core, the states may be those that the pipeline tracks. -/
theorem Roaming.of_tracks {p : Pipe} {predicts : Bool} {code : ByteMap} {s₀ s sm sx : Machine}
    (h : p.Roaming predicts code s₀ s sm sx) {n : Nat} (htr : p.Tracks code (s₀.after code n))
    (hl : p.exLive = true) :
    p.Roaming predicts code s₀ (s₀.after code n) (p.atMem code (s₀.after code n))
      (p.atEx code (s₀.after code n)) := by
  have hnh : p.halting = false := by simpa [memLive] using exLive_memLive hl
  refine ⟨htr.toCarries, .after n, fun _ => ?_, fun _ => ?_, fun _ hv => ?_, h.led, h.fed, h.taught,
    fun _ hv hh => ?_, fun hh => ?_⟩
  · rw [Pipe.atMem, advance_eq_after, after_add]
    exact .after _
  · rw [atEx_eq_after]
    exact .after _
  · have hidl : p.idLive = true := by simp [idLive, hl, hv]
    have hfront := htr.front (onPath_of hidl (exec_bubble hv).1)
    rw [atId, hv, advance_false] at hfront
    exact hfront
  · simp [exLive, hv, hh] at hl
  · rw [hnh] at hh
    cases hh

/-- Every running state of a run. -/
theorem roaming_of_ticks {p q : Pipe} {predicts : Bool} {code : ByteMap} {s₀ s sm sx : Machine}
    (h : p.Roaming predicts code s₀ s sm sx) {n : Nat} (hq : p.ticks n = some q)
    (hrun : q.halted = false) : ∃ s' sm' sx', q.Roaming predicts code s₀ s' sm' sx' :=
  running_invariant (P := fun q => ∃ s' sm' sx', q.Roaming predicts code s₀ s' sm' sx')
    (fun _ _ ⟨_, _, _, hu⟩ _ hnh hut => hu.tick hnh hut) ⟨_, _, _, h⟩ hq hrun

end Pipe

namespace Core

/-- A booted core executes nothing yet and IF is where the machine starts. -/
theorem roaming_boot {cfg : SimConfig} (hbtb : cfg.bpredEnabled = true →
      IsPow2 cfg.bpredBtbEntries ∧ cfg.bpredBtbEntries < 2 ^ 32)
    (imem dmem : Nat → Byte) (rf : RegFile) :
    (boot cfg imem dmem rf).view.Roaming cfg.bpredEnabled (imageOf cfg imem)
      (reference cfg dmem rf) (reference cfg dmem rf) (reference cfg dmem rf)
      (reference cfg dmem rf) where
  toCarries := (tracks_boot cfg imem dmem rf).toCarries
  atWb := .start
  atMem _ := .start
  atEx _ := .start
  front _ _ := rfl
  led _ hv := nomatch hv
  fed _ hv := nomatch hv
  taught _ := by
    change Taught _ _ _ (if cfg.bpredEnabled then some
      (BranchPredictor.new cfg.bpredBhtEntries cfg.bpredBtbEntries) else none)
    cases hb : cfg.bpredEnabled with
    | false =>
      intro bp hbp
      cases hbp
    | true => exact taught_new (hbtb hb).1 (hbtb hb).2 _ _
  next _ hv := nomatch hv
  last hh := nomatch hh

end Core

end CpuSim
