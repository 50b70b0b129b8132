import CpuSim.Rtl.HaltMemory

/-!
# When an instruction retires

With both memories at latency one and no cache nothing ever waits, so the tick on which an
instruction reaches MEM/WB is fixed by what the instructions before it did: one tick each, one
more for a load whose successor names its destination, two more for a redirect. `due` is that
tick, and every latch is on schedule (`OnTime`).
-/

namespace CpuSim

open Rv32i Machine

/-! ## Memory that never waits -/

/-- Idle, and every request is served on the cycle it is made. -/
def FlatMem.Prompt (m : FlatMem) : Prop := m.latency = 1 ∧ m.serving = false

def Port.Prompt : Port → Prop
  | .flat m => m.Prompt
  | .cached _ => False

namespace Port

theorem Prompt.ready {p : Port} (h : p.Prompt) (addr : Word) (w : Bool) :
    (IMemory.ready p addr w).1 = true ∧ (IMemory.tick (IMemory.ready p addr w).2).Prompt := by
  cases p with
  | cached c => exact h.elim
  | flat m =>
    obtain ⟨hl, hs⟩ := h
    change (m.ready addr w).1 = true ∧ (m.ready addr w).2.tick.Prompt
    unfold FlatMem.ready FlatMem.tick FlatMem.Prompt
    simp [hl, hs, toInt32]

theorem Prompt.tick {p : Port} (h : p.Prompt) : (IMemory.tick p).Prompt := by
  cases p with
  | cached c => exact h.elim
  | flat m =>
    obtain ⟨hl, hs⟩ := h
    change m.tick.Prompt
    unfold FlatMem.tick FlatMem.Prompt
    simp [hl, hs]

/-- A store goes to the contents and not to the timer. -/
theorem tick_setRam {p : Port} {m : FlatMem} {b : ByteMap} (h : p.ram.Rewrites m b)
    (hp : (IMemory.tick p).Prompt) : (IMemory.tick (p.setRam m)).Prompt := by
  cases p with
  | cached c => exact hp.elim
  | flat m₀ =>
    have hm : m = { m₀ with mem := m.mem } := h.frame
    change m.tick.Prompt
    change m₀.tick.Prompt at hp
    rw [hm]
    unfold FlatMem.tick FlatMem.Prompt at *
    dsimp only
    cases hs : m₀.serving with
    | false => simpa [hs] using hp
    | true =>
      rw [hs] at hp
      by_cases hr : m₀.remaining > 0
      · simp [hr] at hp
      · simpa [hr] using hp

end Port

namespace Pipe

variable {p q : Pipe} {code : ByteMap} {s : Machine}

/-- Both memories of the pipeline are prompt. -/
def Ideal (p : Pipe) : Prop := p.iport.Prompt ∧ p.dport.Prompt

theorem stalls_of_prompt (h : p.dport.Prompt) : p.stalls = false := by
  unfold Pipe.stalls served
  rw [(h.ready _ _).1]
  simp

/-- With a prompt data memory every running tick moves every stage. -/
theorem tick_of_prompt (h : p.dport.Prompt) (hrun : p.halted = false) (ht : p.tick = some q) :
    ∃ f m, p.fetch = some f ∧ p.mem = some m ∧ m.stalling = false ∧ q = p.flowNext f m ∧
      q.dport.Prompt := by
  obtain ⟨f, m, hf, hm, hq⟩ := Pipe.tick_cases hrun ht
  have hs : m.stalling = false := (mem_stalling hm).trans (stalls_of_prompt h)
  obtain ⟨hs', -⟩ | ⟨-, hq⟩ := hq
  · rw [hs] at hs'; cases hs'
  refine ⟨f, m, hf, hm, hs, hq, ?_⟩
  rw [hq]
  change (IMemory.tick m.dmem).Prompt
  have hasked : (IMemory.tick (p.dport.asked p.exMem)).Prompt := by
    unfold Port.asked
    split
    · exact (h.ready _ _).2
    · exact h.tick
  obtain ⟨-, ho⟩ | ⟨-, -, -, ho⟩ | ⟨-, -, -, -, -, n, hd, hw⟩ := accessMem_eq_some hm
  · rw [ho]; exact h.tick
  · rw [ho]; exact hasked
  · rw [hd]; exact Port.tick_setRam hw hasked

theorem Ideal.fetchStall (h : p.Ideal) {f : FetchOut Port} (hf : p.fetch = some f) :
    f.fetchStall = false ∧ (IMemory.tick f.imem).Prompt := by
  obtain ⟨hr, ht⟩ := h.1.ready p.pc false
  obtain ⟨him, ⟨hn, -⟩ | ⟨-, -, hs, -⟩⟩ := fetchWord_eq_some hf
  · rw [hr] at hn; cases hn
  · rw [him]; exact ⟨hs, ht⟩

/-- A running tick of an ideal pipeline moves every stage. -/
theorem Ideal.tick_cases (h : p.Ideal) (hrun : p.halted = false) (ht : p.tick = some q) :
    ∃ f m, p.fetch = some f ∧ p.mem = some m ∧ m.stalling = false ∧ f.fetchStall = false ∧
      q = p.flowNext f m ∧ q.Ideal := by
  obtain ⟨f, m, hf, hm, hs, hq, hd⟩ := tick_of_prompt h.2 hrun ht
  obtain ⟨hfs, hif⟩ := h.fetchStall hf
  refine ⟨f, m, hf, hm, hs, hfs, hq, ?_, hd⟩
  rw [hq]
  exact hif

/-! ## The schedule -/

/-- Instruction `j` of the machine is a load whose destination instruction `j + 1` names. -/
def usesAt (code : ByteMap) (s : Machine) (j : Nat) : Bool :=
  let i := (s.after code j).insn code
  let next := wordAt code (s.after code (j + 1)).pc
  isLoad i.op && i.rd != 0#5 && (i.rd == rs1Field next || i.rd == rs2Field next)

/-- Entry `j` of the resolutions redirected. -/
def redirectedAt (res : List (Word × Bool)) (j : Nat) : Bool := (res[j]?.map Prod.snd).getD false

/-- The tick on which instruction `j` is in MEM/WB. -/
def due (code : ByteMap) (s : Machine) (res : List (Word × Bool)) : Nat → Nat
  | 0 => 4
  | j + 1 => due code s res j + 1 + (usesAt code s j).toNat + 2 * (redirectedAt res j).toNat

theorem redirectedAt_append {res more : List (Word × Bool)} {j : Nat} (h : j < res.length) :
    redirectedAt (res ++ more) j = redirectedAt res j := by
  unfold redirectedAt
  rw [List.getElem?_append_left h]

/-- Later resolutions do not move earlier instructions. -/
theorem due_append {res more : List (Word × Bool)} {j : Nat} (h : j ≤ res.length) :
    due code s (res ++ more) j = due code s res j := by
  induction j with
  | zero => rfl
  | succ j ih => rw [due, due, ih (by omega), redirectedAt_append (by omega)]

/-- Every latch of `p` is on schedule after `retired` retirements and the resolutions `res`; the
    machine that `p` tracks was started at `s`. -/
structure OnTime (p : Pipe) (code : ByteMap) (s : Machine) (retired : Nat)
    (res : List (Word × Bool)) : Prop where
  count : res.length = retired + p.memWb.valid.toNat + p.exMem.valid.toNat
  wb : p.memWb.valid = true → p.stats.cycles = due code s res retired
  mem : p.exMem.valid = true → p.memLive = true →
    p.stats.cycles + 1 = due code s res (retired + p.memWb.valid.toNat)
  ex : p.idEx.valid = true → p.exLive = true → p.stats.cycles + 2 = due code s res res.length
  bubble : p.idEx.valid = false → p.exLive = true →
    p.stats.cycles + 3 + (!p.ifId.valid).toNat = due code s res res.length
  full : p.idEx.valid = true → p.ifId.valid = true
  predicted : p.idEx.valid = true → p.exLive = true → p.idEx.predictedTaken = true →
    isCondBranch p.idEx.op = true ∨ p.idEx.op = .jal
  pcs : ∀ (i : Nat) (x : Word × Bool), res[i]? = some x → Live code i s →
    x.1 = (s.after code i).pc
  stops : ∀ (i : Nat) (x : Word × Bool), res[i]? = some x → Live code i s →
    (s.after code i).halts code = true → x.2 = false

section Schedule

variable {f : FetchOut Port} {m : MemOut Port} {retired : Nat} {res : List (Word × Bool)}

theorem atEx_eq_after (code : ByteMap) (s : Machine) (p : Pipe) (n : Nat) :
    p.atEx code (s.after code n) =
      s.after code (n + p.memWb.valid.toNat + p.exMem.valid.toNat) := by
  unfold atEx atMem
  rw [advance_eq_after, advance_eq_after, after_add, after_add, Nat.add_assoc]

/-- When the machine runs past the slots ahead of ID/EX, nothing in them halts. -/
theorem Tracks.exLive_of_live (h : p.Tracks code (s.after code retired))
    (hl : Live code (retired + p.memWb.valid.toNat + p.exMem.valid.toNat) s) :
    p.exLive = true := by
  have hwb : p.memLive = true := by
    cases hv : p.memWb.valid with
    | false => simp [memLive, halting, hv]
    | true =>
      have hruns := hl retired (by rw [hv]; simp only [Bool.toNat_true]; omega)
      simp [memLive, h.halting_eq hv, hruns]
  unfold exLive
  rw [hwb, Bool.true_and]
  cases hv : p.exMem.valid with
  | false => rfl
  | true =>
    have hruns := hl (retired + p.memWb.valid.toNat) (by
      rw [hv]; simp only [Bool.toNat_true]; omega)
    have hat : p.atMem code (s.after code retired) =
        s.after code (retired + p.memWb.valid.toNat) := by
      unfold atMem; rw [advance_eq_after, after_add]
    rw [← hat, halts_eq, ← (h.mem hv hwb).op] at hruns
    simp [hruns]

/-- An instruction that is neither a branch nor a jump resolves as not taken. -/
theorem taken_of_straight {i : Instruction} (h : isHalting i.op = true ∨ isLoad i.op = true) :
    s.taken i = false := by
  unfold Machine.taken
  cases hop : i.op <;> simp [hop, isHalting, isLoad] at h <;> rfl

/-- Such an instruction never redirects. -/
theorem OnTime.redirect_of_straight (h : p.OnTime code s retired res)
    (htr : p.Tracks code (s.after code retired)) (hv : p.idEx.valid = true)
    (hxl : p.exLive = true) (hop : isHalting p.idEx.op = true ∨ isLoad p.idEx.op = true) :
    p.exec.redirect = false := by
  have hholds := htr.idEx_holds hv hxl
  have hpt : p.idEx.predictedTaken = false := by
    cases hp : p.idEx.predictedTaken with
    | false => rfl
    | true =>
      have hctl := h.predicted hv hxl hp
      cases hc : p.idEx.op <;> simp [hc, isHalting, isLoad, isCondBranch] at hop hctl
  rw [hholds.op] at hop
  rw [htr.redirect_eq hv hxl, taken_of_straight hop, hpt]
  rfl

/-- The entry the instruction in ID/EX adds to the resolutions. -/
theorem OnTime.resolve (h : p.OnTime code s retired res)
    (htr : p.Tracks code (s.after code retired)) (hv : p.idEx.valid = true)
    (hl : Live code res.length s) :
    p.idEx.pc = (s.after code res.length).pc ∧
      ((s.after code res.length).halts code = true → p.exec.redirect = false) := by
  rw [h.count] at hl ⊢
  have hxl := htr.exLive_of_live hl
  rw [← atEx_eq_after]
  refine ⟨(htr.ex hv hxl).1, fun hh => ?_⟩
  rw [halts_eq, ← (htr.idEx_holds hv hxl).op] at hh
  exact h.redirect_of_straight htr hv hxl (.inl hh)

/-- On the machine's path the hazard unit sees what the program says. -/
theorem OnTime.usesAt_eq (h : p.OnTime code s retired res)
    (htr : p.Tracks code (s.after code retired)) (hv : p.idEx.valid = true)
    (hpath : p.onPath = true) : usesAt code s res.length = p.hazard := by
  have hxl := idLive_exLive (onPath_idLive hpath)
  have hholds := htr.idEx_holds hv hxl
  have hfv := h.full hv
  have hfront := htr.front hpath
  have hat := atEx_eq_after code s p retired
  rw [← h.count] at hat
  unfold frontPc atId at hfront
  rw [hfv, if_pos rfl, hv, advance_true, hat, ← after_succ] at hfront
  rw [hat] at hholds
  unfold usesAt hazard loadUseHazard
  dsimp only
  rw [← hholds.op, ← hholds.rd, ← hfront, ← htr.fetched hfv, hv, Bool.true_and]

theorem redirectedAt_concat (res : List (Word × Bool)) (x : Word × Bool) :
    redirectedAt (res ++ [x]) res.length = x.2 := by
  unfold redirectedAt
  rw [List.getElem?_concat_length]
  rfl

/-- Resolutions after a tick on which every stage moves. -/
def leaving (p : Pipe) : List (Word × Bool) :=
  if p.idEx.valid then [(p.idEx.pc, p.exec.redirect)] else []

theorem getElem_leaving {i : Nat} {x : Word × Bool} (hx : (res ++ p.leaving)[i]? = some x)
    (hi : res.length ≤ i) :
    p.idEx.valid = true ∧ i = res.length ∧ x = (p.idEx.pc, p.exec.redirect) := by
  rw [List.getElem?_append_right hi] at hx
  unfold leaving at hx
  cases hv : p.idEx.valid with
  | false => rw [hv] at hx; simp at hx
  | true =>
    rw [hv, if_pos rfl, List.getElem?_singleton] at hx
    split at hx
    · rename_i h0
      exact ⟨rfl, by omega, (Option.some.inj hx).symm⟩
    · cases hx

/-- Where the next instruction is due when the one in ID/EX leaves. -/
theorem OnTime.due_leaving (h : p.OnTime code s retired res) (hv : p.idEx.valid = true)
    (hxl : p.exLive = true) :
    due code s (res ++ p.leaving) (res ++ p.leaving).length =
      p.stats.cycles + 3 + (usesAt code s res.length).toNat + 2 * p.exec.redirect.toNat := by
  have hl : p.leaving = [(p.idEx.pc, p.exec.redirect)] := if_pos hv
  rw [hl, List.length_append, List.length_singleton, due, due_append (Nat.le_refl _),
    redirectedAt_concat, ← h.ex hv hxl]

theorem leaving_of_bubble (hv : p.idEx.valid = false) : p.leaving = [] := by
  unfold leaving
  rw [hv]
  rfl

/-- A load never redirects, so behind a redirect no operand waits for a load. -/
theorem OnTime.usesAt_of_redirect (h : p.OnTime code s retired res)
    (htr : p.Tracks code (s.after code retired)) (hv : p.idEx.valid = true)
    (hxl : p.exLive = true) (hr : p.exec.redirect = true) :
    usesAt code s res.length = false := by
  have hholds := htr.idEx_holds hv hxl
  have hat := atEx_eq_after code s p retired
  rw [← h.count] at hat
  rw [hat] at hholds
  have hload : isLoad p.idEx.op = false := by
    cases hc : isLoad p.idEx.op with
    | false => rfl
    | true =>
      rw [h.redirect_of_straight htr hv hxl (.inr hc)] at hr
      cases hr
  unfold usesAt
  dsimp only
  rw [← hholds.op, hload]
  rfl

/-- When an instruction enters ID/EX, nothing redirects or stalls ID and the front end hands it
    on. -/
theorem onPath_of_flow (hm : p.mem = some m) (hs : m.stalling = false)
    (hrun : p.halting = false) (hv : (p.flowNext f m).idEx.valid = true)
    (hl : (p.flowNext f m).exLive = true) :
    p.onPath = true ∧ p.hazard = false ∧ p.ifId.valid = true := by
  obtain ⟨hr, hz, hfv⟩ := (Tracks.flow_idEx_valid p f m).mp hv
  exact ⟨onPath_of (Tracks.flow_exLive hm hs hrun hl) hr, hz, hfv⟩

/-- An instruction enters ID/EX on schedule. -/
theorem OnTime.flow_ex (h : p.OnTime code s retired res)
    (htr : p.Tracks code (s.after code retired)) (hm : p.mem = some m)
    (hs : m.stalling = false) (hrun : p.halting = false)
    (hv : (p.flowNext f m).idEx.valid = true) (hl : (p.flowNext f m).exLive = true) :
    (p.flowNext f m).stats.cycles + 2 =
      due code s (res ++ p.leaving) (res ++ p.leaving).length := by
  obtain ⟨hpath, hz, hfv⟩ := onPath_of_flow hm hs hrun hv hl
  have hxl := idLive_exLive (onPath_idLive hpath)
  rw [flow_cycles p f m]
  cases hidv : p.idEx.valid with
  | true =>
    rw [h.due_leaving hidv hxl, h.usesAt_eq htr hidv hpath, hz, onPath_redirect hpath]
    rfl
  | false =>
    have hb := h.bubble hidv hxl
    rw [hfv] at hb
    rw [leaving_of_bubble hidv, List.append_nil, ← hb]
    rfl

/-- A bubble enters ID/EX behind a redirect, behind a load whose result is used, or when IF/ID is
    empty, and the schedule has its cycle. -/
theorem OnTime.flow_bubble (h : p.OnTime code s retired res)
    (htr : p.Tracks code (s.after code retired)) (hfv : f.out.valid = true)
    (hm : p.mem = some m) (hs : m.stalling = false) (hrun : p.halting = false)
    (hv : (p.flowNext f m).idEx.valid = false) (hl : (p.flowNext f m).exLive = true) :
    (p.flowNext f m).stats.cycles + 3 + (!(p.flowNext f m).ifId.valid).toNat =
      due code s (res ++ p.leaving) (res ++ p.leaving).length := by
  have hidl := Tracks.flow_exLive hm hs hrun hl
  have hxl := idLive_exLive hidl
  have hifId := flow_ifId p f m
  rw [flow_cycles p f m]
  cases hr : p.exec.redirect with
  | true =>
    have hidv := exec_redirect_valid hr
    rw [h.due_leaving hidv hxl, h.usesAt_of_redirect htr hidv hxl hr, hr, hifId, hr]
    rfl
  | false =>
    have hpath := onPath_of hidl hr
    cases hz : p.hazard with
    | true =>
      have hidv : p.idEx.valid = true := by
        simp only [hazard, loadUseHazard, Bool.and_eq_true] at hz
        exact hz.1.1.1
      rw [h.due_leaving hidv hxl, h.usesAt_eq htr hidv hpath, hz, hr, hifId, hr, hz]
      change _ + 1 + 3 + (!p.ifId.valid).toNat = _
      rw [h.full hidv]
      rfl
    | false =>
      have hnfv : p.ifId.valid = false := by
        cases hc : p.ifId.valid with
        | false => rfl
        | true => rw [(Tracks.flow_idEx_valid p f m).mpr ⟨hr, hz, hc⟩] at hv; cases hv
      have hidv : p.idEx.valid = false := by
        cases hc : p.idEx.valid with
        | false => rfl
        | true => rw [h.full hc] at hnfv; cases hnfv
      have hb := h.bubble hidv hxl
      rw [hnfv] at hb
      rw [leaving_of_bubble hidv, List.append_nil, ← hb, hifId, hr, hz]
      change _ + 1 + 3 + (!f.out.valid).toNat = _
      rw [hfv]
      rfl

/-- Only branches and JALs enter ID/EX predicted taken. -/
theorem flow_predicted (htr : p.Tracks code (s.after code retired)) (hm : p.mem = some m)
    (hs : m.stalling = false) (hrun : p.halting = false)
    (hv : (p.flowNext f m).idEx.valid = true) (hl : (p.flowNext f m).exLive = true)
    (hpt : (p.flowNext f m).idEx.predictedTaken = true) :
    isCondBranch (p.flowNext f m).idEx.op = true ∨ (p.flowNext f m).idEx.op = .jal := by
  obtain ⟨hpath, -, hifv⟩ := onPath_of_flow hm hs hrun hv hl
  have hfol := htr.predicted hpath hifv
  have hd := decodeInsn_holds p.rf hifv
  rw [Tracks.flow_idEx p f m hv] at hpt ⊢
  have hsame : (decodeInsn p.rf p.ifId).predictedTaken = p.ifId.predictedTaken := by
    simp [decodeInsn, hifv]
  rw [hsame] at hpt
  unfold Follows at hfol
  rw [hpt, if_pos rfl] at hfol
  rw [hd.op]
  exact hfol.1

/-- One tick of an ideal pipeline keeps every latch on schedule. -/
theorem OnTime.flow (h : p.OnTime code s retired res)
    (htr : p.Tracks code (s.after code retired)) (hf : p.fetch = some f)
    (hfs : f.fetchStall = false) (hm : p.mem = some m) (hs : m.stalling = false)
    (hrun : p.halting = false) :
    (p.flowNext f m).OnTime code s (retired + p.memWb.valid.toNat) (res ++ p.leaving) := by
  have hlive : p.memLive = true := by simp [memLive, hrun]
  obtain ⟨hmv, -, -⟩ := mem_flowed hm hs
  have hcyc := flow_cycles p f m
  have hfv : f.out.valid = true := by rw [fetch_valid hf, hfs]; rfl
  constructor
  case count =>
    have hlen : (res ++ p.leaving).length = res.length + p.idEx.valid.toNat := by
      unfold leaving
      cases p.idEx.valid <;> simp
    change _ = retired + p.memWb.valid.toNat + m.out.valid.toNat + p.exec.out.valid.toNat
    rw [hlen, hmv, exec_valid, h.count]
  case wb =>
    intro hv
    change m.out.valid = true at hv
    rw [hmv] at hv
    rw [hcyc, due_append (by rw [h.count]; omega)]
    exact h.mem hv hlive
  case mem =>
    intro hv hl
    change p.exec.out.valid = true at hv
    rw [exec_valid] at hv
    have hxl := Tracks.flow_memLive hm hs hrun hl
    change _ = due code s _ (retired + p.memWb.valid.toNat + m.out.valid.toNat)
    rw [hcyc, hmv, ← h.count, due_append (Nat.le_refl _)]
    exact h.ex hv hxl
  case ex => exact h.flow_ex htr hm hs hrun
  case bubble => exact h.flow_bubble htr hfv hm hs hrun
  case full =>
    intro hv
    obtain ⟨hr, hz, -⟩ := (Tracks.flow_idEx_valid p f m).mp hv
    rw [flow_ifId p f m, hr, hz]
    exact hfv
  case predicted => exact flow_predicted htr hm hs hrun
  case pcs =>
    intro i x hx hl
    by_cases hi : i < res.length
    · rw [List.getElem?_append_left hi] at hx
      exact h.pcs i x hx hl
    · obtain ⟨hv, rfl, rfl⟩ := getElem_leaving hx (by omega)
      exact (h.resolve htr hv hl).1
  case stops =>
    intro i x hx hl hh
    by_cases hi : i < res.length
    · rw [List.getElem?_append_left hi] at hx
      exact h.stops i x hx hl hh
    · obtain ⟨hv, rfl, rfl⟩ := getElem_leaving hx (by omega)
      exact (h.resolve htr hv hl).2 hh

end Schedule

/-! ## Runs -/

/-- A running cycle without a stall resolves the instruction in ID/EX. -/
theorem resolves_eq_leaving (hrun : p.halted = false) (hs : p.stalls = false) :
    p.resolves = p.leaving := by
  unfold resolves leaving
  rw [hrun, hs]
  rfl

/-- Every running state of an ideal run is on schedule. -/
theorem onTime_of_ticks (hi : p.Ideal) (hot : p.OnTime code s 0 [])
    (href : ∀ n q, p.ticks n = some q → q.Refines (p.retired n) code s) {n : Nat}
    (hq : p.ticks n = some q) (hrun : q.halted = false) :
    q.Ideal ∧ q.OnTime code s (p.retired n).length (p.resolved n) := by
  induction n generalizing q with
  | zero =>
    simp only [ticks, Runs.run_zero, Option.some.injEq] at hq
    subst hq
    exact ⟨hi, hot⟩
  | succ n ih =>
    obtain ⟨u, hu, huq⟩ := (Runs.run_succ_eq_some tick).mp hq
    obtain ⟨huh, hnh⟩ := running_of_tick huq hrun
    obtain ⟨hui, huo⟩ := ih hu huh
    obtain ⟨-, htr⟩ | hstop := (href n u hu).phase
    · obtain ⟨f, m, hf, hm, hs, hfs, rfl, hqi⟩ := hui.tick_cases huh huq
      have hret : p.retired (n + 1) = p.retired n ++ u.retires :=
        Runs.log_succ_of_run tick retires hu
      have hres : p.resolved (n + 1) = p.resolved n ++ u.resolves :=
        Runs.log_succ_of_run tick resolves hu
      have hlen : (p.retired (n + 1)).length = (p.retired n).length + u.memWb.valid.toNat := by
        rw [hret, retires_of_running huh, List.length_append]
        cases u.memWb.valid <;> rfl
      rw [hlen, hres, resolves_eq_leaving huh (stalls_of_prompt hui.2)]
      exact ⟨hqi, huo.flow htr hf hfs hm hs hnh⟩
    · rw [hstop.halted] at huh; cases huh

/-! ## Counting -/

/-- The second entry names the destination of the load in the first in its bits 19:15 or
    24:20. -/
def loadUse (a b : MemWb) : Bool :=
  isLoad a.op && a.rd != 0#5 && (a.rd == rs1Field b.raw || a.rd == rs2Field b.raw)

/-- The consecutive pairs of a load and a reader of its destination. -/
def loadUsePairs : List MemWb → Nat
  | a :: b :: l => (loadUse a b).toNat + loadUsePairs (b :: l)
  | _ => 0

theorem loadUsePairs_eq {l : List MemWb} {u : Nat → Bool}
    (h : ∀ (i : Nat) (a b : MemWb), l[i]? = some a → l[i + 1]? = some b → loadUse a b = u i) :
    loadUsePairs l = ((List.range (l.length - 1)).map fun i => (u i).toNat).sum := by
  induction l generalizing u with
  | nil => rfl
  | cons a l ih =>
    cases l with
    | nil => rfl
    | cons b l =>
      have h0 := h 0 a b rfl rfl
      have ht := ih (u := fun i => u (i + 1)) fun i x y hx hy => h (i + 1) x y hx hy
      have hlen : (a :: b :: l).length - 1 = (b :: l).length - 1 + 1 := by simp
      rw [loadUsePairs, ht, hlen, List.range_succ_eq_map, List.map_cons, List.sum_cons, h0,
        List.map_map]
      rfl

theorem sum_redirectedAt (res : List (Word × Bool)) {j : Nat} (h : j ≤ res.length) :
    ((List.range j).map fun i => (redirectedAt res i).toNat).sum =
      (res.take j).countP Prod.snd := by
  induction j with
  | zero => simp
  | succ j ih =>
    have hj : j < res.length := by omega
    have hlast : redirectedAt res j = (res[j]).2 := by
      unfold redirectedAt
      rw [List.getElem?_eq_getElem hj]
      rfl
    rw [List.range_succ, List.map_append, List.sum_append, ih (by omega), List.take_add_one,
      List.countP_append, List.getElem?_eq_getElem hj, List.map_singleton, List.sum_singleton,
      hlast]
    cases hx : (res[j]).2 <;> simp [hx]

/-- The schedule in closed form. -/
theorem due_eq {res : List (Word × Bool)} (code : ByteMap) (s : Machine) (j : Nat) :
    due code s res j = 4 + j + ((List.range j).map fun i => (usesAt code s i).toNat).sum +
      2 * ((List.range j).map fun i => (redirectedAt res i).toNat).sum := by
  induction j with
  | zero => rfl
  | succ j ih =>
    rw [due, ih, List.range_succ, List.map_append, List.map_append, List.sum_append,
      List.sum_append]
    simp only [List.map_cons, List.map_nil, List.sum_cons, List.sum_nil]
    omega

/-- Pairs among retired entries are pairs of the program. -/
theorem Refines.loadUse_eq {log : List MemWb} (h : q.Refines log code s) {i : Nat} {a b : MemWb}
    (ha : log[i]? = some a) (hb : log[i + 1]? = some b) : loadUse a b = usesAt code s i := by
  obtain ⟨-, hah⟩ := h.held i a ha
  obtain ⟨-, hbh⟩ := h.held (i + 1) b hb
  unfold loadUse usesAt
  dsimp only
  rw [hah.op, hah.rd, hbh.raw]

theorem take_resolved {log : List MemWb} (h : q.Refines log code s) {res : List (Word × Bool)}
    (hlen : log.length ≤ res.length) (hlive : ∀ i < log.length, Live code i s)
    (hpcs : ∀ (i : Nat) (x : Word × Bool), res[i]? = some x → Live code i s →
      x.1 = (s.after code i).pc) :
    (res.take log.length).map Prod.fst = log.map MemWb.pc := by
  apply List.ext_getElem
  · simp [hlen]
  · intro i hi hi'
    have hil : i < log.length := by simpa using hi'
    have hir : i < res.length := by omega
    obtain ⟨-, hheld⟩ := h.held i log[i] (List.getElem?_eq_getElem hil)
    rw [List.getElem_map, List.getElem_map, List.getElem_take, hheld.pc]
    exact hpcs i res[i] (List.getElem?_eq_getElem hir) (hlive i hil)

end Pipe

namespace Core

/-- Both memories answer in one cycle and there is no cache. -/
structure IdealMemory (cfg : SimConfig) : Prop where
  imem : cfg.imemLatencyCycles = 1
  dmem : cfg.dmemLatencyCycles = 1
  icache : cfg.icacheEnabled = false
  dcache : cfg.dcacheEnabled = false

variable {cfg : SimConfig} {imem dmem : Nat → Byte} {rf : RegFile}

theorem ideal_boot (h : IdealMemory cfg) : (boot cfg imem dmem rf).view.Ideal := by
  have hi : newIport cfg = .flat (FlatMem.new cfg.ramBaseAddr cfg.ramSizeBytes 1) := by
    unfold newIport; rw [h.icache, h.imem]; rfl
  have hd : newDport cfg = .flat (FlatMem.new cfg.ramBaseAddr cfg.ramSizeBytes 1) := by
    unfold newDport; rw [h.dcache, h.dmem]; rfl
  have hiport : (boot cfg imem dmem rf).view.iport =
      (newIport cfg).load (bytesOf cfg.ramSizeBytes imem) := rfl
  have hdport : (boot cfg imem dmem rf).view.dport =
      (newDport cfg).load (bytesOf cfg.ramSizeBytes dmem) := rfl
  unfold Pipe.Ideal
  rw [hiport, hdport, hi, hd]
  exact ⟨⟨rfl, rfl⟩, rfl, rfl⟩

theorem onTime_boot (cfg : SimConfig) (imem dmem : Nat → Byte) (rf : RegFile) (code : ByteMap)
    (s : Machine) : (boot cfg imem dmem rf).view.OnTime code s 0 [] where
  count := rfl
  wb h := nomatch h
  mem h := nomatch h
  ex h := nomatch h
  bubble _ _ := rfl
  full h := nomatch h
  predicted h := nomatch h
  pcs _ _ h := nomatch h
  stops _ _ h := nomatch h

/-- With ideal memory a halted run has taken one cycle for each retired instruction, four to
    fill the pipeline, one for each retired load whose successor names its destination and two
    for each retired instruction that EX redirected. The first entries of the resolutions are
    those of the retired instructions. -/
theorem cycles_at_halt (cfg : SimConfig) (hcfg : cfg.Valid) (hideal : IdealMemory cfg)
    (imem dmem : Nat → Byte) (rf : RegFile)
    (halign : cfg.bpredEnabled = true → (reference cfg dmem rf).Aligned (imageOf cfg imem))
    (n : Nat) (c : Core) (hrun : (boot cfg imem dmem rf).ticks n = some c)
    (hhalted : c.halted = true) :
    let log := (boot cfg imem dmem rf).retired n
    let redirects := (boot cfg imem dmem rf).resolved n |>.take log.length
    c.cycles = log.length + 4 + Pipe.loadUsePairs log + 2 * redirects.countP Prod.snd ∧
      redirects.map Prod.fst = log.map MemWb.pc := by
  intro log redirects
  have hquiet := quiet_boot cfg imem dmem rf
  have hcv := view_of_ticks hquiet hrun
  have hlog : log = (boot cfg imem dmem rf).view.retired n := retired_view hquiet n
  have hres : (boot cfg imem dmem rf).resolved n = (boot cfg imem dmem rf).view.resolved n :=
    resolved_view hquiet n
  have href := fun k q hq => @refines_boot cfg imem dmem rf hcfg halign k q hq
  -- the tick that retires the halting instruction
  obtain ⟨k, r, hk, hr, hrr, hrh, hrc⟩ := Pipe.halting_tick_of_halted rfl hcv hhalted
  obtain ⟨hri, hrt⟩ := Pipe.onTime_of_ticks (ideal_boot hideal)
    (onTime_boot cfg imem dmem rf _ _) href hr hrr
  have hv := Pipe.valid_of_halting hrh
  obtain ⟨hlive, htr⟩ | hstop := (href k r hr).phase
  swap
  · rw [hstop.halted] at hrr; cases hrr
  -- nothing retires or resolves after it
  have hlogk : log = (boot cfg imem dmem rf).view.retired k ++ [r.memWb] := by
    have hretires : r.retires = [r.memWb] := by rw [Pipe.retires_of_running hrr, hv]; rfl
    rw [hlog, ← hretires]
    exact Pipe.log_of_halting_tick Pipe.retires hr hrc hhalted
      (Pipe.retires_of_halted hhalted) hk
  have hresk : (boot cfg imem dmem rf).resolved n =
      (boot cfg imem dmem rf).view.resolved k ++ r.resolves := by
    rw [hres]
    exact Pipe.log_of_halting_tick Pipe.resolves hr hrc hhalted
      (Pipe.resolves_of_halted hhalted) hk
  have hloglen : log.length = ((boot cfg imem dmem rf).view.retired k).length + 1 := by
    rw [hlogk, List.length_append, List.length_singleton]
  have hcount := hrt.count
  rw [hv] at hcount
  simp only [Bool.toNat_true] at hcount
  have htake : redirects = ((boot cfg imem dmem rf).view.resolved k).take log.length := by
    change ((boot cfg imem dmem rf).resolved n).take log.length = _
    rw [hresk, List.take_append_of_le_length (by omega)]
  have hrefc := href n c.view hcv
  rw [← hlog] at hrefc
  have hcycles : c.cycles = r.stats.cycles + 1 := by
    obtain ⟨f, m, -, -, -, -, hq, -⟩ := hri.tick_cases hrr hrc
    have hcv' : c.cycles = c.view.stats.cycles := rfl
    rw [hcv', hq, Pipe.flow_cycles]
  -- the halting instruction itself does not redirect
  have hlast : Pipe.redirectedAt ((boot cfg imem dmem rf).view.resolved k)
      ((boot cfg imem dmem rf).view.retired k).length = false := by
    have hlt : ((boot cfg imem dmem rf).view.retired k).length <
        ((boot cfg imem dmem rf).view.resolved k).length := by omega
    unfold Pipe.redirectedAt
    rw [List.getElem?_eq_getElem hlt]
    exact hrt.stops _ _ (List.getElem?_eq_getElem hlt) hlive
      (by rw [← htr.halting_eq hv]; exact hrh)
  constructor
  · have hpairs := Pipe.loadUsePairs_eq (l := log)
      (u := Pipe.usesAt (imageOf cfg imem) (reference cfg dmem rf))
      fun i a b ha hb => hrefc.loadUse_eq ha hb
    have hsum := Pipe.sum_redirectedAt ((boot cfg imem dmem rf).view.resolved k)
      (j := log.length) (by omega)
    rw [hloglen, List.range_succ, List.map_append, List.sum_append, List.map_singleton,
      List.sum_singleton, hlast] at hsum
    rw [hcycles, hrt.wb hv, Pipe.due_eq, hpairs, htake, hloglen, ← hsum]
    simp only [Nat.add_sub_cancel, Bool.toNat_false]
    omega
  · rw [htake]
    refine Pipe.take_resolved hrefc (by omega) (fun i hi => hlive.mono (by omega)) hrt.pcs

/-- `lw x1, 0(x0); addi x2, x1, 1; jal x0, +8; nop; ebreak`: a load, its reader and a jump. -/
def loadUseJump : Nat → Byte :=
  halfwords [0x2083, 0x0000, 0x8113, 0x0010, 0x006F, 0x0080, 0x0013, 0, 0x0073, 0x0010]

theorem loadUseJump_aligned :
    (reference predicting (fun _ => 0) RegFile.zero).Aligned
      (imageOf predicting loadUseJump) := by
  intro j
  have hfirst : ∀ i < 4, ((reference predicting (fun _ => 0) RegFile.zero).after
      (imageOf predicting loadUseJump) i).pc.toNat % 4 = 0 := by decide +kernel
  obtain h | h : j < 4 ∨ 3 ≤ j := by omega
  · exact hfirst j h
  · obtain ⟨k, rfl⟩ := Nat.exists_eq_add_of_le h
    rw [← after_add, after_of_halts (by decide +kernel)]
    exact hfirst 3 (by omega)

theorem cycles_at_halt_loadUseJump :
    ∃ c, (boot predicting loadUseJump (fun _ => 0) RegFile.zero).ticks 11 = some c ∧
      c.cycles = ((boot predicting loadUseJump (fun _ => 0) RegFile.zero).retired 11).length + 4 +
        Pipe.loadUsePairs ((boot predicting loadUseJump (fun _ => 0) RegFile.zero).retired 11) +
        2 * (((boot predicting loadUseJump (fun _ => 0) RegFile.zero).resolved 11).take
          ((boot predicting loadUseJump (fun _ => 0) RegFile.zero).retired 11).length).countP
            Prod.snd := by
  obtain ⟨c, hc, hh⟩ := Option.map_eq_some_iff.mp (by decide +kernel :
    ((boot predicting loadUseJump (fun _ => 0) RegFile.zero).ticks 11).map halted = some true)
  exact ⟨c, hc, (cycles_at_halt predicting predicting_valid ⟨rfl, rfl, rfl, rfl⟩ loadUseJump
    (fun _ => 0) RegFile.zero (fun _ => loadUseJump_aligned) 11 c hc hh).1⟩

end Core

end CpuSim
