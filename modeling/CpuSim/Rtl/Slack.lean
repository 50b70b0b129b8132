import CpuSim.Rtl.Footprint
import CpuSim.Rtl.Oracle
import CpuSim.Rtl.Pace

/-!
# Slow fetches only delay

The schedule of `CpuSim.Rtl.Timeline` is that of a pipeline which never waits. Behind any
instruction side, with prompt data, it still is the earliest there is, and nothing is later than
its cycle by more than the cycles on which IF has waited (`Late`). A wait may hide behind a load
or a redirect, so the two do not add up exactly.
-/

namespace CpuSim

open Rv32i Machine

namespace Pipe

variable {p q : Pipe} {code : ByteMap} {s : Machine} {f : FetchOut Port} {m : MemOut Port}
  {retired waits : Nat} {res : List (Word × Bool)}

/-- The pc that IF waits for on this cycle. What it waits for once the halting instruction has
    left EX comes too late to matter. -/
def unserved (p : Pipe) : List Word :=
  if !p.halted && p.exLive && !(IMemory.ready p.iport p.pc false).1 then [p.pc] else []

/-- The pcs that IF has waited for, once for each cycle. -/
def waited (p : Pipe) (n : Nat) : List Word := Runs.log tick unserved n p

theorem length_unserved (hrun : p.halted = false) (hf : p.fetch = some f) (hl : p.exLive = true) :
    p.unserved.length = f.fetchStall.toNat := by
  unfold unserved
  rw [hrun, hl]
  rcases fetchWord_eq_some hf with ⟨-, ⟨hr, -, hs, -⟩ | ⟨hr, -, hs, -⟩⟩ <;> rw [hr, hs] <;> rfl

theorem unserved_of_halting (h : p.halting = true) : p.unserved = [] := by
  simp [unserved, exLive, memLive, h]

theorem unserved_of_halted (h : p.halted = true) : p.unserved = [] := by simp [unserved, h]

/-! ## The schedule with slack -/

/-- Every latch of `p` is on schedule or behind it, by `waits` cycles at most. An empty IF/ID
    owes a cycle already. -/
structure Late (p : Pipe) (code : ByteMap) (s : Machine) (retired : Nat)
    (res : List (Word × Bool)) (waits : Nat) : Prop where
  count : res.length = retired + p.memWb.valid.toNat + p.exMem.valid.toNat
  wb : p.memWb.valid = true → due code s res retired ≤ p.stats.cycles ∧
    p.stats.cycles ≤ due code s res retired + waits
  mem : p.exMem.valid = true → p.memLive = true →
    due code s res (retired + p.memWb.valid.toNat) ≤ p.stats.cycles + 1 ∧
      p.stats.cycles + 1 ≤ due code s res (retired + p.memWb.valid.toNat) + waits
  ex : p.idEx.valid = true → p.exLive = true →
    due code s res res.length ≤ p.stats.cycles + 2 ∧
      p.stats.cycles + 2 + (!p.ifId.valid).toNat ≤ due code s res res.length + waits
  bubble : p.idEx.valid = false → p.exLive = true →
    due code s res res.length ≤ p.stats.cycles + 3 + (!p.ifId.valid).toNat ∧
      p.stats.cycles + 3 + (!p.ifId.valid).toNat ≤ due code s res res.length + waits
  empty : p.ifId.valid = false → p.ifId = {}
  predicted : p.idEx.valid = true → p.exLive = true → p.idEx.predictedTaken = true →
    isCondBranch p.idEx.op = true ∨ p.idEx.op = .jal

section Schedule

/-- A load never redirects. -/
theorem Late.redirect_of_load (h : p.Late code s retired res waits)
    (htr : p.Tracks code (s.after code retired)) (hv : p.idEx.valid = true)
    (hxl : p.exLive = true) (hop : isLoad p.idEx.op = true) : p.exec.redirect = false := by
  have hholds := htr.idEx_holds hv hxl
  have hpt : p.idEx.predictedTaken = false := by
    cases hp : p.idEx.predictedTaken with
    | false => rfl
    | true =>
      have hctl := h.predicted hv hxl hp
      cases hc : p.idEx.op <;> simp [hc, isLoad, isCondBranch] at hop hctl
  rw [hholds.op] at hop
  rw [htr.redirect_eq hv hxl, taken_of_straight (.inr hop), hpt]
  rfl

/-- The machine is at the instruction in ID/EX. -/
theorem Late.atEx (h : p.Late code s retired res waits) :
    p.atEx code (s.after code retired) = s.after code res.length := by
  rw [atEx_eq_after, ← h.count]

/-- Behind a redirect no operand waits for a load. -/
theorem Late.usesAt_of_redirect (h : p.Late code s retired res waits)
    (htr : p.Tracks code (s.after code retired)) (hv : p.idEx.valid = true)
    (hxl : p.exLive = true) (hr : p.exec.redirect = true) :
    usesAt code s res.length = false := by
  have hholds := htr.idEx_holds hv hxl
  rw [h.atEx] at hholds
  have hload : isLoad p.idEx.op = false := by
    cases hc : isLoad p.idEx.op with
    | false => rfl
    | true =>
      rw [h.redirect_of_load htr hv hxl hc] at hr
      cases hr
  unfold usesAt
  dsimp only
  rw [← hholds.op, hload]
  rfl

/-- With an instruction in ID the hazard unit sees what the program says. -/
theorem Late.usesAt_eq (h : p.Late code s retired res waits)
    (htr : p.Tracks code (s.after code retired)) (hv : p.idEx.valid = true)
    (hfv : p.ifId.valid = true) (hpath : p.onPath = true) :
    usesAt code s res.length = p.hazard := by
  have hholds := htr.idEx_holds hv (idLive_exLive (onPath_idLive hpath))
  have hfront := htr.front hpath
  unfold frontPc atId at hfront
  rw [hfv, if_pos rfl, hv, advance_true, h.atEx, ← after_succ] at hfront
  rw [h.atEx] at hholds
  unfold usesAt hazard loadUseHazard
  dsimp only
  rw [← hholds.op, ← hholds.rd, ← hfront, ← htr.fetched hfv, hv, Bool.true_and]

/-- Where the next instruction is due when the one in ID/EX leaves. -/
theorem due_leaving (hv : p.idEx.valid = true) :
    due code s (res ++ p.leaving) (res ++ p.leaving).length =
      due code s res res.length + 1 + (usesAt code s res.length).toNat +
        2 * p.exec.redirect.toNat := by
  have hl : p.leaving = [(p.idEx.pc, p.exec.redirect)] := if_pos hv
  rw [hl, List.length_append, List.length_singleton, due, due_append (Nat.le_refl _),
    redirectedAt_concat]

/-- An instruction enters ID/EX. -/
theorem Late.flow_ex (h : p.Late code s retired res waits)
    (htr : p.Tracks code (s.after code retired)) (hf : p.fetch = some f) (hm : p.mem = some m)
    (hs : m.stalling = false) (hrun : p.halted = false) (hnh : p.halting = false)
    (hv : (p.flowNext f m).idEx.valid = true) (hl : (p.flowNext f m).exLive = true) :
    due code s (res ++ p.leaving) (res ++ p.leaving).length ≤
        (p.flowNext f m).stats.cycles + 2 ∧
      (p.flowNext f m).stats.cycles + 2 + (!(p.flowNext f m).ifId.valid).toNat ≤
        due code s (res ++ p.leaving) (res ++ p.leaving).length + (waits + p.unserved.length) := by
  obtain ⟨hpath, hz, hfv⟩ := onPath_of_flow hm hs hnh hv hl
  have hxl := idLive_exLive (onPath_idLive hpath)
  have hr := onPath_redirect hpath
  rw [flow_cycles p f m, flow_ifId, hr, hz, if_neg (by decide), if_neg (by decide),
    fetch_valid hf, Bool.not_not, length_unserved hrun hf hxl]
  cases hidv : p.idEx.valid with
  | true =>
    obtain ⟨hlo, hhi⟩ := h.ex hidv hxl
    rw [hfv] at hhi
    rw [due_leaving hidv, h.usesAt_eq htr hidv hfv hpath, hz, hr]
    simp only [Bool.not_true, Bool.toNat_false] at hhi ⊢
    omega
  | false =>
    obtain ⟨hlo, hhi⟩ := h.bubble hidv hxl
    rw [hfv] at hlo hhi
    rw [leaving_of_bubble hidv, List.append_nil]
    simp only [Bool.not_true, Bool.toNat_false] at hlo hhi
    omega

/-- A bubble enters ID/EX: behind a redirect, behind a load whose result is used, or because IF
    has nothing to hand on. Only the last is a cycle that the schedule does not have. -/
theorem Late.flow_bubble (h : p.Late code s retired res waits)
    (htr : p.Tracks code (s.after code retired)) (hf : p.fetch = some f) (hm : p.mem = some m)
    (hs : m.stalling = false) (hrun : p.halted = false) (hnh : p.halting = false)
    (hv : (p.flowNext f m).idEx.valid = false) (hl : (p.flowNext f m).exLive = true) :
    due code s (res ++ p.leaving) (res ++ p.leaving).length ≤
        (p.flowNext f m).stats.cycles + 3 + (!(p.flowNext f m).ifId.valid).toNat ∧
      (p.flowNext f m).stats.cycles + 3 + (!(p.flowNext f m).ifId.valid).toNat ≤
        due code s (res ++ p.leaving) (res ++ p.leaving).length + (waits + p.unserved.length) := by
  have hidl := Tracks.flow_exLive hm hs hnh hl
  have hxl := idLive_exLive hidl
  have hifId := flow_ifId p f m
  rw [flow_cycles p f m, length_unserved hrun hf hxl]
  cases hr : p.exec.redirect with
  | true =>
    have hidv := exec_redirect_valid hr
    obtain ⟨hlo, hhi⟩ := h.ex hidv hxl
    rw [hr, if_pos rfl] at hifId
    rw [due_leaving hidv, h.usesAt_of_redirect htr hidv hxl hr, hr, hifId]
    simp only [Bool.not_false, Bool.toNat_true, Bool.toNat_false]
    omega
  | false =>
    have hpath := onPath_of hidl hr
    rw [hr, if_neg (by decide)] at hifId
    cases hz : p.hazard with
    | true =>
      have hidv : p.idEx.valid = true := by
        simp only [hazard, loadUseHazard, Bool.and_eq_true] at hz
        exact hz.1.1.1
      have hfv : p.ifId.valid = true := by
        by_contra hnfv
        rw [hazard_of_empty (h.empty (Bool.eq_false_iff.mpr hnfv))] at hz
        cases hz
      obtain ⟨hlo, hhi⟩ := h.ex hidv hxl
      rw [hfv] at hhi
      rw [hz, if_pos rfl] at hifId
      rw [due_leaving hidv, h.usesAt_eq htr hidv hfv hpath, hz, hr, hifId, hfv]
      simp only [Bool.not_true, Bool.toNat_true, Bool.toNat_false] at hhi ⊢
      omega
    | false =>
      have hnfv : p.ifId.valid = false := by
        cases hc : p.ifId.valid with
        | false => rfl
        | true => rw [(Tracks.flow_idEx_valid p f m).mpr ⟨hr, hz, hc⟩] at hv; cases hv
      rw [hz, if_neg (by decide)] at hifId
      rw [hifId, fetch_valid hf, Bool.not_not]
      cases hidv : p.idEx.valid with
      | true =>
        obtain ⟨hlo, hhi⟩ := h.ex hidv hxl
        have huse := Bool.toNat_le (usesAt code s res.length)
        rw [hnfv] at hhi
        rw [due_leaving hidv, hr]
        simp only [Bool.not_false, Bool.toNat_true, Bool.toNat_false] at hhi ⊢
        omega
      | false =>
        obtain ⟨hlo, hhi⟩ := h.bubble hidv hxl
        rw [hnfv] at hlo hhi
        rw [leaving_of_bubble hidv, List.append_nil]
        simp only [Bool.not_false, Bool.toNat_true] at hlo hhi
        omega

/-- One tick with prompt data keeps every latch within its slack. -/
theorem Late.flow (h : p.Late code s retired res waits)
    (htr : p.Tracks code (s.after code retired)) (hf : p.fetch = some f) (hm : p.mem = some m)
    (hs : m.stalling = false) (hrun : p.halted = false) (hnh : p.halting = false) :
    (p.flowNext f m).Late code s (retired + p.memWb.valid.toNat) (res ++ p.leaving)
      (waits + p.unserved.length) := by
  have hlive : p.memLive = true := by simp [memLive, hnh]
  obtain ⟨hmv, -, -⟩ := mem_flowed hm hs
  have hcyc := flow_cycles p f m
  constructor
  case count =>
    have hlen : (res ++ p.leaving).length = res.length + p.idEx.valid.toNat := by
      unfold leaving
      cases p.idEx.valid <;> simp
    change _ = retired + p.memWb.valid.toNat + m.out.valid.toNat + p.exec.out.valid.toNat
    rw [hlen, hmv, exec_valid, h.count]
  case wb =>
    intro hv
    change m.out.valid = true at hv
    rw [hmv] at hv
    obtain ⟨hlo, hhi⟩ := h.mem hv hlive
    rw [hcyc, due_append (by rw [h.count]; omega)]
    omega
  case mem =>
    intro hv hl
    change p.exec.out.valid = true at hv
    rw [exec_valid] at hv
    obtain ⟨hlo, hhi⟩ := h.ex hv (Tracks.flow_memLive hm hs hnh hl)
    change due code s _ (retired + p.memWb.valid.toNat + m.out.valid.toNat) ≤ _ ∧
      _ ≤ due code s _ (retired + p.memWb.valid.toNat + m.out.valid.toNat) + _
    rw [hcyc, hmv, ← h.count, due_append (Nat.le_refl _)]
    omega
  case ex => exact h.flow_ex htr hf hm hs hrun hnh
  case bubble => exact h.flow_bubble htr hf hm hs hrun hnh
  case empty =>
    intro hv
    rw [flow_ifId] at hv ⊢
    split at hv
    · rename_i hr
      rw [if_pos hr]
    · rename_i hr
      rw [if_neg hr]
      split at hv
      · rename_i hz
        rw [if_pos hz]
        exact h.empty hv
      · rename_i hz
        rw [if_neg hz]
        rcases fetchWord_eq_some hf with ⟨-, ⟨-, ho, -⟩ | ⟨-, -, -, ho, -⟩⟩
        · exact ho
        · rw [ho] at hv
          cases hv
  case predicted => exact flow_predicted htr hm hs hnh

end Schedule

/-! ## Runs -/

/-- Every running state of a run with prompt data. -/
theorem late_of_ticks (hp : p.dport.Prompt) (hlate : p.Late code s 0 [] 0)
    (href : ∀ n q, p.ticks n = some q → q.Refines (p.retired n) code s) {n : Nat}
    (hq : p.ticks n = some q) (hrun : q.halted = false) :
    q.dport.Prompt ∧ q.Late code s (p.retired n).length (p.resolved n) (p.waited n).length := by
  induction n generalizing q with
  | zero =>
    simp only [ticks, Runs.run_zero, Option.some.injEq] at hq
    subst hq
    exact ⟨hp, hlate⟩
  | succ n ih =>
    obtain ⟨u, hu, huq⟩ := (Runs.run_succ_eq_some tick).mp hq
    obtain ⟨huh, hnh⟩ := running_of_tick huq hrun
    obtain ⟨hup, hul⟩ := ih hu huh
    obtain ⟨-, htr⟩ | hstop := (href n u hu).phase
    swap
    · rw [hstop.halted] at huh
      cases huh
    obtain ⟨f, m, hf, hm, hs, rfl, hqp⟩ := tick_of_prompt hup huh huq
    have hret : p.retired (n + 1) = p.retired n ++ u.retires :=
      Runs.log_succ_of_run tick retires hu
    have hres : p.resolved (n + 1) = p.resolved n ++ u.resolves :=
      Runs.log_succ_of_run tick resolves hu
    have hwait : p.waited (n + 1) = p.waited n ++ u.unserved :=
      Runs.log_succ_of_run tick unserved hu
    have hlen : (p.retired (n + 1)).length = (p.retired n).length + u.memWb.valid.toNat := by
      rw [hret, retires_of_running huh, List.length_append]
      cases u.memWb.valid <;> rfl
    rw [hlen, hres, resolves_eq_leaving huh (stalls_of_prompt hup), hwait, List.length_append]
    exact ⟨hqp, hul.flow htr hf hm hs huh hnh⟩

/-- Without a predictor, what has been resolved went the way the machine goes. -/
theorem late_resolved_of_ticks (hp : p.dport.Prompt) (hlate : p.Late code s 0 [] 0)
    (hnone : p.Unpredicted)
    (href : ∀ n q, p.ticks n = some q → q.Refines (p.retired n) code s) {n : Nat}
    (hq : p.ticks n = some q) (hrun : q.halted = false) :
    q.Unpredicted ∧ Resolved code s (p.resolved n) := by
  induction n generalizing q with
  | zero =>
    simp only [ticks, Runs.run_zero, Option.some.injEq] at hq
    subst hq
    exact ⟨hnone, fun i x hx => by cases hx⟩
  | succ n ih =>
    obtain ⟨u, hu, huq⟩ := (Runs.run_succ_eq_some tick).mp hq
    obtain ⟨huh, -⟩ := running_of_tick huq hrun
    obtain ⟨hun, hures⟩ := ih hu huh
    obtain ⟨hup, hul⟩ := late_of_ticks hp hlate href hu huh
    obtain ⟨-, htr⟩ | hstop := (href n u hu).phase
    swap
    · rw [hstop.halted] at huh
      cases huh
    have hres : p.resolved (n + 1) = p.resolved n ++ u.resolves :=
      Runs.log_succ_of_run tick resolves hu
    obtain ⟨f, m, hf, -, -, rfl, -⟩ := tick_of_prompt hup huh huq
    rw [hres, resolves_eq_leaving huh (stalls_of_prompt hup)]
    exact ⟨hun.flow hf m, hures.leaving hul.count htr hun⟩

end Pipe

namespace Core

/-- The pcs that IF has waited for in the first `n` ticks, once for each cycle, until the halting
    instruction has left EX. -/
def waited (c : Core) (n : Nat) : List Word := Runs.log tick (fun c => c.view.unserved) n c

theorem waited_view {c : Core} (hq : c.Quiet) (n : Nat) : c.waited n = c.view.waited n :=
  Runs.log_map tick Pipe.tick _ (fun _ _ => quiet_tick) (fun _ => view_tick) (fun _ _ => rfl)
    hq n

variable {cfg : SimConfig} {imem dmem : Nat → Byte} {rf : RegFile}

theorem late_boot (cfg : SimConfig) (imem dmem : Nat → Byte) (rf : RegFile) (code : ByteMap)
    (s : Machine) : (boot cfg imem dmem rf).view.Late code s 0 [] 0 where
  count := rfl
  wb h := by cases h
  mem h := by cases h
  ex h := by cases h
  bubble _ _ := ⟨le_rfl, le_rfl⟩
  empty _ := rfl
  predicted h := by cases h

/-- The cycles of a halted run with prompt data and any instruction side. -/
theorem late_at_halt (hcfg : (promptData cfg).Valid)
    (halign : cfg.bpredEnabled = true → (reference cfg dmem rf).Aligned (imageOf cfg imem))
    {n : Nat} {c : Core} (hc : (boot (promptData cfg) imem dmem rf).ticks n = some c)
    (hh : c.halted = true) :
    let code := imageOf cfg imem
    let s := reference cfg dmem rf
    let res := (boot (promptData cfg) imem dmem rf).resolved n
    ∃ k, Live code k s ∧ (s.after code k).halts code = true ∧
      ((boot (promptData cfg) imem dmem rf).retired n).length = k + 1 ∧
      k + 5 + loadUses code s k + 2 * (res.take k).countP Prod.snd ≤ c.cycles ∧
      c.cycles ≤ k + 5 + loadUses code s k + 2 * (res.take k).countP Prod.snd +
        ((boot (promptData cfg) imem dmem rf).waited n).length ∧
      (cfg.bpredEnabled = false → (res.take k).countP Prod.snd = takens code s k) := by
  intro code s res
  have hquiet := quiet_boot (promptData cfg) imem dmem rf
  have hcv := view_of_ticks hquiet hc
  have href := fun k q hq => @refines_boot (promptData cfg) imem dmem rf hcfg halign k q hq
  have hprompt := prompt_boot cfg imem dmem rf
  have hboot := late_boot (promptData cfg) imem dmem rf code s
  -- the tick that retires the halting instruction
  obtain ⟨j, r, hj, hr, hrr, hrh, hrc⟩ := Pipe.halting_tick_of_halted rfl hcv hh
  obtain ⟨-, hrl⟩ := Pipe.late_of_ticks hprompt hboot href hr hrr
  have hv := Pipe.valid_of_halting hrh
  obtain ⟨hlive, htr⟩ | hstop := (href j r hr).phase
  swap
  · rw [hstop.halted] at hrr
    cases hrr
  have hcycles : c.cycles = r.stats.cycles + 1 := (Pipe.cycles_tick hrr hrc).1
  have hlog : (boot (promptData cfg) imem dmem rf).retired n =
      (boot (promptData cfg) imem dmem rf).view.retired j ++ [r.memWb] := by
    have hretires : r.retires = [r.memWb] := by
      rw [Pipe.retires_of_running hrr, hv]
      rfl
    rw [retired_view hquiet, ← hretires]
    exact Pipe.log_of_halting_tick Pipe.retires hr hrc hh (Pipe.retires_of_halted hh) hj
  have hres : res = (boot (promptData cfg) imem dmem rf).view.resolved j ++ r.resolves := by
    change (boot (promptData cfg) imem dmem rf).resolved n = _
    rw [resolved_view hquiet]
    exact Pipe.log_of_halting_tick Pipe.resolves hr hrc hh (Pipe.resolves_of_halted hh) hj
  have hwaited : (boot (promptData cfg) imem dmem rf).waited n =
      (boot (promptData cfg) imem dmem rf).view.waited j := by
    rw [waited_view hquiet]
    have hlog := Pipe.log_of_halting_tick Pipe.unserved hr hrc hh (Pipe.unserved_of_halted hh) hj
    refine hlog.trans ?_
    rw [Pipe.unserved_of_halting hrh]
    exact List.append_nil _
  have hcount := hrl.count
  rw [hv, Bool.toNat_true] at hcount
  have htake : (res.take ((boot (promptData cfg) imem dmem rf).view.retired j).length) =
      ((boot (promptData cfg) imem dmem rf).view.resolved j).take
        ((boot (promptData cfg) imem dmem rf).view.retired j).length := by
    rw [hres, List.take_append_of_le_length (by omega)]
  obtain ⟨hlo, hhi⟩ := hrl.wb hv
  rw [Pipe.due_eq, Pipe.sum_redirectedAt _ (by omega), ← htake] at hlo hhi
  refine ⟨((boot (promptData cfg) imem dmem rf).view.retired j).length, hlive,
    (htr.halting_eq hv).symm.trans hrh, by rw [hlog, List.length_append]; rfl, ?_, ?_,
    fun hoff => ?_⟩
  · unfold loadUses
    omega
  · rw [hwaited]
    unfold loadUses
    omega
  · have hnone : (boot (promptData cfg) imem dmem rf).view.Unpredicted := by
      refine ⟨?_, rfl, rfl⟩
      change (if cfg.bpredEnabled then _ else none) = none
      rw [hoff]
      rfl
    obtain ⟨-, hresolved⟩ := Pipe.late_resolved_of_ticks hprompt hboot hnone href hr hrr
    rw [htake]
    exact Pipe.countP_resolved hresolved (by omega) hlive

/-- `slowCached` behind an I-cache of two sets and an instruction memory of three cycles. -/
def codeCached : SimConfig :=
  { slowCached with
    imemLatencyCycles := 3, icacheEnabled := true, icacheLineBytes := 8, icacheSets := 2
    icacheWays := 2 }

theorem codeCached_valid : codeCached.Valid where
  dmem := slowCached_valid.dmem
  imem := ⟨by decide, by decide⟩
  dcache := slowCached_valid.dcache
  icache _ := ⟨⟨⟨3, rfl⟩, ⟨1, rfl⟩, ⟨1, rfl⟩, by decide⟩, by decide, by decide⟩
  bpred h := nomatch h

end Core

end CpuSim
