import CpuSim.Rtl.Astray
import CpuSim.Rtl.InOrder

/-!
# Aborted accesses

`FlatMem::offset` asserts, and indexing past the vector is undefined, for any access the
pipeline makes: also for a word it fetches on a path the machine does not take, and for the
load or store behind the halting instruction, which MEM has already evaluated when the tick
notices the halt. So a program that never leaves the RAM may abort. It needs `Room`: the words
that IF may run ahead to lie in the RAM too, and the word behind the halting instruction has no
access outside. With room every run goes through, and without a predictor and with memories of
latency one only with room (`faultless_of_room`).
-/

namespace CpuSim

open Rv32i Machine

namespace Core

/-- The instruction, and the data it loads or stores, lie in the RAM. -/
def StepInRam (cfg : SimConfig) (code : ByteMap) (s : Machine) : Prop :=
  InRam cfg s.pc 4 ∧
    (accessWidth (s.insn code).op ≠ 0 →
      InRam cfg (s.effAddr (s.insn code)) (accessWidth (s.insn code).op))

instance (cfg : SimConfig) (code : ByteMap) (s : Machine) : Decidable (StepInRam cfg code s) := by
  unfold StepInRam; infer_instance

/-- The sequential machine only fetches and accesses what lies in the RAM. -/
def SequentialInRam (cfg : SimConfig) (code : ByteMap) (s : Machine) : Prop :=
  ∀ j, StepInRam cfg code (s.after code j)

/-- What the pipeline touches beyond the program lies in the RAM too: the states it is led to
    astray, two words ahead of every state, what it overruns at the end, and what the word behind
    the end accesses. -/
structure Room (cfg : SimConfig) (code : ByteMap) (s₀ : Machine) : Prop where
  astray : ∀ s, Roams cfg.bpredEnabled code s₀ s → (∀ j, s ≠ s₀.after code j) →
    StepInRam cfg code s
  ahead : ∀ s, Roams cfg.bpredEnabled code s₀ s → ∀ n ≤ 2, ∀ y,
    Ahead cfg.bpredEnabled code s₀ n s.pc y → InRam cfg y 4
  overrun : ∀ s, Roams cfg.bpredEnabled code s₀ s → s.halts code = true → ∀ y,
    Overruns cfg.bpredEnabled code s₀ s y → InRam cfg y 4
  behind : ∀ s, Roams cfg.bpredEnabled code s₀ s → s.halts code = true →
    StepInRam cfg code (s.behind code)

variable {cfg : SimConfig} {code : ByteMap} {s s₀ sm sx : Machine} {p q : Pipe}
  {imem dmem : Nat → Byte} {rf : RegFile}

theorem accessWidth_ne_zero {op : Op} : accessWidth op ≠ 0 ↔ isMemOp op = true := by
  cases op <;> simp [isMemOp, isStore, accessWidth]

/-! ## With room -/

theorem Room.step (hroom : Room cfg code s₀) (hseq : SequentialInRam cfg code s₀)
    (hs : Roams cfg.bpredEnabled code s₀ s) : StepInRam cfg code s := by
  by_cases hreached : ∃ j, s = s₀.after code j
  · obtain ⟨j, rfl⟩ := hreached
    exact hseq j
  · exact hroom.astray s hs (not_exists.mp hreached)

/-- Every fetch stays in the RAM. -/
theorem Room.pc (hroom : Room cfg code s₀) (h : p.Roaming cfg.bpredEnabled code s₀ s sm sx) :
    InRam cfg p.pc 4 := by
  have hle : ∀ a b : Bool, a.toNat + b.toNat ≤ 2 := by decide
  cases hhalt : p.halting with
  | true =>
    have hhalts := (h.halting_eq (Pipe.valid_of_halting hhalt)).symm.trans hhalt
    exact hroom.overrun s h.atWb hhalts _ (h.last hhalt).1
  | false =>
    have hl : p.memLive = true := by simp [Pipe.memLive, hhalt]
    cases hstop : p.exMem.valid && isHalting p.exMem.op with
    | true =>
      obtain ⟨hv, hop⟩ := Bool.and_eq_true_iff.mp hstop
      have hhalts : sm.halts code = true := by
        rw [halts_eq, ← (h.mem hv hl).op]
        exact hop
      exact hroom.overrun sm (h.atMem hl) hhalts _
        (.inl ⟨_, hle _ _, h.ahead_next hl hv hop⟩)
    | false =>
      have hxl : p.exLive = true := by simp [Pipe.exLive, hl, hstop]
      cases hv : p.idEx.valid with
      | true =>
        have hahead := h.ahead_idEx hl hv
        rw [(h.ex hv hxl).1] at hahead
        exact hroom.ahead sx (h.atEx hxl) _ (hle true _) _ hahead
      | false =>
        have hahead := h.ahead_frontPc (n := 0) hl (h.front hxl hv)
        exact hroom.ahead sx (h.atEx hxl) _ (hle false _) _ hahead

/-- So does every access. -/
theorem Room.access (hroom : Room cfg code s₀) (hseq : SequentialInRam cfg code s₀)
    (h : p.Roaming cfg.bpredEnabled code s₀ s sm sx) (hv : p.exMem.valid = true)
    (hop : isMemOp p.exMem.op = true) :
    InRam cfg p.exMem.aluOut (accessWidth p.exMem.op) := by
  have hheld : ∃ t, StepInRam cfg code t ∧ p.exMem.Holds code t := by
    cases hhalt : p.halting with
    | true =>
      have hhalts := (h.halting_eq (Pipe.valid_of_halting hhalt)).symm.trans hhalt
      exact ⟨_, hroom.behind s h.atWb hhalts, (h.last hhalt).2 hv⟩
    | false =>
      have hl : p.memLive = true := by simp [Pipe.memLive, hhalt]
      exact ⟨sm, hroom.step hseq (h.atMem hl), h.mem hv hl⟩
  obtain ⟨t, hstep, hholds⟩ := hheld
  rw [hholds.addr hop, hholds.op]
  exact hstep.2 (accessWidth_ne_zero.mpr (hholds.op ▸ hop))

/-- So every tick goes through. -/
theorem Room.exists_tick (hroom : Room cfg code s₀) (hseq : SequentialInRam cfg code s₀)
    (h : p.Roaming cfg.bpredEnabled code s₀ s sm sx)
    (hi : p.iport.span = (cfg.ramBaseAddr, cfg.ramSizeBytes))
    (hd : p.dport.span = (cfg.ramBaseAddr, cfg.ramSizeBytes)) : ∃ q, p.tick = some q := by
  obtain ⟨f, hf⟩ : ∃ f, p.fetch = some f :=
    exists_fetchWord p.bpred fun _ => (inRange_iff hi _ _).mpr (hroom.pc h)
  obtain ⟨m, hm⟩ : ∃ m, p.mem = some m :=
    exists_accessMem fun hv hop _ => (inRange_iff hd _ _).mpr (hroom.access hseq h hv hop)
  refine ⟨p.next f m, ?_⟩
  unfold Pipe.tick
  rw [h.running, hf, hm]
  rfl

/-! ## Without room -/

/-- What a tick that went through was served lies in the RAM. -/
theorem inRam_of_tick {p q : Pipe} (hrun : p.halted = false) (ht : p.tick = some q)
    (hi : p.iport.span = (cfg.ramBaseAddr, cfg.ramSizeBytes))
    (hd : p.dport.span = (cfg.ramBaseAddr, cfg.ramSizeBytes)) :
    ((IMemory.ready p.iport p.pc false).1 = true → InRam cfg p.pc 4) ∧
      (p.exMem.valid = true → isMemOp p.exMem.op = true →
        (IMemory.ready p.dport p.exMem.aluOut (isStore p.exMem.op)).1 = true →
        InRam cfg p.exMem.aluOut (accessWidth p.exMem.op)) := by
  obtain ⟨f, m, hf, hm, -⟩ := Pipe.tick_cases hrun ht
  constructor
  · intro hr
    obtain ⟨-, ⟨hnr, -⟩ | ⟨-, hin, -⟩⟩ := fetchWord_eq_some hf
    · rw [hr] at hnr; cases hnr
    · exact (inRange_iff hi _ _).mp hin
  · intro hv hop hr
    obtain ⟨hnv, -⟩ | ⟨-, -, hnr, -⟩ | ⟨-, -, hin, -⟩ := accessMem_eq_some hm
    · rw [hv] at hnv; cases hnv
    · rw [hr] at hnr; cases hnr
    · exact (inRange_iff hd _ _).mp (hin hop)

end Core

namespace Pipe

variable {p q : Pipe} {code : ByteMap} {s : Machine}

/-- An instruction that has left EX was in ID/EX on a tick of its own. -/
theorem exists_leaving (hall : ∀ n, ∃ q, p.ticks n = some q) {j n : Nat}
    (hj : j < (p.resolved n).length) :
    ∃ k u, p.ticks k = some u ∧ (p.resolved k).length = j ∧ u.halted = false ∧
      u.idEx.valid = true := by
  induction n with
  | zero => exact absurd hj (Nat.not_lt_zero j)
  | succ n ih =>
    by_cases hlt : j < (p.resolved n).length
    · exact ih hlt
    · obtain ⟨u, hu⟩ := hall n
      have hlog : p.resolved (n + 1) = p.resolved n ++ u.resolves :=
        Runs.log_succ_of_run tick resolves hu
      rw [hlog, List.length_append] at hj
      unfold resolves at hj
      cases hgo : !u.halted && !u.stalls && u.idEx.valid with
      | false =>
        rw [hgo] at hj
        exact absurd hj hlt
      | true =>
        rw [hgo, if_pos rfl, List.length_singleton] at hj
        simp only [Bool.and_eq_true, Bool.not_eq_true'] at hgo
        exact ⟨n, u, hu, by omega, hgo.1.1, hgo.2⟩

theorem due_le (code : ByteMap) (s : Machine) (res : List (Word × Bool)) (j : Nat) :
    due code s res j ≤ 4 + 4 * j := by
  induction j with
  | zero => exact Nat.le_refl 4
  | succ j ih =>
    have hu := (usesAt code s j).toNat_le
    have hr := (redirectedAt res j).toNat_le
    rw [due]
    omega

/-- With memories of latency one an instruction that the machine executes leaves EX in time. -/
theorem exists_resolved (hi : p.Ideal) (hot : p.OnTime code s 0 [])
    (href : ∀ n q, p.ticks n = some q → q.Refines (p.retired n) code s)
    (hall : ∀ n, ∃ q, p.ticks n = some q) (hzero : p.stats.cycles = 0) (hpend : p.pending = [])
    (hin : p.inMem = []) {j : Nat} (hlive : Live code j s) :
    ∃ n, j < (p.resolved n).length := by
  refine ⟨4 * j + 3, ?_⟩
  obtain ⟨q, hq⟩ := hall (4 * j + 3)
  by_contra hle
  cases hh : q.halted with
  | false =>
    obtain ⟨-, hqt⟩ := onTime_of_ticks hi hot href hq hh
    have hcycles := cycles_of_ticks hq hh
    have hdue := due_le code s (p.resolved (4 * j + 3)) (p.resolved (4 * j + 3)).length
    obtain ⟨-, htr⟩ | hstop := (href _ q hq).phase
    · have hxl := htr.exLive_of_live (hlive.mono (by rw [← hqt.count]; omega))
      cases hv : q.idEx.valid with
      | true =>
        have hex := hqt.ex hv hxl
        omega
      | false =>
        have hbubble := hqt.bubble hv hxl
        omega
    · rw [hstop.halted] at hh
      cases hh
  | true =>
    have hlen := length_resolved hpend hin hq
    obtain ⟨-, htr⟩ | hstop := (href _ q hq).phase
    · rw [htr.running] at hh
      cases hh
    · obtain ⟨k, hk, -, hkh, -⟩ := hstop.last
      have hkj : k < j := by omega
      rw [hlive k hkj] at hkh
      cases hkh

section Runout

variable {u q r : Pipe} {s₀ sm sx : Machine}

/-- Without a predictor the instruction that stops the machine goes on to MEM with the next two
    words behind it in ID/EX and IF/ID. -/
theorem Roaming.into_mem (h : u.Roaming false code s₀ s sm sx) (hi : u.Ideal)
    (hxl : u.exLive = true) (hv : u.idEx.valid = true) (hh : isHalting u.idEx.op = true)
    (hfv : u.ifId.valid = true) (huq : u.tick = some q) :
    (∃ si, q.Roaming false code s₀ sm sx si) ∧ q.Ideal ∧ q.halting = false ∧
      (q.exMem.valid = true ∧ isHalting q.exMem.op = true) ∧ q.idEx.valid = true ∧
      q.ifId.valid = true := by
  have hrun : u.halting = false := by simpa [memLive] using exLive_memLive hxl
  obtain ⟨f, m, hf, hm, hs, hfs, rfl, hqi⟩ := hi.tick_cases h.running huq
  have hr : u.exec.redirect = false := by
    have hop := (h.idEx_holds hv hxl).op
    have hpredicted := ((leads_iff silent_off _).mp (h.led (exLive_memLive hxl) hv)).1
    rw [h.redirect_eq hv hxl, hpredicted, taken_of_straight (.inl (hop ▸ hh))]
    rfl
  have hz : u.hazard = false := by
    unfold hazard loadUseHazard
    cases hc : u.idEx.op <;> simp [hc, isHalting] at hh <;> simp [isLoad]
  refine ⟨h.flow hf hm hs hrun, hqi, ?_, ⟨(exec_valid u).trans hv, ?_⟩, ?_, ?_⟩
  · rw [Tracks.flow_halting hm hs]
    simp only [exLive, Bool.and_eq_true, Bool.not_eq_true'] at hxl
    exact hxl.2
  · change isHalting u.exec.out.op = true
    rw [exec_op hv]
    exact hh
  · exact (Tracks.flow_idEx_valid u f m).mpr ⟨hr, hz, hfv⟩
  · rw [flow_ifId, hr, hz]
    change f.out.valid = true
    rw [fetch_valid hf, hfs]
    rfl

/-- Then it reaches MEM/WB with the next word in EX/MEM, executed, and the pc is where that word
    goes or behind the two words that follow it. -/
theorem Roaming.into_wb (h : q.Roaming false code s₀ s sm sx) (hi : q.Ideal)
    (hrun : q.halting = false) (hx : q.exMem.valid = true) (hh : isHalting q.exMem.op = true)
    (hv : q.idEx.valid = true) (hfv : q.ifId.valid = true) (hqr : q.tick = some r) :
    r.halted = false ∧ r.Ideal ∧ r.exMem.valid = true ∧ r.exMem.Holds code (sm.behind code) ∧
      ((sm.behind code).taken ((sm.behind code).insn code) = true →
        r.pc = (sm.behind code).nextPc ((sm.behind code).insn code)) ∧
      ((sm.behind code).taken ((sm.behind code).insn code) = false →
        usesAt code (sm.behind code) 0 = false → r.pc = q.pc + 4) := by
  have hl : q.memLive = true := by simp [memLive, hrun]
  obtain ⟨f, m, hf, hm, hs, hfs, rfl, hri⟩ := hi.tick_cases h.running hqr
  obtain ⟨si, hr⟩ := h.flow hf hm hs hrun
  have hrh : (q.flowNext f m).halting = true := by
    rw [Tracks.flow_halting hm hs, hx, hh]
    rfl
  have hrv : (q.flowNext f m).exMem.valid = true := (exec_valid q).trans hv
  have hexec := (h.next hl hx hh).2 hv
  have hholds := h.next_holds hl hx hh hv
  have hred : q.exec.redirect = (sm.behind code).taken ((sm.behind code).insn code) := by
    have hpredicted := ((leads_iff silent_off _).mp (h.led hl hv)).1
    rw [hexec, executeAt_redirect hholds, hpredicted, Bool.bne_false]
  refine ⟨hr.running, hri, hrv, (hr.last hrh).2 hrv, fun htaken => ?_, fun htaken huses => ?_⟩
  · rw [flow_pc, hred, htaken, if_pos rfl, hexec, executeAt_redirectTarget hholds]
  · rw [htaken] at hred
    have hout : f.out.valid = true := by rw [fetch_valid hf, hfs]; rfl
    have hled := (leads_iff silent_off _).mp ((h.taught hl).leads q.pc)
    rw [flow_pc, ← (h.usesAt_next hl hx hh hv hfv hred).2, huses, hfs, hred,
      (fetch_served hf hout).2.2.2, hled.2]
    rfl

end Runout

end Pipe

namespace Core

variable {cfg : SimConfig} {imem dmem : Nat → Byte} {rf : RegFile}

/-- Memories of latency one serve whatever is asked on the same tick. -/
theorem inRam_of_ideal {p q : Pipe} {n : Nat} (hp : (boot cfg imem dmem rf).view.ticks n = some p)
    (hi : p.Ideal) (hrun : p.halted = false) (ht : p.tick = some q) :
    InRam cfg p.pc 4 ∧ (p.exMem.valid = true → isMemOp p.exMem.op = true →
      InRam cfg p.exMem.aluOut (accessWidth p.exMem.op)) := by
  obtain ⟨hspan, hspan'⟩ := span_of_ticks hp
  obtain ⟨hpc, haccess⟩ := inRam_of_tick hrun ht hspan hspan'
  exact ⟨hpc (hi.1.ready _ _).1, fun hv hop => haccess hv hop (hi.2.ready _ _).1⟩

theorem valid_of_ideal (hideal : IdealMemory cfg) (hoff : cfg.bpredEnabled = false) :
    cfg.Valid where
  dmem := by rw [hideal.dmem]; exact ⟨by decide, by decide⟩
  imem := by rw [hideal.imem]; exact ⟨by decide, by decide⟩
  dcache h := by rw [hideal.dcache] at h; cases h
  icache h := by rw [hideal.icache] at h; cases h
  bpred h := by rw [hoff] at h; cases h

section Faultless

variable (hideal : IdealMemory cfg) (hoff : cfg.bpredEnabled = false)
  (hall : ∀ n, ∃ q, (boot cfg imem dmem rf).view.ticks n = some q)

include hideal hoff hall

/-- Every instruction that the machine executes is in ID/EX on some tick, and the next word is
    behind it. -/
theorem exists_inExecute {j : Nat} (hlive : Live (imageOf cfg imem) j (reference cfg dmem rf)) :
    ∃ n u s sm, (boot cfg imem dmem rf).view.ticks n = some u ∧ u.Ideal ∧ u.idEx.valid = true ∧
      u.exLive = true ∧ u.ifId.valid = true ∧
      u.Roaming false (imageOf cfg imem) (reference cfg dmem rf) s sm
        ((reference cfg dmem rf).after (imageOf cfg imem) j) := by
  have href := fun k q hq => @refines_boot cfg imem dmem rf (valid_of_ideal hideal hoff)
    (fun hon => by rw [hoff] at hon; cases hon) k q hq
  have hot := onTime_boot cfg imem dmem rf (imageOf cfg imem) (reference cfg dmem rf)
  have hib := @ideal_boot cfg imem dmem rf hideal
  obtain ⟨n, hn⟩ := Pipe.exists_resolved hib hot href hall rfl rfl rfl hlive
  obtain ⟨k, u, hu, hlen, hrun, hv⟩ := Pipe.exists_leaving hall hn
  obtain ⟨hi, hut⟩ := Pipe.onTime_of_ticks hib hot href hu hrun
  obtain ⟨-, htr⟩ | hstop := (href k u hu).phase
  swap
  · rw [hstop.halted] at hrun
    cases hrun
  have hcount := hut.count
  rw [hlen] at hcount
  have hxl := htr.exLive_of_live (hlive.mono hcount.ge)
  have hboot := roaming_boot (fun hon => by rw [hoff] at hon; cases hon) imem dmem rf
  obtain ⟨_, _, _, hroam⟩ := Pipe.roaming_of_ticks hboot hu hrun
  have hat := hroam.of_tracks htr hxl
  rw [Pipe.atEx_eq_after, ← hcount, hoff] at hat
  exact ⟨k, u, _, _, hu, hi, hv, hxl, hut.full hv, hat⟩

/-- Two words behind it are fetched. -/
theorem inRam_ahead {j : Nat} (hlive : Live (imageOf cfg imem) j (reference cfg dmem rf)) :
    InRam cfg (((reference cfg dmem rf).after (imageOf cfg imem) j).pc + 4) 4 ∧
      InRam cfg (((reference cfg dmem rf).after (imageOf cfg imem) j).pc + 8) 4 := by
  obtain ⟨n, u, s, sm, hu, hi, hv, hxl, hfv, hroam⟩ := exists_inExecute hideal hoff hall hlive
  have hl := Pipe.exLive_memLive hxl
  have hpc := (hroam.ex hv hxl).1
  obtain ⟨q, huq, -⟩ := Runs.exists_step Pipe.tick hall hu
  constructor
  · have hfront := ((leads_iff silent_off _).mp (hroam.led hl hv)).2
    have hfetched : u.Fetched (boot cfg imem dmem rf).iport.ram :=
      Runs.run_invariant Pipe.tick (fun _ _ => Pipe.Fetched.tick) (fetched_boot cfg imem dmem rf) hu
    have hzero : (boot cfg imem dmem rf).view.ticks 0 = some (boot cfg imem dmem rf).view := rfl
    have hin := (inRange_iff (span_of_ticks hzero).1 _ _).mp (hfetched.ifId hfv).1
    rw [Pipe.frontPc, hfv, if_pos rfl, hpc] at hfront
    rwa [hfront] at hin
  · have hahead := hroam.ahead_idEx hl hv
    rw [hfv, hpc] at hahead
    have hin := (inRam_of_ideal hu hi hroam.running huq).1
    rwa [(ahead_iff silent_off 2).mp hahead] at hin

/-- On the next three ticks the word behind the instruction that stops the machine is executed
    and accesses the memory, and IF fetches two words more. -/
theorem inRam_runout {j : Nat} (hlive : Live (imageOf cfg imem) j (reference cfg dmem rf))
    (hhalts : ((reference cfg dmem rf).after (imageOf cfg imem) j).halts (imageOf cfg imem) =
      true) {sb : Machine}
    (hsb : sb = ((reference cfg dmem rf).after (imageOf cfg imem) j).behind (imageOf cfg imem)) :
    InRam cfg (sb.pc + 8) 4 ∧
      (sb.taken (sb.insn (imageOf cfg imem)) = true →
        InRam cfg (sb.nextPc (sb.insn (imageOf cfg imem))) 4) ∧
      (sb.taken (sb.insn (imageOf cfg imem)) = false →
        Pipe.usesAt (imageOf cfg imem) sb 0 = false → InRam cfg (sb.pc + 12) 4) ∧
      (accessWidth (sb.insn (imageOf cfg imem)).op ≠ 0 →
        InRam cfg (sb.effAddr (sb.insn (imageOf cfg imem)))
          (accessWidth (sb.insn (imageOf cfg imem)).op)) := by
  obtain ⟨n, u, s, sm, hu, hi, hv, hxl, hfv, hroam⟩ := exists_inExecute hideal hoff hall hlive
  generalize (reference cfg dmem rf).after (imageOf cfg imem) j = sx at *
  have hh : isHalting u.idEx.op = true := by
    rw [(hroam.idEx_holds hv hxl).op, ← halts_eq]
    exact hhalts
  obtain ⟨q, huq, hq⟩ := Runs.exists_step Pipe.tick hall hu
  obtain ⟨r, hqr, hr⟩ := Runs.exists_step Pipe.tick hall hq
  obtain ⟨t, hrt, -⟩ := Runs.exists_step Pipe.tick hall hr
  obtain ⟨⟨si, hqr'⟩, hqi, hqrun, ⟨hqx, hqop⟩, hqv, hqfv⟩ :=
    hroam.into_mem hi hxl hv hh hfv huq
  obtain ⟨hrrun, hri, hrv, hholds, hjump, hfour⟩ :=
    hqr'.into_wb hqi hqrun hqx hqop hqv hqfv hqr
  have hqpc : q.pc = sb.pc + 8 := by
    have hahead := hqr'.ahead_next (by simp [Pipe.memLive, hqrun]) hqx hqop
    rw [hqv, hqfv] at hahead
    rw [(ahead_iff silent_off _).mp hahead, hsb]
    rfl
  have hthree := (inRam_of_ideal hq hqi hqr'.running hqr).1
  obtain ⟨hlast, haccess⟩ := inRam_of_ideal hr hri hrrun hrt
  rw [← hsb] at hholds hjump hfour
  rw [hqpc] at hthree hfour
  refine ⟨hthree, fun htaken => ?_, fun htaken huses => ?_, fun hwidth => ?_⟩
  · rwa [hjump htaken] at hlast
  · rwa [hfour htaken huses, BitVec.add_assoc] at hlast
  · rw [← hholds.op] at hwidth ⊢
    have hop := accessWidth_ne_zero.mp hwidth
    rw [← hholds.addr hop]
    exact haccess hrv hop

/-- What is fetched and accessed behind the instruction that stops the machine. -/
theorem inRam_end {j : Nat} (hlive : Live (imageOf cfg imem) j (reference cfg dmem rf))
    (hhalts : ((reference cfg dmem rf).after (imageOf cfg imem) j).halts (imageOf cfg imem) =
      true) :
    (∀ y, Overruns false (imageOf cfg imem) (reference cfg dmem rf)
      ((reference cfg dmem rf).after (imageOf cfg imem) j) y → InRam cfg y 4) ∧
    StepInRam cfg (imageOf cfg imem)
      (((reference cfg dmem rf).after (imageOf cfg imem) j).behind (imageOf cfg imem)) := by
  obtain ⟨hone, htwo⟩ := inRam_ahead hideal hoff hall hlive
  obtain ⟨hthree, hjump, hfour, haccess⟩ := inRam_runout hideal hoff hall hlive hhalts rfl
  generalize (reference cfg dmem rf).after (imageOf cfg imem) j = sx at *
  have hbehind : (sx.behind (imageOf cfg imem)).pc = sx.pc + 4 := rfl
  rw [hbehind] at hthree hfour
  have htwo' : InRam cfg (sx.pc + 4 + 4) 4 := by
    rw [BitVec.add_assoc]
    exact htwo
  refine ⟨?_, hone, haccess⟩
  rintro y (⟨k, hk, hy⟩ | rfl | ⟨hstraight, hy⟩)
  · rw [(ahead_iff silent_off k).mp hy]
    obtain rfl | rfl | rfl : k = 0 ∨ k = 1 ∨ k = 2 := by omega
    · simpa using hone
    · exact htwo'
    · exact hthree
  · cases htaken : (sx.behind (imageOf cfg imem)).taken
      ((sx.behind (imageOf cfg imem)).insn (imageOf cfg imem)) with
    | true => exact hjump htaken
    | false =>
      have hipc : ((sx.behind (imageOf cfg imem)).insn (imageOf cfg imem)).pc = sx.pc + 4 :=
        decode_pc _ _
      rw [nextPc, htaken, hipc]
      exact htwo'
  · obtain ⟨htaken, huses⟩ := hstraight rfl
    rw [(ahead_iff silent_off 3).mp hy]
    exact hfour htaken huses

/-- A run that goes through has had room. -/
theorem room_of_faultless
    (hseq : SequentialInRam cfg (imageOf cfg imem) (reference cfg dmem rf)) :
    Room cfg (imageOf cfg imem) (reference cfg dmem rf) := by
  have hreached : ∀ {s}, Roams cfg.bpredEnabled (imageOf cfg imem) (reference cfg dmem rf) s →
      ∃ j, Live (imageOf cfg imem) j (reference cfg dmem rf) ∧
        s = (reference cfg dmem rf).after (imageOf cfg imem) j := by
    intro s hs
    rw [hoff] at hs
    obtain ⟨n, rfl⟩ := hs.eq_after
    exact exists_live _ n
  constructor
  case astray =>
    intro s hs hnever
    obtain ⟨j, -, rfl⟩ := hreached hs
    exact absurd rfl (hnever j)
  case ahead =>
    intro s hs n hn y hy
    obtain ⟨j, hlive, rfl⟩ := hreached hs
    have hin := inRam_ahead hideal hoff hall hlive
    rw [hoff] at hy
    rw [(ahead_iff silent_off n).mp hy]
    obtain rfl | rfl | rfl : n = 0 ∨ n = 1 ∨ n = 2 := by omega
    · simpa using (hseq j).1
    · exact hin.1
    · exact hin.2
  case overrun =>
    intro s hs hhalts y hy
    obtain ⟨j, hlive, rfl⟩ := hreached hs
    rw [hoff] at hy
    exact (inRam_end hideal hoff hall hlive hhalts).1 y hy
  case behind =>
    intro s hs hhalts
    obtain ⟨j, hlive, rfl⟩ := hreached hs
    exact (inRam_end hideal hoff hall hlive hhalts).2

end Faultless

/-- Where the sequential machine stays in the RAM, a core with room for what it speculates on
    runs without an abort, whatever the configuration. With memories of latency one, no cache and
    no predictor it needs that room. -/
theorem faultless_of_room (cfg : SimConfig) (imem dmem : Nat → Byte) (rf : RegFile)
    (hbtb : cfg.bpredEnabled = true →
      IsPow2 cfg.bpredBtbEntries ∧ cfg.bpredBtbEntries < 2 ^ 32)
    (hseq : SequentialInRam cfg (imageOf cfg imem) (reference cfg dmem rf)) :
    (Room cfg (imageOf cfg imem) (reference cfg dmem rf) →
      ∀ n, ∃ c, (boot cfg imem dmem rf).ticks n = some c) ∧
    (IdealMemory cfg → cfg.bpredEnabled = false →
      (∀ n, ∃ c, (boot cfg imem dmem rf).ticks n = some c) →
        Room cfg (imageOf cfg imem) (reference cfg dmem rf)) := by
  have hquiet := quiet_boot cfg imem dmem rf
  have hviews : (∀ n, ∃ c, (boot cfg imem dmem rf).ticks n = some c) ↔
      ∀ n, ∃ q, (boot cfg imem dmem rf).view.ticks n = some q := by
    refine forall_congr' fun n => ?_
    rw [← view_ticks hquiet]
    simp
  rw [hviews]
  refine ⟨fun hroom n => ?_, fun hideal hoff hall => room_of_faultless hideal hoff hall hseq⟩
  induction n with
  | zero => exact ⟨_, rfl⟩
  | succ n ih =>
    obtain ⟨p, hp⟩ := ih
    have htick : ∃ q, p.tick = some q := by
      cases hh : p.halted with
      | true => exact ⟨p, Pipe.tick_of_halted hh⟩
      | false =>
        obtain ⟨s, sm, sx, hroam⟩ :=
          Pipe.roaming_of_ticks (roaming_boot hbtb imem dmem rf) hp hh
        obtain ⟨hi, hd⟩ := span_of_ticks hp
        exact hroom.exists_tick hseq hroam hi hd
    obtain ⟨q, hq⟩ := htick
    exact ⟨q, (Runs.run_succ_eq_some Pipe.tick).mpr ⟨p, hp, hq⟩⟩

/-! ## A program with room, and one without -/

/-- The two instructions of `addiEbreak` are all that the pipeline may execute, and nothing in it
    trains the predictor. -/
theorem addiEbreak_roams {s : Machine} (h : Roams true (imageOf predicting addiEbreak)
      (reference predicting (fun _ => 0) RegFile.zero) s) :
    ∃ j < 2, s = (reference predicting (fun _ => 0) RegFile.zero).after
      (imageOf predicting addiEbreak) j := by
  induction h with
  | start => exact ⟨0, by omega, rfl⟩
  | step _ ih =>
    obtain ⟨j, hj, rfl⟩ := ih
    obtain rfl | rfl : j = 0 ∨ j = 1 := by omega
    · exact ⟨1, by omega, rfl⟩
    · exact ⟨1, by omega, step_of_halts (by decide +kernel)⟩
  | astray _ _ _ htaken _ _ ih =>
    obtain ⟨j, hj, rfl⟩ := ih
    have hstraight : ∀ j < 2, ((reference predicting (fun _ => 0) RegFile.zero).after
        (imageOf predicting addiEbreak) j).taken (((reference predicting (fun _ => 0)
          RegFile.zero).after (imageOf predicting addiEbreak) j).insn
            (imageOf predicting addiEbreak)) = false := by decide +kernel
    rw [hstraight j hj] at htaken
    cases htaken

theorem addiEbreak_room :
    Room predicting (imageOf predicting addiEbreak)
      (reference predicting (fun _ => 0) RegFile.zero) := by
  have hsilent : Silent true (imageOf predicting addiEbreak)
      (reference predicting (fun _ => 0) RegFile.zero) := by
    have huntrained : ∀ j < 2, ((reference predicting (fun _ => 0) RegFile.zero).after
        (imageOf predicting addiEbreak) j).trains (imageOf predicting addiEbreak) = false := by
      decide +kernel
    intro _ t ht
    obtain ⟨j, hj, rfl⟩ := addiEbreak_roams ht
    exact huntrained j hj
  constructor
  case astray =>
    intro s hs hnever
    obtain ⟨j, -, rfl⟩ := addiEbreak_roams hs
    exact absurd rfl (hnever j)
  case ahead =>
    intro s hs n hn y hy
    obtain ⟨j, hj, rfl⟩ := addiEbreak_roams hs
    rw [(ahead_iff hsilent n).mp hy]
    clear hs hy
    revert j n
    decide +kernel
  case overrun =>
    intro s hs hhalts y hy
    obtain ⟨j, hj, rfl⟩ := addiEbreak_roams hs
    clear hs
    obtain ⟨n, hn, hy⟩ | rfl | ⟨-, hy⟩ := hy
    · rw [(ahead_iff hsilent n).mp hy]
      clear hy
      revert j n
      decide +kernel
    · revert j
      decide +kernel
    · rw [(ahead_iff hsilent 3).mp hy]
      clear hy
      revert j
      decide +kernel
  case behind =>
    intro s hs hhalts
    obtain ⟨j, hj, rfl⟩ := addiEbreak_roams hs
    clear hs
    revert j
    decide +kernel

theorem faultless_of_room_addiEbreak :
    Room predicting (imageOf predicting addiEbreak)
        (reference predicting (fun _ => 0) RegFile.zero) ∧
      ∀ n, ∃ c, (boot predicting addiEbreak (fun _ => 0) RegFile.zero).ticks n = some c := by
  refine ⟨addiEbreak_room, (faultless_of_room predicting addiEbreak (fun _ => 0) RegFile.zero
    (fun _ => ⟨⟨2, rfl⟩, by decide⟩) fun j => ?_).1 addiEbreak_room⟩
  have hfirst : ∀ i < 2, StepInRam predicting (imageOf predicting addiEbreak)
      ((reference predicting (fun _ => 0) RegFile.zero).after
        (imageOf predicting addiEbreak) i) := by decide +kernel
  obtain ⟨i, hi, hj⟩ := addiEbreak_roams (.after j)
  rw [hj]
  exact hfirst i hi

/-- EBREAK in the last word of the RAM. -/
def oneWord : SimConfig := { ramBaseAddr := 0, ramSizeBytes := 4 }

def ebreakOnly : Nat → Byte := halfwords [0x0073, 0x0010]

/-- The machine stops at EBREAK without leaving the RAM; the pipeline fetches the word behind
    it one tick later and aborts. -/
theorem ebreakOnly_faults :
    SequentialInRam oneWord (imageOf oneWord ebreakOnly)
        (reference oneWord (fun _ => 0) RegFile.zero) ∧
      (boot oneWord ebreakOnly (fun _ => 0) RegFile.zero).ticks 2 = none := by
  refine ⟨?_, Option.isNone_iff_eq_none.mp (by decide +kernel)⟩
  intro j
  rw [after_of_halts (by decide +kernel)]
  decide +kernel

end Core

end CpuSim
