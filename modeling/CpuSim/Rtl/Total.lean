import CpuSim.Rtl.Progress
import CpuSim.Rtl.Throughput
import CpuSim.Sim.Run

/-!
# What a call of `run` has decided

`run()` ticks until the core halts or the cycle limit is reached. Every instruction retires
within a number of cycles that only the configuration decides, so a limit that is large enough
for the program settles it: the core has halted exactly when the sequential machine stops, and a
core that has not halted has retired at least as many instructions as fit into the limit at that
pace.
-/

namespace CpuSim

open Rv32i Machine

namespace Pipe

variable {cfg : SimConfig} {p q : Pipe}

/-- What a fetch waits at most. -/
def fetchWait (cfg : SimConfig) : Nat :=
  cfg.icacheHitLatencyCycles + (cfg.imemLatencyCycles - 1) + 1 + (cfg.imemLatencyCycles - 1)

/-- The cycles that an instruction takes at most. -/
def worstCase (cfg : SimConfig) : Nat := fetchWait cfg + dataWait cfg + 5

theorem Timers.waiting_lt (h : p.Timers cfg) : p.waiting cfg < worstCase cfg := by
  have hf := (Port.ranked _ _).le h.iport
  have hd := (Port.ranked _ _).le h.dport
  unfold waiting worstCase fetchWait dataWait
  split <;> (try split) <;> (try split) <;> (try split) <;> omega

/-- No instruction has taken longer than the worst case, the next one has time left. -/
structure InTime (cfg : SimConfig) (p : Pipe) : Prop where
  timers : p.Timers cfg
  running : p.halted = false →
    p.stats.cycles + p.waiting cfg + 1 ≤ (p.stats.instructions + 1) * worstCase cfg
  stopped : p.halted = true → p.stats.cycles ≤ p.stats.instructions * worstCase cfg

theorem InTime.tick (h : p.InTime cfg) (ht : p.tick = some q) : q.InTime cfg := by
  cases hh : p.halted with
  | true =>
    obtain rfl := eq_of_tick_of_halted hh ht
    exact h
  | false =>
    have hq := h.timers.tick ht
    have hcycles := (cycles_tick hh ht).1
    have hin := h.running hh
    obtain hone | ⟨hsame, hqr, hlt⟩ := h.timers.waiting_tick hh ht
    · have hlt := hq.waiting_lt
      refine ⟨hq, fun _ => ?_, fun _ => ?_⟩
      · rw [hcycles, hone, Nat.succ_mul]
        omega
      · rw [hcycles, hone]
        omega
    · refine ⟨hq, fun _ => ?_, fun hqh => ?_⟩
      · rw [hcycles, hsame]
        omega
      · rw [hqr] at hqh
        cases hqh

end Pipe

namespace Core

/-! ## The loop -/

variable {c d : Core}

theorem cycles_of_tick (hq : c.Quiet) (hrun : c.halted = false) (ht : c.tick = some d) :
    d.cycles = c.cycles + 1 := by
  have hv : c.view.tick = some d.view := by
    rw [← view_tick hq, ht]
    rfl
  exact (Pipe.cycles_tick hrun hv).1

/-- A loop that may go round more often than it has cycles left does not use the rest. -/
theorem runLoop_eq {maxCycles n : Nat} (hq : c.Quiet) (hn : maxCycles - c.cycles ≤ n) :
    runLoop maxCycles n c = run maxCycles c := by
  unfold run
  induction n generalizing c with
  | zero =>
    rw [Nat.le_zero.mp hn]
  | succ n ih =>
    cases hk : maxCycles - c.cycles with
    | zero =>
      have hstop : (!c.halted && decide (c.cycles < maxCycles)) = false := by
        rw [decide_eq_false (by omega), Bool.and_false]
      unfold runLoop
      rw [hstop]
      rfl
    | succ k =>
      unfold runLoop
      split
      · rename_i hgo
        obtain ⟨hrun, hlt⟩ := Bool.and_eq_true_iff.mp hgo
        have hrun : c.halted = false := (Bool.not_eq_true' _).mp hrun
        refine Option.bind_congr fun d hd => ?_
        have hcycles := cycles_of_tick hq hrun hd
        have hleft : maxCycles - d.cycles = k := by omega
        have hrest : maxCycles - d.cycles ≤ n := by omega
        rw [ih (quiet_tick hq hd) hrest, hleft]
      · rfl

/-- The `while` of `Core::run`. -/
theorem run_eq {maxCycles : Nat} (hq : c.Quiet) :
    run maxCycles c = if !c.halted && decide (c.cycles < maxCycles)
      then c.tick.bind (run maxCycles) else some c := by
  have hstart : run maxCycles c = runLoop maxCycles (maxCycles - c.cycles) c := rfl
  rw [hstart]
  cases hn : maxCycles - c.cycles with
  | zero =>
    rw [decide_eq_false (by omega), Bool.and_false]
    rfl
  | succ n =>
    unfold runLoop
    split
    · rename_i hgo
      have hrun : c.halted = false := (Bool.not_eq_true' _).mp (Bool.and_eq_true_iff.mp hgo).1
      refine Option.bind_congr fun d hd => ?_
      have hcycles := cycles_of_tick hq hrun hd
      have hleft : maxCycles - d.cycles ≤ n := by omega
      exact runLoop_eq (quiet_tick hq hd) hleft
    · rfl

theorem run_of_halted {maxCycles : Nat} (hq : c.Quiet) (h : c.halted = true) :
    run maxCycles c = some c := by
  rw [run_eq hq, h]
  rfl

theorem run_of_le {maxCycles : Nat} (hq : c.Quiet) (h : maxCycles ≤ c.cycles) :
    run maxCycles c = some c := by
  rw [run_eq hq, decide_eq_false (by omega), Bool.and_false]
  rfl

theorem run_of_lt {maxCycles : Nat} (hq : c.Quiet) (hrun : c.halted = false)
    (h : c.cycles < maxCycles) : run maxCycles c = c.tick.bind (run maxCycles) := by
  rw [run_eq hq, hrun, decide_eq_true h]
  rfl

/-- A call of `run` ticks, and returns a core that has halted or is at the limit. -/
theorem ticks_of_run {maxCycles : Nat} (hq : c.Quiet) (h : run maxCycles c = some d) :
    ∃ n, c.ticks n = some d ∧ (d.halted = true ∨ maxCycles ≤ d.cycles) ∧
      (c.cycles ≤ maxCycles → d.cycles ≤ maxCycles) := by
  induction hk : maxCycles - c.cycles generalizing c with
  | zero =>
    rw [run_of_le hq (by omega), Option.some.injEq] at h
    subst h
    exact ⟨0, rfl, .inr (by omega), id⟩
  | succ k ih =>
    cases hh : c.halted with
    | true =>
      rw [run_of_halted hq hh, Option.some.injEq] at h
      subst h
      exact ⟨0, rfl, .inl hh, id⟩
    | false =>
      rw [run_of_lt hq hh (by omega)] at h
      obtain ⟨u, hu, hud⟩ := Option.bind_eq_some_iff.mp h
      have hcycles := cycles_of_tick hq hh hu
      obtain ⟨n, hn, hend, hle⟩ := ih (quiet_tick hq hu) hud (by omega)
      have hone : c.ticks 1 = some u := hu
      refine ⟨1 + n, ?_, hend, fun _ => hle (by omega)⟩
      exact (Runs.run_add_of_run tick hone).trans hn

/-- Where every tick stays in range, `run` returns. -/
theorem exists_run {maxCycles : Nat} (hq : c.Quiet) (h : ∀ n, ∃ d, c.ticks n = some d) :
    ∃ d, run maxCycles c = some d := by
  induction hk : maxCycles - c.cycles generalizing c with
  | zero => exact ⟨c, run_of_le hq (by omega)⟩
  | succ k ih =>
    cases hh : c.halted with
    | true => exact ⟨c, run_of_halted hq hh⟩
    | false =>
      obtain ⟨u, hu⟩ := h 1
      have hcu : c.tick = some u := hu
      have hcycles := cycles_of_tick hq hh hcu
      have hrest : ∀ n, ∃ d, u.ticks n = some d := by
        intro n
        obtain ⟨d, hd⟩ := h (1 + n)
        exact ⟨d, (Runs.run_add_of_run tick hu).symm.trans hd⟩
      obtain ⟨d, hd⟩ := ih (quiet_tick hq hcu) hrest (by omega)
      refine ⟨d, ?_⟩
      rw [run_of_lt hq hh (by omega), hcu]
      exact hd

/-- A run to one limit and then to another is a run to the larger. -/
theorem run_bind {limit limit' : Nat} (hq : c.Quiet) :
    (run limit c).bind (run limit') = run (max limit limit') c := by
  induction hk : limit - c.cycles generalizing c with
  | zero =>
    rw [run_of_le hq (by omega), Option.bind_some]
    rcases Nat.lt_or_ge c.cycles limit' with hlt | hle
    · rw [Nat.max_eq_right (by omega)]
    · rw [run_of_le hq hle, run_of_le hq (by omega)]
  | succ k ih =>
    cases hh : c.halted with
    | true =>
      rw [run_of_halted hq hh, run_of_halted hq hh]
      exact run_of_halted hq hh
    | false =>
      rw [run_of_lt hq hh (by omega), run_of_lt hq hh (by omega), Option.bind_assoc]
      refine Option.bind_congr fun u hu => ?_
      have hcycles := cycles_of_tick hq hh hu
      exact ih (quiet_tick hq hu) (by omega)

/-- Calls of `run` with these limits, one after another. -/
def runs (limits : List Nat) (c : Core) : Option Core :=
  limits.foldlM (fun c limit => run limit c) c

theorem runs_eq (limits : List Nat) (hq : c.Quiet) :
    runs limits c = run (limits.foldr max 0) c := by
  induction limits generalizing c with
  | nil => exact (run_of_le hq (Nat.zero_le _)).symm
  | cons limit limits ih =>
    have hcons : runs (limit :: limits) c = (run limit c).bind (runs limits) := rfl
    have hrest : (run limit c).bind (runs limits) =
        (run limit c).bind (run (limits.foldr max 0)) := by
      refine Option.bind_congr fun d hd => ?_
      obtain ⟨n, hn, -⟩ := ticks_of_run hq hd
      exact ih (Runs.run_invariant tick (fun _ _ => quiet_tick) hq hn)
    rw [hcons, hrest, run_bind hq]
    rfl

/-! ## What it has decided -/

variable {cfg : SimConfig} {imem dmem : Nat → Byte} {rf : RegFile}

theorem inTime_boot (hcfg : cfg.Valid) (imem dmem : Nat → Byte) (rf : RegFile) :
    (boot cfg imem dmem rf).view.InTime cfg := by
  have htimers := timers_boot hcfg imem dmem rf
  have hlt := htimers.waiting_lt
  refine ⟨htimers, fun _ => ?_, fun h => (by cases h)⟩
  change 0 + (boot cfg imem dmem rf).view.waiting cfg + 1 ≤ (0 + 1) * Pipe.worstCase cfg
  omega

/-- What the ticks of a booted core come to. -/
theorem follows_of_ticks (hcfg : cfg.Valid)
    (halign : cfg.bpredEnabled = true → (reference cfg dmem rf).Aligned (imageOf cfg imem))
    {n : Nat} (hn : (boot cfg imem dmem rf).ticks n = some c) :
    c.view.Refines ((boot cfg imem dmem rf).view.retired n) (imageOf cfg imem)
        (reference cfg dmem rf) ∧
      c.instructions = ((boot cfg imem dmem rf).view.retired n).length ∧ c.view.InTime cfg := by
  have hcv := view_of_ticks (quiet_boot cfg imem dmem rf) hn
  exact ⟨refines_boot hcfg halign hcv, (Pipe.instructions_of_ticks hcv).trans (Nat.zero_add _),
    Runs.run_invariant Pipe.tick (fun _ _ h => h.tick) (inTime_boot hcfg imem dmem rf) hcv⟩

theorem ticks_of_runs {limits : List Nat} (hc : runs limits (boot cfg imem dmem rf) = some c) :
    ∃ n, (boot cfg imem dmem rf).ticks n = some c ∧
      (c.halted = true ∨ limits.foldr max 0 ≤ c.cycles) ∧ c.cycles ≤ limits.foldr max 0 := by
  have hquiet := quiet_boot cfg imem dmem rf
  rw [runs_eq limits hquiet] at hc
  rcases ticks_of_run hquiet hc with ⟨n, hn, hend, hle⟩
  exact ⟨n, hn, hend, hle (Nat.zero_le _)⟩

section Runs

variable {limits : List Nat}

theorem regs_of_runs (hcfg : cfg.Valid)
    (halign : cfg.bpredEnabled = true → (reference cfg dmem rf).Aligned (imageOf cfg imem))
    (hc : runs limits (boot cfg imem dmem rf) = some c) :
    c.rf = ((reference cfg dmem rf).after (imageOf cfg imem) c.instructions).regs := by
  rcases ticks_of_runs hc with ⟨n, hn, -⟩
  rcases follows_of_ticks hcfg halign hn with ⟨href, hcount, -⟩
  exact hcount ▸ href.regs

/-- A core that has halted is where the machine stops. -/
theorem stopped_of_runs (hcfg : cfg.Valid)
    (halign : cfg.bpredEnabled = true → (reference cfg dmem rf).Aligned (imageOf cfg imem))
    (hc : runs limits (boot cfg imem dmem rf) = some c) (hh : c.halted = true) :
    let code := imageOf cfg imem
    let s := reference cfg dmem rf
    ∃ k, Live code k s ∧ (s.after code k).halts code = true ∧
      c.instructions = k + 1 ∧ c.cycles ≤ (k + 1) * Pipe.worstCase cfg ∧
      c.haltPc = (s.after code k).pc ∧ c.haltRaw = wordAt code (s.after code k).pc ∧
      c.haltReason = Pipe.reasonFor ((s.after code k).insn code).op := by
  intro code s
  rcases ticks_of_runs hc with ⟨n, hn, -⟩
  rcases follows_of_ticks hcfg halign hn with ⟨href, hcount, htime⟩
  rcases href.phase with ⟨-, htr⟩ | hstop
  · have hrun : c.halted = false := htr.running
    rw [hrun] at hh
    cases hh
  · rcases hstop.last with ⟨k, hk, hlive, hkh, hpc, hraw, hreason⟩
    have hin : c.cycles ≤ c.instructions * Pipe.worstCase cfg := htime.stopped hh
    rw [hcount, hk] at hin
    exact ⟨k, hlive, hkh, hcount.trans hk, hin, hpc, hraw, hreason⟩

/-- A core that still runs has used up the limit. -/
theorem running_of_runs (hcfg : cfg.Valid)
    (halign : cfg.bpredEnabled = true → (reference cfg dmem rf).Aligned (imageOf cfg imem))
    (hc : runs limits (boot cfg imem dmem rf) = some c) (hrun : c.halted = false) :
    Live (imageOf cfg imem) c.instructions (reference cfg dmem rf) ∧
      c.cycles = limits.foldr max 0 ∧
      limits.foldr max 0 < (c.instructions + 1) * Pipe.worstCase cfg ∧ c.haltReason = .none := by
  rcases ticks_of_runs hc with ⟨n, hn, hend, hle⟩
  rcases follows_of_ticks hcfg halign hn with ⟨href, hcount, htime⟩
  have hcv := view_of_ticks (quiet_boot cfg imem dmem rf) hn
  have hfull : limits.foldr max 0 ≤ c.cycles := by
    rcases hend with hh | hfull
    · rw [hrun] at hh
      cases hh
    · exact hfull
  have hlive : Live (imageOf cfg imem) c.instructions (reference cfg dmem rf) := by
    rcases href.phase with ⟨hlive, -⟩ | hstop
    · exact hcount ▸ hlive
    · have hh : c.halted = true := hstop.halted
      rw [hrun] at hh
      cases hh
  have hin := htime.running hrun
  change c.cycles + c.view.waiting cfg + 1 ≤ (c.instructions + 1) * Pipe.worstCase cfg at hin
  refine ⟨hlive, by omega, by omega, ?_⟩
  exact Pipe.running_invariant (P := fun p => p.haltReason = .none)
    (fun p q hp hpr hph hpq => ((Pipe.tick_drain hpr hpq).2.2.2.2).trans (by rw [hph]; exact hp))
    rfl hcv hrun

end Runs

/-- Calls of `run` on a booted core, with any limits in any order, decide as much of the program
    as the largest limit has room for. Either the core has halted on the instruction that the
    sequential machine stops at, within the worst case for the instructions up to there; or the
    machine runs on behind what has retired and all cycles of the limit are used up, which are
    fewer than the worst case for one instruction more. So it has halted when the limit has room
    for the worst case of all instructions. In every case the registers are the machine's. -/
theorem run_decides (hcfg : cfg.Valid)
    (halign : cfg.bpredEnabled = true → (reference cfg dmem rf).Aligned (imageOf cfg imem))
    (limits : List Nat) (c : Core) (hc : runs limits (boot cfg imem dmem rf) = some c) :
    let code := imageOf cfg imem
    let s := reference cfg dmem rf
    let limit := limits.foldr max 0
    c.rf = (s.after code c.instructions).regs ∧ c.cycles ≤ limit ∧
      (c.halted = true → ∃ k, Live code k s ∧ (s.after code k).halts code = true ∧
        c.instructions = k + 1 ∧ c.cycles ≤ (k + 1) * Pipe.worstCase cfg ∧
        c.haltPc = (s.after code k).pc ∧ c.haltRaw = wordAt code (s.after code k).pc ∧
        c.haltReason = Pipe.reasonFor ((s.after code k).insn code).op) ∧
      (c.halted = false → Live code c.instructions s ∧ c.cycles = limit ∧
        limit < (c.instructions + 1) * Pipe.worstCase cfg ∧ c.haltReason = .none) ∧
      (∀ k, Live code k s → (s.after code k).halts code = true →
        (k + 1) * Pipe.worstCase cfg ≤ limit → c.halted = true) := by
  intro code s limit
  rcases ticks_of_runs hc with ⟨-, -, -, hle⟩
  refine ⟨regs_of_runs hcfg halign hc, hle, stopped_of_runs hcfg halign hc,
    running_of_runs hcfg halign hc, fun k hlive hkh hroom => ?_⟩
  by_contra hrun
  rcases running_of_runs hcfg halign hc ((Bool.not_eq_true _).mp hrun) with ⟨hbehind, -, hlt, -⟩
  have hshort : c.instructions ≤ k := by
    by_contra hlong
    have hruns := hbehind k (by omega)
    rw [hruns] at hkh
    cases hkh
  have := Nat.mul_le_mul_right (Pipe.worstCase cfg) (Nat.succ_le_succ hshort)
  change (c.instructions + 1) * _ ≤ (k + 1) * _ at this
  omega

/-- Two instructions, run to three cycles and then to twenty. -/
theorem run_decides_addiEbreak :
    ∃ c, runs [3, 20] (boot predicting addiEbreak (fun _ => 0) RegFile.zero) = some c ∧
      c.halted = true ∧ c.cycles ≤ 20 := by
  obtain ⟨c, hc⟩ := Option.isSome_iff_exists.mp (by decide +kernel :
    (runs [3, 20] (boot predicting addiEbreak (fun _ => 0) RegFile.zero)).isSome = true)
  obtain ⟨-, hle, -, -, hhalts⟩ := run_decides predicting_valid (fun _ => addiEbreak_aligned)
    [3, 20] c hc
  have hlive : Live (imageOf predicting addiEbreak) 1
      (reference predicting (fun _ => 0) RegFile.zero) := by
    intro j hj
    obtain rfl : j = 0 := by omega
    decide +kernel
  exact ⟨c, hc, hhalts 1 hlive (by decide +kernel) (by decide), hle⟩

end Core

end CpuSim
