import CpuSim.Rtl.Tracks

/-!
# Runs of the pipeline against runs of the machine

From `Tracks`, one tick at a time: the entries that retire are the commits of the sequential
machine in order, the register file is the machine's behind them, and a halted pipeline has
stopped on the instruction the machine stops on.
-/

namespace CpuSim

open Rv32i Machine

namespace Pipe

/-- Why the core stops on an instruction. -/
def reasonFor (op : Op) : HaltReason := if op = .ebreak then .ebreak else .illegal

/-- The pipeline has halted behind the last of its retired instructions, the one the machine
    stops at. -/
structure Stopped (q : Pipe) (log : List MemWb) (code : ByteMap) (s : Machine) : Prop where
  halted : q.halted = true
  last : ∃ k, log.length = k + 1 ∧ Live code k s ∧ (s.after code k).halts code = true ∧
    q.haltPc = (s.after code k).pc ∧ q.haltRaw = wordAt code (s.after code k).pc ∧
    q.haltReason = reasonFor ((s.after code k).insn code).op

/-- The state `q` of a run that has retired `log`, against the machine started at `s`. -/
structure Refines (q : Pipe) (log : List MemWb) (code : ByteMap) (s : Machine) : Prop where
  commits : log.map MemWb.commit = execution code log.length s
  held : ∀ (i : Nat) (a : MemWb), log[i]? = some a → a.valid = true ∧ a.Holds code (s.after code i)
  regs : q.rf = (s.after code log.length).regs
  phase : (Live code log.length s ∧ q.Tracks code (s.after code log.length)) ∨
    q.Stopped log code s

/-! ## One tick -/

variable {p q : Pipe} {code : ByteMap} {s : Machine}

/-- A tick that retires no halting instruction keeps tracking. -/
theorem Tracks.tick_of_runs (h : p.Tracks code s) (hrun : p.halting = false)
    (hhonest : ∀ j, p.pc = (s.after code j).pc → Honest code p.bpred p.pc)
    (ht : p.tick = some q) : q.Tracks code (p.atMem code s) := by
  obtain ⟨f, m, hf, hm, ⟨hs, rfl⟩ | ⟨hs, rfl⟩⟩ := tick_cases h.running ht
  · exact h.stall hf hm hs hrun
  · exact h.flow hf hm hs hrun hhonest

/-- Either kind of tick starts from `drain`. -/
theorem tick_drain (hrun : p.halted = false) (ht : p.tick = some q) :
    q.rf = p.written ∧ q.halted = (if p.halting then true else p.halted) ∧
      q.haltPc = (if p.halting then p.memWb.pc else p.haltPc) ∧
      q.haltRaw = (if p.halting then p.memWb.raw else p.haltRaw) ∧
      q.haltReason = (if p.halting then reasonFor p.memWb.op else p.haltReason) := by
  obtain ⟨f, m, -, -, ⟨-, rfl⟩ | ⟨-, rfl⟩⟩ := tick_cases hrun ht <;> exact ⟨rfl, rfl, rfl, rfl, rfl⟩

theorem valid_of_halting (h : p.halting = true) : p.memWb.valid = true := by
  simp only [halting, Bool.and_eq_true] at h; exact h.1

theorem retires_of_running (hrun : p.halted = false) :
    p.retires = if p.memWb.valid then [p.memWb] else [] := by
  simp [retires, hrun]

theorem retires_of_halted (h : p.halted = true) : p.retires = [] := by
  simp [retires, h]

theorem resolves_of_halted (h : p.halted = true) : p.resolves = [] := by
  simp [resolves, h]

/-- One tick retires at most one commit of the machine. -/
theorem Refines.tick {log : List MemWb} (h : p.Refines log code s)
    (hhonest : p.halted = false → p.memLive = true → ∀ j, p.pc = (s.after code j).pc →
      Honest code p.bpred p.pc)
    (ht : p.tick = some q) : q.Refines (log ++ p.retires) code s := by
  obtain ⟨hlive, htr⟩ | hstop := h.phase
  · have hrun := htr.running
    have hhon : p.halting = false → ∀ j, p.pc = ((s.after code log.length).after code j).pc →
        Honest code p.bpred p.pc := by
      intro hnh j hj
      rw [after_add] at hj
      exact hhonest hrun (by simp [memLive, hnh]) _ hj
    obtain ⟨hrf, hhalted, hpc, hraw, hreason⟩ := tick_drain hrun ht
    rw [htr.written_eq, atMem] at hrf
    rw [retires_of_running hrun]
    cases hv : p.memWb.valid with
    | false =>
      have hnh : p.halting = false := by simp [halting, hv]
      have hq := htr.tick_of_runs hnh (hhon hnh) ht
      rw [atMem, hv, advance_false] at hq
      rw [hv, advance_false] at hrf
      simp only [Bool.false_eq_true, if_false, List.append_nil]
      exact ⟨h.commits, h.held, hrf, .inl ⟨hlive, hq⟩⟩
    | true =>
      have hwb := htr.wb hv
      have hcommits : (log ++ [p.memWb]).map MemWb.commit =
          execution code (log ++ [p.memWb]).length s := by
        rw [List.length_append, List.length_singleton, execution_succ hlive, List.map_append,
          h.commits, List.map_singleton, hwb.commit_eq hv]
      have hafter : (s.after code log.length).step code =
          s.after code (log ++ [p.memWb]).length := by
        rw [List.length_append, List.length_singleton, after_succ]
      rw [hv, advance_true, hafter] at hrf
      have hheld : ∀ (i : Nat) (a : MemWb), (log ++ [p.memWb])[i]? = some a →
          a.valid = true ∧ a.Holds code (s.after code i) := by
        intro i a ha
        obtain hlt | heq | hgt := Nat.lt_trichotomy i log.length
        · rw [List.getElem?_append_left hlt] at ha
          exact h.held i a ha
        · rw [heq, List.getElem?_concat_length, Option.some.injEq] at ha
          rw [heq, ← ha]
          exact ⟨hv, hwb⟩
        · rw [List.getElem?_eq_none (by simp; omega)] at ha
          cases ha
      rw [if_pos rfl]
      refine ⟨hcommits, hheld, hrf, ?_⟩
      have hheq := htr.halting_eq hv
      cases hh : p.halting with
      | true =>
        rw [hh] at hheq hhalted hpc hraw hreason
        refine .inr ⟨hhalted, log.length, by simp, hlive, hheq.symm, hpc.trans hwb.pc,
          hraw.trans hwb.raw, ?_⟩
        rw [hreason, if_pos rfl, hwb.op]
      | false =>
        rw [hh] at hheq
        have hq := htr.tick_of_runs hh (hhon hh) ht
        rw [atMem, hv, advance_true, hafter] at hq
        refine .inl ⟨?_, hq⟩
        intro j hj
        rw [List.length_append, List.length_singleton] at hj
        by_cases hjl : j < log.length
        · exact hlive j hjl
        · have hjeq : j = log.length := by omega
          rw [hjeq]; exact hheq.symm
  · obtain rfl := eq_of_tick_of_halted hstop.halted ht
    rw [retires_of_halted hstop.halted, List.append_nil]
    exact h

/-! ## Logs -/

/-- Entry `i` of the log is instruction `i` of the machine. -/
theorem Refines.commit_at {log : List MemWb} (h : p.Refines log code s) {i : Nat} {a : MemWb}
    (ha : log[i]? = some a) : a.commit = (s.after code i).commit code := by
  obtain ⟨hv, hheld⟩ := h.held i a ha
  exact hheld.commit_eq hv

/-- Two runs that have halted have retired the same number of instructions. -/
theorem Refines.length_of_halted {log log' : List MemWb} (h : p.Refines log code s)
    (h' : q.Refines log' code s) (hp : p.halted = true) (hq : q.halted = true) :
    log.length = log'.length := by
  obtain ⟨-, htr⟩ | hstop := h.phase
  · rw [htr.running] at hp; cases hp
  obtain ⟨-, htr⟩ | hstop' := h'.phase
  · rw [htr.running] at hq; cases hq
  obtain ⟨k, hk, hlive, hkh, -⟩ := hstop.last
  obtain ⟨k', hk', hlive', hkh', -⟩ := hstop'.last
  rw [hk, hk', halts_unique hlive hlive' hkh hkh']

/-! ## Runs -/

/-- On a run where predictions of the instructions the machine executes are honest, the
    pipeline refines the machine. -/
theorem refines_of_ticks {p : Pipe} {code : ByteMap} {s : Machine} (h : p.Tracks code s) {n : Nat}
    (hhonest : ∀ k < n, ∀ q, p.ticks k = some q → q.halted = false → q.memLive = true →
      ∀ j, q.pc = (s.after code j).pc → Honest code q.bpred q.pc)
    {q : Pipe} (hq : p.ticks n = some q) : q.Refines (p.retired n) code s := by
  induction n generalizing q with
  | zero =>
    simp only [ticks, Runs.run_zero, Option.some.injEq] at hq
    subst hq
    exact ⟨rfl, fun i a ha => by simp [retired, Runs.log] at ha, h.regs,
      .inl ⟨fun j hj => absurd hj (Nat.not_lt_zero j), h⟩⟩
  | succ n ih =>
    obtain ⟨u, hu, hut⟩ := (Runs.run_succ_eq_some tick).mp hq
    have hru := ih (fun k hk => hhonest k (by omega)) hu
    have hstep := hru.tick (hhonest n (by omega) u hu) hut
    have hlog : p.retired (n + 1) = p.retired n ++ u.retires :=
      Runs.log_succ_of_run tick retires hu
    rw [hlog]
    exact hstep

end Pipe

end CpuSim
