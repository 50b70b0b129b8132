import CpuSim.Rtl.Correct
import CpuSim.Rtl.InOrder

/-!
# Branch statistics are conserved

EX evaluates an instruction on every cycle it is held there, and the probe counts on the one
cycle on which it leaves. So the two counters together count the control-flow instructions that
have left EX, each once, and by `slips_of_ticks` those have retired or wait in EX/MEM or MEM/WB.
-/

namespace CpuSim

open Rv32i

/-- Conditional branches, JAL and JALR. -/
def isControl (op : Op) : Bool := isCondBranch op || op == .jal || op == .jalr

/-- Control-flow instructions resolved in EX. -/
def SimStats.branches (s : SimStats) : Nat := s.branchCorrect + s.branchMispredicts

/-- The number of control-flow instructions among some slips. -/
def branchCount (l : List Slip) : Nat := l.countP fun s => isControl s.op

namespace Pipe

variable {p q : Pipe}

theorem exec_control (p : Pipe) :
    p.exec.control = (p.idEx.valid && isControl p.exec.out.op) := by
  unfold exec
  cases p.idEx.valid with
  | false => rfl
  | true =>
    rw [if_pos rfl, Bool.true_and]
    rfl

theorem branches_retired (p : Pipe) : p.retiredStats.branches = p.stats.branches := by
  unfold retiredStats
  split <;> rfl

theorem branches_countBranch (s : SimStats) (redirect : Bool) :
    (s.countBranch redirect).branches = s.branches + 1 := by
  unfold SimStats.countBranch SimStats.branches
  split <;> dsimp only <;> omega

/-- A tick counts what leaves EX on it. -/
theorem branches_tick (ht : p.tick = some q) :
    q.stats.branches = p.stats.branches + branchCount (p.leaves.map ExMem.slip) := by
  cases hh : p.halted with
  | true =>
    obtain rfl := eq_of_tick_of_halted hh ht
    rw [leaves_of_halted hh]
    rfl
  | false =>
    obtain ⟨f, m, -, hm, ⟨hs, rfl⟩ | ⟨hs, rfl⟩⟩ := tick_cases hh ht
    · rw [leaves_of_stall ((mem_stalling hm).symm.trans hs)]
      exact branches_retired p
    · rw [leaves_of_flow hh ((mem_stalling hm).symm.trans hs)]
      change (if p.exec.control then p.retiredStats.countBranch p.exec.redirect
        else p.retiredStats).branches = _
      rw [exec_control, ← branches_retired p]
      cases p.idEx.valid with
      | false => rfl
      | true =>
        have hone : branchCount ([p.exec.out].map ExMem.slip) =
            if isControl p.exec.out.op then 1 else 0 := List.countP_singleton
        rw [Bool.true_and, if_pos rfl, hone]
        split
        · exact branches_countBranch _ _
        · rfl

/-- The counters of a run count what has left EX in it. -/
theorem branches_of_ticks {n : Nat} (hq : p.ticks n = some q) :
    q.stats.branches = p.stats.branches + branchCount ((p.left n).map ExMem.slip) := by
  induction n generalizing q with
  | zero =>
    simp only [ticks, Runs.run_zero, Option.some.injEq] at hq
    subst hq
    rfl
  | succ n ih =>
    obtain ⟨u, hu, huq⟩ := (Runs.run_succ_eq_some tick).mp hq
    have hl : p.left (n + 1) = p.left n ++ u.leaves := Runs.log_succ_of_run tick leaves hu
    rw [branches_tick huq, ih hu, hl, List.map_append]
    unfold branchCount
    rw [List.countP_append, Nat.add_assoc]

end Pipe

namespace Core

variable {cfg : SimConfig} {imem dmem : Nat → Byte} {rf : RegFile}

/-- Whatever the configuration, the program and the number of ticks, the two branch counters add
    up to the control-flow instructions that have left EX, and those are the retired ones and
    the ones in MEM/WB and EX/MEM, in order and each once. -/
theorem branch_counts_conserved (cfg : SimConfig) (imem dmem : Nat → Byte) (rf : RegFile)
    (n : Nat) (c : Core) (hc : (boot cfg imem dmem rf).ticks n = some c) :
    let inWb := if c.memWb.reg.valid && isControl c.memWb.reg.op then 1 else 0
    let inMem := if c.exMem.reg.valid && isControl c.exMem.reg.op then 1 else 0
    c.stats.branchCorrect + c.stats.branchMispredicts =
        ((boot cfg imem dmem rf).retired n).countP (fun wb => isControl wb.op) + inWb + inMem ∧
      c.stats.branchCorrect + c.stats.branchMispredicts =
        ((boot cfg imem dmem rf).left n).countP (fun ex => isControl ex.op) ∧
      ((boot cfg imem dmem rf).left n).map ExMem.slip =
        ((boot cfg imem dmem rf).retired n).map MemWb.slip ++ c.view.pending.map MemWb.slip ++
          c.view.inMem.map ExMem.slip := by
  intro inWb inMem
  have hquiet := quiet_boot cfg imem dmem rf
  have hcv := view_of_ticks hquiet hc
  have hslips := Pipe.slips_of_ticks rfl rfl hcv
  have hcount : c.stats.branchCorrect + c.stats.branchMispredicts =
      0 + branchCount ((((boot cfg imem dmem rf).view).left n).map ExMem.slip) :=
    Pipe.branches_of_ticks hcv
  rw [Nat.zero_add] at hcount
  have hleft : branchCount ((((boot cfg imem dmem rf).view).left n).map ExMem.slip) =
      ((boot cfg imem dmem rf).left n).countP (fun ex => isControl ex.op) := by
    rw [left_view hquiet]
    exact List.countP_map
  refine ⟨?_, hcount.trans hleft, ?_⟩
  · rw [hcount, hslips]
    unfold branchCount
    rw [List.countP_append, List.countP_append, List.countP_map, List.countP_map,
      List.countP_map, ← retired_view hquiet]
    have hwb : List.countP ((fun s => isControl s.op) ∘ MemWb.slip) c.view.pending = inWb := by
      unfold Pipe.pending
      have hv : c.view.memWb = c.memWb.reg := rfl
      rw [hv]
      cases hval : c.memWb.reg.valid with
      | false => simp [inWb, hval]
      | true =>
        rw [if_pos rfl, List.countP_singleton]
        simp only [inWb, hval, Bool.true_and]
        rfl
    have hmem : List.countP ((fun s => isControl s.op) ∘ ExMem.slip) c.view.inMem = inMem := by
      unfold Pipe.inMem
      have hv : c.view.exMem = c.exMem.reg := rfl
      rw [hv]
      cases hval : c.exMem.reg.valid with
      | false => simp [inMem, hval]
      | true =>
        rw [if_pos rfl, List.countP_singleton]
        simp only [inMem, hval, Bool.true_and]
        rfl
    rw [hwb, hmem]
    rfl
  · rw [left_view hquiet, retired_view hquiet]
    exact hslips

/-- A JAL that loops on itself, in full flight. -/
theorem branch_counts_conserved_selfLoop :
    ∃ c, (boot predicting (halfwords [0x006F, 0]) (fun _ => 0) RegFile.zero).ticks 9 = some c ∧
      c.stats.branchCorrect + c.stats.branchMispredicts =
        ((boot predicting (halfwords [0x006F, 0]) (fun _ => 0) RegFile.zero).left 9).countP
          fun ex => isControl ex.op := by
  obtain ⟨c, hc⟩ := Option.isSome_iff_exists.mp (by decide +kernel :
    ((boot predicting (halfwords [0x006F, 0]) (fun _ => 0) RegFile.zero).ticks 9).isSome = true)
  exact ⟨c, hc, (branch_counts_conserved predicting (halfwords [0x006F, 0]) (fun _ => 0)
    RegFile.zero 9 c hc).2.1⟩

end Core

end CpuSim
