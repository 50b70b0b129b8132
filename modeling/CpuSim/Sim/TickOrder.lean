import CpuSim.Base.Orders
import CpuSim.Sim.Core

/-!
# The two-phase clock

A stage reads committed latches and writes shadows and flags of its own during `evaluate()`,
so the order of those calls is free. In the latch phase EX and the hazard unit set flags that
ID and IF consume in the same phase; nothing else couples two `latch()` calls.
-/

namespace CpuSim.Core

open Orders

/-- The latch pairs whose order matters: who sets a flag before who consumes it. -/
def LatchBefore (a b : Stage) : Prop :=
  (a = .execute ∨ a = .hazard) ∧ (b = .decode ∨ b = .fetch)

instance (a b : Stage) : Decidable (LatchBefore a b) := by unfold LatchBefore; infer_instance

/-- `latch` as an action that never faults. -/
def latchAct (s : Stage) (c : Core) : Option Core := some (c.latch s)

theorem runAll_latchAct (order : List Stage) (c : Core) :
    runAll latchAct order c = some (c.latchIn order) := by
  induction order generalizing c with
  | nil => rfl
  | cons s order ih => exact ih (c.latch s)

/-! ## Evaluate calls commute -/

theorem fetch_commutes (j : Stage) : Commutes evaluate .fetch j := by
  intro c
  cases j with
  | fetch => rfl
  | memory =>
    simp only [evaluate, fetchEvaluate, memEvaluate]
    cases hf : fetchWord c.iport c.bpred c.fetch.pc <;>
      cases hm : accessMem c.dport c.exMem.reg <;>
      simp only [Option.map_none, Option.map_some, Option.bind_none, Option.bind_some, evaluate,
        fetchEvaluate, memEvaluate, hf, hm]
  | decode | forward | execute | writeback | hazard =>
    simp only [evaluate, fetchEvaluate]
    cases hf : fetchWord c.iport c.bpred c.fetch.pc <;>
      simp only [Option.map_none, Option.map_some, Option.bind_none, Option.bind_some] <;>
      simp only [evaluate, fetchEvaluate, decodeEvaluate, fwdEvaluate, exEvaluate, wbEvaluate,
        hazardEvaluate, hf, Option.map_none, Option.map_some]
    all_goals rfl

theorem memory_commutes (j : Stage) : Commutes evaluate .memory j := by
  intro c
  cases j with
  | fetch => exact (fetch_commutes .memory c).symm
  | memory => rfl
  | decode | forward | execute | writeback | hazard =>
    simp only [evaluate, memEvaluate]
    cases hm : accessMem c.dport c.exMem.reg <;>
      simp only [Option.map_none, Option.map_some, Option.bind_none, Option.bind_some] <;>
      simp only [evaluate, memEvaluate, decodeEvaluate, fwdEvaluate, exEvaluate, wbEvaluate,
        hazardEvaluate, Latch.write_reg, hm, Option.map_none, Option.map_some] <;> rfl

theorem evaluate_commutes (i j : Stage) : Commutes evaluate i j := by
  cases i with
  | fetch => exact fetch_commutes j
  | memory => exact memory_commutes j
  | decode | forward | execute | writeback | hazard =>
    intro c
    cases j with
    | fetch => exact (fetch_commutes _ c).symm
    | memory => exact (memory_commutes _ c).symm
    | decode | forward | execute | writeback | hazard => rfl

/-! ## Latch calls commute unless one signals the other -/

theorem execute_hazard_commutes : Commutes latchAct .execute .hazard := by
  intro c
  simp only [latchAct, latch, Option.bind_some, Option.some.injEq, exLatch, hazardLatch]
  cases c.ex.redirect <;> cases c.hazard.stall <;> rfl

theorem latch_commutes (i j : Stage) (hij : ¬ LatchBefore i j) (hji : ¬ LatchBefore j i) :
    Commutes latchAct i j := by
  intro c
  cases i with
  | execute =>
    cases j with
    | hazard => exact execute_hazard_commutes c
    | decode | fetch => simp [LatchBefore] at hij
    | writeback | forward | memory | execute => rfl
  | hazard =>
    cases j with
    | execute => exact (execute_hazard_commutes c).symm
    | decode | fetch => simp [LatchBefore] at hij
    | writeback | forward | memory | hazard => rfl
  | decode | fetch =>
    cases j with
    | execute | hazard => simp [LatchBefore] at hji
    | writeback | forward | memory | decode | fetch => rfl
  | writeback | forward | memory => cases j <;> rfl

/-! ## Any order of one tick -/

theorem evaluateIn_perm {evals : List Stage} (h : evals.Perm evaluateOrder) (c : Core) :
    c.evaluateIn evals = c.evaluateIn evaluateOrder :=
  runAll_perm evaluate evaluate_commutes h c

theorem latchOrder_respects : Respects LatchBefore latchOrder := by
  unfold Respects latchOrder; decide

theorem latchIn_perm {latches : List Stage} (h : latches.Perm latchOrder)
    (hr : Respects LatchBefore latches) (c : Core) : c.latchIn latches = c.latchIn latchOrder := by
  have hrun := runAll_eq_of_perm latchAct latch_commutes h hr latchOrder_respects c
  simpa only [runAll_latchAct, Option.some.injEq] using hrun

/-- The seven `evaluate()` calls may run in any order: the state they leave, with the stall
    decision in it, is the same. With the seven `latch()` calls of a non-stalled tick in any
    order that keeps EX and the hazard unit ahead of ID and IF, so is the next state. -/
theorem tick_order_irrelevant (evals latches : List Stage) (he : evals.Perm evaluateOrder)
    (hl : latches.Perm latchOrder) (hr : Respects LatchBefore latches) (c : Core) :
    c.evaluateIn evals = c.evaluateIn evaluateOrder ∧
      (∀ d : Core, d.latchIn latches = d.latchIn latchOrder) ∧
      c.tickIn evals latches = c.tick := by
  have heval := evaluateIn_perm he c
  have hlatch := latchIn_perm hl hr
  refine ⟨heval, hlatch, ?_⟩
  unfold tick tickIn
  simp only [heval, hlatch]

/-- The reverse evaluate order, and a latch order with MEM before the forwarding unit. -/
theorem tick_order_irrelevant_reversed :
    (boot {} (fun _ => 0) (fun _ => 0) RegFile.zero).tickIn evaluateOrder.reverse
        [.memory, .hazard, .execute, .fetch, .forward, .decode, .writeback] =
      (boot {} (fun _ => 0) (fun _ => 0) RegFile.zero).tick :=
  (tick_order_irrelevant evaluateOrder.reverse
    [.memory, .hazard, .execute, .fetch, .forward, .decode, .writeback] (by decide) (by decide)
    (by unfold Respects; decide) (boot {} (fun _ => 0) (fun _ => 0) RegFile.zero)).2.2

end CpuSim.Core
