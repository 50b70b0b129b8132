import Mathlib.Logic.Function.Basic

/-!
# Runs of a partial step function

A system given by `step : σ → Option σ`, where `none` is a fault that ends the run. `run n`
makes `n` steps, `log n` collects what an observer sees in the states those steps start from.
-/

namespace Runs

variable {σ τ ε : Type*} (step : σ → Option σ) (step' : τ → Option τ) (obs : σ → List ε)

/-- `n` steps from `s`, or `none` when one of them faults. -/
def run : Nat → σ → Option σ
  | 0, s => some s
  | n + 1, s => (run n s).bind step

/-- What `obs` sees in the states the first `n` steps start from. -/
def log : Nat → σ → List ε
  | 0, _ => []
  | n + 1, s => log n s ++ ((run step n s).map obs).getD []

@[simp] theorem run_zero (s : σ) : run step 0 s = some s := rfl

theorem run_succ (n : Nat) (s : σ) : run step (n + 1) s = (run step n s).bind step := rfl

theorem run_succ_eq_some {n : Nat} {s t : σ} :
    run step (n + 1) s = some t ↔ ∃ u, run step n s = some u ∧ step u = some t :=
  Option.bind_eq_some_iff

theorem log_succ_of_run {n : Nat} {s t : σ} (h : run step n s = some t) :
    log step obs (n + 1) s = log step obs n s ++ obs t := by
  simp [log, h]

theorem run_add (m n : Nat) (s : σ) :
    run step (m + n) s = (run step m s).bind (run step n) := by
  induction n with
  | zero => cases run step m s <;> rfl
  | succ n ih =>
    rw [← Nat.add_assoc, run_succ, ih]
    cases run step m s <;> rfl

theorem run_add_of_run {m n : Nat} {s t : σ} (h : run step m s = some t) :
    run step (m + n) s = run step n t := by
  rw [run_add, h]; rfl

/-- In a run that never faults a state that was reached has a next one. -/
theorem exists_step {s : σ} (hall : ∀ n, ∃ t, run step n s = some t) {n : Nat} {t : σ}
    (h : run step n s = some t) : ∃ u, step t = some u ∧ run step (n + 1) s = some u := by
  obtain ⟨u, hu⟩ := hall (n + 1)
  obtain ⟨t', ht', htu⟩ := (run_succ_eq_some step).mp hu
  obtain rfl := Option.some.inj (h.symm.trans ht')
  exact ⟨u, htu, hu⟩

/-- Steps before a state that was reached did not fault. -/
theorem run_of_le {m n : Nat} {s t : σ} (h : run step n s = some t) (hmn : m ≤ n) :
    ∃ u, run step m s = some u := by
  obtain ⟨k, rfl⟩ := Nat.exists_eq_add_of_le hmn
  rw [run_add] at h
  obtain ⟨u, hu, -⟩ := Option.bind_eq_some_iff.mp h
  exact ⟨u, hu⟩

theorem log_add_of_run {m n : Nat} {s t : σ} (h : run step m s = some t) :
    log step obs (m + n) s = log step obs m s ++ log step obs n t := by
  induction n with
  | zero => simp [log]
  | succ n ih =>
    rw [← Nat.add_assoc]
    simp only [log, ih, run_add_of_run step h, List.append_assoc]

/-- An invariant of single steps holds along every run. -/
theorem run_invariant {P : σ → Prop} (hstep : ∀ s t, P s → step s = some t → P t)
    {n : Nat} {s t : σ} (hs : P s) (h : run step n s = some t) : P t := by
  induction n generalizing t with
  | zero => simp only [run_zero, Option.some.injEq] at h; exact h ▸ hs
  | succ n ih =>
    obtain ⟨u, hu, hut⟩ := (run_succ_eq_some step).mp h
    exact hstep u t (ih hu) hut

/-- A fixed point of `step` ends every run that reaches it. -/
theorem run_of_fixed {s : σ} (h : step s = some s) (n : Nat) : run step n s = some s := by
  induction n with
  | zero => rfl
  | succ n ih => rw [run_succ, ih, Option.bind_some, h]

/-- What is in a log was seen in some state of the run. -/
theorem mem_log {n : Nat} {s : σ} {e : ε} (h : e ∈ log step obs n s) :
    ∃ k < n, ∃ t, run step k s = some t ∧ e ∈ obs t := by
  induction n with
  | zero => cases h
  | succ n ih =>
    rcases List.mem_append.mp h with h | h
    · obtain ⟨k, hk, ht⟩ := ih h
      exact ⟨k, by omega, ht⟩
    · cases hr : run step n s with
      | none =>
        rw [hr] at h
        cases h
      | some t =>
        rw [hr] at h
        exact ⟨n, by omega, t, hr, h⟩

/-- Where an observer that sees nothing at a fixed point stops. -/
theorem log_of_fixed {m n : Nat} {s t : σ} (h : run step m s = some t) (ht : step t = some t)
    (hobs : obs t = []) (hmn : m ≤ n) : log step obs n s = log step obs m s := by
  obtain ⟨k, rfl⟩ := Nat.exists_eq_add_of_le hmn
  rw [log_add_of_run step obs h]
  have hk : log step obs k t = [] := by
    induction k with
    | zero => rfl
    | succ k ih =>
      rw [log_succ_of_run step obs (run_of_fixed step ht k), ih (by omega), hobs]
      rfl
  rw [hk, List.append_nil]

/-- A view that commutes with single steps, under an invariant, commutes with runs. -/
theorem run_map {P : σ → Prop} {f : σ → τ} (hP : ∀ s t, P s → step s = some t → P t)
    (hf : ∀ s, P s → (step s).map f = step' (f s)) {s : σ} (hs : P s) (n : Nat) :
    (run step n s).map f = run step' n (f s) := by
  induction n with
  | zero => rfl
  | succ n ih =>
    rw [run_succ, run_succ, ← ih]
    cases h : run step n s with
    | none => rfl
    | some t => exact hf t (run_invariant step hP hs h)

/-- Under the same view, an observer that only looks at the view sees the same log. -/
theorem log_map {P : σ → Prop} {f : σ → τ} {obs' : τ → List ε}
    (hP : ∀ s t, P s → step s = some t → P t)
    (hf : ∀ s, P s → (step s).map f = step' (f s)) (hobs : ∀ s, P s → obs s = obs' (f s))
    {s : σ} (hs : P s) (n : Nat) : log step obs n s = log step' obs' n (f s) := by
  induction n with
  | zero => rfl
  | succ n ih =>
    simp only [log, ih, ← run_map step step' hP hf hs n]
    cases h : run step n s with
    | none => rfl
    | some t => simp [hobs t (run_invariant step hP hs h)]

/-- A measure that falls on every step short of a goal bounds the steps to the goal. -/
theorem exists_run_of_measure {P goal : σ → Prop} {rank : σ → Nat}
    (hstep : ∀ s t, P s → step s = some t → goal t ∨ P t ∧ rank t < rank s) {s : σ} (hs : P s)
    (hrun : ∀ n, ∃ t, run step n s = some t) :
    ∃ n t, n ≤ rank s ∧ run step (n + 1) s = some t ∧ goal t := by
  induction hr : rank s using Nat.strongRecOn generalizing s with
  | ind r ih =>
    obtain ⟨t, ht⟩ := hrun 1
    have hst : step s = some t := ht
    rcases hstep s t hs hst with hg | ⟨hP, hlt⟩
    · exact ⟨0, t, Nat.zero_le _, ht, hg⟩
    · have hrun' : ∀ n, ∃ u, run step n t = some u := by
        intro n
        rw [← run_add_of_run step ht]
        exact hrun (1 + n)
      obtain ⟨n, u, hn, hu, hg⟩ := ih (rank t) (by omega) hP hrun' rfl
      refine ⟨n + 1, u, by omega, ?_, hg⟩
      rw [Nat.add_comm, run_add_of_run step ht]
      exact hu

/-! ## Stuttering -/

/-- `l'` is `l` with entries repeated in place. -/
inductive Stutters {α : Type*} : List α → List α → Prop
  | nil : Stutters [] []
  | next {l l' : List α} (h : Stutters l l') (a : α) : Stutters (l ++ [a]) (l' ++ [a])
  | again {l l' : List α} {a : α} (h : Stutters (l ++ [a]) l') :
      Stutters (l ++ [a]) (l' ++ [a])

theorem Stutters.replicate {α : Type*} {l l' : List α} (h : Stutters l l') (a : α) {n : Nat}
    (hn : 0 < n) : Stutters (l ++ [a]) (l' ++ List.replicate n a) := by
  induction n with
  | zero => omega
  | succ n ih =>
    rcases Nat.eq_zero_or_pos n with rfl | hpos
    · exact h.next a
    · rw [List.replicate_succ', ← List.append_assoc]
      exact (ih hpos).again

end Runs
