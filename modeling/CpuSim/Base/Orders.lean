import Mathlib.Data.List.Perm.Basic

/-!
# Orders of partially commuting actions

A family of actions on a state, each of which may fault. Two orders of the same actions give
the same result when every pair the orders may swap commutes. `before` says which pairs may
not be swapped.
-/

namespace Orders

variable {ι σ : Type*} (act : ι → σ → Option σ)

/-- The actions of a list, left to right; a fault ends the sequence. -/
def runAll (l : List ι) (s : σ) : Option σ := l.foldlM (fun s i => act i s) s

/-- Either order of the two actions gives the same state, or the same fault. -/
def Commutes (i j : ι) : Prop := ∀ s, (act i s).bind (act j) = (act j s).bind (act i)

/-- No action stands behind one that it must precede. -/
def Respects (before : ι → ι → Prop) (l : List ι) : Prop := l.Pairwise fun a b => ¬ before b a

@[simp] theorem runAll_nil (s : σ) : runAll act [] s = some s := rfl

@[simp] theorem runAll_cons (i : ι) (l : List ι) (s : σ) :
    runAll act (i :: l) s = (act i s).bind (runAll act l) := rfl

/-- An action that commutes with all of `u` can be moved in front of it. -/
theorem runAll_move {a : ι} {u : List ι} (h : ∀ x ∈ u, Commutes act x a) (v : List ι) (s : σ) :
    runAll act (u ++ a :: v) s = runAll act (a :: (u ++ v)) s := by
  induction u generalizing s with
  | nil => rfl
  | cons x u ih =>
    have hx : Commutes act x a := h x List.mem_cons_self
    have hu : ∀ y ∈ u, Commutes act y a := fun y hy => h y (List.mem_cons_of_mem x hy)
    calc runAll act (x :: u ++ a :: v) s
        = (act x s).bind (runAll act (a :: (u ++ v))) := by
          simp only [List.cons_append, runAll_cons]
          exact congrArg _ (funext fun t => by rw [ih hu t, runAll_cons])
      _ = ((act x s).bind (act a)).bind (runAll act (u ++ v)) := by
          rw [Option.bind_assoc]; rfl
      _ = ((act a s).bind (act x)).bind (runAll act (u ++ v)) := by rw [hx s]
      _ = runAll act (a :: (x :: u ++ v)) s := by rw [Option.bind_assoc]; rfl

/-- Two orders of the same actions that both respect `before` give the same result when the
    actions that `before` leaves unordered commute. -/
theorem runAll_eq_of_perm {before : ι → ι → Prop}
    (hc : ∀ i j, ¬ before i j → ¬ before j i → Commutes act i j) {l₁ l₂ : List ι}
    (hp : l₁.Perm l₂) (h₁ : Respects before l₁) (h₂ : Respects before l₂) (s : σ) :
    runAll act l₁ s = runAll act l₂ s := by
  induction l₁ generalizing l₂ s with
  | nil => rw [hp.nil_eq]
  | cons a t ih =>
    obtain ⟨u, v, rfl⟩ := List.append_of_mem (hp.mem_iff.mp List.mem_cons_self)
    have htuv : t.Perm (u ++ v) := (hp.trans List.perm_middle).cons_inv
    obtain ⟨hat, ht⟩ := List.pairwise_cons.mp h₁
    have huv : Respects before (u ++ v) := h₂.sublist (by simp)
    have hua : ∀ x ∈ u, Commutes act x a := fun x hx => by
      have hxt : x ∈ t := htuv.mem_iff.mpr (List.mem_append_left v hx)
      exact hc x a (hat x hxt) ((List.pairwise_append.mp h₂).2.2 x hx a List.mem_cons_self)
    rw [runAll_move act hua, runAll_cons, runAll_cons]
    exact congrArg _ (funext (ih htuv ht huv))

/-- Actions that all commute may run in any order. -/
theorem runAll_perm (hc : ∀ i j, Commutes act i j) {l₁ l₂ : List ι} (hp : l₁.Perm l₂) (s : σ) :
    runAll act l₁ s = runAll act l₂ s :=
  @runAll_eq_of_perm _ _ act (fun _ _ => False) (fun i j _ _ => hc i j) _ _ hp
    (List.pairwise_of_forall (by simp)) (List.pairwise_of_forall (by simp)) s

/-- Actions fall into classes, and only actions of one class do not commute: then the order
    within each class decides. -/
theorem runAll_eq_of_filter {κ : Type*} [DecidableEq κ] (cls : ι → κ)
    (hc : ∀ i j, cls i ≠ cls j → Commutes act i j) {l₁ l₂ : List ι}
    (h : ∀ k, l₁.filter (fun i => cls i = k) = l₂.filter fun i => cls i = k) (s : σ) :
    runAll act l₁ s = runAll act l₂ s := by
  induction l₁ generalizing l₂ s with
  | nil =>
    cases l₂ with
    | nil => rfl
    | cons b l₂ =>
      have hb := h (cls b)
      simp at hb
  | cons a t ih =>
    -- the first action of the class of `a` in the other order is `a`
    have ha := h (cls a)
    rw [List.filter_cons_of_pos (by simp)] at ha
    obtain ⟨u, v, rfl, hu, -, hv⟩ := List.filter_eq_cons_iff.mp ha.symm
    have hua : ∀ x ∈ u, Commutes act x a := fun x hx => hc x a (by simpa using hu x hx)
    have hrest : ∀ k, t.filter (fun i => cls i = k) = (u ++ v).filter fun i => cls i = k := by
      intro k
      rw [List.filter_append]
      by_cases hk : cls a = k
      · subst hk
        rw [List.filter_eq_nil_iff.mpr hu, List.nil_append, hv]
      · have hother := h k
        rw [List.filter_cons_of_neg (by simpa using hk), List.filter_append,
          List.filter_cons_of_neg (by simpa using hk)] at hother
        exact hother
    rw [runAll_move act hua, runAll_cons, runAll_cons]
    exact congrArg _ (funext (ih hrest))

end Orders
