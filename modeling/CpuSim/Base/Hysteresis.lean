import Mathlib.Data.List.Induction
import Mathlib.Order.Basic

/-!
# Guessing from late news

A guesser is trained with one outcome after another, and says which one it expects. Its deficit
toward `b` is zero when it expects `b`; each outcome `b` pays off one and every other adds one at
most (`Hysteresis`). A guess may be older than some outcomes, as long as these were guessed right
(`Informed`). Then the wrong guesses are bounded by the first deficit and twice the outcomes other
than `b`, for either `b` (`wrongs_le`).
-/

/-- What is guessed in each state, and the state after each outcome. -/
structure Guesser (σ : Type*) where
  guess : σ → Bool
  train : σ → Bool → σ

namespace Guesser

variable {σ : Type*} (g : Guesser σ) (b : Bool)

/-! ## Logs -/

/-- The state after the outcomes of a log, which has the outcome and the guess of each check. -/
def trained (s : σ) (l : List (Bool × Bool)) : σ := l.foldl (fun s x => g.train s x.1) s

/-- Each guess was made after some of the outcomes before it; the others were guessed right. -/
def Informed (s : σ) (l : List (Bool × Bool)) : Prop :=
  ∀ before x after, l = before ++ x :: after → ∃ seen late, before = seen ++ late ∧
    (∀ y ∈ late, y.1 = y.2) ∧ x.2 = g.guess (g.trained s seen)

/-- The wrong guesses of a log. -/
def wrongs (l : List (Bool × Bool)) : Nat := l.countP fun x => x.1 != x.2

/-- The outcomes other than `b`. -/
def others (l : List (Bool × Bool)) : Nat := l.countP fun x => x.1 != b

/-- There was an outcome other than `b` since the last wrong guess. -/
def wavered (l : List (Bool × Bool)) : Bool :=
  l.foldl (fun w x => x.1 == x.2 && (w || x.1 != b)) false

theorem trained_append (s : σ) (l l' : List (Bool × Bool)) :
    g.trained s (l ++ l') = g.trained (g.trained s l) l' := List.foldl_append

theorem wavered_concat (l : List (Bool × Bool)) (x : Bool × Bool) :
    wavered b (l ++ [x]) = (x.1 == x.2 && (wavered b l || x.1 != b)) := by
  unfold wavered
  rw [List.foldl_append]
  rfl

variable {g b} {s : σ} {l : List (Bool × Bool)}

theorem Informed.of_append {l' : List (Bool × Bool)} (h : g.Informed s (l ++ l')) :
    g.Informed s l := by
  intro before x after hl
  subst hl
  exact h before x (after ++ l') (by simp)

/-- Without one, all outcomes behind the last wrong guess are `b`. -/
theorem all_of_not_wavered {late : List (Bool × Bool)} (hright : ∀ y ∈ late, y.1 = y.2)
    (h : wavered b (l ++ late) = false) : ∀ y ∈ late, y.1 = b := by
  induction late using List.reverseRecOn with
  | nil => simp
  | append_singleton late x ih =>
    rw [← List.append_assoc, wavered_concat] at h
    have hx : x.1 = x.2 := hright x (by simp)
    simp [hx] at h
    intro y hy
    rcases List.mem_append.mp hy with hy | hy
    · exact ih (fun z hz => hright z (by simp [hz])) h.1 y hy
    · rw [List.mem_singleton.mp hy, hx]
      exact h.2

/-! ## Deficits -/

/-- How far a guesser is from expecting `b`. -/
structure Hysteresis (g : Guesser σ) (b : Bool) (deficit : σ → Nat) : Prop where
  guess : ∀ s, g.guess s = b ↔ deficit s = 0
  toward : ∀ s, deficit (g.train s b) ≤ deficit s - 1
  away : ∀ s, deficit (g.train s (!b)) ≤ deficit s + 1

variable {deficit : σ → Nat}

theorem Hysteresis.trained_le (hg : Hysteresis g b deficit) (hall : ∀ y ∈ l, y.1 = b) (s : σ) :
    deficit (g.trained s l) ≤ deficit s := by
  induction l generalizing s with
  | nil => exact Nat.le_refl _
  | cons x l ih =>
    have hstep := hg.toward s
    have hrest := ih (fun y hy => hall y (by simp [hy])) (g.train s x.1)
    have hx : x.1 = b := hall x (by simp)
    rw [hx] at hrest
    change deficit (g.trained (g.train s x.1) l) ≤ deficit s
    rw [hx]
    omega

/-- A guesser that expects `b` and was heard to guess otherwise has wavered. -/
theorem Hysteresis.wavered_of_late (hg : Hysteresis g b deficit) (h : g.Informed s l)
    {seen late : List (Bool × Bool)} (hl : l = seen ++ late) (hright : ∀ y ∈ late, y.1 = y.2)
    (hguess : g.guess (g.trained s seen) ≠ b) (hnow : deficit (g.trained s l) = 0) :
    wavered b l = true := by
  by_contra hw
  have hw : wavered b l = false := (Bool.not_eq_true _).mp hw
  have hall : ∀ y ∈ late, y.1 = b := all_of_not_wavered hright (hl ▸ hw)
  cases late with
  | nil =>
    rw [List.append_nil] at hl
    exact hguess ((hg.guess _).mpr (hl ▸ hnow))
  | cons y late =>
    -- The guess for `y` was right, so it was `b`, and nothing since then has turned that.
    have hy : y.2 = b := (hright y (by simp)).symm.trans (hall y (by simp))
    rcases h seen y late hl with ⟨seen', late', hseen, hright', hguess'⟩
    have hright'' : ∀ z ∈ late' ++ y :: late, z.1 = z.2 := by
      intro z hz
      rcases List.mem_append.mp hz with hz | hz
      · exact hright' z hz
      · exact hright z hz
    have hl' : l = seen' ++ (late' ++ y :: late) := by rw [hl, hseen, List.append_assoc]
    have hall' : ∀ z ∈ late', z.1 = b := fun z hz =>
      all_of_not_wavered hright'' (hl' ▸ hw) z (by simp [hz])
    have hzero : deficit (g.trained s seen') = 0 := (hg.guess _).mp (hguess' ▸ hy)
    have hle := hg.trained_le hall' (g.trained s seen')
    rw [← trained_append, ← hseen, hzero] at hle
    exact hguess ((hg.guess _).mpr (Nat.le_zero.mp hle))

/-! ## The bound -/

/-- A wrong guess is paid by an outcome that moved the guesser, or by one that it wavered on. -/
theorem Hysteresis.wrongs_add_le (hg : Hysteresis g b deficit) (h : g.Informed s l) :
    wrongs l + deficit (g.trained s l) + (wavered b l).toNat ≤ deficit s + 2 * others b l := by
  induction l using List.reverseRecOn with
  | nil => simp [wrongs, trained, wavered, others]
  | append_singleton l x ih =>
    have hl := ih h.of_append
    have htrained : g.trained s (l ++ [x]) = g.train (g.trained s l) x.1 := trained_append g s l [x]
    have hwrongs : wrongs (l ++ [x]) = wrongs l + (x.1 != x.2).toNat := by
      unfold wrongs
      rw [List.countP_append, List.countP_singleton]
      cases x.1 != x.2 <;> rfl
    have hothers : others b (l ++ [x]) = others b l + (x.1 != b).toNat := by
      unfold others
      rw [List.countP_append, List.countP_singleton]
      cases x.1 != b <;> rfl
    rw [htrained, hwrongs, hothers, wavered_concat]
    by_cases hb : x.1 = b
    · have htoward := hg.toward (g.trained s l)
      by_cases hx : x.1 = x.2
      · simp [← hx, hb]
        omega
      · have hwaver : deficit (g.trained s l) = 0 → wavered b l = true := by
          intro hnow
          rcases h l x [] rfl with ⟨seen, late, hseen, hright, hguess⟩
          exact hg.wavered_of_late h.of_append hseen hright
            (fun hsame => hx (hb.trans (hguess.trans hsame).symm)) hnow
        have hne : (x.1 != x.2) = true := by simp [hx]
        have hrest : (x.1 == x.2) = false := by simp [hx]
        rw [hne, hrest, hb]
        rcases Nat.eq_zero_or_pos (deficit (g.trained s l)) with hzero | hpos
        · rw [hwaver hzero] at hl
          simp at hl ⊢
          omega
        · simp
          omega
    · have hnot : x.1 = !b := Bool.eq_not_of_ne hb
      have haway := hg.away (g.trained s l)
      have hne : (x.1 != b) = true := by simp [hb]
      rw [hne, hnot]
      cases hx : (!b) == x.2 <;> cases wavered b l <;> simp [bne, hx] at hl ⊢ <;> omega

/-- The wrong guesses of an informed log. -/
theorem Hysteresis.wrongs_le (hg : Hysteresis g b deficit) (h : g.Informed s l) :
    wrongs l ≤ deficit s + 2 * others b l := by
  have := hg.wrongs_add_le h
  omega

end Guesser
