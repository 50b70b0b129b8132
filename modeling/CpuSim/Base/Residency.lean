import Mathlib.Logic.Function.Basic
import Mathlib.Order.Bounds.Basic

/-!
# Which lines are where

Sets of ways that hold lines, without contents or timing. A line is placed in two steps: a way
is reserved for it, and later the line is installed there. At most one reservation stands for
the request under way (`demand`) and one for a line fetched in advance (`ahead`); the way is the
least vacant one, or any when the set is full.

`Sound` is what the reservations have to promise for no line to be held twice and no line to be
replaced while there is room. `Spares` is what they have to promise for the most recently used
line of a set to survive. The latter needs care of the users: a reservation away from the most
recently used way, and no use of a way that is reserved.
-/

/-- A way of a set that is to take the line with a tag. -/
structure Reservation (S T W : Type*) where
  set : S
  tag : T
  way : W

/-- What the sets hold, the standing reservations, and the way used last in each set. -/
@[ext]
structure Residency (S T W : Type*) where
  holds : S → W → Option T
  demand : Option (Reservation S T W)
  ahead : Option (Reservation S T W)
  recent : S → Option W

namespace Residency

/-- What happens to lines. -/
inductive Event (S T W : Type*) where
  /-- A line is used. -/
  | use (set : S) (way : W)
  /-- A way is reserved for a line fetched in advance. -/
  | prepare (r : Reservation S T W)
  /-- A way is reserved for a line requested, at the cost of the other reservation of that way. -/
  | request (r : Reservation S T W)
  /-- The line requested is installed. -/
  | fill
  /-- The line fetched in advance is installed. -/
  | land

variable {S T W : Type*} {g g' : Residency S T W}

/-- No way of the set holds the line. -/
def Absent (g : Residency S T W) (set : S) (tag : T) : Prop := ∀ w, g.holds set w ≠ some tag

/-- The ways of a set that hold nothing. -/
def vacant (g : Residency S T W) (ways : Set W) (set : S) : Set W :=
  {w | w ∈ ways ∧ g.holds set w = none}

/-- The reserved way is not the one used last, unless it holds nothing. -/
def Fresh (g : Residency S T W) (r : Reservation S T W) : Prop :=
  g.holds r.set r.way ≠ none → g.recent r.set ≠ some r.way

/-- The reservations keep away from the ways used last. -/
structure Spares (g : Residency S T W) : Prop where
  demand : ∀ r, g.demand = some r → g.Fresh r
  ahead : ∀ p, g.ahead = some p → g.Fresh p

section Order

variable [PartialOrder W] (ways : Set W)

/-- A reservation of the least vacant way, or of any way of a full set, for an absent line. -/
structure Open (g : Residency S T W) (r : Reservation S T W) : Prop where
  inside : r.way ∈ ways
  absent : g.Absent r.set r.tag
  least : IsLeast (g.vacant ways r.set) r.way ∨ g.vacant ways r.set = ∅

/-- The promises of the reservations. -/
structure Sound (g : Residency S T W) : Prop where
  unique : ∀ s w w' t, g.holds s w = some t → g.holds s w' = some t → w = w'
  demand : ∀ r, g.demand = some r → g.Open ways r
  ahead : ∀ p, g.ahead = some p → g.Open ways p
  apart : ∀ r p, g.demand = some r → g.ahead = some p →
    ¬ (p.set = r.set ∧ p.way = r.way) ∧ ¬ (p.set = r.set ∧ p.tag = r.tag)

/-- When an event can happen. -/
def Enabled (g : Residency S T W) : Event S T W → Prop
  | .use _ _ => g.demand = none
  | .prepare r => g.demand = none ∧ g.ahead = none ∧ g.Open ways r
  | .request r => g.demand = none ∧ g.Open ways r ∧
      ∀ p, g.ahead = some p → ¬ (p.set = r.set ∧ p.tag = r.tag)
  | .fill => True
  | .land => g.demand = none

/-- What keeps the most recently used lines. -/
def Careful (g : Residency S T W) : Event S T W → Prop
  | .use set way => ∀ p, g.ahead = some p → ¬ (p.set = set ∧ p.way = way)
  | .prepare r | .request r => g.Fresh r
  | .fill | .land => True

variable {ways}

/-- A reservation is judged by what the ways hold. -/
theorem Open.of_holds {r : Reservation S T W} (h : g.Open ways r) (he : g'.holds = g.holds) :
    g'.Open ways r := by
  obtain ⟨hin, habsent, hleast⟩ := h
  refine ⟨hin, ?_, ?_⟩
  · unfold Absent
    rwa [he]
  · unfold vacant
    rwa [he]

/-- What a reserved way holds is replaced only when the set is full. -/
theorem Open.full {r : Reservation S T W} (hr : g.Open ways r) (hv : g.holds r.set r.way ≠ none)
    {w : W} (hw : w ∈ ways) : g.holds r.set w ≠ none := by
  rcases hr.least with hleast | hfull
  · exact absurd hleast.1.2 hv
  · exact fun hnone => Set.eq_empty_iff_forall_notMem.mp hfull w ⟨hw, hnone⟩

end Order

section Install

variable [DecidableEq S] [DecidableEq W]

/-- Put the line where its reservation says. -/
def install (g : Residency S T W) (r : Reservation S T W) : Residency S T W :=
  { g with
    holds := Function.update g.holds r.set (Function.update (g.holds r.set) r.way (some r.tag))
    recent := Function.update g.recent r.set (some r.way) }

def apply (g : Residency S T W) : Event S T W → Residency S T W
  | .use set way => { g with recent := Function.update g.recent set (some way) }
  | .prepare r => { g with ahead := some r }
  | .request r =>
    { g with demand := some r, ahead := g.ahead.filter fun p => ¬ (p.set = r.set ∧ p.way = r.way) }
  | .fill => match g.demand with
    | some r => { g.install r with demand := none }
    | none => g
  | .land => match g.ahead with
    | some r => { g.install r with ahead := none }
    | none => g

theorem holds_install (g : Residency S T W) (r : Reservation S T W) (s : S) (w : W) :
    (g.install r).holds s w =
      if s = r.set ∧ w = r.way then some r.tag else g.holds s w := by
  unfold install
  by_cases hs : s = r.set
  · subst hs
    by_cases hw : w = r.way
    · subst hw
      simp only [Function.update_self, and_self, if_true]
    · simp only [Function.update_self, Function.update_of_ne hw, hw, and_false, if_false]
  · simp only [Function.update_of_ne hs, hs, false_and, if_false]

theorem Fresh.install {r p : Reservation S T W} (hp : g.Fresh p)
    (hne : ¬ (p.set = r.set ∧ p.way = r.way)) : (g.install r).Fresh p := by
  intro hv
  rw [holds_install, if_neg hne] at hv
  change Function.update g.recent r.set (some r.way) p.set ≠ some p.way
  by_cases hs : p.set = r.set
  · rw [hs, Function.update_self]
    exact fun he => hne ⟨hs, (Option.some.inj he).symm⟩
  · rw [Function.update_of_ne hs]
    exact hp hv

end Install

variable [DecidableEq S] [DecidableEq W] [PartialOrder W]

/-- Events in turn, all of them careful if `careful`. -/
inductive Run (ways : Set W) (careful : Prop) :
    Residency S T W → List (Event S T W) → Residency S T W → Prop
  | nil (h : Residency S T W) : Run ways careful h [] h
  | cons {h h' : Residency S T W} {e : Event S T W} {es : List (Event S T W)} :
      h.Enabled ways e → (careful → h.Careful e) → Run ways careful (h.apply e) es h' →
      Run ways careful h (e :: es) h'

variable {ways : Set W} {careful : Prop}

theorem Run.single {e : Event S T W} (he : g.Enabled ways e) (hc : careful → g.Careful e) :
    Run ways careful g [e] (g.apply e) := .cons he hc (.nil _)

theorem Run.append {g'' : Residency S T W} {es es' : List (Event S T W)}
    (h : Run ways careful g es g') (h' : Run ways careful g' es' g'') :
    Run ways careful g (es ++ es') g'' := by
  induction h with
  | nil => exact h'
  | cons he hc _ ih => exact .cons he hc (ih h')

/-! ## Lines are held once, and vacant ways go first -/

/-- A line installed elsewhere does not break the promise of another reservation. -/
theorem Open.install {r p : Reservation S T W} (hp : g.Open ways p) (hr : g.Open ways r)
    (hway : ¬ (p.set = r.set ∧ p.way = r.way)) (htag : ¬ (p.set = r.set ∧ p.tag = r.tag)) :
    (g.install r).Open ways p := by
  refine ⟨hp.inside, ?_, ?_⟩
  · intro w hw
    rw [holds_install] at hw
    split at hw
    · rename_i he
      exact htag ⟨he.1, (Option.some.inj hw).symm⟩
    · exact hp.absent w hw
  · by_cases hs : p.set = r.set
    · -- Two reservations in one set: it was full, and stays full.
      right
      have hfull : g.vacant ways p.set = ∅ := by
        rcases hp.least with hleast | hfull
        · rcases hr.least with hleast' | hfull'
          · rw [hs] at hleast
            exact absurd ⟨hs, hleast.unique hleast'⟩ hway
          · rw [hs]
            exact hfull'
        · exact hfull
      rw [Set.eq_empty_iff_forall_notMem] at hfull ⊢
      rintro w ⟨hin, hw⟩
      rw [holds_install] at hw
      split at hw
      · cases hw
      · exact hfull w ⟨hin, hw⟩
    · have hsame : (g.install r).vacant ways p.set = g.vacant ways p.set := by
        ext w
        simp only [vacant, holds_install, hs, false_and, if_false]
      rw [hsame]
      exact hp.least

theorem Sound.unique_install (h : g.Sound ways) {r : Reservation S T W} (hr : g.Open ways r) :
    ∀ s w w' t, (g.install r).holds s w = some t → (g.install r).holds s w' = some t → w = w' := by
  intro s w w' t hw hw'
  rw [holds_install] at hw hw'
  split at hw
  · rename_i he
    split at hw'
    · rename_i he'
      exact he.2.trans he'.2.symm
    · obtain ⟨rfl, -⟩ := he
      cases hw
      exact absurd hw' (hr.absent w')
  · split at hw'
    · rename_i he'
      obtain ⟨rfl, -⟩ := he'
      cases hw'
      exact absurd hw (hr.absent w)
    · exact h.unique s w w' t hw hw'

theorem Sound.apply (h : g.Sound ways) {e : Event S T W} (he : g.Enabled ways e) :
    (g.apply e).Sound ways := by
  cases e with
  | use set way =>
    exact ⟨h.unique, fun r hr => (h.demand r hr).of_holds rfl,
      fun p hp => (h.ahead p hp).of_holds rfl, h.apart⟩
  | prepare r =>
    obtain ⟨hidle, -, hopen⟩ := he
    refine ⟨h.unique, fun r' hr' => (h.demand r' hr').of_holds rfl, ?_, ?_⟩
    · intro p hp
      cases hp
      exact hopen.of_holds rfl
    · intro r' p hr'
      exact absurd (hidle.symm.trans hr') (nomatch ·)
  | request r =>
    obtain ⟨-, hopen, hother⟩ := he
    refine ⟨h.unique, ?_, ?_, ?_⟩
    · intro r' hr'
      cases hr'
      exact hopen.of_holds rfl
    · intro p hp
      exact (h.ahead p (Option.filter_eq_some_iff.mp hp).1).of_holds rfl
    · intro r' p hr' hp
      cases hr'
      obtain ⟨hp, hway⟩ := Option.filter_eq_some_iff.mp hp
      exact ⟨of_decide_eq_true hway, hother p hp⟩
  | fill =>
    unfold Residency.apply
    cases hd : g.demand with
    | none => exact h
    | some r =>
      have hr := h.demand r hd
      refine ⟨h.unique_install hr, fun r' hr' => (nomatch hr'), ?_, fun r' p hr' => (nomatch hr')⟩
      intro p hp
      obtain ⟨hway, htag⟩ := h.apart r p hd hp
      exact ((h.ahead p hp).install hr hway htag).of_holds rfl
  | land =>
    unfold Residency.apply
    cases ha : g.ahead with
    | none => exact h
    | some r =>
      have hr := h.ahead r ha
      refine ⟨h.unique_install hr, ?_, fun p hp => (nomatch hp), fun r' p _ hp => (nomatch hp)⟩
      intro r' hr'
      exact absurd ((show g.demand = none from he).symm.trans hr') (nomatch ·)

theorem Sound.run (h : g.Sound ways) {es : List (Event S T W)} (hr : Run ways careful g es g') :
    g'.Sound ways := by
  induction hr with
  | nil => exact h
  | cons he _ _ ih => exact ih (h.apply he)

/-! ## The line used last survives -/

theorem Spares.apply (h : g.Spares) (hs : g.Sound ways) {e : Event S T W}
    (he : g.Enabled ways e) (hc : g.Careful e) : (g.apply e).Spares := by
  cases e with
  | use set way =>
    refine ⟨fun r hr => absurd (Eq.symm he |>.trans hr) (nomatch ·), fun p hp hv => ?_⟩
    have hne := hc p hp
    change Function.update g.recent set (some way) p.set ≠ some p.way
    by_cases hset : p.set = set
    · rw [hset, Function.update_self]
      exact fun hw => hne ⟨hset, (Option.some.inj hw).symm⟩
    · rw [Function.update_of_ne hset]
      exact h.ahead p hp hv
  | prepare r =>
    refine ⟨h.demand, fun p hp => ?_⟩
    cases hp
    exact hc
  | request r =>
    refine ⟨fun r' hr' => ?_, fun p hp => h.ahead p (Option.filter_eq_some_iff.mp hp).1⟩
    cases hr'
    exact hc
  | fill =>
    unfold Residency.apply
    cases hd : g.demand with
    | none => exact h
    | some r =>
      refine ⟨fun r' hr' => (nomatch hr'), fun p hp => ?_⟩
      exact (h.ahead p hp).install (hs.apart r p hd hp).1
  | land =>
    unfold Residency.apply
    cases ha : g.ahead with
    | none => exact h
    | some r =>
      refine ⟨fun r' hr' => ?_, fun p hp => (nomatch hp)⟩
      exact absurd ((show g.demand = none from he).symm.trans hr') (nomatch ·)

theorem Spares.run (h : g.Spares) (hs : g.Sound ways) {es : List (Event S T W)}
    (hr : Run ways careful g es g') (hcareful : careful) : g'.Spares := by
  induction hr with
  | nil => exact h
  | cons he hc _ ih => exact ih (h.apply hs he (hc hcareful)) (hs.apply he)

end Residency
