import Mathlib.Data.List.Perm.Basic
import Mathlib.Data.List.Range
import Mathlib.Logic.Function.Basic
import Mathlib.Logic.Function.Iterate
import Mathlib.Tactic.Ring

/-!
# Steering trees

A perfect binary tree whose inner nodes each point to one of their two halves. The leaf they
lead to is the victim, and touching a leaf turns every node above it away from it. Leaves are
numbered from left to right.

Two facts carry the rest. Replacing the victim turns the root every time, so that two
replacements are one in each half (`replace_replace`), and with them go all results about
rounds. And a touch turns at most one node of a path towards its leaf (`toward_touch_le`), which
bounds how soon a touched leaf is the victim again.

The second half reads a tree off an implicit heap, where node `i` has the children `2 * i` and
`2 * i + 1`.
-/

/-- A perfect binary tree of depth `n`; a node says whether it points to its right half. -/
inductive SteeringTree : Nat → Type
  | leaf : SteeringTree 0
  | node {n : Nat} (right : Bool) (l r : SteeringTree n) : SteeringTree (n + 1)

namespace SteeringTree

/-- The leaf that the nodes lead to. -/
def victim : {n : Nat} → SteeringTree n → Nat
  | _, leaf => 0
  | _, node (n := n) right l r => if right then 2 ^ n + r.victim else l.victim

/-- Turn the nodes above leaf `w` away from it. -/
def touch : {n : Nat} → SteeringTree n → Nat → SteeringTree n
  | _, leaf, _ => leaf
  | _, node (n := n) _ l r, w =>
    if w < 2 ^ n then node true (l.touch w) r else node false l (r.touch (w - 2 ^ n))

theorem victim_lt {n : Nat} (t : SteeringTree n) : t.victim < 2 ^ n := by
  induction t with
  | leaf => exact Nat.one_pos
  | node right l r ihl ihr =>
    rw [victim, pow_succ]
    split <;> omega

/-! ## Replacing the victim -/

/-- Touch the victim. -/
def replace {n : Nat} (t : SteeringTree n) : SteeringTree n := t.touch t.victim

theorem replace_left {n : Nat} (l r : SteeringTree n) :
    (node false l r).replace = node true l.replace r := by
  unfold replace
  rw [victim, if_neg (by decide), touch, if_pos l.victim_lt]

theorem replace_right {n : Nat} (l r : SteeringTree n) :
    (node true l r).replace = node false l r.replace := by
  unfold replace
  rw [victim, if_pos rfl, touch, if_neg (by omega), Nat.add_sub_cancel_left]

/-- Two replacements are one in each half. -/
theorem replace_replace {n : Nat} (right : Bool) (l r : SteeringTree n) :
    (node right l r).replace.replace = node right l.replace r.replace := by
  cases right
  · rw [replace_left, replace_right]
  · rw [replace_right, replace_left]

theorem iterate_replace_node {n : Nat} (right : Bool) (l r : SteeringTree n) (k : Nat) :
    replace^[2 * k] (node right l r) = node right (replace^[k] l) (replace^[k] r) := by
  induction k generalizing l r with
  | zero => rfl
  | succ k ih =>
    rw [Nat.mul_succ, Function.iterate_add_apply, Function.iterate_succ_apply,
      Function.iterate_succ_apply, Function.iterate_zero_apply, replace_replace, ih,
      Function.iterate_succ_apply, Function.iterate_succ_apply]

/-- As many replacements as there are leaves restore every node. -/
theorem iterate_replace {n : Nat} (t : SteeringTree n) : replace^[2 ^ n] t = t := by
  induction t with
  | leaf => rfl
  | node right l r ihl ihr => rw [pow_succ', iterate_replace_node, ihl, ihr]

/-- The victims of `k` replacements in turn. -/
def victims {n : Nat} (t : SteeringTree n) : Nat → List Nat
  | 0 => []
  | k + 1 => t.victim :: t.replace.victims k

/-- The victims of `2 * k` replacements are those of `k` in each half. -/
theorem victims_node {n : Nat} (right : Bool) (l r : SteeringTree n) (k : Nat) :
    ((node right l r).victims (2 * k)).Perm
      (l.victims k ++ (r.victims k).map (2 ^ n + ·)) := by
  induction k generalizing l r with
  | zero => exact List.Perm.refl _
  | succ k ih =>
    have hrest := ih l.replace r.replace
    rw [Nat.mul_succ, victims, victims, replace_replace, victims, victims, List.map_cons,
      List.cons_append]
    cases right with
    | false =>
      rw [replace_left, victim, victim, if_neg (by decide), if_pos rfl]
      exact ((hrest.cons _).trans List.perm_middle.symm).cons _
    | true =>
      rw [replace_right, victim, victim, if_pos rfl, if_neg (by decide)]
      exact (List.Perm.swap _ _ _).trans (((hrest.cons _).trans List.perm_middle.symm).cons _)

/-- In as many replacements as there are leaves every leaf is the victim once. -/
theorem victims_perm {n : Nat} (t : SteeringTree n) :
    (t.victims (2 ^ n)).Perm (List.range (2 ^ n)) := by
  induction t with
  | leaf => exact List.Perm.refl _
  | node right l r ihl ihr =>
    rw [pow_succ']
    refine (victims_node right l r _).trans ?_
    rw [two_mul, List.range_add]
    exact ihl.append (ihr.map _)

/-! ## How long a touch protects -/

/-- How many nodes above leaf `w` point towards it. -/
def toward : {n : Nat} → SteeringTree n → Nat → Nat
  | _, leaf, _ => 0
  | _, node (n := n) right l r, w =>
    if w < 2 ^ n then l.toward w + (if right then 0 else 1)
    else r.toward (w - 2 ^ n) + (if right then 1 else 0)

/-- All nodes above the victim point towards it. -/
theorem toward_victim {n : Nat} (t : SteeringTree n) : t.toward t.victim = n := by
  induction t with
  | leaf => rfl
  | node right l r ihl ihr =>
    cases right with
    | false =>
      rw [victim, if_neg (by decide), toward, if_pos l.victim_lt, ihl]
      rfl
    | true =>
      rw [victim, if_pos rfl, toward, if_neg (by omega), Nat.add_sub_cancel_left, ihr]
      rfl

/-- No node points towards a leaf just touched. -/
theorem toward_touch_self {n : Nat} (t : SteeringTree n) (w : Nat) : (t.touch w).toward w = 0 := by
  induction t generalizing w with
  | leaf => rfl
  | node right l r ihl ihr =>
    unfold touch
    split
    · rename_i hw
      rw [toward, if_pos hw, ihl]
      rfl
    · rename_i hw
      rw [toward, if_neg hw, ihr]
      rfl

/-- A touch turns at most one node towards `w`: the one where the two paths part. Above it the
    touch turns the nodes away from both leaves, below it does not reach. -/
theorem toward_touch_le {n : Nat} (t : SteeringTree n) (v w : Nat) :
    (t.touch v).toward w ≤ t.toward w + 1 := by
  induction t generalizing v w with
  | leaf => exact Nat.zero_le _
  | @node n right l r ihl ihr =>
    have hl := ihl v w
    have hr := ihr (v - 2 ^ n) (w - 2 ^ n)
    by_cases hv : v < 2 ^ n <;> by_cases hw : w < 2 ^ n <;>
      simp only [touch, toward, hv, hw, if_true, if_false, Bool.false_eq_true] <;>
      cases right <;> simp only [if_true, if_false, Bool.false_eq_true] <;> omega

/-- Touch leaf after leaf. -/
def touchAll {n : Nat} (t : SteeringTree n) (ws : List Nat) : SteeringTree n := ws.foldl touch t

@[simp] theorem touchAll_nil {n : Nat} (t : SteeringTree n) : t.touchAll [] = t := rfl

@[simp] theorem touchAll_cons {n : Nat} (t : SteeringTree n) (w : Nat) (ws : List Nat) :
    t.touchAll (w :: ws) = (t.touch w).touchAll ws := rfl

theorem touchAll_append {n : Nat} (t : SteeringTree n) (ws vs : List Nat) :
    t.touchAll (ws ++ vs) = (t.touchAll ws).touchAll vs := List.foldl_append

theorem toward_touchAll_le {n : Nat} (t : SteeringTree n) (ws : List Nat) (w : Nat) :
    (t.touchAll ws).toward w ≤ t.toward w + ws.length := by
  induction ws generalizing t with
  | nil => exact Nat.le_refl _
  | cons v ws ih =>
    have hstep := t.toward_touch_le v w
    have hrest := ih (t.touch v)
    rw [touchAll_cons, List.length_cons]
    omega

/-- A touched leaf is not the victim again before `n` more touches. -/
theorem victim_touchAll_ne {n : Nat} (t : SteeringTree n) (w : Nat) {ws : List Nat}
    (h : ws.length < n) : ((t.touch w).touchAll ws).victim ≠ w := by
  intro hv
  have hle := (t.touch w).toward_touchAll_le ws w
  have hall := ((t.touch w).touchAll ws).toward_victim
  rw [hv] at hall
  rw [toward_touch_self] at hle
  omega

/-- Touches that make leaf `w` of a tree of depth `n` the victim: one beside each node of its
    path, from the bottom up. -/
def siblings : Nat → Nat → List Nat
  | 0, _ => []
  | n + 1, w =>
    if w < 2 ^ n then siblings n w ++ [2 ^ n]
    else (siblings n (w - 2 ^ n)).map (2 ^ n + ·) ++ [0]

theorem siblings_length (n w : Nat) : (siblings n w).length = n := by
  induction n generalizing w with
  | zero => rfl
  | succ n ih =>
    unfold siblings
    split
    · rw [List.length_append, ih]
      rfl
    · rw [List.length_append, List.length_map, ih]
      rfl

theorem siblings_lt {n w v : Nat} (h : v ∈ siblings n w) : v < 2 ^ n := by
  induction n generalizing w v with
  | zero => cases h
  | succ n ih =>
    have hpos := Nat.two_pow_pos n
    rw [pow_succ]
    unfold siblings at h
    split at h
    · rcases List.mem_append.mp h with h | h
      · have := ih h
        omega
      · rw [List.mem_singleton] at h
        omega
    · rcases List.mem_append.mp h with h | h
      · obtain ⟨u, hu, rfl⟩ := List.mem_map.mp h
        have := ih hu
        omega
      · rw [List.mem_singleton] at h
        omega

theorem touchAll_node_left {n : Nat} (right : Bool) (l r : SteeringTree n) {ws : List Nat}
    (h : ∀ w ∈ ws, w < 2 ^ n) :
    ∃ right', (node right l r).touchAll ws = node right' (l.touchAll ws) r := by
  induction ws generalizing right l with
  | nil => exact ⟨right, rfl⟩
  | cons w ws ih =>
    have hstep : (node right l r).touch w = node true (l.touch w) r :=
      if_pos (h w List.mem_cons_self)
    obtain ⟨right', hrest⟩ := ih true (l.touch w) fun v hv => h v (List.mem_cons_of_mem _ hv)
    refine ⟨right', ?_⟩
    rw [touchAll_cons, hstep]
    exact hrest

theorem touchAll_node_right {n : Nat} (right : Bool) (l r : SteeringTree n) (ws : List Nat) :
    ∃ right', (node right l r).touchAll (ws.map (2 ^ n + ·)) = node right' l (r.touchAll ws) := by
  induction ws generalizing right r with
  | nil => exact ⟨right, rfl⟩
  | cons w ws ih =>
    have hstep : (node right l r).touch (2 ^ n + w) = node false l (r.touch w) := by
      rw [touch, if_neg (by omega), Nat.add_sub_cancel_left]
    obtain ⟨right', hrest⟩ := ih false (r.touch w)
    refine ⟨right', ?_⟩
    rw [List.map_cons, touchAll_cons, hstep]
    exact hrest

/-- From every state of the tree `n` touches make any leaf the victim. -/
theorem victim_touchAll_siblings {n : Nat} (t : SteeringTree n) {w : Nat} (h : w < 2 ^ n) :
    (t.touchAll (siblings n w)).victim = w := by
  induction t generalizing w with
  | leaf =>
    rw [pow_zero] at h
    rw [siblings, touchAll_nil, victim]
    omega
  | @node n right l r ihl ihr =>
    have hpos := Nat.two_pow_pos n
    unfold siblings
    split
    · rename_i hw
      obtain ⟨right', hleft⟩ := touchAll_node_left right l r fun v => siblings_lt (w := w)
      rw [touchAll_append, hleft, touchAll_cons, touchAll_nil, touch, if_neg (by omega), victim,
        if_neg (by decide)]
      exact ihl hw
    · rename_i hw
      rw [pow_succ] at h
      obtain ⟨right', hright⟩ := touchAll_node_right right l r (siblings n (w - 2 ^ n))
      rw [touchAll_append, hright, touchAll_cons, touchAll_nil, touch, if_pos hpos, victim,
        if_pos rfl, ihr (by omega)]
      omega

/-! ## Trees in a heap -/

/-- The tree of depth `n` below heap node `i`; `f` says which nodes point right. -/
def ofHeap (f : Nat → Bool) : (n : Nat) → Nat → SteeringTree n
  | 0, _ => leaf
  | n + 1, i => node (f i) (ofHeap f n (2 * i)) (ofHeap f n (2 * i + 1))

/-- A tree is the nodes that it is read from. -/
theorem ofHeap_eq_iff {f g : Nat → Bool} {n i : Nat} :
    ofHeap f n i = ofHeap g n i ↔ ∀ e j, e < n → j / 2 ^ e = i → f j = g j := by
  induction n generalizing i with
  | zero => exact ⟨fun _ e _ he => absurd he (Nat.not_lt_zero e), fun _ => rfl⟩
  | succ n ih =>
    rw [ofHeap, ofHeap, node.injEq, ih, ih]
    have hhalf : ∀ e j, j / 2 ^ (e + 1) = j / 2 ^ e / 2 := by
      intro e j
      rw [pow_succ, Nat.div_div_eq_div_mul]
    constructor
    · rintro ⟨hroot, hl, hr⟩ e j he hj
      cases e with
      | zero =>
        rw [pow_zero, Nat.div_one] at hj
        rw [hj, hroot]
      | succ e =>
        rw [hhalf] at hj
        by_cases hside : j / 2 ^ e = 2 * i
        · exact hl e j (by omega) hside
        · exact hr e j (by omega) (by omega)
    · intro h
      refine ⟨h 0 i (by omega) (by rw [pow_zero, Nat.div_one]), fun e j he hj => ?_,
        fun e j he hj => ?_⟩ <;>
      · refine h (e + 1) j (by omega) ?_
        rw [hhalf]
        omega

/-- The heap after a touch of leaf `x`, seen from the lowest `n` nodes above it. -/
def climb (f : Nat → Bool) (x : Nat) : Nat → Nat → Bool
  | 0 => f
  | n + 1 => Function.update (climb f x n) (x / 2 ^ (n + 1)) (decide (x / 2 ^ n % 2 = 0))

/-- The lowest node first. -/
theorem climb_succ (f : Nat → Bool) (x n : Nat) :
    climb f x (n + 1) = climb (Function.update f (x / 2) (decide (x % 2 = 0))) (x / 2) n := by
  induction n with
  | zero => simp only [climb, Nat.zero_add, pow_one, pow_zero, Nat.div_one]
  | succ n ih =>
    rw [climb, ih, climb, Nat.div_div_eq_div_mul, Nat.div_div_eq_div_mul, ← pow_succ', ← pow_succ']

theorem climb_off {f : Nat → Bool} {x s : Nat} (h : ∀ m, x / 2 ^ m ≠ s) (n : Nat) :
    climb f x n s = f s := by
  induction n with
  | zero => rfl
  | succ n ih => rw [climb, Function.update_of_ne (h (n + 1)).symm, ih]

/-- A touch does not reach a subtree whose root is not above the leaf. -/
theorem ofHeap_climb_off {f : Nat → Bool} {x s : Nat} (h : ∀ m, x / 2 ^ m ≠ s) (n k : Nat) :
    ofHeap (climb f x n) k s = ofHeap f k s := by
  induction k generalizing s with
  | zero => rfl
  | succ k ih =>
    have hchild : ∀ c, c / 2 = s → ∀ m, x / 2 ^ m ≠ c := by
      intro c hc m hm
      apply h (m + 1)
      rw [pow_succ, ← Nat.div_div_eq_div_mul, hm, hc]
    rw [ofHeap, ofHeap, climb_off h, ih (hchild _ (by omega)), ih (hchild _ (by omega))]

/-- The other child of a node above `x` is not above `x`. -/
theorem sibling_off {x n s j : Nat} (hj : 0 < j) (hx : x / 2 ^ (n + 1) = j) (hs : s / 2 = j)
    (hne : x / 2 ^ n ≠ s) (m : Nat) : x / 2 ^ m ≠ s := by
  intro hm
  rcases Nat.lt_trichotomy m n with hlt | rfl | hgt
  · -- A lower node of the path is below `j`.
    have hle : x / 2 ^ m / 2 ^ (n + 1 - m) = j := by
      rw [Nat.div_div_eq_div_mul, ← pow_add, show m + (n + 1 - m) = n + 1 by omega, hx]
    have hpow : 4 ≤ 2 ^ (n + 1 - m) := by
      calc 4 = 2 ^ 2 := rfl
        _ ≤ 2 ^ (n + 1 - m) := Nat.pow_le_pow_right (by decide) (by omega)
    have hbig := Nat.div_mul_le_self (x / 2 ^ m) (2 ^ (n + 1 - m))
    rw [hle, hm] at hbig
    have hmul : j * 4 ≤ j * 2 ^ (n + 1 - m) := Nat.mul_le_mul_left _ hpow
    omega
  · exact hne hm
  · have hle : x / 2 ^ m ≤ x / 2 ^ (n + 1) :=
      Nat.div_le_div_left (Nat.pow_le_pow_right (by decide) hgt) (Nat.two_pow_pos _)
    omega

/-- Turning the nodes above a leaf in the heap is touching it in the tree. -/
theorem ofHeap_climb {f : Nat → Bool} {x n : Nat} (h : 0 < x / 2 ^ n) :
    ofHeap (climb f x n) n (x / 2 ^ n) = (ofHeap f n (x / 2 ^ n)).touch (x % 2 ^ n) := by
  induction n with
  | zero => rfl
  | succ n ih =>
    have hpath : 0 < x / 2 ^ n := by
      rw [pow_succ, ← Nat.div_div_eq_div_mul] at h
      omega
    have hhalf : x / 2 ^ n / 2 = x / 2 ^ (n + 1) := by
      rw [Nat.div_div_eq_div_mul, ← pow_succ]
    have hmod : x % 2 ^ (n + 1) = x % 2 ^ n + 2 ^ n * (x / 2 ^ n % 2) := by
      rw [pow_succ, Nat.mod_mul]
    have hlt : x % 2 ^ n < 2 ^ n := Nat.mod_lt _ (Nat.two_pow_pos n)
    have hsubtree : ∀ i, x / 2 ^ (n + 1) < i →
        ofHeap (climb f x (n + 1)) n i = ofHeap (climb f x n) n i := by
      intro i hi
      rw [ofHeap_eq_iff]
      intro e j _ hj
      have hle := Nat.div_le_self j (2 ^ e)
      rw [climb, Function.update_of_ne (by omega)]
    rw [ofHeap, ofHeap, hsubtree _ (by omega), hsubtree _ (by omega), touch, climb,
      Function.update_self]
    by_cases hside : x / 2 ^ n % 2 = 0
    · have hl : 2 * (x / 2 ^ (n + 1)) = x / 2 ^ n := by omega
      have hoff := ofHeap_climb_off (f := f) (sibling_off h rfl
        (s := 2 * (x / 2 ^ (n + 1)) + 1) (by omega) (by omega)) n n
      have hlow : x % 2 ^ (n + 1) = x % 2 ^ n := by
        rw [hmod, hside]
        omega
      rw [hlow, if_pos hlt, hside, hoff, hl, ih hpath, decide_eq_true rfl]
    · have hone : x / 2 ^ n % 2 = 1 := by omega
      have hr : 2 * (x / 2 ^ (n + 1)) + 1 = x / 2 ^ n := by omega
      have hoff := ofHeap_climb_off (f := f) (sibling_off h rfl
        (s := 2 * (x / 2 ^ (n + 1))) (by omega) (by omega)) n n
      have hhigh : x % 2 ^ (n + 1) = x % 2 ^ n + 2 ^ n := by rw [hmod, hone, Nat.mul_one]
      rw [hhigh, if_neg (by omega), hone, hoff, hr, ih hpath, Nat.add_sub_cancel,
        decide_eq_false (by decide)]

end SteeringTree
