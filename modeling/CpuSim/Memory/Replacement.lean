import CpuSim.Base.SteeringTree
import CpuSim.Memory.TreePlru

/-!
# The replacement policy as a steering tree

The bits of one set are a steering tree in a heap (`tree`): `victim` finds the tree's victim,
`touch` touches its leaf, and the trees of the other sets stay. What holds of steering trees then
holds of `TreePlru`: as many evictions as there are ways replace every line once and restore the
bits, and a line touched is safe for fewer touches than the tree is deep.
-/

namespace CpuSim

namespace TreePlru

/-- Every node steers left or right. -/
def Steers (t : TreePlru) : Prop := ∀ b ∈ t.bits, b ≤ 1

theorem steers_new (sets ways : Nat) : (new sets ways).Steers := by
  intro b hb
  rw [List.eq_of_mem_replicate hb]
  omega

theorem steers_steer {base fuel i : Nat} {bits : List Nat} (h : ∀ b ∈ bits, b ≤ 1) :
    ∀ b ∈ steer base fuel i bits, b ≤ 1 := by
  induction fuel generalizing i bits with
  | zero => exact h
  | succ fuel ih =>
    unfold steer
    split
    · apply ih
      intro b hb
      rcases List.mem_or_eq_of_mem_set hb with hb | rfl
      · exact h b hb
      · split <;> omega
    · exact h

theorem steers_touch {t : TreePlru} (h : t.Steers) (set : Word) (way : Nat) :
    (t.touch set way).Steers := steers_steer h

theorem bit_le {t : TreePlru} (h : t.Steers) (i : Nat) : t.bits.getD i 0 ≤ 1 := by
  rw [List.getD_eq_getElem?_getD]
  rcases hb : t.bits[i]? with _ | b
  · simp
  · exact h b (List.mem_of_getElem? hb)

/-- Going down from an inner node or a leaf ends at a leaf. -/
theorem walk_range {t : TreePlru} (h : t.Steers) (base : Nat) {fuel i : Nat} (hi : 0 < i)
    (hlt : i < 2 * t.ways) (hfuel : t.ways ≤ i * 2 ^ fuel) :
    t.ways ≤ t.walk base fuel i ∧ t.walk base fuel i < 2 * t.ways := by
  induction fuel generalizing i with
  | zero =>
    unfold walk
    omega
  | succ fuel ih =>
    unfold walk
    split
    · have hb := bit_le h (base + i)
      have hstep : i * 2 ^ (fuel + 1) ≤ (2 * i + t.bits.getD (base + i) 0) * 2 ^ fuel := by
        calc i * 2 ^ (fuel + 1) = 2 * i * 2 ^ fuel := by rw [pow_succ]; ring
          _ ≤ _ := Nat.mul_le_mul_right _ (by omega)
      exact ih (by omega) (by omega) (by omega)
    · omega

theorem victim_lt {t : TreePlru} (h : t.Steers) (hways : 0 < t.ways) (set : Word) :
    t.victim set < t.ways := by
  have hfuel : t.ways ≤ 1 * 2 ^ t.ways := by
    have := Nat.lt_two_pow_self (n := t.ways)
    omega
  obtain ⟨hle, hlt⟩ := walk_range h (set.toNat * t.ways) one_pos (by omega) hfuel
  unfold victim
  omega

/-! ## The tree of a set -/

/-- The shape the constructor asserts and allocates: a power of two of ways, and as many bits for
    every set. -/
structure Shape (t : TreePlru) (sets n : Nat) : Prop where
  ways : t.ways = 2 ^ n
  size : t.bits.length = sets * t.ways
  steers : t.Steers

theorem shape_new (sets n : Nat) : (new sets (2 ^ n)).Shape sets n :=
  ⟨rfl, List.length_replicate, steers_new _ _⟩

/-- Which nodes of the heap at `base` point right. -/
def pointsRight (base : Nat) (bits : List Nat) (i : Nat) : Bool :=
  decide (bits.getD (base + i) 0 = 1)

/-- The steering tree of a set. -/
def tree (t : TreePlru) (set : Word) (n : Nat) : SteeringTree n :=
  .ofHeap (pointsRight (set.toNat * t.ways) t.bits) n 1

/-- Following the bits from a node is following its subtree. -/
theorem walk_eq {t : TreePlru} (h : t.Steers) (base : Nat) {n fuel i : Nat} (hi : 0 < i)
    (hlo : t.ways ≤ i * 2 ^ n) (hhi : (i + 1) * 2 ^ n ≤ 2 * t.ways) (hfuel : n ≤ fuel) :
    t.walk base fuel i =
      i * 2 ^ n + (SteeringTree.ofHeap (pointsRight base t.bits) n i).victim := by
  induction n generalizing fuel i with
  | zero =>
    rw [pow_zero, Nat.mul_one] at hlo
    have hleaf : t.walk base fuel i = i := by
      cases fuel with
      | zero => rfl
      | succ fuel => rw [walk, if_neg (by omega)]
    rw [hleaf, pow_zero, Nat.mul_one]
    rfl
  | succ n ih =>
    obtain ⟨fuel, rfl⟩ : ∃ k, fuel = k + 1 := ⟨fuel - 1, by omega⟩
    rw [pow_succ] at hlo hhi
    have hpos := Nat.two_pow_pos n
    have hinner : i < t.ways := by
      have hi2 : i * 2 ≤ i * 2 * 2 ^ n := Nat.le_mul_of_pos_right _ hpos
      have hsplit : (i + 1) * (2 ^ n * 2) = i * 2 * 2 ^ n + 2 * 2 ^ n := by ring
      omega
    have hleft : i * (2 ^ n * 2) = 2 * i * 2 ^ n := by ring
    have hright : (i + 1) * (2 ^ n * 2) = (2 * i + 1 + 1) * 2 ^ n := by ring
    rw [walk, if_pos hinner, SteeringTree.ofHeap, SteeringTree.victim, pow_succ]
    have hbit := bit_le h (base + i)
    rcases Nat.le_one_iff_eq_zero_or_eq_one.mp hbit with hb | hb
    · have hf : pointsRight base t.bits i = false := decide_eq_false (by rw [hb]; decide)
      have hmono : (2 * i + 1) * 2 ^ n ≤ (2 * i + 1 + 1) * 2 ^ n :=
        Nat.mul_le_mul_right _ (by omega)
      rw [hb, hf, Nat.add_zero, ih (by omega) (by omega) (by omega) (by omega), hleft]
      rfl
    · have hf : pointsRight base t.bits i = true := decide_eq_true hb
      have hmono : 2 * i * 2 ^ n ≤ (2 * i + 1) * 2 ^ n := Nat.mul_le_mul_right _ (by omega)
      rw [hb, hf, ih (by omega) (by omega) (by omega) (by omega), hleft, if_pos rfl]
      ring

/-- `victim` is the victim of the set's tree. -/
theorem victim_eq {t : TreePlru} {sets n : Nat} (h : t.Shape sets n) (set : Word) :
    t.victim set = (t.tree set n).victim := by
  have hn : n ≤ t.ways := by
    rw [h.ways]
    exact Nat.lt_two_pow_self.le
  rw [victim, walk_eq h.steers _ one_pos (n := n) (by rw [h.ways]; omega) (by rw [h.ways]) hn,
    h.ways, Nat.one_mul, Nat.add_sub_cancel_left]
  rw [tree, h.ways]

/-! ## A touch -/

theorem length_steer (base fuel i : Nat) (bits : List Nat) :
    (steer base fuel i bits).length = bits.length := by
  induction fuel generalizing i bits with
  | zero => rfl
  | succ fuel ih =>
    unfold steer
    split
    · rw [ih, List.length_set]
    · rfl

theorem Shape.touch {t : TreePlru} {sets n : Nat} (h : t.Shape sets n) (set : Word) (way : Nat) :
    (t.touch set way).Shape sets n :=
  ⟨h.ways, (length_steer ..).trans h.size, steers_touch h.steers set way⟩

/-- The loop of `touch` writes the inner nodes of its set only. -/
theorem steer_frame {base fuel i j : Nat} {bits : List Nat} (hj : j ≤ base ∨ base + i / 2 < j) :
    (steer base fuel i bits).getD j 0 = bits.getD j 0 := by
  induction fuel generalizing i bits with
  | zero => rfl
  | succ fuel ih =>
    unfold steer
    split
    · rw [ih (by omega), List.getD_eq_getElem?_getD, List.getElem?_set_ne (by omega),
        ← List.getD_eq_getElem?_getD]
    · rfl

theorem pointsRight_set {base p : Nat} {bits : List Nat} (hp : base + p < bits.length) (c : Prop)
    [Decidable c] :
    pointsRight base (bits.set (base + p) (if c then 1 else 0)) =
      Function.update (pointsRight base bits) p (decide c) := by
  funext j
  unfold pointsRight
  by_cases hj : j = p
  · subst hj
    rw [Function.update_self, List.getD_eq_getElem?_getD, List.getElem?_set_self hp]
    by_cases hc : c <;> simp [hc]
  · rw [Function.update_of_ne hj, List.getD_eq_getElem?_getD, List.getElem?_set_ne (by omega),
      ← List.getD_eq_getElem?_getD]

/-- The loop of `touch` turns the nodes above its leaf. -/
theorem steer_eq {base fuel i n : Nat} {bits : List Nat} (hi : i / 2 ^ n = 1) (hfuel : n ≤ fuel)
    (hlen : base + i / 2 < bits.length) :
    pointsRight base (steer base fuel i bits) =
      SteeringTree.climb (pointsRight base bits) i n := by
  induction n generalizing fuel i bits with
  | zero =>
    rw [pow_zero, Nat.div_one] at hi
    subst hi
    have hroot : steer base fuel 1 bits = bits := by
      cases fuel with
      | zero => rfl
      | succ fuel => rw [steer, if_neg (by omega)]
    rw [hroot]
    rfl
  | succ n ih =>
    obtain ⟨fuel, rfl⟩ : ∃ k, fuel = k + 1 := ⟨fuel - 1, by omega⟩
    have hhalf : i / 2 / 2 ^ n = 1 := by rw [Nat.div_div_eq_div_mul, ← pow_succ', hi]
    have hinner : 1 < i := by
      rcases Nat.lt_or_ge 1 i with hlt | hle
      · exact hlt
      · rw [show i / 2 = 0 by omega, Nat.zero_div] at hhalf
        omega
    have hparity : decide (i = 2 * (i / 2)) = decide (i % 2 = 0) := by
      rw [decide_eq_decide]
      omega
    rw [steer, if_pos hinner, SteeringTree.climb_succ,
      ih hhalf (by omega) (by rw [List.length_set]; omega), pointsRight_set hlen, hparity]

variable {t : TreePlru} {sets n : Nat}

/-- The bits of a set lie in the array. -/
theorem Shape.set_fits (h : t.Shape sets n) {set : Word} (hs : set.toNat < sets) :
    set.toNat * t.ways + t.ways ≤ t.bits.length := by
  rw [h.size, ← Nat.succ_mul]
  exact Nat.mul_le_mul_right _ hs

/-- `touch` touches the leaf of the set's tree. -/
theorem tree_touch (h : t.Shape sets n) {set : Word} (hs : set.toNat < sets) {way : Nat}
    (hw : way < t.ways) : (t.touch set way).tree set n = (t.tree set n).touch way := by
  have hfits := h.set_fits hs
  have hpos := Nat.two_pow_pos n
  have hways := h.ways
  have hn : n ≤ t.ways := by
    rw [hways]
    exact Nat.lt_two_pow_self.le
  have hroot : (way + t.ways) / 2 ^ n = 1 := by
    rw [hways, Nat.add_div_right _ hpos, Nat.div_eq_of_lt (by omega)]
  have hleaf : (way + t.ways) % 2 ^ n = way := by
    rw [hways, Nat.add_mod_right, Nat.mod_eq_of_lt (by omega)]
  have hclimb := SteeringTree.ofHeap_climb (f := pointsRight (set.toNat * t.ways) t.bits)
    (x := way + t.ways) (n := n) (by omega)
  rw [hroot, hleaf] at hclimb
  have hsteer : pointsRight (set.toNat * t.ways) (t.touch set way).bits =
      SteeringTree.climb (pointsRight (set.toNat * t.ways) t.bits) (way + t.ways) n :=
    steer_eq hroot (by omega) (by omega)
  rw [tree, tree, ← hclimb, ← hsteer]
  rfl

/-- What a touch leaves alone: the bits of the other sets, and the unused one of its own. -/
theorem touch_frame {set : Word} {way j : Nat} (hw : way < t.ways)
    (hj : j ≤ set.toNat * t.ways ∨ (set.toNat + 1) * t.ways ≤ j) :
    (t.touch set way).bits.getD j 0 = t.bits.getD j 0 := by
  apply steer_frame
  rw [Nat.succ_mul] at hj
  omega

/-- A heap node of a set of `2 ^ n` ways. -/
theorem node_lt {e j : Nat} (he : e < n) (hj : j / 2 ^ e = 1) : 0 < j ∧ j < 2 ^ n := by
  have hpos := Nat.two_pow_pos e
  have hlt : j < 2 ^ (e + 1) := by
    have := Nat.lt_mul_div_succ j hpos
    rw [hj] at this
    rw [pow_succ]
    exact this
  refine ⟨?_, hlt.trans_le (Nat.pow_le_pow_right (by decide) he)⟩
  rcases Nat.eq_zero_or_pos j with rfl | h
  · rw [Nat.zero_div] at hj
    omega
  · exact h

/-- The other sets keep their trees. -/
theorem tree_touch_of_ne (h : t.Shape sets n) {set set' : Word} (hne : set' ≠ set) {way : Nat}
    (hw : way < t.ways) : (t.touch set' way).tree set n = t.tree set n := by
  have hsets : set'.toNat ≠ set.toNat := fun he => hne (BitVec.eq_of_toNat_eq he)
  refine SteeringTree.ofHeap_eq_iff.mpr fun e j he hj => ?_
  obtain ⟨hpos, hlt⟩ := node_lt he hj
  rw [← h.ways] at hlt
  have hbit : (t.touch set' way).bits.getD (set.toNat * t.ways + j) 0 =
      t.bits.getD (set.toNat * t.ways + j) 0 := by
    apply touch_frame hw
    rcases Nat.lt_or_gt_of_ne hsets with hlow | hhigh
    · have := Nat.mul_le_mul_right t.ways hlow
      exact .inr (by rw [Nat.succ_eq_add_one] at this; omega)
    · have := Nat.mul_le_mul_right t.ways hhigh
      rw [Nat.succ_mul] at this
      exact .inl (by omega)
  exact congrArg (fun b => decide (b = 1)) hbit

theorem victim_touch_of_ne (h : t.Shape sets n) {set set' : Word} (hne : set' ≠ set) {way : Nat}
    (hw : way < t.ways) : (t.touch set' way).victim set = t.victim set := by
  rw [victim_eq (h.touch set' way), victim_eq h, tree_touch_of_ne h hne hw]

/-- A way just touched is not the victim, if there is another. -/
theorem victim_touch_ne (h : t.Shape sets n) (hways : 2 ≤ t.ways) {set : Word}
    (hs : set.toNat < sets) {way : Nat} (hw : way < t.ways) :
    (t.touch set way).victim set ≠ way := by
  have hdepth : 0 < n := by
    rcases Nat.eq_zero_or_pos n with rfl | hpos
    · have := h.ways
      omega
    · exact hpos
  rw [victim_eq (h.touch set way), tree_touch h hs hw]
  exact SteeringTree.victim_touchAll_ne _ way (show ([] : List Nat).length < n from hdepth)

/-! ## Rounds of evictions -/

/-- The victims of `k` evictions in a full set, each touched by the line that replaces it, and
    the state after them. -/
def evict (t : TreePlru) (set : Word) : Nat → List Nat × TreePlru
  | 0 => ([], t)
  | k + 1 =>
    let way := t.victim set
    let rest := (t.touch set way).evict set k
    (way :: rest.1, rest.2)

theorem victim_lt_ways (h : t.Shape sets n) (set : Word) : t.victim set < t.ways := by
  rw [victim_eq h, h.ways]
  exact SteeringTree.victim_lt _

/-- An eviction replaces the victim of the set's tree. -/
theorem tree_touch_victim (h : t.Shape sets n) {set : Word} (hs : set.toNat < sets) :
    (t.touch set (t.victim set)).tree set n = (t.tree set n).replace := by
  rw [tree_touch h hs (victim_lt_ways h set), victim_eq h]
  rfl

/-- Evictions are replacements in the set's tree, and leave everything else. -/
theorem evict_spec (h : t.Shape sets n) {set : Word} (hs : set.toNat < sets) (k : Nat) :
    (t.evict set k).1 = (t.tree set n).victims k ∧
      (t.evict set k).2.tree set n = SteeringTree.replace^[k] (t.tree set n) ∧
      (t.evict set k).2.Shape sets n ∧
      ∀ j, j ≤ set.toNat * t.ways ∨ (set.toNat + 1) * t.ways ≤ j →
        (t.evict set k).2.bits.getD j 0 = t.bits.getD j 0 := by
  induction k generalizing t with
  | zero => exact ⟨rfl, rfl, h, fun _ _ => rfl⟩
  | succ k ih =>
    have hlt := victim_lt_ways h set
    obtain ⟨hvictims, htree, hshape, hframe⟩ := ih (h.touch set (t.victim set))
    rw [tree_touch_victim h hs] at hvictims htree
    refine ⟨?_, ?_, hshape, fun j hj => (hframe j hj).trans (touch_frame hlt hj)⟩
    · rw [SteeringTree.victims, ← victim_eq h, ← hvictims]
      rfl
    · rw [Function.iterate_succ_apply]
      exact htree

/-- The tree of a set and the bits outside of it are the whole state. -/
theorem eq_of_tree_eq {t' : TreePlru} (h : t.Shape sets n) (h' : t'.Shape sets n) {set : Word}
    (htree : t'.tree set n = t.tree set n)
    (hframe : ∀ j, j ≤ set.toNat * t.ways ∨ (set.toNat + 1) * t.ways ≤ j →
      t'.bits.getD j 0 = t.bits.getD j 0) : t' = t := by
  have hways : t'.ways = t.ways := h'.ways.trans h.ways.symm
  have hsize : t'.bits.length = t.bits.length := by rw [h'.size, h.size, hways]
  have hget : ∀ j, t'.bits.getD j 0 = t.bits.getD j 0 := by
    intro j
    by_cases hj : j ≤ set.toNat * t.ways ∨ (set.toNat + 1) * t.ways ≤ j
    · exact hframe j hj
    · -- A node of the set's tree, where both bits are bits.
      rw [Nat.succ_mul] at hj
      obtain ⟨i, rfl⟩ : ∃ i, j = set.toNat * t.ways + i := ⟨j - set.toNat * t.ways, by omega⟩
      have hpos : i ≠ 0 := by omega
      have hdepth : i / 2 ^ Nat.log2 i = 1 := by
        have hlo := Nat.log2_self_le hpos
        have hhi := Nat.lt_log2_self (n := i)
        rw [pow_succ] at hhi
        rw [Nat.div_eq_iff (Nat.two_pow_pos _)]
        omega
      have hlog : Nat.log2 i < n := by
        rw [Nat.log2_lt hpos, ← h.ways]
        omega
      have hright := SteeringTree.ofHeap_eq_iff.mp htree _ i hlog hdepth
      rw [hways] at hright
      have hb := bit_le h.steers (set.toNat * t.ways + i)
      have hb' := bit_le h'.steers (set.toNat * t.ways + i)
      have hiff := decide_eq_decide.mp hright
      omega
  have hbits : t'.bits = t.bits := by
    apply List.ext_getElem hsize
    intro j hj hj'
    have := hget j
    rwa [List.getD_eq_getElem?_getD, List.getD_eq_getElem?_getD, List.getElem?_eq_getElem hj,
      List.getElem?_eq_getElem hj', Option.getD_some, Option.getD_some] at this
  obtain ⟨ways', bits'⟩ := t'
  obtain rfl : ways' = t.ways := hways
  obtain rfl : bits' = t.bits := hbits
  rfl

/-- As many evictions as a set has ways replace every way once and restore every bit. -/
theorem evict_cycles (h : t.Shape sets n) {set : Word} (hs : set.toNat < sets) :
    (t.evict set t.ways).1.Perm (List.range t.ways) ∧ (t.evict set t.ways).2 = t := by
  obtain ⟨hvictims, htree, hshape, hframe⟩ := evict_spec h hs t.ways
  rw [h.ways] at hvictims htree hshape hframe ⊢
  rw [SteeringTree.iterate_replace] at htree
  refine ⟨?_, eq_of_tree_eq h hshape htree (by rw [h.ways]; exact hframe)⟩
  rw [hvictims]
  exact SteeringTree.victims_perm _

/-- Four ways, the second of two sets, its root pointing right. -/
theorem evict_cycles_fourWay :
    (evict ⟨4, [0, 0, 0, 0, 0, 1, 0, 0]⟩ 1 4).1 = [2, 0, 3, 1] ∧
      (evict ⟨4, [0, 0, 0, 0, 0, 1, 0, 0]⟩ 1 4).1.Perm (List.range 4) ∧
      (evict ⟨4, [0, 0, 0, 0, 0, 1, 0, 0]⟩ 1 4).2 = ⟨4, [0, 0, 0, 0, 0, 1, 0, 0]⟩ :=
  ⟨by decide, evict_cycles
    (show Shape ⟨4, [0, 0, 0, 0, 0, 1, 0, 0]⟩ 2 2 from ⟨rfl, rfl, by unfold Steers; decide⟩)
    (show (1 : Word).toNat < 2 by decide)⟩

/-! ## Protection by a touch -/

/-- A sequence of touches of any sets. -/
def touchAll (t : TreePlru) (calls : List (Word × Nat)) : TreePlru :=
  calls.foldl (fun t call => t.touch call.1 call.2) t

theorem Shape.touchAll (h : t.Shape sets n) (calls : List (Word × Nat)) :
    (t.touchAll calls).Shape sets n := by
  induction calls generalizing t with
  | nil => exact h
  | cons call calls ih => exact ih (h.touch call.1 call.2)

/-- Only the touches of a set act on its tree. -/
theorem tree_touchAll (h : t.Shape sets n) {set : Word} (hs : set.toNat < sets)
    {calls : List (Word × Nat)} (hcalls : ∀ call ∈ calls, call.2 < t.ways) :
    (t.touchAll calls).tree set n =
      (t.tree set n).touchAll ((calls.filter (·.1 = set)).map (·.2)) := by
  induction calls generalizing t with
  | nil => rfl
  | cons call calls ih =>
    have hw := hcalls call List.mem_cons_self
    have hrest := ih (h.touch call.1 call.2) fun c hc => hcalls c (List.mem_cons_of_mem _ hc)
    rw [List.filter_cons]
    refine hrest.trans ?_
    by_cases hset : call.1 = set
    · rw [if_pos (decide_eq_true hset), List.map_cons, SteeringTree.touchAll_cons,
        ← tree_touch h hs hw, hset]
    · rw [if_neg (by simpa using hset), tree_touch_of_ne h hset hw]

/-- A touched way is not the victim of its set for fewer than `log2 ways` touches of the set,
    whatever happens in other sets, and can be after that many. -/
theorem touch_protects (h : t.Shape sets n) {set : Word} (hs : set.toNat < sets) {way : Nat}
    (hw : way < t.ways) :
    (∀ calls : List (Word × Nat), (∀ call ∈ calls, call.1.toNat < sets ∧ call.2 < t.ways) →
      (calls.filter (·.1 = set)).length < Nat.log2 t.ways →
      ((t.touch set way).touchAll calls).victim set ≠ way) ∧
    (2 ≤ t.ways → ∃ ws : List Nat, ws.length = Nat.log2 t.ways ∧ (∀ w ∈ ws, w < t.ways) ∧
      ((t.touch set way).touchAll (ws.map (set, ·))).victim set = way) ∧
    (∀ calls : List (Word × Nat), (∀ call ∈ calls, call.1.toNat < sets ∧ call.2 < t.ways) →
      (t.touchAll calls).victim set < t.ways) ∧
    (∀ calls : List (Word × Nat), (∀ call ∈ calls, call.1.toNat < sets ∧ call.2 < t.ways) →
      ∀ set' : Word, set' ≠ set → ∀ w < t.ways,
        ((t.touchAll calls).touch set' w).victim set = (t.touchAll calls).victim set) := by
  have hlog : Nat.log2 t.ways = n := by rw [h.ways, Nat.log2_two_pow]
  have hways : ∀ calls : List (Word × Nat), (t.touchAll calls).ways = t.ways :=
    fun calls => (h.touchAll calls).ways.trans h.ways.symm
  refine ⟨?_, ?_, ?_, ?_⟩
  · intro calls hcalls hfew
    rw [hlog] at hfew
    rw [victim_eq ((h.touch set way).touchAll calls),
      tree_touchAll (h.touch set way) hs fun call hc => (hcalls call hc).2, tree_touch h hs hw]
    exact SteeringTree.victim_touchAll_ne _ way (by rw [List.length_map]; exact hfew)
  · intro _
    rw [h.ways] at hw
    refine ⟨SteeringTree.siblings n way, ?_, ?_, ?_⟩
    · rw [hlog, SteeringTree.siblings_length]
    · intro w hmem
      rw [h.ways]
      exact SteeringTree.siblings_lt hmem
    · have hlt : ∀ call ∈ (SteeringTree.siblings n way).map (set, ·),
          call.2 < (t.touch set way).ways := by
        intro call hc
        obtain ⟨w, hmem, rfl⟩ := List.mem_map.mp hc
        exact (SteeringTree.siblings_lt hmem).trans_eq h.ways.symm
      have hall : (((SteeringTree.siblings n way).map (set, ·)).filter (·.1 = set)).map (·.2) =
          SteeringTree.siblings n way := by
        rw [List.filter_eq_self.mpr, List.map_map]
        · exact List.map_id' _
        · intro call hc
          obtain ⟨w, _, rfl⟩ := List.mem_map.mp hc
          exact decide_eq_true rfl
      rw [victim_eq ((h.touch set way).touchAll _), tree_touchAll (h.touch set way) hs hlt, hall]
      exact SteeringTree.victim_touchAll_siblings _ hw
  · intro calls _
    exact (victim_lt_ways (h.touchAll calls) set).trans_eq (hways calls)
  · intro calls _ set' hne w hlt
    have hcalls := h.touchAll calls
    exact victim_touch_of_ne hcalls hne (hlt.trans_eq (hways calls).symm)

/-- Four ways in each of two sets: with way 2 of set 1 touched, one more touch of the set and two
    of set 0 do not make it the victim. -/
theorem touch_protects_fourWay :
    (((new 2 4).touch 1 2).touchAll [(0, 1), (1, 0), (0, 3)]).victim 1 ≠ 2 :=
  (touch_protects (shape_new 2 2) (show (1 : Word).toNat < 2 by decide)
    (show 2 < (new 2 4).ways by decide)).1 [(0, 1), (1, 0), (0, 3)] (by decide) (by decide)

end TreePlru

end CpuSim
