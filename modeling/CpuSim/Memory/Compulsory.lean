import CpuSim.Base.Blocking
import CpuSim.Memory.Atomic
import Mathlib.Algebra.BigOperators.Group.List.Basic
import Mathlib.Data.Finset.Card
import Mathlib.Data.Finset.Dedup
import Mathlib.Tactic.Ring
import Mathlib.Tactic.Tauto

/-!
# Compulsory misses

What a level of the atomic cache costs when the lines that are accessed fit: as long as no set gets
more lines than it has ways, no line is ever replaced, whatever the policy, so a line is missed the
first time it is accessed and hit from then on.
-/

namespace Atomic.Level

variable {P β : Type*}

/-- The number of the line of an address. -/
def lineOf (l : Level P) (a : Nat) : Nat := a / l.lineBytes

/-- The lines of some addresses. -/
def footprint (lineBytes : Nat) (as : List Nat) : Finset Nat := (as.map (· / lineBytes)).toFinset

/-- No set gets more of these lines than it has ways. -/
def Fits (l : Level P) (xs : Finset Nat) : Prop :=
  ∀ s < l.sets, (xs.filter fun x => x % l.sets = s).card ≤ l.ways

/-- `l` holds the lines of `done`, each once, and no others. -/
structure Keeps (l : Level P) (done : Finset Nat) : Prop where
  found : ∀ x ∈ done, ∃ w < l.ways, ∃ b, l.lines (x % l.sets) w = some b ∧ b.tag = x / l.sets
  held : ∀ {s w b}, s < l.sets → w < l.ways → l.lines s w = some b → b.tag * l.sets + s ∈ done
  once : ∀ {s w w' b b'}, w < l.ways → w' < l.ways → l.lines s w = some b →
    l.lines s w' = some b' → b.tag = b'.tag → w = w'

theorem Fits.mono {l : Level P} {xs ys : Finset Nat} (h : l.Fits ys) (hsub : xs ⊆ ys) : l.Fits xs :=
  fun s hs => (Finset.card_le_card (Finset.filter_subset_filter _ hsub)).trans (h s hs)

theorem keeps_empty {l : Level P} (h : ∀ s w, l.lines s w = none) : l.Keeps ∅ where
  found := by simp
  held := by simp [h]
  once := by simp [h]

section Lookup

variable {l : Level P} {done : Finset Nat} {a : Nat}

theorem Keeps.lookup_of_mem (h : l.Keeps done) (ha : l.lineOf a ∈ done) :
    ∃ w b, l.lookup a = some w ∧ w < l.ways ∧ l.lines (l.setOf a) w = some b := by
  rcases h.found _ ha with ⟨w, hw, b, hb, htag⟩
  have hb : l.lines (l.setOf a) w = some b := hb
  have htag : b.tag = l.tagOf a := htag
  cases hl : l.lookup a with
  | none =>
    have hnone := List.find?_eq_none.mp hl w (List.mem_range.mpr hw)
    simp [hb, htag] at hnone
  | some w' =>
    have hany := List.find?_some hl
    rcases Option.any_eq_true _ _ |>.mp hany with ⟨b', hb', -⟩
    exact ⟨w', b', rfl, List.mem_range.mp (List.mem_of_find?_eq_some hl), hb'⟩

theorem Keeps.lookup_of_notMem (h : l.Keeps done) (hs : 0 < l.sets) (ha : l.lineOf a ∉ done) :
    l.lookup a = none := by
  apply List.find?_eq_none.mpr
  intro w hw hany
  rcases Option.any_eq_true _ _ |>.mp hany with ⟨b, hb, htag⟩
  have hmem := h.held (Nat.mod_lt _ hs) (List.mem_range.mp hw) hb
  rw [beq_iff_eq.mp htag] at hmem
  have hline : l.tagOf a * l.sets + l.lineOf a % l.sets = l.lineOf a := Nat.div_add_mod' _ _
  exact ha (hline ▸ hmem)

end Lookup

/-- While the lines fit, the set of a new one has an empty way. -/
theorem Keeps.exists_empty {l : Level P} {done : Finset Nat} {x : Nat} (h : l.Keeps done)
    (hs : 0 < l.sets) (hx : x ∉ done) (hfits : l.Fits (insert x done)) :
    ∃ w < l.ways, l.lines (x % l.sets) w = none := by
  by_contra hfull
  push Not at hfull
  have hsome : ∀ w < l.ways, ∃ b, l.lines (x % l.sets) w = some b :=
    fun w hw => Option.ne_none_iff_exists'.mp (hfull w hw)
  have : Nonempty Block := ⟨⟨0, false⟩⟩
  choose! block hblock using hsome
  let old := done.filter fun y => y % l.sets = x % l.sets
  have hlt : x % l.sets < l.sets := Nat.mod_lt _ hs
  -- the blocks of the set are different lines of `done`
  have hinj : (Finset.range l.ways).card ≤ old.card := by
    refine Finset.card_le_card_of_injOn (fun w => (block w).tag * l.sets + x % l.sets) ?_ ?_
    · intro w hw
      have hw := Finset.mem_range.mp hw
      have hmem := h.held hlt hw (hblock w hw)
      simp [old, hmem, Nat.mul_add_mod_self_right]
    · intro w hw w' hw' heq
      have hw := Finset.mem_range.mp hw
      have hw' := Finset.mem_range.mp hw'
      have htag : (block w).tag = (block w').tag :=
        Nat.eq_of_mul_eq_mul_right hs (Nat.add_right_cancel heq)
      exact h.once hw hw' (hblock w hw) (hblock w' hw') htag
  have hnew : (insert x done).filter (fun y => y % l.sets = x % l.sets) = insert x old := by
    rw [Finset.filter_insert, if_pos rfl]
  have hroom := hfits (x % l.sets) hlt
  rw [hnew, Finset.card_insert_of_notMem (by simp [old, hx])] at hroom
  rw [Finset.card_range] at hinj
  omega

/-! ## Accesses -/

variable [Policy P]

/-- The fields that no access changes. -/
def shape (l : Level P) : Nat × Nat × Nat × Nat := (l.lineBytes, l.sets, l.ways, l.hitLatency)

variable {l : Level P} {done : Finset Nat} {a x : Nat}

theorem Keeps.victim_empty (h : l.Keeps done) (hs : 0 < l.sets) (hx : x ∉ done)
    (hfits : l.Fits (insert x done)) :
    l.victim (x % l.sets) < l.ways ∧ l.lines (x % l.sets) (l.victim (x % l.sets)) = none := by
  rcases h.exists_empty hs hx hfits with ⟨w, hw, hempty⟩
  unfold victim
  cases hfind : (List.range l.ways).find? fun w => (l.lines (x % l.sets) w).isNone with
  | none =>
    have hnone := List.find?_eq_none.mp hfind w (List.mem_range.mpr hw)
    simp [hempty] at hnone
  | some v =>
    have hnone := List.find?_some hfind
    exact ⟨List.mem_range.mp (List.mem_of_find?_eq_some hfind), Option.isNone_iff_eq_none.mp hnone⟩

/-- A new line goes into an empty way. -/
theorem Keeps.put_new (h : l.Keeps done) (hs : 0 < l.sets) (hx : x ∉ done) {w : Nat}
    (hw : w < l.ways) (hempty : l.lines (x % l.sets) w = none) (d : Bool) :
    (l.put (x % l.sets) w ⟨x / l.sets, d⟩).Keeps (insert x done) where
  found := by
    intro y hy
    change ∃ v < l.ways, ∃ b,
      (if y % l.sets = x % l.sets ∧ v = w then some (Block.mk (x / l.sets) d)
      else l.lines (y % l.sets) v) = some b ∧ b.tag = y / l.sets
    rcases Finset.mem_insert.mp hy with rfl | hy
    · exact ⟨w, hw, _, if_pos ⟨rfl, rfl⟩, rfl⟩
    · rcases h.found y hy with ⟨v, hv, b, hb, htag⟩
      refine ⟨v, hv, b, ?_, htag⟩
      rw [if_neg]
      · exact hb
      · rintro ⟨hset, rfl⟩
        rw [hset, hempty] at hb
        cases hb
  held := by
    intro s v b hlt hv hb
    change (if s = x % l.sets ∧ v = w then some (Block.mk (x / l.sets) d)
      else l.lines s v) = some b at hb
    change b.tag * l.sets + s ∈ _
    split at hb
    · rename_i hsame
      cases hb
      rw [hsame.1, Nat.div_add_mod']
      exact Finset.mem_insert_self _ _
    · exact Finset.mem_insert_of_mem (h.held hlt hv hb)
  once := by
    intro s v v' b b' hv hv' hb hb' htag
    change (if s = x % l.sets ∧ v = w then some (Block.mk (x / l.sets) d)
      else l.lines s v) = some b at hb
    change (if s = x % l.sets ∧ v' = w then some (Block.mk (x / l.sets) d)
      else l.lines s v') = some b' at hb'
    -- no line of `done` has the tag of `x` in its set
    have hnew : ∀ {u : Nat} {c : Block}, u < l.ways → l.lines (x % l.sets) u = some c →
        c.tag ≠ x / l.sets := by
      intro u c hu hc htag
      have hmem := h.held (Nat.mod_lt _ hs) hu hc
      rw [htag, Nat.div_add_mod'] at hmem
      exact hx hmem
    split at hb <;> split at hb'
    · rename_i h1 h2
      exact h1.2.trans h2.2.symm
    · rename_i h1 h2
      cases hb
      rw [h1.1] at hb'
      exact absurd htag.symm (hnew hv' hb')
    · rename_i h1 h2
      cases hb'
      rw [h2.1] at hb
      exact absurd htag (hnew hv hb)
    · exact h.once hv hv' hb hb' htag

/-- A hit changes no tag. -/
theorem Keeps.hit (h : l.Keeps done) {s w : Nat} {b : Block} (hb : l.lines s w = some b)
    (isWrite : Bool) : (l.hit s w isWrite).Keeps done := by
  have htags : ∀ t v,
      ((l.hit s w isWrite).lines t v).map Block.tag = (l.lines t v).map Block.tag := by
    intro t v
    unfold Level.hit
    rw [hb]
    change (if t = s ∧ v = w then some (Block.mk b.tag (b.dirty || isWrite)) else l.lines t v).map
      Block.tag = _
    split
    · rename_i hsame
      rw [hsame.1, hsame.2, hb]
      rfl
    · rfl
  have hshape : (l.hit s w isWrite).ways = l.ways ∧ (l.hit s w isWrite).sets = l.sets := by
    unfold Level.hit
    rw [hb]
    exact ⟨rfl, rfl⟩
  have hback : ∀ {t v c}, (l.hit s w isWrite).lines t v = some c →
      ∃ c', l.lines t v = some c' ∧ c'.tag = c.tag := by
    intro t v c hc
    have htag := htags t v
    rw [hc] at htag
    exact Option.map_eq_some_iff.mp htag.symm
  refine ⟨fun x hx => ?_, fun hlt hv hc => ?_, fun hv hv' hc hc' htag => ?_⟩
  · rcases h.found x hx with ⟨v, hv, c, hc, htag⟩
    rw [hshape.1, hshape.2]
    have hmap := htags (x % l.sets) v
    rw [hc] at hmap
    rcases Option.map_eq_some_iff.mp hmap with ⟨c', hc', htag'⟩
    exact ⟨v, hv, c', hc', htag'.trans htag⟩
  · rw [hshape.2] at hlt ⊢
    rw [hshape.1] at hv
    rcases hback hc with ⟨c', hc', htag⟩
    exact htag ▸ h.held hlt hv hc'
  · rw [hshape.1] at hv hv'
    rcases hback hc with ⟨c₁, hc₁, htag₁⟩
    rcases hback hc' with ⟨c₂, hc₂, htag₂⟩
    exact h.once hv hv' hc₁ hc₂ (by rw [htag₁, htag₂, htag])

/-- One access: a new line is fetched from below, and nothing is written back. -/
theorem Keeps.access (h : l.Keeps done) (hs : 0 < l.sets)
    (hfits : l.Fits (insert (l.lineOf a) done)) (isWrite : Bool)
    (below : β → Nat → Bool → Nat × β) (b : β) :
    (access below (l, b) a isWrite).1 =
        (if l.lineOf a ∈ done then 0 else (below b a false).1) + l.hitLatency ∧
      (access below (l, b) a isWrite).2.1.Keeps (insert (l.lineOf a) done) ∧
      (access below (l, b) a isWrite).2.1.shape = l.shape ∧
      (access below (l, b) a isWrite).2.2 =
        if l.lineOf a ∈ done then b else (below b a false).2 := by
  by_cases ha : l.lineOf a ∈ done
  · rcases h.lookup_of_mem ha with ⟨w, c, hl, -, hc⟩
    rw [access_of_hit hl, if_pos ha, if_pos ha, Finset.insert_eq_of_mem ha]
    refine ⟨(Nat.zero_add _).symm, h.hit hc isWrite, ?_, rfl⟩
    simp only [Level.hit, hc]
    rfl
  · have hvictim := h.victim_empty hs ha hfits
    have howes : l.owes (l.setOf a) (l.victim (l.setOf a)) = none := by
      unfold owes
      rw [show l.lines (l.setOf a) (l.victim (l.setOf a)) = none from hvictim.2]
      rfl
    rw [access_of_clean_miss (h.lookup_of_notMem hs ha) howes, if_neg ha, if_neg ha]
    exact ⟨rfl, h.put_new hs ha hvictim.1 hvictim.2 isWrite, rfl, rfl⟩

/-! ## Runs -/

section Runs

variable {ρ : Type*} (addr : ρ → Nat) (isWrite : ρ → Bool)

theorem footprint_cons (b a : Nat) (as : List Nat) :
    footprint b (a :: as) = insert (a / b) (footprint b as) := by simp [footprint]

/-- The new lines of an access and of those after it. -/
theorem card_insert_sdiff (x : Nat) (xs : Finset Nat) :
    (insert x xs \ done).card = (if x ∈ done then 0 else 1) + (xs \ insert x done).card := by
  split
  · rename_i hx
    rw [Finset.insert_sdiff_of_mem _ hx, Finset.insert_eq_of_mem hx, Nat.zero_add]
  · rename_i hx
    have hnew : insert x xs \ done = insert x (xs \ insert x done) := by
      ext y
      by_cases hy : y = x <;> simp [hy, hx]
    rw [hnew, Finset.card_insert_of_notMem (by simp), Nat.add_comm]

/-- Over a memory of fixed latency `L` a run of accesses whose lines fit pays the hit latency for
    each, and `L` for each line that is new. -/
theorem Keeps.sum_costs (L : Nat) (rs : List ρ) (hs : 0 < l.sets) (h : l.Keeps done)
    (hfits : l.Fits (done ∪ footprint l.lineBytes (rs.map addr))) :
    ((Blocking.accessAll (fun s r => Level.access (fun L _ _ => (L, L)) s (addr r) (isWrite r)) rs
        (l, L)).1).sum =
      rs.length * l.hitLatency + (footprint l.lineBytes (rs.map addr) \ done).card * L := by
  induction rs generalizing l done with
  | nil => simp [Blocking.accessAll, footprint]
  | cons r rs ih =>
    have hlines : footprint l.lineBytes ((r :: rs).map addr) =
        insert (l.lineOf (addr r)) (footprint l.lineBytes (rs.map addr)) := footprint_cons _ _ _
    rw [hlines] at hfits ⊢
    have hone : l.Fits (insert (l.lineOf (addr r)) done) :=
      hfits.mono (by intro y hy; simp only [Finset.mem_insert, Finset.mem_union] at hy ⊢; tauto)
    rcases h.access hs hone (isWrite r) (fun L _ _ => (L, L)) L with ⟨hcost, hkeeps, hshape, hbelow⟩
    generalize hl' : Level.access (fun L _ _ => (L, L)) (l, L) (addr r) (isWrite r) = out at *
    rcases out with ⟨cost, l', L'⟩
    simp only at hcost hkeeps hshape hbelow
    have hL : L' = L := by rw [hbelow, ite_self]
    simp only [shape, Prod.mk.injEq] at hshape
    have hrest : l'.Fits
        (insert (l.lineOf (addr r)) done ∪ footprint l'.lineBytes (rs.map addr)) := by
      intro s hlt
      rw [hshape.2.1] at hlt
      rw [hshape.1, hshape.2.1, hshape.2.2.1]
      refine hfits.mono ?_ s hlt
      intro y hy
      simp only [Finset.mem_insert, Finset.mem_union] at hy ⊢
      tauto
    have hih := ih (l := l') (hshape.2.1 ▸ hs) hkeeps hrest
    simp only [Blocking.accessAll, hl', hL, List.sum_cons, List.length_cons, hih, hcost,
      card_insert_sdiff, hshape.1, hshape.2.2.2]
    split <;> ring

end Runs

end Atomic.Level
