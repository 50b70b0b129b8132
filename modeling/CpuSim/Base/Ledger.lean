import Mathlib.Data.Finset.Card
import Mathlib.Data.Multiset.OrderedMonoid
import Mathlib.Data.Multiset.Range

/-!
# What becomes of things placed in slots

Things are placed in slots one at a time, and each is used, or wasted because its slot is taken
before. A `Ledger` numbers the things and files each number; a `Tally` keeps only the occupied
slots and two counts. The ledger stays balanced by construction, so no thing is filed twice, and
the tally follows it.
-/

/-- What happens to slots. -/
inductive SlotEvent (κ : Type*) where
  /-- The slot is used, with the thing in it. -/
  | use (k : κ)
  /-- The slot is taken for something else. -/
  | take (k : κ)
  /-- A new thing takes the slot. -/
  | place (k : κ)
  /-- A new thing is used without ever taking a slot. -/
  | pass
  deriving DecidableEq

/-- The things placed so far by number, each filed once. -/
structure Ledger (κ : Type*) where
  pending : Multiset (κ × ℕ) := 0
  used : Multiset ℕ := 0
  wasted : Multiset ℕ := 0
  placed : ℕ := 0

/-- The occupied slots, and how many things were used and wasted. -/
@[ext]
structure Tally (κ : Type*) where
  slots : Finset κ := ∅
  used : ℕ := 0
  wasted : ℕ := 0

variable {κ : Type*} [DecidableEq κ]

namespace SlotEvent

def isPlace : SlotEvent κ → Bool
  | .place _ => true
  | _ => false

def isTake : SlotEvent κ → Bool
  | .take _ => true
  | _ => false

/-- A new thing comes with the event. -/
def isNew (e : SlotEvent κ) : Bool := e.isPlace || e == .pass

theorem countP_isNew (es : List (SlotEvent κ)) :
    es.countP isNew = es.countP isPlace + es.count .pass := by
  induction es with
  | nil => rfl
  | cons e es ih =>
    rw [List.countP_cons, List.countP_cons, List.count_cons, ih]
    cases e <;> simp [isNew, isPlace] <;> omega

end SlotEvent

namespace Ledger

/-- The numbers of the things in slot `k`. -/
def inSlot (g : Ledger κ) (k : κ) : Multiset ℕ := (g.pending.filter (·.1 = k)).map Prod.snd

def elsewhere (g : Ledger κ) (k : κ) : Multiset (κ × ℕ) := g.pending.filter (¬ ·.1 = k)

def step (g : Ledger κ) : SlotEvent κ → Ledger κ
  | .use k => { g with pending := g.elsewhere k, used := g.used + g.inSlot k }
  | .take k => { g with pending := g.elsewhere k, wasted := g.wasted + g.inSlot k }
  | .place k =>
    { g with
      pending := (k, g.placed) ::ₘ g.elsewhere k
      wasted := g.wasted + g.inSlot k
      placed := g.placed + 1 }
  | .pass => { g with used := g.placed ::ₘ g.used, placed := g.placed + 1 }

/-- Every number is filed, and filed once. -/
def Balanced (g : Ledger κ) : Prop :=
  g.used + g.wasted + g.pending.map Prod.snd = Multiset.range g.placed

theorem inSlot_add_elsewhere (g : Ledger κ) (k : κ) :
    g.inSlot k + (g.elsewhere k).map Prod.snd = g.pending.map Prod.snd := by
  unfold inSlot elsewhere
  rw [← Multiset.map_add, Multiset.filter_add_not]

theorem Balanced.step {g : Ledger κ} (h : g.Balanced) (e : SlotEvent κ) :
    (g.step e).Balanced := by
  unfold Balanced at h ⊢
  cases e with
  | use k =>
    change g.used + g.inSlot k + g.wasted + (g.elsewhere k).map Prod.snd = _
    rw [add_right_comm g.used, add_assoc _ (g.inSlot k), inSlot_add_elsewhere, h]
    rfl
  | take k =>
    change g.used + (g.wasted + g.inSlot k) + (g.elsewhere k).map Prod.snd = _
    rw [← add_assoc, add_assoc _ (g.inSlot k), inSlot_add_elsewhere, h]
    rfl
  | place k =>
    change g.used + (g.wasted + g.inSlot k) + ((k, g.placed) ::ₘ g.elsewhere k).map Prod.snd =
      Multiset.range (g.placed + 1)
    rw [Multiset.map_cons, Multiset.add_cons, ← add_assoc, add_assoc _ (g.inSlot k),
      inSlot_add_elsewhere, h, Multiset.range_succ]
  | pass =>
    change g.placed ::ₘ g.used + g.wasted + g.pending.map Prod.snd =
      Multiset.range (g.placed + 1)
    rw [Multiset.cons_add, Multiset.cons_add, h, Multiset.range_succ]

theorem placed_step (g : Ledger κ) (e : SlotEvent κ) :
    (g.step e).placed = g.placed + if e.isNew then 1 else 0 := by
  cases e <;> rfl

end Ledger

namespace Tally

/-- The thing in slot `k`, as a count. -/
def inSlot (t : Tally κ) (k : κ) : ℕ := if k ∈ t.slots then 1 else 0

def step (t : Tally κ) : SlotEvent κ → Tally κ
  | .use k => { t with slots := t.slots.erase k, used := t.used + t.inSlot k }
  | .take k => { t with slots := t.slots.erase k, wasted := t.wasted + t.inSlot k }
  | .place k => { t with slots := insert k t.slots, wasted := t.wasted + t.inSlot k }
  | .pass => { t with used := t.used + 1 }

end Tally

namespace Ledger

/-- The tally counts what the ledger files. -/
structure Tallies (g : Ledger κ) (t : Tally κ) : Prop where
  slots : g.pending.map Prod.fst = t.slots.val
  used : g.used.card = t.used
  wasted : g.wasted.card = t.wasted

namespace Tallies

variable {g : Ledger κ} {t : Tally κ}

theorem elsewhere (h : g.Tallies t) (k : κ) :
    (g.elsewhere k).map Prod.fst = (t.slots.erase k).val := by
  have hmap := Multiset.filter_map (fun j => ¬ j = k) Prod.fst g.pending
  rw [h.slots] at hmap
  rw [← Finset.filter_ne', Finset.filter_val]
  exact hmap.symm

theorem inSlot (h : g.Tallies t) (k : κ) : (g.inSlot k).card = t.inSlot k := by
  unfold Ledger.inSlot Tally.inSlot
  have hcount : (g.pending.map Prod.fst).count k = t.slots.val.count k := by rw [h.slots]
  rw [Multiset.count_map, Multiset.count_eq_of_nodup t.slots.nodup] at hcount
  rw [Multiset.card_map]
  simpa only [eq_comm, Finset.mem_val] using hcount

theorem step (h : g.Tallies t) (e : SlotEvent κ) : (g.step e).Tallies (t.step e) := by
  have hused := h.used
  have hwasted := h.wasted
  cases e with
  | use k =>
    refine ⟨h.elsewhere k, ?_, hwasted⟩
    change (g.used + g.inSlot k).card = t.used + t.inSlot k
    rw [Multiset.card_add, hused, h.inSlot]
  | take k =>
    refine ⟨h.elsewhere k, hused, ?_⟩
    change (g.wasted + g.inSlot k).card = t.wasted + t.inSlot k
    rw [Multiset.card_add, hwasted, h.inSlot]
  | place k =>
    refine ⟨?_, hused, ?_⟩
    · have hinsert : insert k t.slots = insert k (t.slots.erase k) := by
        ext j
        by_cases hj : j = k <;> simp [hj]
      change ((k, g.placed) ::ₘ g.elsewhere k).map Prod.fst = (insert k t.slots).val
      rw [Multiset.map_cons, h.elsewhere, hinsert,
        Finset.insert_val_of_notMem (Finset.notMem_erase k t.slots)]
    · change (g.wasted + g.inSlot k).card = t.wasted + t.inSlot k
      rw [Multiset.card_add, hwasted, h.inSlot]
  | pass =>
    refine ⟨h.slots, ?_, hwasted⟩
    change (g.placed ::ₘ g.used).card = t.used + 1
    rw [Multiset.card_cons, hused]

end Tallies

/-! ## Runs -/

/-- The ledger of some events, from an empty one. -/
def ofEvents (es : List (SlotEvent κ)) : Ledger κ := es.foldl step {}

theorem placed_ofEvents (es : List (SlotEvent κ)) :
    (ofEvents es).placed = es.countP SlotEvent.isNew := by
  induction es using List.reverseRecOn with
  | nil => rfl
  | append_singleton es e ih =>
    rw [ofEvents, List.foldl_append, List.foldl_cons, List.foldl_nil, placed_step,
      List.countP_append, List.countP_singleton]
    exact congrArg (· + _) ih

theorem balanced_ofEvents (es : List (SlotEvent κ)) : (ofEvents es).Balanced := by
  induction es using List.reverseRecOn with
  | nil => rfl
  | append_singleton es e ih =>
    rw [ofEvents, List.foldl_append]
    exact ih.step e

theorem tallies_ofEvents (es : List (SlotEvent κ)) :
    (ofEvents es).Tallies (es.foldl Tally.step {}) := by
  induction es using List.reverseRecOn with
  | nil => exact ⟨rfl, rfl, rfl⟩
  | append_singleton es e ih =>
    rw [ofEvents, List.foldl_append, List.foldl_append]
    exact ih.step e

/-- No thing is filed twice, neither in one place nor in two. -/
theorem nodup_ofEvents (es : List (SlotEvent κ)) :
    ((ofEvents es).used + (ofEvents es).wasted).Nodup := by
  refine Multiset.nodup_of_le (Multiset.le_add_right _ ((ofEvents es).pending.map Prod.snd)) ?_
  rw [balanced_ofEvents]
  exact Multiset.nodup_range _

theorem lt_placed_of_mem {es : List (SlotEvent κ)} {i : ℕ}
    (h : i ∈ (ofEvents es).used + (ofEvents es).wasted) : i < (ofEvents es).placed := by
  rw [← Multiset.mem_range, ← balanced_ofEvents]
  exact Multiset.mem_add.mpr (.inl h)

/-- Things used, things wasted and occupied slots make up the things placed. -/
theorem conserved (es : List (SlotEvent κ)) :
    (es.foldl Tally.step {}).used + (es.foldl Tally.step {}).wasted +
      (es.foldl Tally.step {}).slots.card = es.countP SlotEvent.isNew := by
  have htally := tallies_ofEvents es
  have hcard := congrArg Multiset.card (balanced_ofEvents es)
  have hslots := congrArg Multiset.card htally.slots
  rw [Multiset.card_add, Multiset.card_add, Multiset.card_map, Multiset.card_range,
    placed_ofEvents, htally.used, htally.wasted] at hcard
  rw [Multiset.card_map, Finset.card_val] at hslots
  rw [← hslots, hcard]

end Ledger
