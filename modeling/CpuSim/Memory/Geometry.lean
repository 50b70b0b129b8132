import CpuSim.Memory.Operations
import CpuSim.Memory.Replacement

/-!
# Addresses, sets and tags

The shifts and masks of `memory/cache.cpp` as division and remainder, and the round trip
between an address and its set and tag. `WellFormed` collects what the constructor sets up and
no operation loses: the field widths, the size of the tag array, tags that came from an
address, and PLRU bits that are bits.
-/

namespace CpuSim

namespace Cache

variable {M : Type}

/-- The invariant of a cache's geometry and tag array. -/
structure WellFormed (c : Cache M) : Prop where
  width : c.offsetBits + c.indexBits < 32
  mask : c.indexMask = BitVec.ofNat 32 (2 ^ c.indexBits - 1)
  someWay : 0 < c.ways
  size : c.lines.length = 2 ^ c.indexBits * c.ways
  tags : ∀ l ∈ c.lines, l.tag.toNat < 2 ^ (32 - (c.offsetBits + c.indexBits))
  plruWays : c.repl.ways = c.ways
  plru : c.repl.Steers

/-- The fields that `WellFormed` reads. -/
def geometry (c : Cache M) : Nat × Nat × Word × Nat × List Line × TreePlru :=
  (c.offsetBits, c.indexBits, c.indexMask, c.ways, c.lines, c.repl)

theorem geometry_eq_iff {c d : Cache M} :
    d.geometry = c.geometry ↔ d.offsetBits = c.offsetBits ∧ d.indexBits = c.indexBits ∧
      d.indexMask = c.indexMask ∧ d.ways = c.ways ∧ d.lines = c.lines ∧ d.repl = c.repl := by
  simp only [geometry, Prod.mk.injEq]

/-- A step that moves other fields only keeps the invariant. -/
theorem WellFormed.frame {c d : Cache M} (h : c.WellFormed) (he : d.geometry = c.geometry) :
    d.WellFormed := by
  obtain ⟨ho, hi, hm, hw, hl, hr⟩ := geometry_eq_iff.mp he
  constructor
  · rw [ho, hi]
    exact h.width
  · rw [hm, hi]
    exact h.mask
  · rw [hw]
    exact h.someWay
  · rw [hl, hi, hw]
    exact h.size
  · rw [hl, ho, hi]
    exact h.tags
  · rw [hr, hw]
    exact h.plruWays
  · rw [hr]
    exact h.plru

theorem wellFormed_new (m : M) {lineBytes sets ways : Nat} (h : CacheShape lineBytes sets ways)
    (hitLatency : Nat) (pf : Bool) (degree : Nat) (stats : Option SimStats) :
    (new m lineBytes sets hitLatency ways pf degree stats).WellFormed := by
  obtain ⟨⟨o, rfl⟩, ⟨i, rfl⟩, ⟨w, rfl⟩, hfits⟩ := h
  refine ⟨?_, ?_, Nat.two_pow_pos w, ?_, ?_, rfl, TreePlru.steers_new _ _⟩
  · simp only [new, log2Exact_two_pow]
    rw [← pow_add] at hfits
    exact (Nat.pow_lt_pow_iff_right (by omega)).mp hfits
  · simp only [new, log2Exact_two_pow]
  · simp only [new, log2Exact_two_pow, List.length_replicate]
  · intro l hl
    rw [List.eq_of_mem_replicate hl]
    exact Nat.two_pow_pos _

variable {c : Cache M}

/-! ## Fields of an address -/

theorem indexOf_toNat (h : c.WellFormed) (a : Word) :
    (c.indexOf a).toNat = a.toNat / 2 ^ c.offsetBits % 2 ^ c.indexBits := by
  have hw := h.width
  have hlt : 2 ^ c.indexBits - 1 < 2 ^ 32 :=
    lt_of_le_of_lt (Nat.sub_le _ _) (Nat.pow_lt_pow_right (by omega) (by omega))
  rw [indexOf, h.mask, BitVec.toNat_and, BitVec.toNat_ushiftRight, BitVec.toNat_ofNat,
    Nat.mod_eq_of_lt hlt, Nat.and_two_pow_sub_one_eq_mod, Nat.shiftRight_eq_div_pow]

theorem indexOf_lt (h : c.WellFormed) (a : Word) : (c.indexOf a).toNat < 2 ^ c.indexBits := by
  rw [indexOf_toNat h]
  exact Nat.mod_lt _ (Nat.two_pow_pos _)

theorem tagOf_toNat (c : Cache M) (a : Word) :
    (c.tagOf a).toNat = a.toNat / 2 ^ c.offsetBits / 2 ^ c.indexBits := by
  rw [tagOf, BitVec.toNat_ushiftRight, Nat.shiftRight_eq_div_pow, pow_add, Nat.div_div_eq_div_mul]

theorem tagOf_lt (h : c.WellFormed) (a : Word) :
    (c.tagOf a).toNat < 2 ^ (32 - (c.offsetBits + c.indexBits)) := by
  have hw := h.width
  rw [tagOf, BitVec.toNat_ushiftRight, Nat.shiftRight_eq_div_pow]
  apply Nat.div_lt_of_lt_mul
  rw [← pow_add]
  calc a.toNat < 2 ^ 32 := a.isLt
    _ = 2 ^ (c.offsetBits + c.indexBits + (32 - (c.offsetBits + c.indexBits))) := by
      congr 1; omega

/-- The base address of a line, from its set and tag. -/
theorem addrOf_toNat (h : c.WellFormed) {set tag : Word} (hs : set.toNat < 2 ^ c.indexBits)
    (ht : tag.toNat < 2 ^ (32 - (c.offsetBits + c.indexBits))) :
    (c.addrOf set tag).toNat =
      (tag.toNat * 2 ^ c.indexBits + set.toNat) * 2 ^ c.offsetBits := by
  have hw := h.width
  have hset : set.toNat * 2 ^ c.offsetBits < 2 ^ (c.offsetBits + c.indexBits) := by
    rw [Nat.add_comm, pow_add]
    exact Nat.mul_lt_mul_of_pos_right hs (Nat.two_pow_pos _)
  have htag : tag.toNat * 2 ^ (c.offsetBits + c.indexBits) < 2 ^ 32 := by
    calc tag.toNat * 2 ^ (c.offsetBits + c.indexBits)
        < 2 ^ (32 - (c.offsetBits + c.indexBits)) * 2 ^ (c.offsetBits + c.indexBits) :=
          Nat.mul_lt_mul_of_pos_right ht (Nat.two_pow_pos _)
      _ = 2 ^ 32 := by rw [← pow_add]; congr 1; omega
  have hset32 : set.toNat * 2 ^ c.offsetBits < 2 ^ 32 :=
    hset.trans (Nat.pow_lt_pow_right (by omega) hw)
  rw [addrOf, BitVec.toNat_or, BitVec.toNat_shiftLeft, BitVec.toNat_shiftLeft,
    Nat.shiftLeft_eq, Nat.shiftLeft_eq, Nat.mod_eq_of_lt htag, Nat.mod_eq_of_lt hset32,
    ← Nat.shiftLeft_eq, ← Nat.shiftLeft_add_eq_or_of_lt hset, Nat.shiftLeft_eq, pow_add]
  ring

theorem indexOf_addrOf (h : c.WellFormed) {set tag : Word} (hs : set.toNat < 2 ^ c.indexBits)
    (ht : tag.toNat < 2 ^ (32 - (c.offsetBits + c.indexBits))) :
    c.indexOf (c.addrOf set tag) = set := by
  apply BitVec.eq_of_toNat_eq
  rw [indexOf_toNat h, addrOf_toNat h hs ht, Nat.mul_div_cancel _ (Nat.two_pow_pos _),
    Nat.mul_add_mod_self_right, Nat.mod_eq_of_lt hs]

theorem tagOf_addrOf (h : c.WellFormed) {set tag : Word} (hs : set.toNat < 2 ^ c.indexBits)
    (ht : tag.toNat < 2 ^ (32 - (c.offsetBits + c.indexBits))) :
    c.tagOf (c.addrOf set tag) = tag := by
  apply BitVec.eq_of_toNat_eq
  rw [tagOf_toNat, addrOf_toNat h hs ht, Nat.mul_div_cancel _ (Nat.two_pow_pos _),
    Nat.add_comm, Nat.add_mul_div_right _ _ (Nat.two_pow_pos _), Nat.div_eq_of_lt hs,
    Nat.zero_add]

/-- The line address is the address without its offset. -/
theorem lineAddrOf_eq (h : c.WellFormed) (a : Word) :
    c.lineAddrOf a = (a >>> c.offsetBits) <<< c.offsetBits := by
  have hw := h.width
  have hmask : (1#32 <<< c.offsetBits) - 1#32 = BitVec.ofNat 32 (2 ^ c.offsetBits - 1) := by
    apply BitVec.eq_of_toNat_eq
    have hlt : 2 ^ c.offsetBits < 2 ^ 32 := Nat.pow_lt_pow_right (by omega) (by omega)
    have hpos : 0 < 2 ^ c.offsetBits := Nat.two_pow_pos _
    rw [BitVec.toNat_sub, BitVec.toNat_shiftLeft, BitVec.toNat_ofNat, BitVec.toNat_ofNat,
      Nat.shiftLeft_eq]
    omega
  rw [lineAddrOf, hmask]
  apply BitVec.eq_of_getLsbD_eq
  intro i hi
  simp only [BitVec.getLsbD_and, BitVec.getLsbD_not, BitVec.getLsbD_ofNat,
    Nat.testBit_two_pow_sub_one, BitVec.getLsbD_shiftLeft, BitVec.getLsbD_ushiftRight]
  by_cases hlow : i < c.offsetBits
  · simp [hlow, hi]
  · have hback : c.offsetBits + (i - c.offsetBits) = i := by omega
    simp [hlow, hi, hback]

theorem lineAddrOf_toNat (h : c.WellFormed) (a : Word) :
    (c.lineAddrOf a).toNat = a.toNat / 2 ^ c.offsetBits * 2 ^ c.offsetBits := by
  have hle := Nat.div_mul_le_self a.toNat (2 ^ c.offsetBits)
  rw [lineAddrOf_eq h, BitVec.toNat_shiftLeft, BitVec.toNat_ushiftRight, Nat.shiftLeft_eq,
    Nat.shiftRight_eq_div_pow, Nat.mod_eq_of_lt (lt_of_le_of_lt hle a.isLt)]

theorem indexOf_lineAddrOf (h : c.WellFormed) (a : Word) :
    c.indexOf (c.lineAddrOf a) = c.indexOf a := by
  apply BitVec.eq_of_toNat_eq
  rw [indexOf_toNat h, indexOf_toNat h, lineAddrOf_toNat h,
    Nat.mul_div_cancel _ (Nat.two_pow_pos _)]

theorem lineAddrOf_addrOf (h : c.WellFormed) {set tag : Word}
    (hs : set.toNat < 2 ^ c.indexBits)
    (ht : tag.toNat < 2 ^ (32 - (c.offsetBits + c.indexBits))) :
    c.lineAddrOf (c.addrOf set tag) = c.addrOf set tag := by
  apply BitVec.eq_of_toNat_eq
  rw [lineAddrOf_toNat h, addrOf_toNat h hs ht, Nat.mul_div_cancel _ (Nat.two_pow_pos _)]

theorem lineAddrOf_eq_addrOf (h : c.WellFormed) (a : Word) :
    c.lineAddrOf a = c.addrOf (c.indexOf a) (c.tagOf a) := by
  apply BitVec.eq_of_toNat_eq
  rw [lineAddrOf_toNat h, addrOf_toNat h (indexOf_lt h a) (tagOf_lt h a), tagOf_toNat,
    indexOf_toNat h, Nat.div_add_mod']

/-- Two addresses are in one line exactly when set and tag agree. -/
theorem lineAddrOf_eq_iff (h : c.WellFormed) (a b : Word) :
    c.lineAddrOf a = c.lineAddrOf b ↔ c.indexOf a = c.indexOf b ∧ c.tagOf a = c.tagOf b := by
  rw [lineAddrOf_eq_addrOf h, lineAddrOf_eq_addrOf h]
  constructor
  · intro he
    have hindex := congrArg c.indexOf he
    have htag := congrArg c.tagOf he
    rw [indexOf_addrOf h (indexOf_lt h a) (tagOf_lt h a),
      indexOf_addrOf h (indexOf_lt h b) (tagOf_lt h b)] at hindex
    rw [tagOf_addrOf h (indexOf_lt h a) (tagOf_lt h a),
      tagOf_addrOf h (indexOf_lt h b) (tagOf_lt h b)] at htag
    exact ⟨hindex, htag⟩
  · rintro ⟨hindex, htag⟩
    rw [hindex, htag]

/-- The line after a line starts on a line boundary. -/
theorem lineAddrOf_next (h : c.WellFormed) {a : Word} (ha : c.lineAddrOf a = a) :
    c.lineAddrOf (a + BitVec.ofNat 32 (2 ^ c.offsetBits)) =
      a + BitVec.ofNat 32 (2 ^ c.offsetBits) := by
  have hw := h.width
  have hdvd : 2 ^ c.offsetBits ∣ 2 ^ 32 := Nat.pow_dvd_pow 2 (by omega)
  have hbase : 2 ^ c.offsetBits ∣ a.toNat := by
    rw [← ha, lineAddrOf_toNat h]
    exact Nat.dvd_mul_left _ _
  apply BitVec.eq_of_toNat_eq
  rw [lineAddrOf_toNat h, BitVec.toNat_add, BitVec.toNat_ofNat, Nat.add_mod_mod]
  exact Nat.div_mul_cancel ((Nat.dvd_mod_iff hdvd).mpr (Nat.dvd_add hbase (Nat.dvd_refl _)))

theorem lineAddrOf_lineAddrOf (h : c.WellFormed) (a : Word) :
    c.lineAddrOf (c.lineAddrOf a) = c.lineAddrOf a := by
  rw [lineAddrOf_eq_addrOf h a, lineAddrOf_addrOf h (indexOf_lt h a) (tagOf_lt h a)]

/-! ## Slots -/

theorem slot_lt (h : c.WellFormed) {set : Word} {way : Nat} (hs : set.toNat < 2 ^ c.indexBits)
    (hw : way < c.ways) : c.slot set way < c.lines.length := by
  rw [h.size]
  calc set.toNat * c.ways + way < (set.toNat + 1) * c.ways := by
        rw [Nat.succ_mul]; omega
    _ ≤ 2 ^ c.indexBits * c.ways := Nat.mul_le_mul_right _ hs

/-- Different ways and different sets have different slots. -/
theorem slot_inj {set set' : Word} {way way' : Nat} (hw : way < c.ways) (hw' : way' < c.ways)
    (h : c.slot set way = c.slot set' way') : set = set' ∧ way = way' := by
  unfold slot at h
  have hpos : 0 < c.ways := by omega
  have hmod : way = way' := by
    have h1 := congrArg (· % c.ways) h
    simpa only [Nat.mul_add_mod_self_right, Nat.mod_eq_of_lt hw, Nat.mod_eq_of_lt hw'] using h1
  have hmul : set.toNat * c.ways = set'.toNat * c.ways := by omega
  exact ⟨BitVec.eq_of_toNat_eq (Nat.eq_of_mul_eq_mul_right hpos hmul), hmod⟩

/-- A slot outside the array reads as an empty line. -/
theorem lineAt_cases (c : Cache M) (set : Word) (way : Nat) :
    c.lineAt set way = {} ∨ c.lineAt set way ∈ c.lines := by
  unfold lineAt
  rw [List.getD_eq_getElem?_getD]
  rcases hl : c.lines[c.slot set way]? with _ | l
  · exact .inl rfl
  · exact .inr (List.mem_of_getElem? hl)

theorem tag_lineAt_lt (h : c.WellFormed) (set : Word) (way : Nat) :
    (c.lineAt set way).tag.toNat < 2 ^ (32 - (c.offsetBits + c.indexBits)) := by
  rcases c.lineAt_cases set way with hl | hl
  · rw [hl]
    exact Nat.two_pow_pos _
  · exact h.tags _ hl

theorem lineAt_setLine (h : c.WellFormed) {set : Word} (set' : Word) {way way' : Nat} (l : Line)
    (hs : set.toNat < 2 ^ c.indexBits) (hw : way < c.ways) (hw' : way' < c.ways) :
    (c.setLine set way l).lineAt set' way' =
      if set' = set ∧ way' = way then l else c.lineAt set' way' := by
  change (c.lines.set (c.slot set way) l).getD (c.slot set' way') {} = _
  rw [List.getD_eq_getElem?_getD, List.getElem?_set]
  by_cases he : set' = set ∧ way' = way
  · obtain ⟨rfl, rfl⟩ := he
    simp only [if_true, and_self, slot_lt h hs hw]
    rfl
  · rw [if_neg he, if_neg]
    · rw [lineAt, List.getD_eq_getElem?_getD]
    · intro hslot
      obtain ⟨h1, h2⟩ := slot_inj hw hw' hslot
      exact he ⟨h1.symm, h2.symm⟩

/-! ## What keeps the invariant -/

theorem WellFormed.setLine (h : c.WellFormed) (set : Word) (way : Nat) {l : Line}
    (hl : l.tag.toNat < 2 ^ (32 - (c.offsetBits + c.indexBits))) :
    (c.setLine set way l).WellFormed := by
  refine ⟨h.width, h.mask, h.someWay, ?_, ?_, h.plruWays, h.plru⟩
  · exact (List.length_set ..).trans h.size
  · intro x hx
    rcases List.mem_or_eq_of_mem_set hx with hx | rfl
    · exact h.tags x hx
    · exact hl

theorem WellFormed.touch (h : c.WellFormed) (set : Word) (way : Nat) :
    ({ c with repl := c.repl.touch set way } : Cache M).WellFormed :=
  ⟨h.width, h.mask, h.someWay, h.size, h.tags, h.plruWays, TreePlru.steers_touch h.plru set way⟩

theorem WellFormed.installLine (h : c.WellFormed) (set : Word) (way : Nat) (a : Word)
    (isWrite pf : Bool) : (c.installLine set way a isWrite pf).WellFormed := by
  rw [installLine_eq]
  have hs := (h.setLine set way (l := ⟨true, isWrite, pf, c.tagOf a⟩) (tagOf_lt h a)).touch set way
  exact hs.frame rfl

theorem WellFormed.acceptHit (h : c.WellFormed) (set : Word) (way : Nat) (isWrite : Bool) :
    (c.acceptHit set way isWrite).WellFormed := by
  rw [acceptHit_eq]
  have hs := (h.setLine set way (l := { c.lineAt set way with
    dirty := (c.lineAt set way).dirty || isWrite, prefetched := false })
    (tag_lineAt_lt h set way)).touch set way
  exact hs.frame rfl

theorem WellFormed.noted (h : c.WellFormed) (a : Word) (w : Bool) : (c.noted a w).WellFormed := by
  obtain ⟨act, addr, way, n, hframe⟩ := noted_frame c a w
  rw [hframe]
  exact h.frame rfl

theorem findWay_lt {a : Word} {way : Nat} (h : c.findWay a = some way) : way < c.ways :=
  List.mem_range.mp (List.mem_of_find?_eq_some h)

theorem valid_of_findWay {a : Word} {way : Nat} (h : c.findWay a = some way) :
    (c.lineAt (c.indexOf a) way).valid = true := by
  have hp := List.find?_some h
  rw [Bool.and_eq_true] at hp
  exact hp.1

theorem chooseVictim_lt (h : c.WellFormed) (set : Word) : c.chooseVictim set < c.ways := by
  unfold chooseVictim
  split
  · rename_i w hw
    exact List.mem_range.mp (List.mem_of_find?_eq_some hw)
  · rw [← h.plruWays]
    exact TreePlru.victim_lt h.plru (by rw [h.plruWays]; exact h.someWay) set

end Cache

end CpuSim
