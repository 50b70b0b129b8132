import CpuSim.Base.ByteMap
import CpuSim.Memory.FlatMem

/-!
# The data path of the flat memory

What the loads and stores of `FlatMem` do to its contents, read as a byte map over addresses.
An access of `n` bytes goes through exactly when it is `InRange`, and the timer plays no part.
-/

namespace CpuSim.FlatMem

open ByteMap

/-- The contents by address. -/
def bytes (m : FlatMem) : ByteMap := ofList m.base.toNat m.mem

/-- An access of `n` bytes that neither fails the range assertion nor runs past the vector. -/
def InRange (m : FlatMem) (addr : Word) (n : Nat) : Prop :=
  m.base ≤ addr ∧ (addr - m.base).toNat + n ≤ m.mem.length

instance (m : FlatMem) (addr : Word) (n : Nat) : Decidable (m.InRange addr n) := by
  unfold InRange; infer_instance

/-! ## Offsets -/

theorem offset_eq_some {m : FlatMem} {addr : Word} {o : Nat} (h : m.offset addr = some o) :
    m.base ≤ addr ∧ o = (addr - m.base).toNat ∧ o < m.mem.length ∧
      addr.toNat = m.base.toNat + o := by
  unfold offset at h
  split at h
  · rename_i hb
    obtain ⟨hle, hlt⟩ := hb
    simp only [Option.some.injEq] at h
    subst h
    refine ⟨hle, rfl, hlt, ?_⟩
    rw [BitVec.toNat_sub_of_le hle]
    have : m.base.toNat ≤ addr.toNat := hle
    omega
  · cases h

theorem offset_of_inRange {m : FlatMem} {addr : Word} {n : Nat} (h : m.InRange addr (n + 1)) :
    m.offset addr = some (addr - m.base).toNat := by
  obtain ⟨hle, hlen⟩ := h
  unfold offset
  rw [if_pos ⟨hle, by omega⟩]

theorem bytes_at (m : FlatMem) (o : Nat) : m.bytes (m.base.toNat + o) = m.mem.getD o 0 :=
  ofList_add _ _ _

theorem mem_eq_bytes {m : FlatMem} {o : Nat} {b : Byte} (h : m.mem[o]? = some b) :
    b = m.bytes (m.base.toNat + o) := by
  rw [bytes_at, List.getD_eq_getElem?_getD, h]; rfl

/-! ## Loads -/

theorem loadByte_eq_some {m : FlatMem} {addr : Word} {v : Byte} (h : m.loadByte addr = some v) :
    m.InRange addr 1 ∧ v = BitVec.ofNat 8 (readLE m.bytes addr.toNat 1) := by
  simp only [loadByte, Option.bind_eq_bind, Option.bind_eq_some_iff] at h
  obtain ⟨o, ho, h0⟩ := h
  obtain ⟨hle, rfl, hlt, haddr⟩ := offset_eq_some ho
  refine ⟨⟨hle, by omega⟩, ?_⟩
  rw [haddr, mem_eq_bytes h0]
  simp [readLE]

theorem loadHalf_eq_some {m : FlatMem} {addr : Word} {v : Half} (h : m.loadHalf addr = some v) :
    m.InRange addr 2 ∧ v = BitVec.ofNat 16 (readLE m.bytes addr.toNat 2) := by
  simp only [loadHalf, Option.bind_eq_bind, Option.bind_eq_some_iff, Option.some.injEq] at h
  obtain ⟨o, ho, b0, h0, b1, h1, rfl⟩ := h
  obtain ⟨hle, rfl, -, haddr⟩ := offset_eq_some ho
  have hlen := (List.getElem?_eq_some_iff.mp h1).1
  refine ⟨⟨hle, by omega⟩, ?_⟩
  have hb0 := b0.isLt
  apply BitVec.eq_of_toNat_eq
  rw [toNat_or_byte (by simp; omega) (by omega), haddr]
  simp only [readLE, Nat.add_assoc, ← mem_eq_bytes h0, ← mem_eq_bytes h1]
  have hb1 := b1.isLt
  simp only [BitVec.toNat_setWidth, BitVec.toNat_ofNat]
  omega

theorem loadWord_eq_some {m : FlatMem} {addr : Word} {v : Word} (h : m.loadWord addr = some v) :
    m.InRange addr 4 ∧ v = BitVec.ofNat 32 (readLE m.bytes addr.toNat 4) := by
  simp only [loadWord, Option.bind_eq_bind, Option.bind_eq_some_iff, Option.some.injEq] at h
  obtain ⟨o, ho, b0, h0, b1, h1, b2, h2, b3, h3, rfl⟩ := h
  obtain ⟨hle, rfl, -, haddr⟩ := offset_eq_some ho
  have hlen := (List.getElem?_eq_some_iff.mp h3).1
  refine ⟨⟨hle, by omega⟩, ?_⟩
  have hb0 := b0.isLt
  have hb1 := b1.isLt
  have hb2 := b2.isLt
  have hb3 := b3.isLt
  have e0 : (b0.setWidth 32).toNat = b0.toNat := by
    rw [BitVec.toNat_setWidth, Nat.mod_eq_of_lt (by omega)]
  have e1 := toNat_or_byte (x := b0.setWidth 32) (k := 8) (by omega) (by omega) b1
  have e2 := toNat_or_byte (x := b0.setWidth 32 ||| b1.setWidth 32 <<< 8) (k := 16) (by omega)
    (by omega) b2
  apply BitVec.eq_of_toNat_eq
  rw [toNat_or_byte (by omega) (by omega), haddr]
  simp only [readLE, Nat.add_assoc, ← mem_eq_bytes h0, ← mem_eq_bytes h1, ← mem_eq_bytes h2,
    ← mem_eq_bytes h3, BitVec.toNat_ofNat]
  omega

theorem getElem?_of_inRange {m : FlatMem} {addr : Word} {n i : Nat} (h : m.InRange addr n)
    (hi : i < n) : ∃ b, m.mem[(addr - m.base).toNat + i]? = some b := by
  obtain ⟨-, hlen⟩ := h
  exact ⟨_, List.getElem?_eq_getElem (by omega)⟩

theorem exists_loadByte {m : FlatMem} {addr : Word} (h : m.InRange addr 1) :
    ∃ v, m.loadByte addr = some v := by
  obtain ⟨b0, h0⟩ := getElem?_of_inRange h (by omega : 0 < _)
  rw [Nat.add_zero] at h0
  refine Option.isSome_iff_exists.mp ?_
  simp only [loadByte, offset_of_inRange h, Option.bind_eq_bind, Option.bind_some, h0]
  rfl

theorem exists_loadHalf {m : FlatMem} {addr : Word} (h : m.InRange addr 2) :
    ∃ v, m.loadHalf addr = some v := by
  obtain ⟨b0, h0⟩ := getElem?_of_inRange h (by omega : 0 < _)
  obtain ⟨b1, h1⟩ := getElem?_of_inRange h (i := 1) (by omega)
  rw [Nat.add_zero] at h0
  refine Option.isSome_iff_exists.mp ?_
  simp only [loadHalf, offset_of_inRange h, Option.bind_eq_bind, Option.bind_some, h0, h1]
  rfl

theorem exists_loadWord {m : FlatMem} {addr : Word} (h : m.InRange addr 4) :
    ∃ v, m.loadWord addr = some v := by
  obtain ⟨b0, h0⟩ := getElem?_of_inRange h (by omega : 0 < _)
  obtain ⟨b1, h1⟩ := getElem?_of_inRange h (i := 1) (by omega)
  obtain ⟨b2, h2⟩ := getElem?_of_inRange h (i := 2) (by omega)
  obtain ⟨b3, h3⟩ := getElem?_of_inRange h (i := 3) (by omega)
  rw [Nat.add_zero] at h0
  refine Option.isSome_iff_exists.mp ?_
  simp only [loadWord, offset_of_inRange h, Option.bind_eq_bind, Option.bind_some, h0, h1, h2, h3]
  rfl

/-! ## Stores -/

/-- `m'` is `m` with other contents: same size and timer, and the given bytes. -/
structure Rewrites (m m' : FlatMem) (b : ByteMap) : Prop where
  frame : m' = { m with mem := m'.mem }
  size : m'.mem.length = m.mem.length
  bytes : m'.bytes = b

theorem Rewrites.base {m m' : FlatMem} {b : ByteMap} (h : Rewrites m m' b) : m'.base = m.base := by
  rw [h.frame]

theorem Rewrites.trans {m m' m'' : FlatMem} {b b' : ByteMap} (h : Rewrites m m' b)
    (h' : Rewrites m' m'' b') : Rewrites m m'' b' where
  frame := by rw [h'.frame, h.frame]
  size := h'.size.trans h.size
  bytes := h'.bytes

theorem setByte_eq_some {m m' : FlatMem} {o : Nat} {val : Byte} (h : m.setByte o val = some m') :
    o < m.mem.length ∧ Rewrites m m' (Function.update m.bytes (m.base.toNat + o) val) := by
  unfold setByte at h
  split at h
  · rename_i hlt
    simp only [Option.some.injEq] at h
    subst h
    exact ⟨hlt, rfl, List.length_set, ofList_set hlt val⟩
  · cases h

theorem exists_setByte {m : FlatMem} {o : Nat} (h : o < m.mem.length) (val : Byte) :
    ∃ m', m.setByte o val = some m' := ⟨_, if_pos h⟩

theorem byte_of_shift {w : Nat} (v : BitVec w) (k : Nat) (hw : 8 ≤ w) :
    ((v >>> k) &&& 0xff).setWidth 8 = BitVec.ofNat 8 (v.toNat / 2 ^ k) := by
  apply BitVec.eq_of_toNat_eq
  have h8 : 2 ^ 8 ≤ 2 ^ w := Nat.pow_le_pow_right (by omega) hw
  have hff : (255 : BitVec w).toNat = 2 ^ 8 - 1 := by
    change (BitVec.ofNat w 255).toNat = 255
    rw [BitVec.toNat_ofNat, Nat.mod_eq_of_lt (by omega)]
  simp only [BitVec.toNat_setWidth, BitVec.toNat_and, BitVec.toNat_ushiftRight, hff,
    BitVec.toNat_ofNat, Nat.shiftRight_eq_div_pow, Nat.and_two_pow_sub_one_eq_mod, Nat.mod_mod]

theorem storeByte_eq_some {m m' : FlatMem} {addr : Word} {v : Byte}
    (h : m.storeByte addr v = some m') :
    m.InRange addr 1 ∧ Rewrites m m' (writeLE m.bytes addr.toNat 1 v.toNat) := by
  simp only [storeByte, Option.bind_eq_bind, Option.bind_eq_some_iff] at h
  obtain ⟨o, ho, h0⟩ := h
  obtain ⟨hle, rfl, hlt, haddr⟩ := offset_eq_some ho
  refine ⟨⟨hle, by omega⟩, ?_⟩
  rw [haddr]
  simpa [writeLE] using (setByte_eq_some h0).2

theorem storeHalf_eq_some {m m' : FlatMem} {addr : Word} {v : Half}
    (h : m.storeHalf addr v = some m') :
    m.InRange addr 2 ∧ Rewrites m m' (writeLE m.bytes addr.toNat 2 v.toNat) := by
  simp only [storeHalf, Option.bind_eq_bind, Option.bind_eq_some_iff] at h
  obtain ⟨o, ho, m1, h1, h2⟩ := h
  obtain ⟨hle, rfl, -, haddr⟩ := offset_eq_some ho
  obtain ⟨-, r1⟩ := setByte_eq_some h1
  obtain ⟨hlt, r2⟩ := setByte_eq_some h2
  rw [r1.size] at hlt
  refine ⟨⟨hle, by omega⟩, ?_⟩
  have b0 := byte_of_shift v 0 (by omega)
  simp only [BitVec.ushiftRight_zero, Nat.pow_zero, Nat.div_one] at b0
  have hr := r1.trans r2
  rw [r1.bytes, r1.base, b0, byte_of_shift v 8 (by omega)] at hr
  rw [haddr]
  exact hr

theorem storeWord_eq_some {m m' : FlatMem} {addr : Word} {v : Word}
    (h : m.storeWord addr v = some m') :
    m.InRange addr 4 ∧ Rewrites m m' (writeLE m.bytes addr.toNat 4 v.toNat) := by
  simp only [storeWord, Option.bind_eq_bind, Option.bind_eq_some_iff] at h
  obtain ⟨o, ho, m1, h1, m2, h2, m3, h3, h4⟩ := h
  obtain ⟨hle, rfl, -, haddr⟩ := offset_eq_some ho
  obtain ⟨-, r1⟩ := setByte_eq_some h1
  obtain ⟨-, r2⟩ := setByte_eq_some h2
  obtain ⟨-, r3⟩ := setByte_eq_some h3
  obtain ⟨hlt, r4⟩ := setByte_eq_some h4
  rw [r3.size, r2.size, r1.size] at hlt
  refine ⟨⟨hle, by omega⟩, ?_⟩
  have b0 := byte_of_shift v 0 (by omega)
  simp only [BitVec.ushiftRight_zero, Nat.pow_zero, Nat.div_one] at b0
  have hr := ((r1.trans r2).trans r3).trans r4
  rw [r3.bytes, r3.base, r2.bytes, r2.base, r1.bytes, r1.base, b0, byte_of_shift v 8 (by omega),
    byte_of_shift v 16 (by omega), byte_of_shift v 24 (by omega)] at hr
  rw [haddr]
  simpa [writeLE, Nat.div_div_eq_div_mul, Nat.add_assoc] using hr

theorem exists_storeByte {m : FlatMem} {addr : Word} (h : m.InRange addr 1) (v : Byte) :
    ∃ m', m.storeByte addr v = some m' := by
  have hlen := h.2
  obtain ⟨m1, h1⟩ := exists_setByte (m := m) (o := (addr - m.base).toNat) (by omega) v
  refine ⟨m1, ?_⟩
  simp only [storeByte, offset_of_inRange h, Option.bind_eq_bind, Option.bind_some, h1]

theorem exists_storeHalf {m : FlatMem} {addr : Word} (h : m.InRange addr 2) (v : Half) :
    ∃ m', m.storeHalf addr v = some m' := by
  have hlen := h.2
  obtain ⟨m1, h1⟩ := exists_setByte (m := m) (o := (addr - m.base).toNat) (by omega)
    ((v &&& 0xff).setWidth 8)
  have l1 := (setByte_eq_some h1).2.size
  obtain ⟨m2, h2⟩ := exists_setByte (m := m1) (o := (addr - m.base).toNat + 1) (by omega)
    (((v >>> 8) &&& 0xff).setWidth 8)
  refine ⟨m2, ?_⟩
  simp only [storeHalf, offset_of_inRange h, Option.bind_eq_bind, Option.bind_some, h1, h2]

theorem exists_storeWord {m : FlatMem} {addr : Word} (h : m.InRange addr 4) (v : Word) :
    ∃ m', m.storeWord addr v = some m' := by
  have hlen := h.2
  obtain ⟨m1, h1⟩ := exists_setByte (m := m) (o := (addr - m.base).toNat) (by omega)
    ((v &&& 0xff).setWidth 8)
  have l1 := (setByte_eq_some h1).2.size
  obtain ⟨m2, h2⟩ := exists_setByte (m := m1) (o := (addr - m.base).toNat + 1) (by omega)
    (((v >>> 8) &&& 0xff).setWidth 8)
  have l2 := (setByte_eq_some h2).2.size
  obtain ⟨m3, h3⟩ := exists_setByte (m := m2) (o := (addr - m.base).toNat + 2) (by omega)
    (((v >>> 16) &&& 0xff).setWidth 8)
  have l3 := (setByte_eq_some h3).2.size
  obtain ⟨m4, h4⟩ := exists_setByte (m := m3) (o := (addr - m.base).toNat + 3) (by omega)
    (((v >>> 24) &&& 0xff).setWidth 8)
  refine ⟨m4, ?_⟩
  simp only [storeWord, offset_of_inRange h, Option.bind_eq_bind, Option.bind_some, h1, h2, h3, h4]

/-! ## The timing path leaves the data alone -/

/-- Everything the data path reads. -/
def contents (m : FlatMem) : Word × List Byte := (m.base, m.mem)

@[simp] theorem contents_ready (m : FlatMem) (addr : Word) (w : Bool) :
    (m.ready addr w).2.contents = m.contents := by
  unfold ready; split <;> rfl

@[simp] theorem contents_tick (m : FlatMem) : m.tick.contents = m.contents := by
  unfold tick; split
  · rfl
  · split <;> rfl

theorem bytes_congr {m m' : FlatMem} (h : m.contents = m'.contents) : m.bytes = m'.bytes := by
  simp only [contents, Prod.mk.injEq] at h
  simp only [bytes, h]

theorem inRange_congr {m m' : FlatMem} (h : m.contents = m'.contents) (addr : Word) (n : Nat) :
    m.InRange addr n ↔ m'.InRange addr n := by
  simp only [contents, Prod.mk.injEq] at h
  simp only [InRange, h]

end CpuSim.FlatMem
