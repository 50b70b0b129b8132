import CpuSim.Memory.Data

/-!
# What the range check of the flat memory covers

`FlatMem::offset` asserts about the first byte of an access; the bodies of `load_half`,
`load_word`, `store_half` and `store_word` go on to the bytes behind it. The check guards the
whole access except where the access starts in the memory and ends past it (`guards_iff`).
-/

namespace CpuSim

/-- One call of the data path. -/
inductive Access where
  | loadByte (addr : Word)
  | loadHalf (addr : Word)
  | loadWord (addr : Word)
  | storeByte (addr : Word) (val : Byte)
  | storeHalf (addr : Word) (val : Half)
  | storeWord (addr : Word) (val : Word)
  deriving DecidableEq, Repr

namespace Access

/-- The address handed to `offset`. -/
def addr : Access → Word
  | loadByte a | loadHalf a | loadWord a => a
  | storeByte a _ | storeHalf a _ | storeWord a _ => a

/-- The indices of `mem_` the body of the call uses once `offset` has answered `o`. -/
def touched : Access → Nat → List Nat
  | loadByte _, o | storeByte _ _, o => [o]
  | loadHalf _, o | storeHalf _ _, o => [o, o + 1]
  | loadWord _, o | storeWord _ _, o => [o, o + 1, o + 2, o + 3]

/-- How many bytes the call uses. -/
def width : Access → Nat
  | loadByte _ | storeByte _ _ => 1
  | loadHalf _ | storeHalf _ _ => 2
  | loadWord _ | storeWord _ _ => 4

/-- The memory after the call; `none` where the assertion fails or an index is past the
    vector. -/
def run (m : FlatMem) : Access → Option FlatMem
  | loadByte a => (m.loadByte a).map fun _ => m
  | loadHalf a => (m.loadHalf a).map fun _ => m
  | loadWord a => (m.loadWord a).map fun _ => m
  | storeByte a v => m.storeByte a v
  | storeHalf a v => m.storeHalf a v
  | storeWord a v => m.storeWord a v

theorem mem_touched {x : Access} {o i : Nat} : i ∈ x.touched o ↔ o ≤ i ∧ i < o + x.width := by
  cases x <;> simp only [touched, width, List.mem_cons, List.not_mem_nil, or_false] <;> omega

theorem width_pos (x : Access) : 0 < x.width := by
  cases x <;> exact Nat.succ_pos _

/-- A call goes through exactly when all its bytes are there. -/
theorem run_isSome_iff {m : FlatMem} {x : Access} :
    (x.run m).isSome ↔ m.InRange x.addr x.width := by
  simp only [Option.isSome_iff_exists]
  cases x with
  | loadByte a =>
    simp only [run, addr, width, Option.map_eq_some_iff]
    constructor
    · rintro ⟨_, v, hv, -⟩
      exact (FlatMem.loadByte_eq_some hv).1
    · intro h
      obtain ⟨v, hv⟩ := FlatMem.exists_loadByte h
      exact ⟨m, v, hv, rfl⟩
  | loadHalf a =>
    simp only [run, addr, width, Option.map_eq_some_iff]
    constructor
    · rintro ⟨_, v, hv, -⟩
      exact (FlatMem.loadHalf_eq_some hv).1
    · intro h
      obtain ⟨v, hv⟩ := FlatMem.exists_loadHalf h
      exact ⟨m, v, hv, rfl⟩
  | loadWord a =>
    simp only [run, addr, width, Option.map_eq_some_iff]
    constructor
    · rintro ⟨_, v, hv, -⟩
      exact (FlatMem.loadWord_eq_some hv).1
    · intro h
      obtain ⟨v, hv⟩ := FlatMem.exists_loadWord h
      exact ⟨m, v, hv, rfl⟩
  | storeByte a v => exact ⟨fun ⟨_, h⟩ => (FlatMem.storeByte_eq_some h).1,
      fun h => FlatMem.exists_storeByte h v⟩
  | storeHalf a v => exact ⟨fun ⟨_, h⟩ => (FlatMem.storeHalf_eq_some h).1,
      fun h => FlatMem.exists_storeHalf h v⟩
  | storeWord a v => exact ⟨fun ⟨_, h⟩ => (FlatMem.storeWord_eq_some h).1,
      fun h => FlatMem.exists_storeWord h v⟩

/-- `touched` lists what the call goes through or fails by. -/
theorem run_isSome_iff_touched {m : FlatMem} {x : Access} :
    (x.run m).isSome ↔
      ∃ o, m.offset x.addr = some o ∧ ∀ i ∈ x.touched o, i < m.mem.length := by
  have hpos := x.width_pos
  rw [run_isSome_iff]
  constructor
  · rintro ⟨hle, hlen⟩
    refine ⟨(x.addr - m.base).toNat, ?_, ?_⟩
    · unfold FlatMem.offset
      rw [if_pos ⟨hle, by omega⟩]
    · intro i hi
      have hmem := mem_touched.mp hi
      omega
  · rintro ⟨o, ho, hall⟩
    obtain ⟨hle, rfl, -, -⟩ := FlatMem.offset_eq_some ho
    have hlast := hall ((x.addr - m.base).toNat + x.width - 1) (mem_touched.mpr (by omega))
    exact ⟨hle, by omega⟩

end Access

namespace FlatMem

/-- Byte `k` of the call lies in `[base, base + size)`. -/
def Covers (m : FlatMem) (x : Access) (k : Nat) : Prop :=
  m.base.toNat ≤ x.addr.toNat + k ∧ x.addr.toNat + k < m.base.toNat + m.mem.length

/-- The range check guards every byte of the call. -/
structure Guards (m : FlatMem) (x : Access) : Prop where
  /-- Past the check no index is outside the vector. -/
  touches : ∀ o, m.offset x.addr = some o → ∀ i ∈ x.touched o, i < m.mem.length
  /-- A call that passes the check lies inside the memory and goes through. -/
  inside : (m.offset x.addr).isSome → (∀ k < x.width, m.Covers x k) ∧ (x.run m).isSome
  /-- A call with a byte outside fails the check. -/
  caught : ∀ k < x.width, ¬ m.Covers x k → m.offset x.addr = none

/-- The call starts at one of the last bytes of the memory and needs more than is left. -/
def Overhangs (m : FlatMem) (x : Access) : Prop :=
  m.base ≤ x.addr ∧
    ∃ left, 0 < left ∧ left < x.width ∧ x.addr.toNat + left = m.base.toNat + m.mem.length

theorem not_overhangs_of_byte {m : FlatMem} {x : Access} (h : x.width = 1) : ¬ m.Overhangs x := by
  rintro ⟨-, left, hpos, hlt, -⟩
  omega

/-- Past the check a call that does not overhang has all its bytes. -/
theorem inRange_of_offset {m : FlatMem} {x : Access} {o : Nat} (hx : ¬ m.Overhangs x)
    (ho : m.offset x.addr = some o) : o + x.width ≤ m.mem.length := by
  obtain ⟨hle, -, hlt, haddr⟩ := offset_eq_some ho
  by_contra hover
  refine hx ⟨hle, m.mem.length - o, ?_, ?_, ?_⟩ <;> omega

theorem offset_of_overhangs {m : FlatMem} {x : Access} (h : m.Overhangs x) :
    ∃ o, m.offset x.addr = some o ∧ m.mem.length < o + x.width := by
  obtain ⟨hle, left, hpos, hlt, hend⟩ := h
  have hnat : m.base.toNat ≤ x.addr.toNat := hle
  have hsub : (x.addr - m.base).toNat = x.addr.toNat - m.base.toNat := BitVec.toNat_sub_of_le hle
  refine ⟨(x.addr - m.base).toNat, ?_, ?_⟩
  · unfold offset
    rw [if_pos ⟨hle, by omega⟩]
  · omega

/-- The check guards every byte of a call exactly when the call does not overhang. -/
theorem guards_iff (m : FlatMem) (x : Access) : m.Guards x ↔ ¬ m.Overhangs x := by
  constructor
  · intro h hover
    obtain ⟨o, ho, hlen⟩ := offset_of_overhangs hover
    have hpos := x.width_pos
    have hlast := h.touches o ho (o + x.width - 1) (Access.mem_touched.mpr (by omega))
    omega
  · intro hover
    refine ⟨?_, ?_, ?_⟩
    · intro o ho i hi
      have hlen := inRange_of_offset hover ho
      have hmem := Access.mem_touched.mp hi
      omega
    · intro hsome
      obtain ⟨o, ho⟩ := Option.isSome_iff_exists.mp hsome
      have hlen := inRange_of_offset hover ho
      obtain ⟨hle, rfl, -, haddr⟩ := offset_eq_some ho
      refine ⟨?_, Access.run_isSome_iff.mpr ⟨hle, hlen⟩⟩
      intro k hk
      constructor <;> omega
    · intro k hk hout
      cases ho : m.offset x.addr with
      | none => rfl
      | some o =>
        have hlen := inRange_of_offset hover ho
        obtain ⟨-, -, -, haddr⟩ := offset_eq_some ho
        exact absurd ⟨by omega, by omega⟩ hout

/-- A half loaded from the last byte of a memory passes the check and runs past the vector. -/
theorem lastByte_unguarded :
    ¬ (FlatMem.new 0x80000000#32 4 1).Guards (.loadHalf 0x80000003#32) := by
  intro h
  exact absurd (h.touches 3 (by decide) 4 (by decide)) (by decide)

end FlatMem

end CpuSim
