import Mathlib.Data.BitVec
import Mathlib.Logic.Function.Basic

/-!
# Byte-addressed memory

Memory as a map from addresses to bytes, with little-endian reads and writes of any width.
Addresses are natural numbers: an access near the top of a machine's address space runs on
past it instead of wrapping.
-/

/-- Bytes by address. -/
abbrev ByteMap := Nat → BitVec 8

namespace ByteMap

/-- The number the `n` bytes from `a` on spell, least significant first. -/
def readLE (m : ByteMap) (a : Nat) : Nat → Nat
  | 0 => 0
  | n + 1 => (m a).toNat + 256 * readLE m (a + 1) n

/-- Write the low `n` bytes of `v` from `a` on, least significant first. -/
def writeLE (m : ByteMap) (a : Nat) : Nat → Nat → ByteMap
  | 0, _ => m
  | n + 1, v => writeLE (Function.update m a (BitVec.ofNat 8 v)) (a + 1) n (v / 256)

/-- The bytes of a list laid out from `base` on; every other byte is zero. -/
def ofList (base : Nat) (l : List (BitVec 8)) : ByteMap :=
  fun a => if base ≤ a then l.getD (a - base) 0 else 0

theorem ofList_add (base o : Nat) (l : List (BitVec 8)) :
    ofList base l (base + o) = l.getD o 0 := by
  simp [ofList]

/-- Setting one element of the list is a one-byte write. -/
theorem ofList_set {base o : Nat} {l : List (BitVec 8)} (h : o < l.length) (v : BitVec 8) :
    ofList base (l.set o v) = Function.update (ofList base l) (base + o) v := by
  funext a
  by_cases ha : a = base + o
  · subst ha
    rw [ofList_add, Function.update_self]
    simp [List.getD_eq_getElem?_getD, h]
  · rw [Function.update_of_ne ha]
    unfold ofList
    split
    · have hne : o ≠ a - base := by omega
      simp [List.getD_eq_getElem?_getD, List.getElem?_set_ne hne]
    · rfl

/-- Reading `n` bytes gives a number of `n` bytes. -/
theorem readLE_lt (m : ByteMap) (a n : Nat) : readLE m a n < 256 ^ n := by
  induction n generalizing a with
  | zero => simp [readLE]
  | succ n ih =>
    have hb : (m a).toNat < 256 := (m a).isLt
    have ht := ih (a + 1)
    simp only [readLE, Nat.pow_succ]
    omega

/-- A write reaches the bytes it spells and no other. -/
theorem writeLE_apply (m : ByteMap) (a n v b : Nat) :
    writeLE m a n v b =
      if a ≤ b ∧ b < a + n then BitVec.ofNat 8 (v / 256 ^ (b - a)) else m b := by
  induction n generalizing m a v with
  | zero => rw [if_neg (by omega)]; rfl
  | succ n ih =>
    rw [writeLE, ih]
    by_cases hb : b = a
    · subst hb
      rw [if_neg (by omega), if_pos (by omega), Function.update_self, Nat.sub_self, Nat.pow_zero,
        Nat.div_one]
    · rw [Function.update_of_ne hb]
      by_cases hin : a ≤ b ∧ b < a + (n + 1)
      · have hexp : b - a = b - (a + 1) + 1 := by omega
        rw [if_pos (by omega), if_pos hin, hexp, Nat.pow_succ', Nat.div_div_eq_div_mul]
      · rw [if_neg (by omega), if_neg hin]

/-- The first byte read is the lowest one of the word. -/
theorem ofNat_readLE_succ (m : ByteMap) (a n w : Nat) :
    BitVec.ofNat (w + 8) (readLE m a (n + 1)) = BitVec.ofNat w (readLE m (a + 1) n) ++ m a := by
  have hb : (m a).toNat < 2 ^ 8 := (m a).isLt
  apply BitVec.eq_of_toNat_eq
  rw [BitVec.toNat_append, ← Nat.shiftLeft_add_eq_or_of_lt hb, Nat.shiftLeft_eq]
  simp only [readLE, BitVec.toNat_ofNat, Nat.pow_add]
  generalize readLE m (a + 1) n = r
  have hdiv : ((m a).toNat + 256 * r) / 2 ^ 8 = r := by omega
  rw [Nat.mul_comm (2 ^ w), Nat.mod_mul, hdiv]
  omega

theorem ofNat_readLE_one (m : ByteMap) (a : Nat) : BitVec.ofNat 8 (readLE m a 1) = m a := by
  simp [readLE]

theorem ofNat_readLE_two (m : ByteMap) (a : Nat) :
    BitVec.ofNat 16 (readLE m a 2) = m (a + 1) ++ m a := by
  rw [ofNat_readLE_succ m a 1 8, ofNat_readLE_one]

theorem ofNat_readLE_four (m : ByteMap) (a : Nat) :
    BitVec.ofNat 32 (readLE m a 4) = m (a + 3) ++ m (a + 2) ++ m (a + 1) ++ m a := by
  rw [ofNat_readLE_succ m a 3 24, ofNat_readLE_succ m (a + 1) 2 16, ofNat_readLE_two]

/-- Or-ing a byte in above the `k` low bits a word uses. -/
theorem toNat_or_byte {w k : Nat} {x : BitVec w} (hx : x.toNat < 2 ^ k) (hk : k + 8 ≤ w)
    (b : BitVec 8) : (x ||| b.setWidth w <<< k).toNat = x.toNat + 2 ^ k * b.toNat := by
  have hb : b.toNat < 2 ^ 8 := b.isLt
  have hw : 2 ^ k * 2 ^ 8 ≤ 2 ^ w := by
    rw [← Nat.pow_add]
    exact Nat.pow_le_pow_right (by omega) hk
  have h8 : 2 ^ 8 ≤ 2 ^ w := Nat.pow_le_pow_right (by omega) (by omega)
  have hprod : 2 ^ k * b.toNat < 2 ^ w :=
    Nat.lt_of_lt_of_le (Nat.mul_lt_mul_of_pos_left hb (Nat.two_pow_pos k)) hw
  rw [BitVec.toNat_or, BitVec.toNat_shiftLeft, BitVec.toNat_setWidth, Nat.shiftLeft_eq,
    Nat.mod_eq_of_lt (Nat.lt_of_lt_of_le hb h8), Nat.mul_comm, Nat.mod_eq_of_lt hprod, Nat.or_comm,
    ← Nat.two_pow_add_eq_or_of_lt hx]
  omega

end ByteMap
