import Mathlib.Data.BitVec

/-!
# Bit fields

Shifts and masks of a word as the bit fields they cut out, concatenations of fields as the words
they make up, and sign extension by exclusive or and subtraction.
-/

namespace Bits

variable {w n m p : Nat}

/-! ## Cutting a field out -/

theorem ushiftRight_and_mask (x : BitVec w) (s n : Nat) :
    (x >>> s) &&& BitVec.ofNat w (2 ^ n - 1) = (x.extractLsb' s n).setWidth w := by
  apply BitVec.eq_of_getLsbD_eq
  intro i hi
  rw [BitVec.getLsbD_and, BitVec.getLsbD_ushiftRight, BitVec.getLsbD_ofNat,
    Nat.testBit_two_pow_sub_one, BitVec.getLsbD_setWidth, BitVec.getLsbD_extractLsb']
  simp only [hi, decide_true, Bool.true_and]
  exact Bool.and_comm _ _

theorem ushiftRight_eq (x : BitVec w) {s : Nat} (h : w = s + n) :
    x >>> s = (x.extractLsb' s n).setWidth w := by
  apply BitVec.eq_of_getLsbD_eq
  intro i hi
  rw [BitVec.getLsbD_ushiftRight, BitVec.getLsbD_setWidth, BitVec.getLsbD_extractLsb']
  by_cases hn : i < n
  · simp only [hi, hn, decide_true, Bool.true_and]
  · rw [BitVec.getLsbD_of_ge x (s + i) (by omega)]
    simp only [hn, decide_false, Bool.and_false]

theorem setWidth_inj (h : n ≤ w) {x y : BitVec n} : x.setWidth w = y.setWidth w ↔ x = y := by
  refine ⟨fun hxy => ?_, fun hxy => by rw [hxy]⟩
  have hback := congrArg (BitVec.setWidth n) hxy
  rwa [BitVec.setWidth_setWidth_of_le _ h, BitVec.setWidth_setWidth_of_le _ h,
    BitVec.setWidth_eq, BitVec.setWidth_eq] at hback

theorem extractLsb'_extractLsb' (x : BitVec w) {s k i l : Nat} (h : i + l ≤ k) :
    (x.extractLsb' s k).extractLsb' i l = x.extractLsb' (s + i) l := by
  apply BitVec.eq_of_getLsbD_eq
  intro j hj
  rw [BitVec.getLsbD_extractLsb', BitVec.getLsbD_extractLsb', BitVec.getLsbD_extractLsb',
    Nat.add_assoc]
  simp only [hj, show i + j < k by omega, decide_true, Bool.true_and]

/-- The low bits of a word are zero exactly when their place value divides it. -/
theorem extractLsb'_eq_zero_iff (x : BitVec w) (k : Nat) :
    x.extractLsb' 0 k = 0#k ↔ x.toNat % 2 ^ k = 0 := by
  rw [← BitVec.toNat_inj, BitVec.extractLsb'_toNat, Nat.shiftRight_zero, BitVec.toNat_ofNat,
    Nat.zero_mod]

/-! ## Putting fields together -/

/-- A field shifted behind another one. -/
theorem shiftLeft_or_append (x : BitVec p) (y : BitVec m) {j k : Nat} (h : j = m + k) :
    ((x.setWidth w) <<< j) ||| ((y.setWidth w) <<< k) = ((x ++ y).setWidth w) <<< k := by
  subst h
  apply BitVec.eq_of_getLsbD_eq
  intro i hi
  simp only [BitVec.getLsbD_or, BitVec.getLsbD_shiftLeft, BitVec.getLsbD_setWidth,
    BitVec.getLsbD_append, hi, decide_true, Bool.true_and]
  by_cases hk : i < k
  · simp [hk, show i < m + k by omega]
  · by_cases hm : i - k < m
    · simp [hk, hm, show i < m + k by omega, show i - k < w by omega]
    · have hsub : i - (m + k) = i - k - m := by omega
      have hy : y.getLsbD (i - k) = false := BitVec.getLsbD_of_ge _ _ (by omega)
      simp [hk, hm, hsub, hy, show ¬ i < m + k by omega, show i - k - m < w by omega,
        show i - k < w by omega]

/-- A shift to the left puts zeros behind a field. -/
theorem shiftLeft_eq_append (x : BitVec n) (k : Nat) :
    (x.setWidth w) <<< k = (x ++ 0#k).setWidth w := by
  apply BitVec.eq_of_getLsbD_eq
  intro i hi
  simp only [BitVec.getLsbD_shiftLeft, BitVec.getLsbD_setWidth, BitVec.getLsbD_append, hi,
    decide_true, Bool.true_and, BitVec.getLsbD_zero]
  by_cases hk : i < k
  · simp [hk]
  · simp [hk, show i - k < w by omega]

/-! ## Sign extension -/

/-- Words without a common bit add up without a carry. -/
theorem xor_eq_add (a b : BitVec w) (h : a &&& b = 0#w) : a ^^^ b = a + b := by
  rw [BitVec.add_eq_or_of_and_eq_zero a b h]
  apply BitVec.eq_of_getLsbD_eq
  intro i _
  have hbit := congrArg (fun x => x.getLsbD i) h
  simp only [BitVec.getLsbD_and, BitVec.getLsbD_zero] at hbit
  rw [BitVec.getLsbD_xor, BitVec.getLsbD_or]
  cases ha : a.getLsbD i <;> cases hb : b.getLsbD i <;> simp_all

/-- A word without bit `k` has no bit in common with the word that is bit `k`. -/
theorem and_twoPow_eq_zero {a : BitVec w} {k : Nat} (h : a.getLsbD k = false) :
    a &&& BitVec.twoPow w k = 0#w := by
  apply BitVec.eq_of_getLsbD_eq
  intro i _
  rw [BitVec.getLsbD_and, BitVec.getLsbD_twoPow, BitVec.getLsbD_zero]
  by_cases hk : k = i
  · rw [← hk, h, Bool.false_and]
  · simp [hk]

/-- Flipping the sign bit and subtracting it again extends it. -/
theorem xor_sub_sign (x : BitVec n) (hn : 0 < n) (h : n ≤ w) :
    ((x.setWidth w) ^^^ (1#w <<< (n - 1))) - (1#w <<< (n - 1)) = x.signExtend w := by
  rw [← BitVec.twoPow_eq]
  have hsign : (x.setWidth w).getLsbD (n - 1) = x.msb := by
    rw [BitVec.getLsbD_setWidth, BitVec.msb_eq_getLsbD_last]
    simp only [show n - 1 < w by omega, decide_true, Bool.true_and]
  cases hmsb : x.msb with
  | false =>
    rw [hmsb] at hsign
    rw [xor_eq_add _ _ (and_twoPow_eq_zero hsign), BitVec.add_sub_cancel,
      BitVec.signExtend_eq_setWidth_of_msb_false hmsb]
  | true =>
    -- Without its sign bit the word is smaller by that bit.
    have hflip : (x.setWidth w ^^^ BitVec.twoPow w (n - 1)).getLsbD (n - 1) = false := by
      rw [BitVec.getLsbD_xor, hsign, hmsb, BitVec.getLsbD_twoPow]
      simp only [show n - 1 < w by omega, decide_true, Bool.and_self]
      rfl
    have hback : x.setWidth w =
        (x.setWidth w ^^^ BitVec.twoPow w (n - 1)) + BitVec.twoPow w (n - 1) := by
      rw [← xor_eq_add _ _ (and_twoPow_eq_zero hflip), BitVec.xor_assoc, BitVec.xor_self,
        BitVec.xor_zero]
    have hless : x.setWidth w ^^^ BitVec.twoPow w (n - 1) =
        x.setWidth w - BitVec.twoPow w (n - 1) := by
      nth_rewrite 2 [hback]
      rw [BitVec.add_sub_cancel]
    have hge := BitVec.le_toNat_of_msb_true hmsb
    have hlt := x.isLt
    have hpow : 2 ^ n = 2 * 2 ^ (n - 1) := by
      rw [← Nat.pow_succ', show (n - 1).succ = n by omega]
    have hle : 2 ^ n ≤ 2 ^ w := Nat.pow_le_pow_right (by decide) h
    have hbit : 2 ^ (n - 1) % 2 ^ w = 2 ^ (n - 1) := Nat.mod_eq_of_lt (by omega)
    have hx : x.toNat % 2 ^ w = x.toNat := Nat.mod_eq_of_lt (by omega)
    rw [hless]
    apply BitVec.eq_of_toNat_eq
    rw [BitVec.toNat_signExtend, BitVec.toNat_sub, BitVec.toNat_sub, BitVec.toNat_twoPow,
      BitVec.toNat_setWidth, hbit, hx, hmsb, if_pos rfl]
    have hinner : (2 ^ w - 2 ^ (n - 1) + x.toNat) % 2 ^ w = x.toNat - 2 ^ (n - 1) := by
      have hsum : 2 ^ w - 2 ^ (n - 1) + x.toNat = 2 ^ w + (x.toNat - 2 ^ (n - 1)) := by omega
      rw [hsum, Nat.add_mod_left, Nat.mod_eq_of_lt (by omega)]
    rw [hinner, Nat.mod_eq_of_lt (by omega)]
    omega

theorem extractLsb'_signExtend (x : BitVec n) {s k : Nat} (h : s + k ≤ n) (hw : n ≤ w) :
    (x.signExtend w).extractLsb' s k = x.extractLsb' s k := by
  apply BitVec.eq_of_getLsbD_eq
  intro i hi
  rw [BitVec.getLsbD_extractLsb', BitVec.getLsbD_extractLsb', BitVec.getLsbD_signExtend,
    if_pos (by omega)]
  simp only [hi, show s + i < w by omega, decide_true, Bool.true_and]

/-- A word in the range of `n` bits is the extension of its low `n` bits. -/
theorem signExtend_extractLsb' (x : BitVec w) (hn : 0 < n) (h : n ≤ w)
    (hlo : -(2 ^ (n - 1) : Int) ≤ x.toInt) (hhi : x.toInt < 2 ^ (n - 1)) :
    (x.extractLsb' 0 n).signExtend w = x := by
  have hpow : (2 : Int) ^ n = 2 * 2 ^ (n - 1) := by
    rw [← Int.pow_succ', show n - 1 + 1 = n by omega]
  have hmod : (x.toNat : Int).bmod (2 ^ n) = x.toInt.bmod (2 ^ n) := by
    rw [BitVec.toInt_eq_toNat_cond]
    split
    · rfl
    · have hsplit :
          ((2 ^ w : Nat) : Int) = ((2 ^ n : Nat) : Int) * ((2 ^ (w - n) : Nat) : Int) := by
        rw [← Int.natCast_mul, ← Nat.pow_add, show n + (w - n) = w by omega]
      rw [hsplit, sub_eq_add_neg, ← mul_neg, Int.add_mul_bmod_self_left]
  apply BitVec.eq_of_toInt_eq
  rw [BitVec.toInt_signExtend_of_le h, ← BitVec.setWidth_eq_extractLsb' h, BitVec.toInt_setWidth,
    hmod]
  apply Int.bmod_eq_of_le <;> push_cast <;> omega

/-- A sign extension stays in the range of what it extends. -/
theorem toInt_signExtend_range (x : BitVec n) (h : n ≤ w) :
    -(2 ^ (n - 1) : Int) ≤ (x.signExtend w).toInt ∧ (x.signExtend w).toInt < 2 ^ (n - 1) := by
  rw [BitVec.toInt_signExtend_of_le h]
  exact ⟨BitVec.le_toInt x, BitVec.toInt_lt⟩

end Bits
