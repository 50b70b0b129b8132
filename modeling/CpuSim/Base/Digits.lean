import Mathlib.Tactic.IntervalCases

/-!
# Numbers as text

What conversions of `printf` print for a number, and how a reader gets the number back: `%0*x` and
`%-*d` of a natural number, blanks in front of it, `%d` of a number with a sign.
-/

namespace Digits

/-- `%0*x`: lower-case hexadecimal digits, at least `w` of them. -/
def hex (w v : Nat) : List Char := (Nat.toDigits 16 v).leftpad w '0'

/-- `%-*d`: decimal digits, filled up with blanks on the right to `w` characters. -/
def dec (w v : Nat) : List Char := (Nat.toDigits 10 v).rightpad w ' '

/-- `%*u`: decimal digits, filled up with blanks on the left to `w` characters. -/
def count (w v : Nat) : List Char := (Nat.toDigits 10 v).leftpad w ' '

/-- `%d`: the sign of a negative number, and decimal digits. -/
def int (v : Int) : List Char :=
  if v < 0 then '-' :: Nat.toDigits 10 v.natAbs else Nat.toDigits 10 v.natAbs

/-- `snprintf`: what a buffer of `size` characters holds of a text, besides the final NUL. -/
def snprintf (size : Nat) (text : List Char) : List Char := text.take (size - 1)

/-- The value of a hexadecimal digit. -/
def hexVal (c : Char) : Nat := if c.isDigit then c.toNat - 48 else c.toNat - 87

/-- The number that hexadecimal digits stand for. -/
def ofHex (cs : List Char) : Nat := cs.foldl (fun n c => 16 * n + hexVal c) 0

/-- The number that the leading decimal digits of a text stand for. -/
def ofDec (cs : List Char) : Nat := Nat.ofDigitChars 10 (cs.takeWhile Char.isDigit) 0

/-- The number behind blanks. -/
def ofCount (cs : List Char) : Nat := ofDec (cs.dropWhile (· = ' '))

/-- The number that a text with or without a sign stands for. -/
def ofInt : List Char → Int
  | '-' :: cs => -ofDec cs
  | cs => ofDec cs

/-! ## Texts -/

/-- A text is cut in one way only at the first place of a separator. -/
theorem cut_inj {α : Type*} {c : α} {x x' z z' : List α} (hx : c ∉ x) (hx' : c ∉ x')
    (h : x ++ c :: z = x' ++ c :: z') : x = x' ∧ z = z' := by
  induction x generalizing x' with
  | nil =>
    cases x' with
    | nil => simpa using h
    | cons d x' =>
      simp only [List.nil_append, List.cons_append, List.cons.injEq] at h
      simp [h.1] at hx'
  | cons d x ih =>
    cases x' with
    | nil =>
      simp only [List.nil_append, List.cons_append, List.cons.injEq] at h
      simp [h.1] at hx
    | cons d' x' =>
      simp only [List.cons_append, List.cons.injEq] at h
      simp only [List.mem_cons, not_or] at hx hx'
      rcases ih hx.2 hx'.2 h.2 with ⟨rfl, rfl⟩
      exact ⟨by rw [h.1], rfl⟩

/-- A buffer that is large enough holds the text. -/
theorem snprintf_of_lt {size : Nat} {text : List Char} (h : text.length < size) :
    snprintf size text = text := List.take_of_length_le (by omega)

/-! ## Hexadecimal -/

theorem hexVal_digitChar {d : Nat} (h : d < 16) : hexVal d.digitChar = d := by
  interval_cases d <;> rfl

theorem ofHex_concat (cs : List Char) (c : Char) :
    ofHex (cs ++ [c]) = 16 * ofHex cs + hexVal c := by
  unfold ofHex
  rw [List.foldl_append]
  rfl

theorem ofHex_toDigits (v : Nat) : ofHex (Nat.toDigits 16 v) = v := by
  induction v using Nat.strongRecOn with
  | ind v ih =>
    rw [Nat.toDigits_eq_if (by decide)]
    split
    · rename_i hlt
      exact (Nat.zero_add _).trans (hexVal_digitChar hlt)
    · rw [ofHex_concat, ih (v / 16) (by omega), hexVal_digitChar (Nat.mod_lt v (by decide))]
      omega

theorem ofHex_zeros (n : Nat) (cs : List Char) :
    ofHex (List.replicate n '0' ++ cs) = ofHex cs := by
  have hzero : (List.replicate n '0').foldl (fun n c => 16 * n + hexVal c) 0 = 0 := by
    induction n with
    | zero => rfl
    | succ n ih => exact ih
  unfold ofHex
  rw [List.foldl_append, hzero]

/-- Zeros in front do not change the number. -/
theorem ofHex_hex (w v : Nat) : ofHex (hex w v) = v := by
  unfold hex List.leftpad
  rw [ofHex_zeros, ofHex_toDigits]

theorem length_hex {w v : Nat} (hw : 0 < w) (h : v < 16 ^ w) : (hex w v).length = w := by
  have hle : (Nat.toDigits 16 v).length ≤ w :=
    (Nat.length_toDigits_le_iff (by decide) hw).mpr h
  unfold hex
  rw [List.length_leftpad]
  omega

theorem length_hex_le {w k v : Nat} (hk : 0 < k) (hw : w ≤ k) (h : v < 16 ^ k) :
    (hex w v).length ≤ k := by
  have hle : (Nat.toDigits 16 v).length ≤ k :=
    (Nat.length_toDigits_le_iff (by decide) hk).mpr h
  simp only [hex, List.length_leftpad]
  omega

/-! ## Decimal -/

theorem ofDec_dec (w v : Nat) : ofDec (dec w v) = v := by
  have hdigits : ∀ c ∈ Nat.toDigits 10 v, c.isDigit = true := fun c hc =>
    Nat.isDigit_of_mem_toDigits (by decide) (by decide) hc
  unfold ofDec dec List.rightpad
  rw [List.takeWhile_append_of_pos hdigits]
  have hblank : (List.replicate (w - (Nat.toDigits 10 v).length) ' ').takeWhile Char.isDigit =
      [] := by
    cases w - (Nat.toDigits 10 v).length with
    | zero => rfl
    | succ n => rfl
  rw [hblank, List.append_nil]
  exact Nat.ofDigitChars_toDigits (by decide) (by decide)

theorem length_dec {w v : Nat} (hw : 0 < w) (h : v < 10 ^ w) : (dec w v).length = w := by
  have hle : (Nat.toDigits 10 v).length ≤ w :=
    (Nat.length_toDigits_le_iff (by decide) hw).mpr h
  unfold dec List.rightpad
  rw [List.length_append, List.length_replicate]
  omega

theorem isDigit_of_mem_toDigits {c : Char} {v : Nat} (h : c ∈ Nat.toDigits 10 v) :
    c.isDigit = true := Nat.isDigit_of_mem_toDigits (by decide) (by decide) h

theorem ofDec_toDigits (v : Nat) : ofDec (Nat.toDigits 10 v) = v := by
  simpa [dec, List.rightpad] using ofDec_dec 0 v

theorem length_toDigits_le {k v : Nat} (hk : 0 < k) (h : v < 10 ^ k) :
    (Nat.toDigits 10 v).length ≤ k := (Nat.length_toDigits_le_iff (by decide) hk).mpr h

/-- A natural number starts with a digit. -/
theorem exists_toDigits (v : Nat) : ∃ c cs, Nat.toDigits 10 v = c :: cs ∧ c.isDigit = true := by
  cases hd : Nat.toDigits 10 v with
  | nil => exact absurd hd (Nat.toDigits_ne_nil)
  | cons c cs => exact ⟨c, cs, rfl, isDigit_of_mem_toDigits (v := v) (by simp [hd])⟩

theorem mem_count {c : Char} {w v : Nat} (h : c ∈ count w v) : c = ' ' ∨ c.isDigit = true := by
  simp only [count, List.leftpad, List.mem_append, List.mem_replicate] at h
  rcases h with ⟨-, rfl⟩ | h
  · exact .inl rfl
  · exact .inr (isDigit_of_mem_toDigits h)

/-- Whatever stands behind a number, if it does not start with a digit. -/
theorem ofCount_count (w v : Nat) {cs : List Char} (h : ∀ c ∈ cs.head?, c.isDigit = false) :
    ofCount (count w v ++ cs) = v := by
  have hblanks : (count w v ++ cs).dropWhile (· = ' ') = Nat.toDigits 10 v ++ cs := by
    rcases exists_toDigits v with ⟨c, ds, hd, hc⟩
    have hne : c ≠ ' ' := by
      rintro rfl
      cases hc
    unfold count List.leftpad
    rw [List.append_assoc, List.dropWhile_append_of_pos (by simp), hd, List.cons_append,
      List.dropWhile_cons_of_neg (by simpa using hne)]
  have hrest : cs.takeWhile Char.isDigit = [] := by
    cases cs with
    | nil => rfl
    | cons c cs => simp [h c (by simp)]
  have hdigits : ∀ c ∈ Nat.toDigits 10 v, c.isDigit = true := fun c hc => isDigit_of_mem_toDigits hc
  rw [ofCount, hblanks, ofDec, List.takeWhile_append_of_pos hdigits, hrest, List.append_nil]
  exact Nat.ofDigitChars_toDigits (by decide) (by decide)

theorem length_count_le {w k v : Nat} (hk : 0 < k) (hw : w ≤ k) (h : v < 10 ^ k) :
    (count w v).length ≤ k := by
  have := length_toDigits_le hk h
  simp only [count, List.length_leftpad]
  omega

theorem mem_int {c : Char} {v : Int} (h : c ∈ int v) : c = '-' ∨ c.isDigit = true := by
  unfold int at h
  split at h
  · rcases List.mem_cons.mp h with rfl | h
    · exact .inl rfl
    · exact .inr (isDigit_of_mem_toDigits h)
  · exact .inr (isDigit_of_mem_toDigits h)

theorem ofInt_int (v : Int) : ofInt (int v) = v := by
  unfold int
  split
  · rename_i hneg
    change -(ofDec (Nat.toDigits 10 v.natAbs) : Int) = v
    rw [ofDec_toDigits]
    omega
  · rename_i hpos
    rcases exists_toDigits v.natAbs with ⟨c, cs, hd, hc⟩
    have hread : ofInt (c :: cs) = ofDec (c :: cs) := by
      unfold ofInt
      split
      · rename_i heq
        rw [List.cons.injEq] at heq
        rw [heq.1] at hc
        cases hc
      · rfl
    rw [hd, hread, ← hd, ofDec_toDigits]
    omega

theorem length_int_le {k : Nat} {v : Int} (hk : 0 < k) (h : v.natAbs < 10 ^ k) :
    (int v).length ≤ k + 1 := by
  have := length_toDigits_le hk h
  unfold int
  split
  · simpa using this
  · omega

end Digits
