import CpuSim.Base.Digits
import CpuSim.Isa.Reference
import CpuSim.Uarch.Stages

/-!
# The commit trace

`sim/tracer.cpp` in its Commit format: one line of text for each retired instruction. `readLine`
is the other direction, what a reader of the log takes from a line, and `readLine_line` says
that nothing is lost on the way as long as a store value fits its access width.
-/

namespace CpuSim

open Rv32i Digits

namespace Tracer

/-- `store_hex_digits`. -/
def storeHexDigits : Op → Nat
  | .sb => 2
  | .sh => 4
  | _ => 8

/-- `format_effect`. Its `is_load_op` lists the ops of `HazardUnit::is_load`. -/
def formatEffect (wb : MemWb) : List Char :=
  if wb.isStore then
    " mem 0x".toList ++ hex 8 wb.memAddr.toNat ++ " 0x".toList ++
      hex (storeHexDigits wb.op) wb.memVal.toNat
  else if wb.rd ≠ 0#5 then
    " x".toList ++ dec 2 wb.rd.toNat ++ " 0x".toList ++ hex 8 wb.wbVal.toNat ++
      if isLoad wb.op then " mem 0x".toList ++ hex 8 wb.memAddr.toNat else []
  else []

/-- The line of a retired instruction. -/
def line (wb : MemWb) : List Char :=
  "core   0: 3 0x".toList ++ hex 8 wb.pc.toNat ++ " (0x".toList ++ hex 8 wb.raw.toNat ++
    ")".toList ++ formatEffect wb

/-- `Tracer::record` in the Commit format: bubbles emit nothing. -/
def record (wb : MemWb) : List (List Char) := if wb.valid then [line wb] else []

theorem length_hex_word (v : Word) : (hex 8 v.toNat).length = 8 :=
  length_hex (by decide) v.isLt

/-- The text buffers of the source, 64 and 128 characters, are never full. -/
theorem line_fits (wb : MemWb) : (formatEffect wb).length < 64 ∧ (line wb).length < 128 := by
  have hval : (hex (storeHexDigits wb.op) wb.memVal.toNat).length ≤ 8 := by
    have hdigits : (Nat.toDigits 16 wb.memVal.toNat).length ≤ 8 :=
      (Nat.length_toDigits_le_iff (by decide) (by decide)).mpr wb.memVal.isLt
    unfold hex storeHexDigits
    rw [List.length_leftpad]
    split <;> omega
  have hrd : (dec 2 wb.rd.toNat).length = 2 :=
    length_dec (by decide) (by have := wb.rd.isLt; omega)
  have heff : (formatEffect wb).length < 64 := by
    unfold formatEffect
    split
    · simp only [List.length_append, length_hex_word]
      change 7 + 8 + 3 + _ < 64
      omega
    · split
      · simp only [List.length_append, length_hex_word, hrd]
        split
        · simp only [List.length_append, length_hex_word]
          decide
        · decide
      · decide
  refine ⟨heff, ?_⟩
  unfold line
  simp only [List.length_append, length_hex_word]
  change 14 + 8 + 4 + 8 + 1 + _ < 128
  omega

/-! ## Reading the log -/

/-- What a line shows of the architectural effect. -/
inductive Effect where
  | none
  | write (rd : RegIdx) (val : Word)
  | store (addr : Word) (width : Nat) (val : Word)
  deriving DecidableEq, Repr

/-- A hexadecimal number that fits a word. -/
def readWord (cs : List Char) : Word := BitVec.ofNat 32 (ofHex cs)

/-- The register write that a line shows. -/
def Effect.reg : Effect → Option (RegIdx × Word)
  | .write rd val => some (rd, val)
  | _ => Option.none

/-- The store that a line shows. -/
def Effect.stored : Effect → Option StoreEffect
  | .store addr width val => some ⟨addr, width, val⟩
  | _ => Option.none

/-- The effect column: columns of fixed width, and a store value up to the end of the line, two
    digits a byte. -/
def readEffect (cs : List Char) : Effect :=
  if " mem 0x".toList.isPrefixOf cs then
    .store (readWord ((cs.drop 7).take 8)) ((cs.drop 18).length / 2) (readWord (cs.drop 18))
  else if " x".toList.isPrefixOf cs then
    .write (BitVec.ofNat 5 (ofDec ((cs.drop 2).take 2))) (readWord ((cs.drop 7).take 8))
  else .none

def readLine (cs : List Char) : Effect := readEffect (cs.drop 35)

/-- A register file after a register write, if there is one. -/
def applyWrite (rf : RegFile) : Option (RegIdx × Word) → RegFile
  | some (rd, val) => rf.write rd val
  | Option.none => rf

/-- The register writes of a log, in order. -/
def replay (log : List (List Char)) (rf : RegFile) : RegFile :=
  log.foldl (fun rf l => applyWrite rf (readLine l).reg) rf

/-- What `format_effect` has put into a line. -/
def effect (wb : MemWb) : Effect :=
  if wb.isStore then .store wb.memAddr (storeHexDigits wb.op / 2) wb.memVal
  else if wb.rd ≠ 0#5 then .write wb.rd wb.wbVal
  else .none

theorem readWord_hex (w : Nat) (v : Word) : readWord (hex w v.toNat) = v := by
  unfold readWord
  rw [ofHex_hex, BitVec.ofNat_toNat, BitVec.setWidth_eq]

/-- The first columns of a line have a fixed width. -/
theorem drop_line (wb : MemWb) : (line wb).drop 35 = formatEffect wb := by
  have hlen : ("core   0: 3 0x".toList ++ hex 8 wb.pc.toNat ++ " (0x".toList ++
      hex 8 wb.raw.toNat ++ ")".toList).length = 35 := by
    simp only [List.length_append, length_hex_word]
    rfl
  unfold line
  rw [← hlen, List.drop_left]

theorem readEffect_mem (t : List Char) :
    readEffect (" mem 0x".toList ++ t) =
      .store (readWord (t.take 8)) ((t.drop 11).length / 2) (readWord (t.drop 11)) := rfl

theorem readEffect_x (t : List Char) :
    readEffect (" x".toList ++ t) =
      .write (BitVec.ofNat 5 (ofDec (t.take 2))) (readWord ((t.drop 5).take 8)) := rfl

theorem readEffect_store (addr : Word) {w : Nat} {val : Word} (hw : 0 < w)
    (hval : val.toNat < 16 ^ w) :
    readEffect (" mem 0x".toList ++ hex 8 addr.toNat ++ " 0x".toList ++ hex w val.toNat) =
      .store addr (w / 2) val := by
  have ha := length_hex_word addr
  have haddr : (hex 8 addr.toNat ++ (" 0x".toList ++ hex w val.toNat)).take 8 =
      hex 8 addr.toNat := List.take_left' ha
  have hrest : (hex 8 addr.toNat ++ (" 0x".toList ++ hex w val.toNat)).drop 11 =
      hex w val.toNat := by
    rw [← List.append_assoc]
    apply List.drop_left'
    rw [List.length_append, ha]
    rfl
  rw [List.append_assoc, List.append_assoc, readEffect_mem, haddr, hrest, length_hex hw hval,
    readWord_hex, readWord_hex]

theorem readEffect_write (rd : RegIdx) (val : Word) (rest : List Char) :
    readEffect (" x".toList ++ dec 2 rd.toNat ++ " 0x".toList ++ hex 8 val.toNat ++ rest) =
      .write rd val := by
  have hr : (dec 2 rd.toNat).length = 2 := length_dec (by decide) (by have := rd.isLt; omega)
  have hrd : (dec 2 rd.toNat ++ (" 0x".toList ++ (hex 8 val.toNat ++ rest))).take 2 =
      dec 2 rd.toNat := List.take_left' hr
  have hval : (dec 2 rd.toNat ++ (" 0x".toList ++ (hex 8 val.toNat ++ rest))).drop 5 =
      hex 8 val.toNat ++ rest := by
    rw [← List.append_assoc]
    apply List.drop_left'
    rw [List.length_append, hr]
    rfl
  rw [List.append_assoc, List.append_assoc, List.append_assoc, readEffect_x, hrd, hval,
    List.take_left' (length_hex_word val), ofDec_dec, readWord_hex, BitVec.ofNat_toNat,
    BitVec.setWidth_eq]

/-- A line reads back as its effect. -/
theorem readLine_line {wb : MemWb}
    (h : wb.isStore = true → wb.memVal.toNat < 16 ^ storeHexDigits wb.op) :
    readLine (line wb) = effect wb := by
  unfold readLine
  rw [drop_line]
  unfold formatEffect effect
  have hpos : 0 < storeHexDigits wb.op := by
    unfold storeHexDigits
    split <;> decide
  cases hs : wb.isStore with
  | true => exact readEffect_store wb.memAddr hpos (h hs)
  | false =>
    simp only [Bool.false_eq_true, if_false]
    by_cases hr : wb.rd = 0#5
    · rw [if_neg (not_not.mpr hr), if_neg (not_not.mpr hr)]
      rfl
    · rw [if_pos hr, if_pos hr]
      exact readEffect_write wb.rd wb.wbVal _

end Tracer

end CpuSim
