import CpuSim.Base.Bits
import CpuSim.Isa.Decoder

/-!
# The RV32I instruction formats

The manual's side of decoding, stated without the decoder: which opcode, funct3 and funct7 an
instruction has, in which format its operands are laid out, and the word that lays them out.
A word is a concatenation of fields, bit 31 first, as in the table of formats that
`isa/rv32i/encoding.h` quotes.
-/

namespace CpuSim.Rv32i

/-- The formats of the manual. `shift` is the I format of the shifts by a constant, whose
    immediate is a funct7 and a five-bit amount. -/
inductive Format where
  | r | i | shift | s | b | u | j
  deriving DecidableEq, Repr

namespace Op

/-- FENCE, ECALL and EBREAK have no operands the program can choose. -/
def format : Op → Option Format
  | .add | .sub | .sll | .srl | .sra | .slt | .sltu | .and | .or | .xor => some .r
  | .slli | .srli | .srai => some .shift
  | .addi | .slti | .sltiu | .andi | .ori | .xori | .lb | .lh | .lw | .lbu | .lhu | .jalr => some .i
  | .sb | .sh | .sw => some .s
  | .beq | .bne | .blt | .bge | .bltu | .bgeu => some .b
  | .lui | .auipc => some .u
  | .jal => some .j
  | .ecall | .ebreak | .fence | .illegal => none

/-- Bits 6:0. -/
def opcodeField : Op → BitVec 7
  | .add | .sub | .sll | .srl | .sra | .slt | .sltu | .and | .or | .xor => 0b0110011
  | .addi | .slli | .srli | .srai | .slti | .sltiu | .andi | .ori | .xori => 0b0010011
  | .lb | .lh | .lw | .lbu | .lhu => 0b0000011
  | .sb | .sh | .sw => 0b0100011
  | .beq | .bne | .blt | .bge | .bltu | .bgeu => 0b1100011
  | .jal => 0b1101111
  | .jalr => 0b1100111
  | .lui => 0b0110111
  | .auipc => 0b0010111
  | .fence => 0b0001111
  | .ecall | .ebreak => 0b1110011
  | .illegal => 0

/-- Bits 14:12, where the format has a funct3. -/
def funct3Field : Op → BitVec 3
  | .add | .sub | .addi | .lb | .sb | .beq | .jalr | .fence | .ecall | .ebreak => 0b000
  | .sll | .slli | .lh | .sh | .bne => 0b001
  | .slt | .slti | .lw | .sw => 0b010
  | .sltu | .sltiu => 0b011
  | .xor | .xori | .lbu | .blt => 0b100
  | .srl | .sra | .srli | .srai | .lhu | .bge => 0b101
  | .or | .ori | .bltu => 0b110
  | .and | .andi | .bgeu => 0b111
  | .jal | .lui | .auipc | .illegal => 0

/-- Bits 31:25, where the format has a funct7. -/
def funct7Field : Op → BitVec 7
  | .sub | .sra | .srai => 0b0100000
  | _ => 0

end Op

/-- The operands of an instruction. -/
structure Operands where
  rd : RegIdx
  rs1 : RegIdx
  rs2 : RegIdx
  imm : Word
  deriving DecidableEq, Repr

def Instruction.operands (i : Instruction) : Operands :=
  { rd := i.rd, rs1 := i.rs1, rs2 := i.rs2, imm := i.imm }

/-- The operands an instruction of this format can have: what it lacks is zero, and its immediate
    is in range. -/
def Format.Fits (o : Operands) : Format → Prop
  | .r => o.imm = 0
  | .i => o.rs2 = 0 ∧ -2048 ≤ o.imm.toInt ∧ o.imm.toInt < 2048
  | .shift => o.rs2 = 0 ∧ o.imm.toNat < 32
  | .s => o.rd = 0 ∧ -2048 ≤ o.imm.toInt ∧ o.imm.toInt < 2048
  | .b => o.rd = 0 ∧ -4096 ≤ o.imm.toInt ∧ o.imm.toInt < 4096 ∧ o.imm.toNat % 2 = 0
  | .u => o.rs1 = 0 ∧ o.rs2 = 0 ∧ o.imm.toNat % 4096 = 0
  | .j => o.rs1 = 0 ∧ o.rs2 = 0 ∧ -1048576 ≤ o.imm.toInt ∧ o.imm.toInt < 1048576 ∧
      o.imm.toNat % 2 = 0

/-- The word of an instruction of this format. -/
def Format.enc (op : Op) (o : Operands) : Format → Word
  | .r => op.funct7Field ++ o.rs2 ++ o.rs1 ++ op.funct3Field ++ o.rd ++ op.opcodeField
  | .i => o.imm.extractLsb' 0 12 ++ o.rs1 ++ op.funct3Field ++ o.rd ++ op.opcodeField
  | .shift =>
    op.funct7Field ++ o.imm.extractLsb' 0 5 ++ o.rs1 ++ op.funct3Field ++ o.rd ++ op.opcodeField
  | .s =>
    o.imm.extractLsb' 5 7 ++ o.rs2 ++ o.rs1 ++ op.funct3Field ++ o.imm.extractLsb' 0 5 ++
      op.opcodeField
  | .b =>
    o.imm.extractLsb' 12 1 ++ o.imm.extractLsb' 5 6 ++ o.rs2 ++ o.rs1 ++ op.funct3Field ++
      o.imm.extractLsb' 1 4 ++ o.imm.extractLsb' 11 1 ++ op.opcodeField
  | .u => o.imm.extractLsb' 12 20 ++ o.rd ++ op.opcodeField
  | .j =>
    o.imm.extractLsb' 20 1 ++ o.imm.extractLsb' 1 10 ++ o.imm.extractLsb' 11 1 ++
      o.imm.extractLsb' 12 8 ++ o.rd ++ op.opcodeField

/-! ## Which words are instructions -/

/-- `w` is an encoding of `op`, whatever its operands. FENCE leaves its other fields open, ECALL
    and EBREAK are one word each. -/
def Encodes (w : Word) (op : Op) : Prop :=
  match op.format with
  | some .r | some .shift =>
    w.extractLsb' 0 7 = op.opcodeField ∧ w.extractLsb' 12 3 = op.funct3Field ∧
      w.extractLsb' 25 7 = op.funct7Field
  | some .i | some .s | some .b =>
    w.extractLsb' 0 7 = op.opcodeField ∧ w.extractLsb' 12 3 = op.funct3Field
  | some .u | some .j => w.extractLsb' 0 7 = op.opcodeField
  | none =>
    match op with
    | .fence => w.extractLsb' 0 7 = op.opcodeField ∧ w.extractLsb' 12 3 = op.funct3Field
    | .ecall => w = 0x00000073
    | .ebreak => w = 0x00100073
    | _ => False

/-! ## The extractors of the source -/

theorem opcode_eq (w : Word) : opcode w = (w.extractLsb' 0 7).setWidth 32 := by
  have h := Bits.ushiftRight_and_mask w 0 7
  rwa [BitVec.ushiftRight_zero] at h

theorem funct3_eq (w : Word) : funct3 w = (w.extractLsb' 12 3).setWidth 32 :=
  Bits.ushiftRight_and_mask w 12 3

theorem funct7_eq (w : Word) : funct7 w = (w.extractLsb' 25 7).setWidth 32 :=
  Bits.ushiftRight_and_mask w 25 7

theorem funct12_eq (w : Word) : funct12 w = (w.extractLsb' 20 12).setWidth 32 :=
  Bits.ushiftRight_eq w rfl

theorem regField_eq (w : Word) (s : Nat) :
    ((w >>> s) &&& 0x1f).setWidth 5 = w.extractLsb' s 5 := by
  have h : (w >>> s) &&& 0x1f = (w.extractLsb' s 5).setWidth 32 := Bits.ushiftRight_and_mask w s 5
  rw [h, BitVec.setWidth_setWidth_of_le _ (by decide), BitVec.setWidth_eq]

theorem rdField_eq (w : Word) : rdField w = w.extractLsb' 7 5 := regField_eq w 7

theorem rs1Field_eq (w : Word) : rs1Field w = w.extractLsb' 15 5 := regField_eq w 15

theorem rs2Field_eq (w : Word) : rs2Field w = w.extractLsb' 20 5 := regField_eq w 20

theorem sext_eq {n : Nat} (x : BitVec n) (hn : 0 < n) (h : n ≤ 32) :
    sext (x.setWidth 32) n = x.signExtend 32 := Bits.xor_sub_sign x hn h

theorem immI_eq (w : Word) : immI w = (w.extractLsb' 20 12).signExtend 32 := by
  unfold immI
  rw [Bits.ushiftRight_eq w (n := 12) rfl, sext_eq _ (by decide) (by decide)]

theorem immS_eq (w : Word) :
    immS w = (w.extractLsb' 25 7 ++ w.extractLsb' 7 5).signExtend 32 := by
  have hlow : (w >>> 7) &&& 0x1f = (w.extractLsb' 7 5).setWidth 32 :=
    Bits.ushiftRight_and_mask w 7 5
  have hjoin := Bits.shiftLeft_or_append (w := 32) (w.extractLsb' 25 7) (w.extractLsb' 7 5)
    (j := 5) (k := 0) rfl
  rw [BitVec.shiftLeft_zero, BitVec.shiftLeft_zero] at hjoin
  unfold immS
  rw [hlow, Bits.ushiftRight_eq w (n := 7) rfl, hjoin]
  exact sext_eq _ (by decide) (by decide)

theorem immB_eq (w : Word) :
    immB w = (w.extractLsb' 31 1 ++ w.extractLsb' 7 1 ++ w.extractLsb' 25 6 ++
      w.extractLsb' 8 4 ++ 0#1).signExtend 32 := by
  have h7 : (w >>> 7) &&& 0x1 = (w.extractLsb' 7 1).setWidth 32 := Bits.ushiftRight_and_mask w 7 1
  have h25 : (w >>> 25) &&& 0x3f = (w.extractLsb' 25 6).setWidth 32 :=
    Bits.ushiftRight_and_mask w 25 6
  have h8 : (w >>> 8) &&& 0xf = (w.extractLsb' 8 4).setWidth 32 := Bits.ushiftRight_and_mask w 8 4
  unfold immB
  rw [h7, h25, h8, Bits.ushiftRight_eq w (n := 1) rfl,
    Bits.shiftLeft_or_append _ _ (j := 12) (k := 11) rfl,
    Bits.shiftLeft_or_append _ _ (j := 11) (k := 5) rfl,
    Bits.shiftLeft_or_append _ _ (j := 5) (k := 1) rfl, Bits.shiftLeft_eq_append]
  exact sext_eq _ (by decide) (by decide)

theorem immJ_eq (w : Word) :
    immJ w = (w.extractLsb' 31 1 ++ w.extractLsb' 12 8 ++ w.extractLsb' 20 1 ++
      w.extractLsb' 21 10 ++ 0#1).signExtend 32 := by
  have h12 : (w >>> 12) &&& 0xff = (w.extractLsb' 12 8).setWidth 32 :=
    Bits.ushiftRight_and_mask w 12 8
  have h20 : (w >>> 20) &&& 0x1 = (w.extractLsb' 20 1).setWidth 32 :=
    Bits.ushiftRight_and_mask w 20 1
  have h21 : (w >>> 21) &&& 0x3ff = (w.extractLsb' 21 10).setWidth 32 :=
    Bits.ushiftRight_and_mask w 21 10
  unfold immJ
  rw [h12, h20, h21, Bits.ushiftRight_eq w (n := 1) rfl,
    Bits.shiftLeft_or_append _ _ (j := 20) (k := 12) rfl,
    Bits.shiftLeft_or_append _ _ (j := 12) (k := 11) rfl,
    Bits.shiftLeft_or_append _ _ (j := 11) (k := 1) rfl, Bits.shiftLeft_eq_append]
  exact sext_eq _ (by decide) (by decide)

theorem immU_eq (w : Word) : immU w = w.extractLsb' 12 20 ++ 0#12 := by
  unfold immU
  apply BitVec.eq_of_getLsbD_eq
  intro i hi
  have hmask : ∀ i < 32, (0xfffff000 : Word).getLsbD i = decide (12 ≤ i) := by decide
  rw [BitVec.getLsbD_and, BitVec.getLsbD_append, BitVec.getLsbD_extractLsb', hmask i hi]
  by_cases hlow : i < 12
  · simp [hlow]
  · simp [hlow, show 12 + (i - 12) = i by omega, show i - 12 < 20 by omega, show 12 ≤ i by omega]

end CpuSim.Rv32i
