import Mathlib.Data.BitVec

/-!
# RV32I instruction words

The fixed fields and the six immediate layouts of `isa/rv32i/encoding.h`, and the opcode,
`funct3` and `funct7` constants of `isa/rv32i/defs.h`. Words are `BitVec 32`; a C++ `int32_t`
immediate is carried as the word with the same bits.
-/

namespace CpuSim

/-- `uint32_t`. -/
abbrev Word := BitVec 32

/-- `uint16_t`. -/
abbrev Half := BitVec 16

/-- `uint8_t`. -/
abbrev Byte := BitVec 8

/-- A register number. The source keeps it in a `uint8_t` that only ever holds a five-bit
    field, so the index is in range of the register file by its type. -/
abbrev RegIdx := BitVec 5

namespace Rv32i

/-! ## Opcodes [6:0] -/

def opcLui : Word := 0b0110111
def opcAuipc : Word := 0b0010111
def opcJal : Word := 0b1101111
def opcJalr : Word := 0b1100111
def opcBranch : Word := 0b1100011
def opcLoad : Word := 0b0000011
def opcStore : Word := 0b0100011
def opcOpImm : Word := 0b0010011
def opcOp : Word := 0b0110011
def opcMiscMem : Word := 0b0001111
def opcSystem : Word := 0b1110011

/-! ## funct3 -/

def f3Beq : Word := 0b000
def f3Bne : Word := 0b001
def f3Blt : Word := 0b100
def f3Bge : Word := 0b101
def f3Bltu : Word := 0b110
def f3Bgeu : Word := 0b111

def f3Lb : Word := 0b000
def f3Lh : Word := 0b001
def f3Lw : Word := 0b010
def f3Lbu : Word := 0b100
def f3Lhu : Word := 0b101

def f3Sb : Word := 0b000
def f3Sh : Word := 0b001
def f3Sw : Word := 0b010

def f3AddSub : Word := 0b000
def f3Sll : Word := 0b001
def f3Slt : Word := 0b010
def f3Sltu : Word := 0b011
def f3Xor : Word := 0b100
def f3SrlSra : Word := 0b101
def f3Or : Word := 0b110
def f3And : Word := 0b111

/-! ## funct7 and funct12 -/

def f7Base : Word := 0b0000000
def f7Alt : Word := 0b0100000

def f12Ecall : Word := 0b000000000000
def f12Ebreak : Word := 0b000000000001

/-! ## Fixed fields -/

def opcode (w : Word) : Word := w &&& 0x7f
def funct3 (w : Word) : Word := (w >>> 12) &&& 0x07
def funct7 (w : Word) : Word := (w >>> 25) &&& 0x7f
def funct12 (w : Word) : Word := w >>> 20

/-- `enc::rd`, narrowed to the register number it is. -/
def rdField (w : Word) : RegIdx := ((w >>> 7) &&& 0x1f).setWidth 5

/-- `enc::rs1`: bits 19:15. -/
def rs1Field (w : Word) : RegIdx := ((w >>> 15) &&& 0x1f).setWidth 5

/-- `enc::rs2`: bits 24:20. -/
def rs2Field (w : Word) : RegIdx := ((w >>> 20) &&& 0x1f).setWidth 5

/-! ## Immediates -/

/-- `enc::sext`: sign extension of the low `bits` bits by xor and subtract. -/
def sext (val : Word) (bits : Nat) : Word :=
  let sign : Word := 1 <<< (bits - 1)
  (val ^^^ sign) - sign

def immI (w : Word) : Word := sext (w >>> 20) 12

def immS (w : Word) : Word :=
  sext (((w >>> 25) <<< 5) ||| ((w >>> 7) &&& 0x1f)) 12

def immB (w : Word) : Word :=
  sext (((w >>> 31) <<< 12) ||| (((w >>> 7) &&& 0x1) <<< 11) |||
    (((w >>> 25) &&& 0x3f) <<< 5) ||| (((w >>> 8) &&& 0xf) <<< 1)) 13

def immU (w : Word) : Word := w &&& 0xfffff000

def immJ (w : Word) : Word :=
  sext (((w >>> 31) <<< 20) ||| (((w >>> 12) &&& 0xff) <<< 12) |||
    (((w >>> 20) &&& 0x1) <<< 11) ||| (((w >>> 21) &&& 0x3ff) <<< 1)) 21

end Rv32i

end CpuSim
