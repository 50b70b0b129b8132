import CpuSim.Isa.Encoding

/-!
# The decoder

`isa/rv32i/decoder.cpp`. Every opcode starts from an `illegal` instruction that already
carries the raw register fields, and each arm overrides what its format defines. A rejected
word therefore leaves with `op = illegal` and whatever fields its arm had set by then.
-/

namespace CpuSim.Rv32i

/-- `rv32i::Op`. -/
inductive Op where
  | add | sub | sll | srl | sra | slt | sltu | and | or | xor
  | addi | slli | srli | srai | slti | sltiu | andi | ori | xori
  | lb | lh | lw | lbu | lhu
  | sb | sh | sw
  | beq | bne | blt | bge | bltu | bgeu
  | jal | jalr
  | lui | auipc
  | ecall | ebreak | fence
  | illegal
  deriving DecidableEq, Repr

/-- `rv32i::Instruction`. -/
structure Instruction where
  raw : Word
  pc : Word
  op : Op
  rd : RegIdx
  rs1 : RegIdx
  rs2 : RegIdx
  imm : Word
  deriving DecidableEq, Repr

def branchOp (f3 : Word) : Op :=
  if f3 = f3Beq then .beq
  else if f3 = f3Bne then .bne
  else if f3 = f3Blt then .blt
  else if f3 = f3Bge then .bge
  else if f3 = f3Bltu then .bltu
  else if f3 = f3Bgeu then .bgeu
  else .illegal

def loadOp (f3 : Word) : Op :=
  if f3 = f3Lb then .lb
  else if f3 = f3Lh then .lh
  else if f3 = f3Lw then .lw
  else if f3 = f3Lbu then .lbu
  else if f3 = f3Lhu then .lhu
  else .illegal

def storeOp (f3 : Word) : Op :=
  if f3 = f3Sb then .sb
  else if f3 = f3Sh then .sh
  else if f3 = f3Sw then .sw
  else .illegal

/-- The `OPC_OP` switch: `funct7` must be one of the two patterns the operation has. -/
def regOp (f3 f7 : Word) : Op :=
  if f3 = f3AddSub then
    if f7 = f7Base then .add else if f7 = f7Alt then .sub else .illegal
  else if f3 = f3Sll then if f7 = f7Base then .sll else .illegal
  else if f3 = f3Slt then if f7 = f7Base then .slt else .illegal
  else if f3 = f3Sltu then if f7 = f7Base then .sltu else .illegal
  else if f3 = f3Xor then if f7 = f7Base then .xor else .illegal
  else if f3 = f3SrlSra then
    if f7 = f7Base then .srl else if f7 = f7Alt then .sra else .illegal
  else if f3 = f3Or then if f7 = f7Base then .or else .illegal
  else if f3 = f3And then if f7 = f7Base then .and else .illegal
  else .illegal

/-- The `OPC_OP_IMM` switch. Only the shifts look at `funct7`. -/
def immOp (f3 f7 : Word) : Op :=
  if f3 = f3AddSub then .addi
  else if f3 = f3Slt then .slti
  else if f3 = f3Sltu then .sltiu
  else if f3 = f3Xor then .xori
  else if f3 = f3Or then .ori
  else if f3 = f3And then .andi
  else if f3 = f3Sll then if f7 = f7Base then .slli else .illegal
  else if f3 = f3SrlSra then
    if f7 = f7Base then .srli else if f7 = f7Alt then .srai else .illegal
  else .illegal

/-- The shifts take only the low five bits of the I-immediate. -/
def immShift : Op → Bool
  | .slli | .srli | .srai => true
  | _ => false

def systemOp (f12 : Word) : Op :=
  if f12 = f12Ecall then .ecall
  else if f12 = f12Ebreak then .ebreak
  else .illegal

/-- `rv32i::decode`. -/
def decode (raw pc : Word) : Instruction :=
  let f3 := funct3 raw
  let f7 := funct7 raw
  let insn : Instruction :=
    { raw := raw, pc := pc, op := .illegal, rd := rdField raw, rs1 := rs1Field raw,
      rs2 := rs2Field raw, imm := 0 }
  if opcode raw = opcLui then
    { insn with op := .lui, imm := immU raw, rs1 := 0, rs2 := 0 }
  else if opcode raw = opcAuipc then
    { insn with op := .auipc, imm := immU raw, rs1 := 0, rs2 := 0 }
  else if opcode raw = opcJal then
    { insn with op := .jal, imm := immJ raw, rs1 := 0, rs2 := 0 }
  else if opcode raw = opcJalr then
    if f3 ≠ 0 then insn
    else { insn with op := .jalr, imm := immI raw, rs2 := 0 }
  else if opcode raw = opcBranch then
    { insn with op := branchOp f3, imm := immB raw, rd := 0 }
  else if opcode raw = opcLoad then
    { insn with op := loadOp f3, imm := immI raw, rs2 := 0 }
  else if opcode raw = opcStore then
    { insn with op := storeOp f3, imm := immS raw, rd := 0 }
  else if opcode raw = opcOpImm then
    { insn with
      op := immOp f3 f7
      imm := if immShift (immOp f3 f7) then immI raw &&& 0x1f else immI raw
      rs2 := 0 }
  else if opcode raw = opcOp then
    { insn with op := regOp f3 f7, imm := 0 }
  else if opcode raw = opcMiscMem then
    if f3 ≠ 0 then insn
    else { insn with op := .fence, rd := 0, rs1 := 0, rs2 := 0, imm := 0 }
  else if opcode raw = opcSystem then
    if f3 ≠ 0 then insn
    else { insn with op := systemOp (funct12 raw), rd := 0, rs1 := 0, rs2 := 0, imm := 0 }
  else insn

theorem decode_raw (w pc : Word) : (decode w pc).raw = w := by
  unfold decode
  simp only [apply_ite Instruction.raw, ite_self]

theorem decode_pc (w pc : Word) : (decode w pc).pc = pc := by
  unfold decode
  simp only [apply_ite Instruction.pc, ite_self]

end CpuSim.Rv32i
