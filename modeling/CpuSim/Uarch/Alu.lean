import CpuSim.Isa.Decoder

/-!
# ALU and branch comparator

`uarch/alu.cpp`: the two combinational units of the EX stage.
-/

namespace CpuSim

open Rv32i

/-- `AluOp`. -/
inductive AluOp where
  | add | sub | and | or | xor | sll | srl | sra | slt | sltu | passB
  deriving DecidableEq, Repr

/-- `alu_exec`. -/
def aluExec (op : AluOp) (a b : Word) : Word :=
  match op with
  | .add => a + b
  | .sub => a - b
  | .and => a &&& b
  | .or => a ||| b
  | .xor => a ^^^ b
  | .sll => a <<< (b &&& 0x1f).toNat
  | .srl => a >>> (b &&& 0x1f).toNat
  | .sra => a.sshiftRight (b &&& 0x1f).toNat
  | .slt => if a.slt b then 1 else 0
  | .sltu => if a.ult b then 1 else 0
  | .passB => b

/-- `alu_op_for`. -/
def aluOpFor : Op → AluOp
  | .add | .addi => .add
  | .sub => .sub
  | .and | .andi => .and
  | .or | .ori => .or
  | .xor | .xori => .xor
  | .sll | .slli => .sll
  | .srl | .srli => .srl
  | .sra | .srai => .sra
  | .slt | .slti => .slt
  | .sltu | .sltiu => .sltu
  | .lui => .passB
  | _ => .add

/-- `branch_taken`: false for any op that is not a conditional branch. -/
def branchTaken (op : Op) (rs1 rs2 : Word) : Bool :=
  match op with
  | .beq => rs1 == rs2
  | .bne => rs1 != rs2
  | .blt => rs1.slt rs2
  | .bge => rs2.sle rs1
  | .bltu => rs1.ult rs2
  | .bgeu => rs2.ule rs1
  | _ => false

end CpuSim
