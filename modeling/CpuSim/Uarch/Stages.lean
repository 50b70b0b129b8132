import CpuSim.RegFile
import CpuSim.Memory.Interface
import CpuSim.Uarch.Alu
import CpuSim.Uarch.BranchPredictor
import CpuSim.Uarch.PipeRegs

/-!
# Combinational logic of the stages

What the `evaluate()` methods of `uarch/pipeline/*.cpp` and `uarch/hazard.cpp` compute from the
registers they read. The state around it (shadow registers and the flags one stage sets on
another) is in `CpuSim.Sim.Core`.
-/

namespace CpuSim

open Rv32i

/-! ## Op classes -/

/-- `is_cond_branch`. -/
def isCondBranch : Op → Bool
  | .beq | .bne | .blt | .bge | .bltu | .bgeu => true
  | _ => false

/-- `HazardUnit::is_load`. -/
def isLoad : Op → Bool
  | .lb | .lh | .lw | .lbu | .lhu => true
  | _ => false

/-- `is_store` of `mem_access.cpp`. -/
def isStore : Op → Bool
  | .sb | .sh | .sw => true
  | _ => false

/-- `is_mem_op` of `mem_access.cpp`. -/
def isMemOp : Op → Bool
  | .lb | .lh | .lw | .lbu | .lhu => true
  | op => isStore op

/-- `WritebackStage::has_writeback`. -/
def hasWriteback : Op → Bool
  | .sb | .sh | .sw | .beq | .bne | .blt | .bge | .bltu | .bgeu | .ecall | .ebreak | .fence
  | .illegal => false
  | _ => true

/-- The ops `ExecuteStage::evaluate` feeds from rs2 instead of the immediate. -/
def usesImm : Op → Bool
  | .add | .sub | .and | .or | .xor | .sll | .srl | .sra | .slt | .sltu => false
  | _ => true

/-- The two ops `Core::tick` halts on. -/
def isHalting : Op → Bool
  | .ebreak | .illegal => true
  | _ => false

/-! ## IF -/

variable {M : Type} [IMemory M]

/-- `bp_->predict(pc_)` when a predictor is attached, otherwise not-taken. -/
def predictAt (bp : Option BranchPredictor) (pc : Word) : Prediction :=
  match bp with
  | none => {}
  | some bp => bp.predict pc

/-- What one evaluation of IF produces. -/
structure FetchOut (M : Type) where
  imem : M
  out : IfId
  fetchStall : Bool
  predictedPc : Word

/-- `FetchStage::evaluate`: ask the instruction memory, load the word on the served cycle and
    predict the next pc. -/
def fetchWord (imem : M) (bp : Option BranchPredictor) (pc : Word) : Option (FetchOut M) :=
  let r := IMemory.ready imem pc false
  if !r.1 then
    some { imem := r.2, out := {}, fetchStall := true, predictedPc := pc }
  else do
    let raw ← IMemory.loadWord r.2 pc
    let p := predictAt bp pc
    some
      { imem := r.2
        out := { pc := pc, raw := raw, valid := true, predictedTaken := p.taken }
        fetchStall := false
        predictedPc := if p.taken then p.target else pc + 4 }

/-! ## ID -/

/-- `DecodeStage::evaluate`. -/
def decodeInsn (rf : RegFile) (fetch : IfId) : IdEx :=
  if !fetch.valid then {}
  else
    let insn := decode fetch.raw fetch.pc
    { pc := fetch.pc, raw := fetch.raw, op := insn.op, rd := insn.rd, rs1 := insn.rs1,
      rs2 := insn.rs2, imm := insn.imm, rs1Val := rf.read insn.rs1, rs2Val := rf.read insn.rs2,
      valid := true, predictedTaken := fetch.predictedTaken }

/-! ## Forwarding and the load-use hazard -/

/-- `ForwardUnit::resolve`. -/
def resolve (ex : ExMem) (wb prev : MemWb) (reg : RegIdx) (cur : Word) : Word :=
  if reg = 0#5 then 0
  else if ex.valid && ex.rd == reg then ex.aluOut
  else if wb.valid && wb.rd == reg then wb.wbVal
  else if prev.valid && prev.rd == reg then prev.wbVal
  else cur

/-- `HazardUnit::evaluate`: the raw register fields of the word in ID against the load in EX. -/
def loadUseHazard (ex : IdEx) (fe : IfId) : Bool :=
  ex.valid && isLoad ex.op && ex.rd != 0#5 &&
    (ex.rd == rs1Field fe.raw || ex.rd == rs2Field fe.raw)

/-! ## EX -/

/-- The members `ExecuteStage::evaluate` sets for `latch()`, with the EX/MEM entry. -/
structure ExecOut where
  out : ExMem := {}
  redirect : Bool := false
  redirectTarget : Word := 0
  control : Bool := false
  trainable : Bool := false
  trainCond : Bool := false

/-- `ExecuteStage::evaluate` on a valid instruction with its resolved operands. -/
def executeInsn (id : IdEx) (rs1 rs2 : Word) : ExecOut :=
  let a := if id.op = .auipc then id.pc else rs1
  let b := if usesImm id.op then id.imm else rs2
  let isJal := id.op == .jal
  let isJalr := id.op == .jalr
  let cond := isCondBranch id.op
  let aluOut := if isJal || isJalr then id.pc + 4 else aluExec (aluOpFor id.op) a b
  let actualTaken := if isJal || isJalr then true else branchTaken id.op rs1 rs2
  let target := if isJalr then (rs1 + id.imm) &&& ~~~1#32 else id.pc + id.imm
  { out :=
      { pc := id.pc, raw := id.raw, op := id.op, rd := id.rd, aluOut := aluOut, rs2Val := rs2,
        branchTaken := actualTaken, branchTarget := target, valid := true }
    redirect := actualTaken != id.predictedTaken
    redirectTarget := if actualTaken then target else id.pc + 4
    control := cond || isJal || isJalr
    trainable := cond || isJal
    trainCond := cond }

/-! ## MEM -/

/-- The switch of `MemAccessStage::evaluate`, on the cycle the access is served. -/
def accessData (dmem : M) (ex : ExMem) : Option (M × MemWb) :=
  let addr := ex.aluOut
  let wb : MemWb := { pc := ex.pc, raw := ex.raw, op := ex.op, rd := ex.rd, valid := true }
  match ex.op with
  | .lw => do
    let v ← IMemory.loadWord dmem addr
    some (dmem, { wb with wbVal := v, memAddr := addr })
  | .lh => do
    let v ← IMemory.loadHalf dmem addr
    some (dmem, { wb with wbVal := v.signExtend 32, memAddr := addr })
  | .lhu => do
    let v ← IMemory.loadHalf dmem addr
    some (dmem, { wb with wbVal := v.setWidth 32, memAddr := addr })
  | .lb => do
    let v ← IMemory.loadByte dmem addr
    some (dmem, { wb with wbVal := v.signExtend 32, memAddr := addr })
  | .lbu => do
    let v ← IMemory.loadByte dmem addr
    some (dmem, { wb with wbVal := v.setWidth 32, memAddr := addr })
  | .sw => do
    let val := ex.rs2Val
    let dmem ← IMemory.storeWord dmem addr val
    some (dmem, { wb with isStore := true, memAddr := addr, memVal := val })
  | .sh => do
    let val := ex.rs2Val &&& 0xFFFF
    let dmem ← IMemory.storeHalf dmem addr (val.setWidth 16)
    some (dmem, { wb with isStore := true, memAddr := addr, memVal := val })
  | .sb => do
    let val := ex.rs2Val &&& 0xFF
    let dmem ← IMemory.storeByte dmem addr (val.setWidth 8)
    some (dmem, { wb with isStore := true, memAddr := addr, memVal := val })
  | _ => some (dmem, { wb with wbVal := ex.aluOut })

/-- What one evaluation of MEM produces. -/
structure MemOut (M : Type) where
  dmem : M
  out : MemWb
  stalling : Bool

/-- `MemAccessStage::evaluate`. -/
def accessMem (dmem : M) (ex : ExMem) : Option (MemOut M) :=
  if !ex.valid then some { dmem := dmem, out := {}, stalling := false }
  else if isMemOp ex.op then
    let r := IMemory.ready dmem ex.aluOut (isStore ex.op)
    if !r.1 then some { dmem := r.2, out := {}, stalling := true }
    else (accessData r.2 ex).map fun o => { dmem := o.1, out := o.2, stalling := false }
  else (accessData dmem ex).map fun o => { dmem := o.1, out := o.2, stalling := false }

/-! ## WB -/

/-- `WritebackStage`: the register write of the instruction at the MEM/WB input. -/
def writesBack (wb : MemWb) : Bool := wb.valid && hasWriteback wb.op

end CpuSim
