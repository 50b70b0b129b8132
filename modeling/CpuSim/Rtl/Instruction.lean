import CpuSim.Sim.Ports

/-!
# One instruction through the pipeline

What each stage computes for an instruction whose inputs are those of the sequential machine:
EX resolves the branch and the address, MEM the value and the store, and the MEM/WB entry that
results commits what the machine commits.
-/

namespace CpuSim

open Rv32i Machine

/-! ## Decoded fields -/

theorem hasWriteback_loadOp (f3 : Word) (h : loadOp f3 ≠ .illegal) :
    hasWriteback (loadOp f3) = true := by
  revert h; unfold loadOp; repeat' split
  all_goals simp [hasWriteback]

theorem hasWriteback_immOp (f3 f7 : Word) (h : immOp f3 f7 ≠ .illegal) :
    hasWriteback (immOp f3 f7) = true := by
  revert h; unfold immOp; repeat' split
  all_goals simp [hasWriteback]

theorem hasWriteback_regOp (f3 f7 : Word) (h : regOp f3 f7 ≠ .illegal) :
    hasWriteback (regOp f3 f7) = true := by
  revert h; unfold regOp; repeat' split
  all_goals simp [hasWriteback]

/-- What holds of every instruction the decoder returns: its source fields are the raw ones or
    x0, and without a result it names no destination unless it is illegal. -/
structure Decoded (raw : Word) (i : Instruction) : Prop where
  rs1 : i.rs1 = rs1Field raw ∨ i.rs1 = 0#5
  rs2 : i.rs2 = rs2Field raw ∨ i.rs2 = 0#5
  rd : hasWriteback i.op = false → i.op ≠ .illegal → i.rd = 0#5

theorem decode_decoded (raw pc : Word) : Decoded raw (decode raw pc) := by
  unfold decode
  dsimp only
  repeat' refine iteInduction (motive := Decoded raw) (fun _ => ?_) (fun _ => ?_)
  all_goals
    refine ⟨?_, ?_, fun h hi => ?_⟩
    · first | exact .inl rfl | exact .inr rfl
    · first | exact .inl rfl | exact .inr rfl
    · first
        | rfl
        | exact absurd rfl hi
        | simp [hasWriteback] at h; done
        | exact absurd (hasWriteback_loadOp _ hi) (by simp [h])
        | exact absurd (hasWriteback_immOp _ _ hi) (by simp [h])
        | exact absurd (hasWriteback_regOp _ _ hi) (by simp [h])

/-- ID's output for a valid fetch. -/
structure IdEx.Holds (id : IdEx) (i : Instruction) : Prop where
  pc : id.pc = i.pc
  raw : id.raw = i.raw
  op : id.op = i.op
  rd : id.rd = i.rd
  rs1 : id.rs1 = i.rs1
  rs2 : id.rs2 = i.rs2
  imm : id.imm = i.imm

theorem decodeInsn_holds (rf : RegFile) {fe : IfId} (h : fe.valid = true) :
    (decodeInsn rf fe).Holds (decode fe.raw fe.pc) := by
  have hd : decodeInsn rf fe =
      { pc := fe.pc, raw := fe.raw, op := (decode fe.raw fe.pc).op,
        rd := (decode fe.raw fe.pc).rd, rs1 := (decode fe.raw fe.pc).rs1,
        rs2 := (decode fe.raw fe.pc).rs2, imm := (decode fe.raw fe.pc).imm,
        rs1Val := rf.read (decode fe.raw fe.pc).rs1, rs2Val := rf.read (decode fe.raw fe.pc).rs2,
        valid := true, predictedTaken := fe.predictedTaken } := by
    simp [decodeInsn, h]
  rw [hd]
  exact ⟨(decode_pc _ _).symm, (decode_raw _ _).symm, rfl, rfl, rfl, rfl, rfl⟩

/-! ## EX -/

theorem toNat_and_31 (b : Word) : b.toNat &&& 31 = b.toNat % 32 :=
  Nat.and_two_pow_sub_one_eq_mod b.toNat 5

section Execute

variable {s : Machine} {i : Instruction} {id : IdEx}

/-- EX on the operands the sequential machine reads. -/
def executeAt (s : Machine) (id : IdEx) : ExecOut :=
  executeInsn id (s.regs.read id.rs1) (s.regs.read id.rs2)

theorem branchTaken_eq (hb : i.op ≠ .jal ∧ i.op ≠ .jalr) :
    branchTaken i.op (s.regs.read i.rs1) (s.regs.read i.rs2) = s.taken i := by
  unfold branchTaken taken
  cases hop : i.op <;> simp_all [BitVec.slt, BitVec.ult, BitVec.sle, BitVec.ule] <;> rfl

theorem executeAt_branchTaken (h : id.Holds i) :
    (executeAt s id).out.branchTaken = s.taken i := by
  unfold executeAt executeInsn
  dsimp only
  rw [h.op, h.rs1, h.rs2]
  by_cases hj : i.op = .jal ∨ i.op = .jalr
  · rcases hj with hj | hj <;> simp [hj, taken]
  · rw [not_or] at hj
    simp [hj, branchTaken_eq hj]

theorem executeAt_branchTarget (h : id.Holds i) :
    (executeAt s id).out.branchTarget = s.target i := by
  unfold executeAt executeInsn target
  dsimp only
  rw [h.op, h.rs1, h.imm, h.pc]
  by_cases hj : i.op = .jalr <;> simp [hj]

theorem executeAt_redirect (h : id.Holds i) :
    (executeAt s id).redirect = (s.taken i != id.predictedTaken) := by
  rw [← executeAt_branchTaken h]; rfl

theorem executeAt_redirectTarget (h : id.Holds i) :
    (executeAt s id).redirectTarget = s.nextPc i := by
  unfold nextPc
  rw [← executeAt_branchTaken h, ← executeAt_branchTarget h, ← h.pc]; rfl

/-- The ALU computes the effective address of a load or store. -/
theorem executeAt_aluOut_of_mem (h : id.Holds i) (hm : isMemOp i.op = true) :
    (executeAt s id).out.aluOut = s.effAddr i := by
  unfold executeAt executeInsn effAddr
  dsimp only
  rw [h.op, h.rs1, h.rs2, h.imm, h.pc]
  cases hop : i.op <;>
    simp_all [isMemOp, isStore, usesImm, aluOpFor, aluExec]

/-- The ALU computes the result of every other instruction that has one. -/
theorem executeAt_aluOut (h : id.Holds i) (hm : isMemOp i.op = false) {v : Word}
    (hv : s.result i = some v) : (executeAt s id).out.aluOut = v := by
  unfold executeAt executeInsn
  dsimp only
  rw [h.op, h.rs1, h.rs2, h.imm, h.pc]
  unfold result at hv
  cases hop : i.op <;>
    simp_all [isMemOp, isStore, usesImm, aluOpFor, aluExec, BitVec.slt, BitVec.ult, toNat_and_31]

/-- An instruction that stops the core passes EX with the sum of its operand and its
    immediate. -/
theorem executeAt_aluOut_of_halting (h : id.Holds i) (hh : isHalting i.op = true) :
    (executeAt s id).out.aluOut = s.effAddr i := by
  unfold executeAt executeInsn effAddr
  dsimp only
  rw [h.op, h.rs1, h.rs2, h.imm, h.pc]
  cases hop : i.op <;> simp_all [isHalting, usesImm, aluOpFor, aluExec]

end Execute

/-! ## MEM and WB -/

theorem halts_eq (code : ByteMap) (s : Machine) : s.halts code = isHalting (s.insn code).op := by
  unfold halts isHalting
  cases (s.insn code).op <;> simp

theorem result_isSome (s : Machine) (i : Instruction) :
    (s.result i).isSome = hasWriteback i.op := by
  unfold result hasWriteback
  cases i.op <;> rfl

/-- The store of a MEM/WB entry. -/
def MemWb.store (wb : MemWb) : Option StoreEffect :=
  if wb.isStore then some ⟨wb.memAddr, accessWidth wb.op, wb.memVal⟩ else none

/-- What retiring a MEM/WB entry commits. -/
def MemWb.commit (wb : MemWb) : Commit :=
  { pc := wb.pc
    raw := wb.raw
    op := wb.op
    reg := if writesBack wb && wb.rd != 0#5 then some (wb.rd, wb.wbVal) else none
    store := wb.store }

/-- EX/MEM holds the instruction the machine is at, executed on the machine's operands. -/
structure ExMem.Holds (ex : ExMem) (code : ByteMap) (s : Machine) : Prop where
  pc : ex.pc = s.pc
  raw : ex.raw = wordAt code s.pc
  op : ex.op = (s.insn code).op
  rd : ex.rd = (s.insn code).rd
  addr : isMemOp ex.op = true → ex.aluOut = s.effAddr (s.insn code)
  val : isMemOp ex.op = false → ∀ v, s.result (s.insn code) = some v → ex.aluOut = v
  rs2Val : ex.rs2Val = s.regs.read (s.insn code).rs2

/-- MEM/WB holds the instruction the machine is at, with its result and its store. -/
structure MemWb.Holds (wb : MemWb) (code : ByteMap) (s : Machine) : Prop where
  pc : wb.pc = s.pc
  raw : wb.raw = wordAt code s.pc
  op : wb.op = (s.insn code).op
  rd : wb.rd = (s.insn code).rd
  val : ∀ v, s.result (s.insn code) = some v → wb.wbVal = v
  store : wb.store = s.store (s.insn code)

section Retire

variable {code : ByteMap} {s : Machine} {ex : ExMem} {wb : MemWb} {id : IdEx}

/-- EX fills EX/MEM with the instruction the machine is at. -/
theorem executeAt_holds (h : id.Holds (s.insn code)) :
    (executeAt s id).out.Holds code s where
  pc := h.pc.trans (decode_pc _ _)
  raw := h.raw.trans (decode_raw _ _)
  op := h.op
  rd := h.rd
  addr hm := executeAt_aluOut_of_mem h (by rw [← h.op]; exact hm)
  val hm _ hv := executeAt_aluOut h (by rw [← h.op]; exact hm) hv
  rs2Val := congrArg s.regs.read h.rs2

theorem ExMem.Holds.store_eq (h : ex.Holds code s) : ex.store = s.store (s.insn code) := by
  have hop := h.op
  have haddr := h.addr
  unfold ExMem.store Machine.store
  rw [h.rs2Val, ← hop]
  cases he : ex.op <;> simp only [he, isMemOp, isStore, true_implies] at haddr ⊢
  all_goals rw [haddr]

theorem ofNat_readLE (n w : Nat) (m : ByteMap) (a : Nat) (h : 256 ^ n = 2 ^ w) (hw : w ≤ 32) :
    (BitVec.ofNat w (ByteMap.readLE m a n)).setWidth 32 =
      BitVec.ofNat 32 (ByteMap.readLE m a n) := by
  have hlt : ByteMap.readLE m a n < 2 ^ w := h ▸ ByteMap.readLE_lt m a n
  have h32 : 2 ^ w ≤ 2 ^ 32 := Nat.pow_le_pow_right (by omega) hw
  apply BitVec.eq_of_toNat_eq
  simp only [BitVec.toNat_setWidth, BitVec.toNat_ofNat, Nat.mod_eq_of_lt hlt]

theorem ExMem.Holds.wbVal_eq (h : ex.Holds code s) {v : Word}
    (hv : s.result (s.insn code) = some v) : ex.wbVal s.mem = v := by
  have hop := h.op
  have haddr := h.addr
  have hval := fun hm => h.val hm v hv
  unfold Machine.result at hv
  rw [← hop] at hv
  unfold ExMem.wbVal
  cases he : ex.op <;> simp only [he, isMemOp, isStore, true_implies, Bool.true_eq_false,
    Bool.false_eq_true, false_implies, Option.some.injEq, reduceCtorEq] at haddr hval hv ⊢
  case lw | lh | lb => rw [haddr]; exact hv
  case lhu => rw [haddr, ← hv]; exact ofNat_readLE 2 16 _ _ rfl (by omega)
  case lbu => rw [haddr, ← hv]; exact ofNat_readLE 1 8 _ _ rfl (by omega)
  all_goals exact hval

/-- MEM turns a correct EX/MEM entry into a correct MEM/WB entry. -/
theorem ExMem.Holds.memWb (h : ex.Holds code s) : (ex.memWb s.mem).Holds code s where
  pc := h.pc
  raw := h.raw
  op := h.op
  rd := h.rd
  val _ hv := h.wbVal_eq hv
  store := by
    rw [← h.store_eq]
    unfold MemWb.store ExMem.memWb ExMem.store
    cases ex.op <;> rfl

theorem insn_rd_of_no_result (hr : s.result (s.insn code) = none) (hl : s.halts code = false) :
    (s.insn code).rd = 0#5 := by
  have hw : hasWriteback (s.insn code).op = false := by rw [← result_isSome s, hr]; rfl
  refine (decode_decoded _ _).rd hw ?_
  intro hi
  rw [halts_eq, show (s.insn code).op = .illegal from hi] at hl
  cases hl

/-- WB writes a register back exactly when the instruction has a result. -/
theorem MemWb.Holds.writesBack_eq (h : wb.Holds code s) (hv : wb.valid = true) :
    writesBack wb = (s.result (s.insn code)).isSome := by
  rw [result_isSome, ← h.op, writesBack, hv, Bool.true_and]

/-- A retired entry commits what the machine commits. -/
theorem MemWb.Holds.commit_eq (h : wb.Holds code s) (hv : wb.valid = true) :
    wb.commit = s.commit code := by
  have hw := h.writesBack_eq hv
  unfold MemWb.commit Machine.commit
  rw [h.pc, h.raw, h.op, h.store, hw, h.rd]
  dsimp only
  cases hr : s.result (s.insn code) with
  | none => rfl
  | some v =>
    rw [h.val v hr]
    by_cases h0 : (s.insn code).rd = 0#5 <;> simp [h0]

/-- Write-back makes the register file the machine's next one. -/
theorem MemWb.Holds.write_back (h : wb.Holds code s) (hv : wb.valid = true) :
    (if writesBack wb then s.regs.write wb.rd wb.wbVal else s.regs) = (s.step code).regs := by
  have hw := h.writesBack_eq hv
  cases hl : s.halts code with
  | true =>
    rw [step_of_halts hl]
    rw [halts_eq] at hl
    rw [hw, result_isSome]
    cases hop : (s.insn code).op <;> simp [hop, isHalting] at hl <;> rfl
  | false =>
    rw [step_of_runs hl]
    unfold regsAfter
    cases hr : s.result (s.insn code) with
    | none => rw [hw, hr]; rfl
    | some v => rw [hw, hr, h.rd, h.val v hr]; rfl

/-- A register after the instruction in MEM/WB: its result, or what it was. -/
theorem MemWb.Holds.read_step (h : wb.Holds code s) (hl : s.halts code = false) {r : RegIdx}
    (hr : r ≠ 0#5) :
    (s.step code).regs.read r = if wb.rd = r then wb.wbVal else s.regs.read r := by
  rw [step_of_runs hl, h.rd]
  unfold regsAfter
  cases hres : s.result (s.insn code) with
  | none => rw [insn_rd_of_no_result hres hl, if_neg (Ne.symm hr)]
  | some v =>
    rw [h.val v hres, RegFile.read_write]
    by_cases hrd : (s.insn code).rd = r
    · subst hrd; simp [hr]
    · simp [hrd, Ne.symm hrd]

/-- The same one stage earlier, for every register that is not the destination of a load. -/
theorem ExMem.Holds.read_step (h : ex.Holds code s) (hl : s.halts code = false) {r : RegIdx}
    (hr : r ≠ 0#5) (hload : isLoad ex.op = true → ex.rd ≠ r) :
    (s.step code).regs.read r = if ex.rd = r then ex.aluOut else s.regs.read r := by
  have hwb := h.memWb.read_step hl hr
  rw [hwb]
  change (if ex.rd = r then ex.wbVal s.mem else s.regs.read r) = _
  by_cases hrd : ex.rd = r
  · have hnl : isLoad ex.op = false := by
      cases hc : isLoad ex.op with
      | true => exact absurd hrd (hload hc)
      | false => rfl
    have hns : isStore ex.op = false := by
      cases hc : isStore ex.op with
      | false => rfl
      | true =>
        have hres : s.result (s.insn code) = none := by
          rw [← Option.not_isSome_iff_eq_none, result_isSome, ← h.op]
          cases hop : ex.op <;> simp [hop, isStore] at hc <;> simp [hasWriteback]
        rw [h.rd, insn_rd_of_no_result hres hl] at hrd
        exact absurd hrd.symm hr
    have hval : ex.wbVal s.mem = ex.aluOut := by
      unfold ExMem.wbVal
      cases hop : ex.op <;> simp [hop, isLoad, isStore] at hnl hns <;> rfl
    rw [hval]
  · simp [hrd]

/-- The store of a correct EX/MEM entry makes the memory the machine's next one. -/
theorem ExMem.Holds.mem_step (h : ex.Holds code s) :
    applyStore s.mem ex.store = (s.step code).mem := by
  rw [h.store_eq]
  cases hl : s.halts code with
  | false => rw [step_of_runs hl]; rfl
  | true =>
    rw [step_of_halts hl]
    rw [halts_eq] at hl
    unfold Machine.store
    cases hop : (s.insn code).op <;> simp [hop, isHalting] at hl <;> rfl

end Retire

end CpuSim
