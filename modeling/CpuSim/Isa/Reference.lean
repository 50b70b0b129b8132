import CpuSim.Base.ByteMap
import CpuSim.Isa.Decoder
import CpuSim.RegFile

/-!
# The sequential machine

RV32I with one instruction per step, written from the instruction set and not from the
pipeline: its arithmetic, its branches and its memory accesses do not go through the ALU,
the comparator or the MEM stage of the source. Only the decoder is shared. ECALL and FENCE do
nothing, misaligned accesses are served, and the machine stops at EBREAK and at an illegal
word.
-/

namespace CpuSim

open Rv32i ByteMap

/-- Architectural state. -/
structure Machine where
  pc : Word
  regs : RegFile
  mem : ByteMap

/-- A store: where, how many bytes, and the bytes as a number. -/
structure StoreEffect where
  addr : Word
  width : Nat
  val : Word
  deriving DecidableEq, Repr

/-- The memory after a store, if there is one. -/
def applyStore (mem : ByteMap) : Option StoreEffect → ByteMap
  | some st => writeLE mem st.addr.toNat st.width st.val.toNat
  | none => mem

/-- What an executed instruction did, as an observer of the architectural state sees it. -/
structure Commit where
  pc : Word
  raw : Word
  op : Op
  reg : Option (RegIdx × Word)
  store : Option StoreEffect
  deriving DecidableEq, Repr

/-- How many bytes a load or store touches. -/
def accessWidth : Op → Nat
  | .lb | .lbu | .sb => 1
  | .lh | .lhu | .sh => 2
  | .lw | .sw => 4
  | _ => 0

namespace Machine

/-! ## One instruction -/

/-- The effective address of a load or store. -/
def effAddr (s : Machine) (i : Instruction) : Word := s.regs.read i.rs1 + i.imm

/-- The value an instruction produces for `rd`. -/
def result (s : Machine) (i : Instruction) : Option Word :=
  let a := s.regs.read i.rs1
  let b := s.regs.read i.rs2
  let bytesAt := readLE s.mem (s.effAddr i).toNat
  match i.op with
  | .add => some (a + b)
  | .sub => some (a - b)
  | .and => some (a &&& b)
  | .or => some (a ||| b)
  | .xor => some (a ^^^ b)
  | .sll => some (a <<< (b.toNat % 32))
  | .srl => some (a >>> (b.toNat % 32))
  | .sra => some (a.sshiftRight (b.toNat % 32))
  | .slt => some (if a.toInt < b.toInt then 1 else 0)
  | .sltu => some (if a.toNat < b.toNat then 1 else 0)
  | .addi => some (a + i.imm)
  | .andi => some (a &&& i.imm)
  | .ori => some (a ||| i.imm)
  | .xori => some (a ^^^ i.imm)
  | .slli => some (a <<< (i.imm.toNat % 32))
  | .srli => some (a >>> (i.imm.toNat % 32))
  | .srai => some (a.sshiftRight (i.imm.toNat % 32))
  | .slti => some (if a.toInt < i.imm.toInt then 1 else 0)
  | .sltiu => some (if a.toNat < i.imm.toNat then 1 else 0)
  | .lb => some ((BitVec.ofNat 8 (bytesAt 1)).signExtend 32)
  | .lh => some ((BitVec.ofNat 16 (bytesAt 2)).signExtend 32)
  | .lw => some (BitVec.ofNat 32 (bytesAt 4))
  | .lbu => some (BitVec.ofNat 32 (bytesAt 1))
  | .lhu => some (BitVec.ofNat 32 (bytesAt 2))
  | .jal | .jalr => some (i.pc + 4)
  | .lui => some i.imm
  | .auipc => some (i.pc + i.imm)
  | .sb | .sh | .sw | .beq | .bne | .blt | .bge | .bltu | .bgeu | .ecall | .ebreak | .fence
  | .illegal => none

/-- Whether control leaves the straight line. -/
def taken (s : Machine) (i : Instruction) : Bool :=
  let a := s.regs.read i.rs1
  let b := s.regs.read i.rs2
  match i.op with
  | .beq => a = b
  | .bne => a ≠ b
  | .blt => a.toInt < b.toInt
  | .bge => b.toInt ≤ a.toInt
  | .bltu => a.toNat < b.toNat
  | .bgeu => b.toNat ≤ a.toNat
  | .jal | .jalr => true
  | _ => false

/-- Where a branch or jump goes when it is taken. -/
def target (s : Machine) (i : Instruction) : Word :=
  if i.op = .jalr then (s.regs.read i.rs1 + i.imm) &&& ~~~1#32 else i.pc + i.imm

/-- The address of the next instruction. -/
def nextPc (s : Machine) (i : Instruction) : Word :=
  if s.taken i then s.target i else i.pc + 4

/-- The store an instruction makes. -/
def store (s : Machine) (i : Instruction) : Option StoreEffect :=
  let b := s.regs.read i.rs2
  match i.op with
  | .sb => some ⟨s.effAddr i, 1, b &&& 0xFF⟩
  | .sh => some ⟨s.effAddr i, 2, b &&& 0xFFFF⟩
  | .sw => some ⟨s.effAddr i, 4, b⟩
  | _ => none

/-- The registers after an instruction. -/
def regsAfter (s : Machine) (i : Instruction) : RegFile :=
  match s.result i with
  | some v => s.regs.write i.rd v
  | none => s.regs

/-- The memory after an instruction. -/
def memAfter (s : Machine) (i : Instruction) : ByteMap := applyStore s.mem (s.store i)

/-! ## Steps -/

variable (code : ByteMap)

/-- The instruction word at an address. -/
def wordAt (pc : Word) : Word := BitVec.ofNat 32 (readLE code pc.toNat 4)

/-- The instruction the machine is about to execute. -/
def insn (s : Machine) : Instruction := decode (wordAt code s.pc) s.pc

/-- The machine stops at this instruction. -/
def halts (s : Machine) : Bool :=
  (s.insn code).op = .ebreak ∨ (s.insn code).op = .illegal

/-- One step; a machine that has stopped stays where it is. -/
def step (s : Machine) : Machine :=
  if s.halts code then s
  else
    { pc := s.nextPc (s.insn code)
      regs := s.regsAfter (s.insn code)
      mem := s.memAfter (s.insn code) }

/-- What executing the current instruction is seen to do. A write to x0 is no effect. -/
def commit (s : Machine) : Commit :=
  let i := s.insn code
  { pc := s.pc
    raw := wordAt code s.pc
    op := i.op
    reg := (s.result i).bind fun v => if i.rd = 0#5 then none else some (i.rd, v)
    store := s.store i }

/-- The machine after `n` steps. -/
def after (n : Nat) (s : Machine) : Machine := (step code)^[n] s

/-- The first `n` executed instructions, ending with the one that stops the machine. -/
def execution : Nat → Machine → List Commit
  | 0, _ => []
  | n + 1, s => s.commit code :: if s.halts code then [] else execution n (s.step code)

/-- A step when there is an instruction to execute. -/
def advance (s : Machine) (present : Bool) : Machine := if present then s.step code else s

/-- None of the first `n` instructions stops the machine. -/
def Live (n : Nat) (s : Machine) : Prop := ∀ j < n, (s.after code j).halts code = false

variable {code}

@[simp] theorem after_zero (s : Machine) : s.after code 0 = s := rfl

theorem after_succ (n : Nat) (s : Machine) :
    s.after code (n + 1) = (s.after code n).step code := Function.iterate_succ_apply' _ _ _

theorem after_step (n : Nat) (s : Machine) :
    (s.step code).after code n = s.after code (n + 1) := rfl

theorem after_add (m n : Nat) (s : Machine) :
    (s.after code m).after code n = s.after code (m + n) := by
  rw [Nat.add_comm]
  exact (Function.iterate_add_apply _ n m s).symm

theorem advance_eq_after (s : Machine) (present : Bool) :
    s.advance code present = s.after code present.toNat := by cases present <;> rfl

@[simp] theorem advance_false (s : Machine) : s.advance code false = s := rfl

@[simp] theorem advance_true (s : Machine) : s.advance code true = s.step code := rfl

theorem step_of_halts {s : Machine} (h : s.halts code = true) : s.step code = s := by
  unfold step; rw [if_pos h]

theorem step_of_runs {s : Machine} (h : s.halts code = false) :
    s.step code =
      { pc := s.nextPc (s.insn code)
        regs := s.regsAfter (s.insn code)
        mem := s.memAfter (s.insn code) } := by
  unfold step; rw [h]; rfl

theorem after_of_halts {s : Machine} (h : s.halts code = true) (n : Nat) : s.after code n = s := by
  induction n with
  | zero => rfl
  | succ n ih => rw [after_succ, ih, step_of_halts h]

theorem Live.mono {m n : Nat} {s : Machine} (h : Live code n s) (hmn : m ≤ n) : Live code m s :=
  fun j hj => h j (by omega)

theorem Live.step {n : Nat} {s : Machine} (h : Live code (n + 1) s) :
    Live code n (s.step code) := fun j hj => h (j + 1) (by omega)

/-- Every state of the machine is one it reaches before it stops. -/
theorem exists_live (s : Machine) (n : Nat) :
    ∃ j, Live code j s ∧ s.after code n = s.after code j := by
  induction n with
  | zero => exact ⟨0, fun _ hj => absurd hj (Nat.not_lt_zero _), rfl⟩
  | succ n ih =>
    obtain ⟨j, hl, he⟩ := ih
    rw [after_succ, he]
    cases hh : (s.after code j).halts code with
    | true => exact ⟨j, hl, step_of_halts hh⟩
    | false =>
      refine ⟨j + 1, fun i hi => ?_, (after_succ j s).symm⟩
      obtain hlt | rfl := Nat.lt_succ_iff_lt_or_eq.mp hi
      · exact hl i hlt
      · exact hh

/-- As long as nothing has stopped the machine, one more instruction is one more commit. -/
theorem execution_succ {n : Nat} {s : Machine} (h : Live code n s) :
    execution code (n + 1) s = execution code n s ++ [(s.after code n).commit code] := by
  induction n generalizing s with
  | zero => simp [execution]
  | succ n ih =>
    have h0 : s.halts code = false := h 0 (by omega)
    rw [execution, h0, if_neg (by simp), ih h.step, execution, h0, if_neg (by simp), after_step,
      List.cons_append]

/-- The machine stops at one place only. -/
theorem halts_unique {i j : Nat} {s : Machine} (hi : Live code i s) (hj : Live code j s)
    (hih : (s.after code i).halts code = true) (hjh : (s.after code j).halts code = true) :
    i = j := by
  obtain hlt | heq | hlt := Nat.lt_trichotomy i j
  · rw [hj i hlt] at hih; cases hih
  · exact heq
  · rw [hi j hlt] at hjh; cases hjh

end Machine

end CpuSim
