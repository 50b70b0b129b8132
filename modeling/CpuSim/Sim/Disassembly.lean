import CpuSim.Isa.RoundTrip
import CpuSim.Sim.Tracer

/-!
# The lines of the cycle trace

`sim/tracer.cpp` in its Cycle format: a line for each cycle, with the disassembled instruction if
one retires in it. The text of an instruction shows everything that its execution depends on
besides its address (`disasm_eq_iff`), and a line reads back as the address and the text.
-/

namespace CpuSim

open Digits

namespace Rv32i

/-- `op_name`. -/
def opName : Op → String
  | .add => "add" | .sub => "sub" | .sll => "sll" | .srl => "srl" | .sra => "sra"
  | .slt => "slt" | .sltu => "sltu" | .and => "and" | .or => "or" | .xor => "xor"
  | .addi => "addi" | .slli => "slli" | .srli => "srli" | .srai => "srai" | .slti => "slti"
  | .sltiu => "sltiu" | .andi => "andi" | .ori => "ori" | .xori => "xori"
  | .lb => "lb" | .lh => "lh" | .lw => "lw" | .lbu => "lbu" | .lhu => "lhu"
  | .sb => "sb" | .sh => "sh" | .sw => "sw"
  | .beq => "beq" | .bne => "bne" | .blt => "blt" | .bge => "bge" | .bltu => "bltu"
  | .bgeu => "bgeu"
  | .jal => "jal" | .jalr => "jalr"
  | .lui => "lui" | .auipc => "auipc"
  | .ecall => "ecall" | .ebreak => "ebreak" | .fence => "fence"
  | .illegal => "ILLEGAL"

/-- The case groups of the switch in `disasm`, by what they print. JALR has the text of a load. -/
inductive Layout where
  | regs | imm | shamt | load | store | branch | jump | upper | bare
  deriving DecidableEq, Repr

def Op.layout : Op → Layout
  | .add | .sub | .sll | .srl | .sra | .slt | .sltu | .and | .or | .xor => .regs
  | .addi | .slti | .sltiu | .andi | .ori | .xori => .imm
  | .slli | .srli | .srai => .shamt
  | .lb | .lh | .lw | .lbu | .lhu | .jalr => .load
  | .sb | .sh | .sw => .store
  | .beq | .bne | .blt | .bge | .bltu | .bgeu => .branch
  | .jal => .jump
  | .lui | .auipc => .upper
  | .ecall | .ebreak | .fence | .illegal => .bare

end Rv32i

/-- `kNames` of `abi_name`. -/
def abiNames : Vector String 32 :=
  #v["zero", "ra", "sp", "gp", "tp", "t0", "t1", "t2",
    "s0", "s1", "a0", "a1", "a2", "a3", "a4", "a5",
    "a6", "a7", "s2", "s3", "s4", "s5", "s6", "s7",
    "s8", "s9", "s10", "s11", "t3", "t4", "t5", "t6"]

/-- `abi_name`. -/
def abiName (idx : RegIdx) : List Char := (abiNames.get idx.toFin).toList

namespace Tracer

open Rv32i

/-- `"%s, %s"`. -/
def commaSep (a b : List Char) : List Char := a ++ ',' :: ' ' :: b

/-- `"%d(%s)"`. -/
def offset (imm : Word) (base : RegIdx) : List Char :=
  int imm.toInt ++ '(' :: (abiName base ++ [')'])

/-- `"0x%08x"` of a branch target. -/
def target (pc imm : Word) : List Char := '0' :: 'x' :: hex 8 (pc + imm).toNat

/-- The operands as `disasm` prints them. -/
def operandText (i : Instruction) (pc : Word) : Layout → List Char
  | .regs => commaSep (abiName i.rd) (commaSep (abiName i.rs1) (abiName i.rs2))
  | .imm => commaSep (abiName i.rd) (commaSep (abiName i.rs1) (int i.imm.toInt))
  | .shamt => commaSep (abiName i.rd) (commaSep (abiName i.rs1) (int (i.imm &&& 0x1f).toInt))
  | .load => commaSep (abiName i.rd) (offset i.imm i.rs1)
  | .store => commaSep (abiName i.rs2) (offset i.imm i.rs1)
  | .branch => commaSep (abiName i.rs1) (commaSep (abiName i.rs2) (target pc i.imm))
  | .jump => commaSep (abiName i.rd) (target pc i.imm)
  | .upper => commaSep (abiName i.rd) ('0' :: 'x' :: hex 1 (i.imm >>> 12).toNat)
  | .bare => []

/-- The mnemonic, and behind it the operands unless there are none. -/
def asm (i : Instruction) (pc : Word) : List Char :=
  let m := (opName i.op).toList
  if i.op.layout = .bare then m else m.rightpad 5 ' ' ++ ' ' :: operandText i pc i.op.layout

/-- `disasm`. -/
def disasm (raw pc : Word) : List Char := snprintf 40 (asm (decode raw pc) pc)

/-- The line of a cycle. The buffer of a cycle without an instruction is small: from cycle 10^13 on
    the bar is cut off, from 10^15 on digits are. -/
def cycleLine (wb : MemWb) (cycle : BitVec 64) : List Char :=
  if wb.valid then
    snprintf 80 (count 6 cycle.toNat ++ " | 0x".toList ++ hex 8 wb.pc.toNat ++ "  ".toList ++
      disasm wb.raw wb.pc)
  else snprintf 16 (count 6 cycle.toNat ++ " |".toList)

/-! ## Names -/

/-- Every op. -/
def ops : List Op :=
  [.add, .sub, .sll, .srl, .sra, .slt, .sltu, .and, .or, .xor, .addi, .slli, .srli, .srai, .slti,
    .sltiu, .andi, .ori, .xori, .lb, .lh, .lw, .lbu, .lhu, .sb, .sh, .sw, .beq, .bne, .blt, .bge,
    .bltu, .bgeu, .jal, .jalr, .lui, .auipc, .ecall, .ebreak, .fence, .illegal]

theorem mem_ops (op : Op) : op ∈ ops := by cases op <;> decide

/-- The op of this name. -/
def opNamed (s : List Char) : Option Op := ops.find? fun op => (opName op).toList = s

theorem opNamed_opName (op : Op) : opNamed (opName op).toList = some op := by
  have hall : ∀ op ∈ ops, opNamed (opName op).toList = some op := by decide +kernel
  exact hall op (mem_ops op)

theorem opName_spec (op : Op) :
    ' ' ∉ (opName op).toList ∧ (opName op).toList.length ≤ 7 ∧
      (op.layout ≠ .bare → (opName op).toList.length ≤ 5) := by
  have hall : ∀ op ∈ ops, ' ' ∉ (opName op).toList ∧ (opName op).toList.length ≤ 7 ∧
      (op.layout ≠ .bare → (opName op).toList.length ≤ 5) := by decide +kernel
  exact hall op (mem_ops op)

theorem abiName_spec (r : RegIdx) :
    ',' ∉ abiName r ∧ (abiName r).length ≤ 4 ∧ ∀ r' : RegIdx, abiName r' = abiName r → r' = r := by
  have hall : ∀ r : RegIdx, ',' ∉ abiName r ∧ (abiName r).length ≤ 4 ∧
      ∀ r' : RegIdx, abiName r' = abiName r → r' = r := by decide +kernel
  exact hall r

theorem abiName_inj {r r' : RegIdx} (h : abiName r = abiName r') : r = r' :=
  (abiName_spec r').2.2 r h

/-! ## Operands -/

/-- The instructions agree in the operands that a layout shows. -/
def Same (i i' : Instruction) : Layout → Prop
  | .regs => i.rd = i'.rd ∧ i.rs1 = i'.rs1 ∧ i.rs2 = i'.rs2
  | .imm | .load => i.rd = i'.rd ∧ i.rs1 = i'.rs1 ∧ i.imm = i'.imm
  | .shamt => i.rd = i'.rd ∧ i.rs1 = i'.rs1 ∧ i.imm &&& 0x1f = i'.imm &&& 0x1f
  | .store => i.rs2 = i'.rs2 ∧ i.rs1 = i'.rs1 ∧ i.imm = i'.imm
  | .branch => i.rs1 = i'.rs1 ∧ i.rs2 = i'.rs2 ∧ i.imm = i'.imm
  | .jump => i.rd = i'.rd ∧ i.imm = i'.imm
  | .upper => i.rd = i'.rd ∧ i.imm >>> 12 = i'.imm >>> 12
  | .bare => True

theorem commaSep_inj {r r' : RegIdx} {t t' : List Char}
    (h : commaSep (abiName r) t = commaSep (abiName r') t') : r = r' ∧ t = t' := by
  rcases cut_inj (abiName_spec r).1 (abiName_spec r').1 h with ⟨hr, ht⟩
  exact ⟨abiName_inj hr, by simpa using ht⟩

theorem toInt_inj {v v' : Word} (h : int v.toInt = int v'.toInt) : v = v' := by
  have hread := congrArg ofInt h
  rw [ofInt_int, ofInt_int] at hread
  exact BitVec.eq_of_toInt_eq hread

theorem hex_inj {w : Nat} {v v' : Word} (h : hex w v.toNat = hex w v'.toNat) : v = v' := by
  have hread := congrArg ofHex h
  rw [ofHex_hex, ofHex_hex] at hread
  exact BitVec.eq_of_toNat_eq hread

theorem offset_inj {v v' : Word} {r r' : RegIdx} (h : offset v r = offset v' r') :
    v = v' ∧ r = r' := by
  have hparen : ∀ v : Int, '(' ∉ int v := by
    intro v hmem
    rcases mem_int hmem with h | h <;> cases h
  rcases cut_inj (hparen _) (hparen _) h with ⟨hv, hr⟩
  exact ⟨toInt_inj hv, abiName_inj (by simpa using hr)⟩

theorem target_inj {pc v v' : Word} (h : target pc v = target pc v') : v = v' := by
  simp only [target, List.cons.injEq, true_and] at h
  exact add_left_cancel (hex_inj h)

/-- The text of the operands shows the operands of its layout. -/
theorem operandText_inj {i i' : Instruction} {pc : Word} (l : Layout)
    (h : operandText i pc l = operandText i' pc l) : Same i i' l := by
  cases l with
  | regs =>
    rcases commaSep_inj h with ⟨hrd, h⟩
    rcases commaSep_inj h with ⟨hrs1, h⟩
    exact ⟨hrd, hrs1, abiName_inj h⟩
  | imm =>
    rcases commaSep_inj h with ⟨hrd, h⟩
    rcases commaSep_inj h with ⟨hrs1, h⟩
    exact ⟨hrd, hrs1, toInt_inj h⟩
  | shamt =>
    rcases commaSep_inj h with ⟨hrd, h⟩
    rcases commaSep_inj h with ⟨hrs1, h⟩
    exact ⟨hrd, hrs1, toInt_inj h⟩
  | load =>
    rcases commaSep_inj h with ⟨hrd, h⟩
    rcases offset_inj h with ⟨himm, hrs1⟩
    exact ⟨hrd, hrs1, himm⟩
  | store =>
    rcases commaSep_inj h with ⟨hrs2, h⟩
    rcases offset_inj h with ⟨himm, hrs1⟩
    exact ⟨hrs2, hrs1, himm⟩
  | branch =>
    rcases commaSep_inj h with ⟨hrs1, h⟩
    rcases commaSep_inj h with ⟨hrs2, h⟩
    exact ⟨hrs1, hrs2, target_inj h⟩
  | jump =>
    rcases commaSep_inj h with ⟨hrd, h⟩
    exact ⟨hrd, target_inj h⟩
  | upper =>
    rcases commaSep_inj h with ⟨hrd, h⟩
    simp only [List.cons.injEq, true_and] at h
    exact ⟨hrd, hex_inj h⟩
  | bare => trivial

/-- The format of the instructions with a layout. -/
def layoutFormat : Layout → Option Format
  | .regs => some .r
  | .imm | .load => some .i
  | .shamt => some .shift
  | .store => some .s
  | .branch => some .b
  | .jump => some .j
  | .upper => some .u
  | .bare => none

theorem format_eq (op : Op) : op.format = layoutFormat op.layout := by cases op <;> rfl

/-- What a layout does not show is the same for all operands of its format. -/
theorem operands_eq_of_same {i i' : Instruction} {l : Layout} {fmt : Format}
    (hl : layoutFormat l = some fmt) (hi : fmt.Fits i.operands) (hi' : fmt.Fits i'.operands)
    (h : Same i i' l) : i.operands = i'.operands := by
  have hmk : i.rd = i'.rd → i.rs1 = i'.rs1 → i.rs2 = i'.rs2 → i.imm = i'.imm →
      i.operands = i'.operands := by
    intro h1 h2 h3 h4
    simp [Instruction.operands, h1, h2, h3, h4]
  cases l with
  | regs =>
    cases hl
    exact hmk h.1 h.2.1 h.2.2 (hi.trans hi'.symm)
  | imm | load =>
    cases hl
    exact hmk h.1 h.2.1 (hi.1.trans hi'.1.symm) h.2.2
  | shamt =>
    cases hl
    have hlow : ∀ v : Word, v.toNat < 32 → v &&& 0x1f = v := by
      intro v hv
      apply BitVec.eq_of_toNat_eq
      rw [BitVec.toNat_and]
      exact (Nat.and_two_pow_sub_one_eq_mod v.toNat 5).trans (Nat.mod_eq_of_lt hv)
    refine hmk h.1 h.2.1 (hi.1.trans hi'.1.symm) ?_
    rw [← hlow i.imm hi.2, ← hlow i'.imm hi'.2]
    exact h.2.2
  | store =>
    cases hl
    exact hmk (hi.1.trans hi'.1.symm) h.2.1 h.1 h.2.2
  | branch =>
    cases hl
    exact hmk (hi.1.trans hi'.1.symm) h.1 h.2.1 h.2.2
  | jump =>
    cases hl
    exact hmk h.1 (hi.1.trans hi'.1.symm) (hi.2.1.trans hi'.2.1.symm) h.2
  | upper =>
    cases hl
    refine hmk h.1 (hi.1.trans hi'.1.symm) (hi.2.1.trans hi'.2.1.symm) ?_
    have hhigh := congrArg BitVec.toNat h.2
    have hlow : i.imm.toNat % 4096 = 0 := hi.2.2
    have hlow' : i'.imm.toNat % 4096 = 0 := hi'.2.2
    simp only [BitVec.toNat_ushiftRight, Nat.shiftRight_eq_div_pow] at hhigh
    apply BitVec.eq_of_toNat_eq
    omega
  | bare => cases hl

/-- An instruction without a format has no operands, unless it was rejected. -/
def Plain (i : Instruction) : Prop :=
  i.op.format = none → i.op ≠ .illegal → i.operands = ⟨0, 0, 0, 0⟩

theorem Plain.ite {c : Prop} [Decidable c] {i i' : Instruction} (h : Plain i) (h' : Plain i') :
    Plain (if c then i else i') := by
  split
  · exact h
  · exact h'

theorem Plain.of_format {f : Format} {i : Instruction} (h : OfFormat f i.op) : Plain i := by
  intro hnone hne
  rcases h with h | h
  · exact absurd h hne
  · rw [h] at hnone
    cases hnone

theorem decode_plain (w pc : Word) : Plain (decode w pc) := by
  unfold decode
  repeat' apply Plain.ite
  -- LUI, AUIPC, JAL, JALR with a bad funct3, JALR.
  · exact .of_format (f := .u) (.inr rfl)
  · exact .of_format (f := .u) (.inr rfl)
  · exact .of_format (f := .j) (.inr rfl)
  · exact .of_format (f := .i) (.inl rfl)
  · exact .of_format (f := .i) (.inr rfl)
  · exact .of_format (branchOp_format _)
  · exact .of_format (loadOp_format _)
  · exact .of_format (storeOp_format _)
  · exact .of_format (immOp_format _ _)
  · exact .of_format (regOp_format _ _)
  -- FENCE and the system instructions, and what is rejected there.
  · exact .of_format (f := .i) (.inl rfl)
  · exact fun _ _ => rfl
  · exact .of_format (f := .i) (.inl rfl)
  · exact fun _ _ => rfl
  · exact .of_format (f := .i) (.inl rfl)

/-! ## Disassembly -/

/-- The mnemonic is the text up to the first blank. -/
theorem opNamed_asm (i : Instruction) (pc : Word) :
    opNamed ((asm i pc).takeWhile (· ≠ ' ')) = some i.op := by
  have hword : ∀ c ∈ (opName i.op).toList, (decide (c ≠ ' ')) = true := by
    intro c hc
    have := (opName_spec i.op).1
    simp only [ne_eq, decide_not, Bool.not_eq_true', decide_eq_false_iff_not]
    rintro rfl
    exact this hc
  have hname : (asm i pc).takeWhile (· ≠ ' ') = (opName i.op).toList := by
    unfold asm
    dsimp only
    split
    · have hall : ((opName i.op).toList ++ []).takeWhile (· ≠ ' ') = _ :=
        List.takeWhile_append_of_pos hword
      simpa using hall
    · unfold List.rightpad
      rw [List.append_assoc, List.takeWhile_append_of_pos hword]
      cases 5 - (opName i.op).toList.length <;> simp [List.replicate_succ]
  rw [hname, opNamed_opName]

/-- The buffer of a text, 40 characters, is never full. -/
theorem asm_fits (i : Instruction) (pc : Word) : (asm i pc).length < 40 := by
  have habi : ∀ r : RegIdx, (abiName r).length ≤ 4 := fun r => (abiName_spec r).2.1
  have hint : ∀ v : Word, (int v.toInt).length ≤ 11 := by
    intro v
    have hlo := BitVec.le_toInt v
    have hhi := BitVec.toInt_lt (x := v)
    exact length_int_le (by decide) (by omega)
  have hhex : ∀ v : Word, (hex 1 v.toNat).length ≤ 8 :=
    fun v => length_hex_le (by decide) (by decide) v.isLt
  have hops : (operandText i pc i.op.layout).length ≤ 23 := by
    have := habi i.rd
    have := habi i.rs1
    have := habi i.rs2
    have := hint i.imm
    have := hint (i.imm &&& 0x1f)
    have := hhex (i.imm >>> 12)
    unfold operandText commaSep offset target
    split <;> simp only [List.length_append, List.length_cons, List.length_nil, length_hex_word] <;>
      omega
  have hname := opName_spec i.op
  unfold asm
  dsimp only
  split
  · omega
  · rename_i hbare
    have := hname.2.2 hbare
    simp only [List.length_append, List.length_cons, List.rightpad, List.length_replicate]
    omega

theorem disasm_eq (w pc : Word) : disasm w pc = asm (decode w pc) pc :=
  snprintf_of_lt (asm_fits _ _)

/-- The text of a word tells how it is decoded. -/
theorem operands_of_disasm {w w' pc : Word} (h : disasm w pc = disasm w' pc) :
    (decode w pc).op = (decode w' pc).op ∧
      ((decode w pc).op ≠ .illegal → (decode w pc).operands = (decode w' pc).operands) := by
  rw [disasm_eq, disasm_eq] at h
  have hop : (decode w pc).op = (decode w' pc).op := by
    have hname := opNamed_asm (decode w pc) pc
    rw [h, opNamed_asm] at hname
    exact (Option.some.inj hname).symm
  refine ⟨hop, fun hne => ?_⟩
  cases hf : (decode w pc).op.format with
  | none =>
    rw [decode_plain w pc hf hne]
    rw [hop] at hf hne
    exact (decode_plain w' pc hf hne).symm
  | some fmt =>
    have hl : layoutFormat (decode w pc).op.layout = some fmt := (format_eq _).symm.trans hf
    have hbare : (decode w pc).op.layout ≠ .bare := by
      intro hbare
      rw [hbare] at hl
      cases hl
    have htext : operandText (decode w pc) pc (decode w pc).op.layout =
        operandText (decode w' pc) pc (decode w pc).op.layout := by
      unfold asm at h
      rw [← hop] at h
      simpa [hbare] using h
    have hreads := decode_reads w pc fmt hf
    have hreads' := decode_reads w' pc fmt (hop ▸ hf)
    exact operands_eq_of_same hl (hreads ▸ fits_operandsOf fmt w)
      (hreads' ▸ fits_operandsOf fmt w') (operandText_inj _ htext)

/-- Two words have the same text at an address exactly if both are rejected, or both decode to
    the same op with the same operands. -/
theorem disasm_eq_iff (w w' pc : Word) :
    disasm w pc = disasm w' pc ↔ (decode w pc).op = (decode w' pc).op ∧
      ((decode w pc).op ≠ .illegal → (decode w pc).operands = (decode w' pc).operands) := by
  constructor
  · exact operands_of_disasm
  · rintro ⟨hop, hargs⟩
    rw [disasm_eq, disasm_eq]
    by_cases hne : (decode w pc).op = .illegal
    · unfold asm
      rw [← hop, hne]
      rfl
    · have hrest : ∀ l, operandText (decode w pc) pc l = operandText (decode w' pc) pc l := by
        intro l
        have := hargs hne
        simp only [Instruction.operands, Operands.mk.injEq] at this
        unfold operandText
        rw [this.1, this.2.1, this.2.2.1, this.2.2.2]
      unfold asm
      rw [hop, hrest]

/-! ## Lines -/

/-- The number of the cycle. -/
def readNumber (l : List Char) : Nat := ofCount l

/-- The instruction columns behind the bar, if there are any. -/
def readCycle (l : List Char) : Option (Word × List Char) :=
  match l.dropWhile (· ≠ '|') with
  | '|' :: ' ' :: '0' :: 'x' :: cs => some (readWord (cs.take 8), cs.drop 10)
  | _ => none

theorem count_before_bar (w v : Nat) : ∀ c ∈ count w v, (decide (c ≠ '|')) = true := by
  intro c hc
  rcases mem_count hc with rfl | hd
  · rfl
  · have hne : c ≠ '|' := by
      rintro rfl
      cases hd
    simpa using hne

theorem length_count_cycle (cycle : BitVec 64) : (count 6 cycle.toNat).length ≤ 20 :=
  length_count_le (by decide) (by decide) (by have := cycle.isLt; omega)

/-- The line of an instruction is never cut. -/
theorem cycleLine_of_valid {wb : MemWb} (hv : wb.valid = true) (cycle : BitVec 64) :
    cycleLine wb cycle = count 6 cycle.toNat ++ (" | 0x".toList ++ (hex 8 wb.pc.toNat ++
      ("  ".toList ++ disasm wb.raw wb.pc))) := by
  have hcount := length_count_cycle cycle
  have htext := asm_fits (decode wb.raw wb.pc) wb.pc
  unfold cycleLine
  rw [if_pos hv, snprintf_of_lt]
  · simp only [List.append_assoc]
  · simp only [List.length_append, length_hex_word, disasm_eq]
    change _ + 5 + 8 + 2 + _ < 80
    omega

/-- A line reads back as its instruction columns, and as nothing without an instruction. -/
theorem readCycle_cycleLine (wb : MemWb) (cycle : BitVec 64) :
    readCycle (cycleLine wb cycle) =
      if wb.valid then some (wb.pc, disasm wb.raw wb.pc) else none := by
  unfold readCycle
  cases hv : wb.valid with
  | true =>
    have hpc : (hex 8 wb.pc.toNat ++ ("  ".toList ++ disasm wb.raw wb.pc)).take 8 =
        hex 8 wb.pc.toNat := List.take_left' (length_hex_word wb.pc)
    have htext : (hex 8 wb.pc.toNat ++ ("  ".toList ++ disasm wb.raw wb.pc)).drop 10 =
        disasm wb.raw wb.pc := by
      rw [← List.append_assoc]
      apply List.drop_left'
      rw [List.length_append, length_hex_word]
      rfl
    rw [cycleLine_of_valid hv, List.dropWhile_append_of_pos (count_before_bar _ _)]
    change some (readWord ((hex 8 wb.pc.toNat ++ ("  ".toList ++ disasm wb.raw wb.pc)).take 8),
      (hex 8 wb.pc.toNat ++ ("  ".toList ++ disasm wb.raw wb.pc)).drop 10) = _
    rw [hpc, htext, readWord_hex, if_pos rfl]
  | false =>
    have hahead : ∀ c ∈ (count 6 cycle.toNat).take 15, (decide (c ≠ '|')) = true :=
      fun c hc => count_before_bar _ _ c (List.mem_of_mem_take hc)
    unfold cycleLine snprintf
    rw [if_neg (by simp [hv]), List.take_append, List.dropWhile_append_of_pos hahead]
    -- The bar is cut off, or nothing stands behind it.
    rcases 15 - (count 6 cycle.toNat).length with _ | _ | _ | n <;> rfl

theorem readNumber_cycleLine (wb : MemWb) (cycle : BitVec 64) (h : cycle.toNat < 10 ^ 15) :
    readNumber (cycleLine wb cycle) = cycle.toNat := by
  unfold readNumber
  cases hv : wb.valid with
  | true =>
    rw [cycleLine_of_valid hv]
    exact ofCount_count _ _ (by intro c hc; cases hc; rfl)
  | false =>
    have hlen : (count 6 cycle.toNat).length ≤ 15 :=
      length_count_le (by decide) (by decide) h
    unfold cycleLine snprintf
    rw [if_neg (by simp [hv]), List.take_append, List.take_of_length_le hlen]
    refine ofCount_count _ _ fun c hc => ?_
    generalize 16 - 1 - (count 6 cycle.toNat).length = n at hc
    cases n <;> cases hc
    rfl

end Tracer

end CpuSim
