import CpuSim.Isa.Decoding

/-!
# Decoding and encoding

Decoding undoes the manual's encoding and encoding undoes decoding, for every instruction with
operands. A format is a cut of the word into fields (`r_fields`, `r_join` and so on); the
immediates of the formats B and J cut the same word differently, and are put together again by
the same lemmas (`b_imm_fields`, `j_imm_fields`).
-/

namespace CpuSim.Rv32i

/-! ## Cutting words along the formats -/

section Layouts

variable (f7 : BitVec 7) (b a d : BitVec 5) (f3 : BitVec 3) (opc : BitVec 7)

theorem r_fields :
    (f7 ++ b ++ a ++ f3 ++ d ++ opc).extractLsb' 0 7 = opc ∧
      (f7 ++ b ++ a ++ f3 ++ d ++ opc).extractLsb' 7 5 = d ∧
      (f7 ++ b ++ a ++ f3 ++ d ++ opc).extractLsb' 12 3 = f3 ∧
      (f7 ++ b ++ a ++ f3 ++ d ++ opc).extractLsb' 15 5 = a ∧
      (f7 ++ b ++ a ++ f3 ++ d ++ opc).extractLsb' 20 5 = b ∧
      (f7 ++ b ++ a ++ f3 ++ d ++ opc).extractLsb' 25 7 = f7 := by
  simp (disch := decide) only [BitVec.extractLsb'_append_eq_of_le, and_self,
    BitVec.extractLsb'_append_eq_of_add_le, BitVec.extractLsb'_eq_self, Nat.reduceSub]

theorem i_fields (m : BitVec 12) :
    (m ++ a ++ f3 ++ d ++ opc).extractLsb' 0 7 = opc ∧
      (m ++ a ++ f3 ++ d ++ opc).extractLsb' 7 5 = d ∧
      (m ++ a ++ f3 ++ d ++ opc).extractLsb' 12 3 = f3 ∧
      (m ++ a ++ f3 ++ d ++ opc).extractLsb' 15 5 = a ∧
      (m ++ a ++ f3 ++ d ++ opc).extractLsb' 20 12 = m := by
  simp (disch := decide) only [BitVec.extractLsb'_append_eq_of_le, and_self,
    BitVec.extractLsb'_append_eq_of_add_le, BitVec.extractLsb'_eq_self, Nat.reduceSub]

theorem b_fields (s : BitVec 1) (h : BitVec 6) (l : BitVec 4) (e : BitVec 1) :
    (s ++ h ++ b ++ a ++ f3 ++ l ++ e ++ opc).extractLsb' 0 7 = opc ∧
      (s ++ h ++ b ++ a ++ f3 ++ l ++ e ++ opc).extractLsb' 7 1 = e ∧
      (s ++ h ++ b ++ a ++ f3 ++ l ++ e ++ opc).extractLsb' 8 4 = l ∧
      (s ++ h ++ b ++ a ++ f3 ++ l ++ e ++ opc).extractLsb' 12 3 = f3 ∧
      (s ++ h ++ b ++ a ++ f3 ++ l ++ e ++ opc).extractLsb' 15 5 = a ∧
      (s ++ h ++ b ++ a ++ f3 ++ l ++ e ++ opc).extractLsb' 20 5 = b ∧
      (s ++ h ++ b ++ a ++ f3 ++ l ++ e ++ opc).extractLsb' 25 6 = h ∧
      (s ++ h ++ b ++ a ++ f3 ++ l ++ e ++ opc).extractLsb' 31 1 = s := by
  simp (disch := decide) only [BitVec.extractLsb'_append_eq_of_le, and_self,
    BitVec.extractLsb'_append_eq_of_add_le, BitVec.extractLsb'_eq_self, Nat.reduceSub]

theorem u_fields (m : BitVec 20) :
    (m ++ d ++ opc).extractLsb' 0 7 = opc ∧ (m ++ d ++ opc).extractLsb' 7 5 = d ∧
      (m ++ d ++ opc).extractLsb' 12 20 = m := by
  simp (disch := decide) only [BitVec.extractLsb'_append_eq_of_le, and_self,
    BitVec.extractLsb'_append_eq_of_add_le, BitVec.extractLsb'_eq_self, Nat.reduceSub]

theorem j_fields (s : BitVec 1) (l : BitVec 10) (e : BitVec 1) (h : BitVec 8) :
    (s ++ l ++ e ++ h ++ d ++ opc).extractLsb' 0 7 = opc ∧
      (s ++ l ++ e ++ h ++ d ++ opc).extractLsb' 7 5 = d ∧
      (s ++ l ++ e ++ h ++ d ++ opc).extractLsb' 12 8 = h ∧
      (s ++ l ++ e ++ h ++ d ++ opc).extractLsb' 20 1 = e ∧
      (s ++ l ++ e ++ h ++ d ++ opc).extractLsb' 21 10 = l ∧
      (s ++ l ++ e ++ h ++ d ++ opc).extractLsb' 31 1 = s := by
  simp (disch := decide) only [BitVec.extractLsb'_append_eq_of_le, and_self,
    BitVec.extractLsb'_append_eq_of_add_le, BitVec.extractLsb'_eq_self, Nat.reduceSub]

theorem r_join (w : Word) :
    w.extractLsb' 25 7 ++ w.extractLsb' 20 5 ++ w.extractLsb' 15 5 ++ w.extractLsb' 12 3 ++
      w.extractLsb' 7 5 ++ w.extractLsb' 0 7 = w := by
  simp (disch := rfl) only [BitVec.extractLsb'_append_extractLsb'_eq_extractLsb',
    BitVec.extractLsb'_eq_self]

theorem i_join (w : Word) :
    w.extractLsb' 20 12 ++ w.extractLsb' 15 5 ++ w.extractLsb' 12 3 ++ w.extractLsb' 7 5 ++
      w.extractLsb' 0 7 = w := by
  simp (disch := rfl) only [BitVec.extractLsb'_append_extractLsb'_eq_extractLsb',
    BitVec.extractLsb'_eq_self]

theorem b_join (w : Word) :
    w.extractLsb' 31 1 ++ w.extractLsb' 25 6 ++ w.extractLsb' 20 5 ++ w.extractLsb' 15 5 ++
      w.extractLsb' 12 3 ++ w.extractLsb' 8 4 ++ w.extractLsb' 7 1 ++ w.extractLsb' 0 7 = w := by
  simp (disch := rfl) only [BitVec.extractLsb'_append_extractLsb'_eq_extractLsb',
    BitVec.extractLsb'_eq_self]

theorem u_join (w : Word) : w.extractLsb' 12 20 ++ w.extractLsb' 7 5 ++ w.extractLsb' 0 7 = w := by
  simp (disch := rfl) only [BitVec.extractLsb'_append_extractLsb'_eq_extractLsb',
    BitVec.extractLsb'_eq_self]

theorem j_join (w : Word) :
    w.extractLsb' 31 1 ++ w.extractLsb' 21 10 ++ w.extractLsb' 20 1 ++ w.extractLsb' 12 8 ++
      w.extractLsb' 7 5 ++ w.extractLsb' 0 7 = w := by
  simp (disch := rfl) only [BitVec.extractLsb'_append_extractLsb'_eq_extractLsb',
    BitVec.extractLsb'_eq_self]

/-! ## The scattered immediates -/

/-- The immediate of a branch, bit 12 first, from the order of its bits in the word. -/
theorem b_imm_fields (s e : BitVec 1) (h : BitVec 6) (l : BitVec 4) :
    (s ++ e ++ h ++ l ++ 0#1).extractLsb' 12 1 = s ∧
      (s ++ e ++ h ++ l ++ 0#1).extractLsb' 11 1 = e ∧
      (s ++ e ++ h ++ l ++ 0#1).extractLsb' 5 6 = h ∧
      (s ++ e ++ h ++ l ++ 0#1).extractLsb' 1 4 = l ∧
      (s ++ e ++ h ++ l ++ 0#1).extractLsb' 0 1 = 0#1 := by
  simp (disch := decide) only [BitVec.extractLsb'_append_eq_of_le, and_self,
    BitVec.extractLsb'_append_eq_of_add_le, BitVec.extractLsb'_eq_self, Nat.reduceSub]

theorem b_imm_join (x : Word) :
    x.extractLsb' 12 1 ++ x.extractLsb' 11 1 ++ x.extractLsb' 5 6 ++ x.extractLsb' 1 4 ++
      x.extractLsb' 0 1 = x.extractLsb' 0 13 := by
  simp (disch := rfl) only [BitVec.extractLsb'_append_extractLsb'_eq_extractLsb']

theorem j_imm_fields (s e : BitVec 1) (h : BitVec 8) (l : BitVec 10) :
    (s ++ h ++ e ++ l ++ 0#1).extractLsb' 20 1 = s ∧
      (s ++ h ++ e ++ l ++ 0#1).extractLsb' 12 8 = h ∧
      (s ++ h ++ e ++ l ++ 0#1).extractLsb' 11 1 = e ∧
      (s ++ h ++ e ++ l ++ 0#1).extractLsb' 1 10 = l ∧
      (s ++ h ++ e ++ l ++ 0#1).extractLsb' 0 1 = 0#1 := by
  simp (disch := decide) only [BitVec.extractLsb'_append_eq_of_le, and_self,
    BitVec.extractLsb'_append_eq_of_add_le, BitVec.extractLsb'_eq_self, Nat.reduceSub]

theorem j_imm_join (x : Word) :
    x.extractLsb' 20 1 ++ x.extractLsb' 12 8 ++ x.extractLsb' 11 1 ++ x.extractLsb' 1 10 ++
      x.extractLsb' 0 1 = x.extractLsb' 0 21 := by
  simp (disch := rfl) only [BitVec.extractLsb'_append_extractLsb'_eq_extractLsb']

theorem s_imm_join (x : Word) :
    x.extractLsb' 5 7 ++ x.extractLsb' 0 5 = x.extractLsb' 0 12 :=
  BitVec.extractLsb'_append_extractLsb'_eq_extractLsb' rfl

end Layouts

/-! ## What the decoder reads from a word -/

/-- The operands that the extractors of the source read in a format. -/
def Format.operandsOf (w : Word) : Format → Operands
  | .r => { rd := rdField w, rs1 := rs1Field w, rs2 := rs2Field w, imm := 0 }
  | .i => { rd := rdField w, rs1 := rs1Field w, rs2 := 0, imm := immI w }
  | .shift => { rd := rdField w, rs1 := rs1Field w, rs2 := 0, imm := immI w &&& 0x1f }
  | .s => { rd := 0, rs1 := rs1Field w, rs2 := rs2Field w, imm := immS w }
  | .b => { rd := 0, rs1 := rs1Field w, rs2 := rs2Field w, imm := immB w }
  | .u => { rd := rdField w, rs1 := 0, rs2 := 0, imm := immU w }
  | .j => { rd := rdField w, rs1 := 0, rs2 := 0, imm := immJ w }

/-- An op of one format, or none at all. -/
def OfFormat (fmt : Format) (op : Op) : Prop := op = .illegal ∨ op.format = some fmt

theorem OfFormat.eq {fmt fmt' : Format} {op : Op} (h : OfFormat fmt op)
    (h' : op.format = some fmt') : fmt' = fmt := by
  rcases h with rfl | h
  · cases h'
  · exact Option.some.inj (h'.symm.trans h)

theorem OfFormat.ite {fmt : Format} {c : Prop} [Decidable c] {op op' : Op} (h : OfFormat fmt op)
    (h' : OfFormat fmt op') : OfFormat fmt (if c then op else op') := by
  split
  · exact h
  · exact h'

theorem branchOp_format (f3 : Word) : OfFormat .b (branchOp f3) := by
  unfold branchOp
  repeat' apply OfFormat.ite
  all_goals first | exact .inr rfl | exact .inl rfl

theorem loadOp_format (f3 : Word) : OfFormat .i (loadOp f3) := by
  unfold loadOp
  repeat' apply OfFormat.ite
  all_goals first | exact .inr rfl | exact .inl rfl

theorem storeOp_format (f3 : Word) : OfFormat .s (storeOp f3) := by
  unfold storeOp
  repeat' apply OfFormat.ite
  all_goals first | exact .inr rfl | exact .inl rfl

theorem regOp_format (f3 f7 : Word) : OfFormat .r (regOp f3 f7) := by
  unfold regOp
  repeat' apply OfFormat.ite
  all_goals first | exact .inr rfl | exact .inl rfl

/-- Among the OP-IMM instructions the shifts are those the decoder masks the immediate of. -/
theorem immOp_format (f3 f7 : Word) :
    OfFormat (if immShift (immOp f3 f7) then .shift else .i) (immOp f3 f7) := by
  generalize hop : immOp f3 f7 = op
  unfold immOp at hop
  repeat' split at hop
  all_goals subst hop; first | exact .inr rfl | exact .inl rfl

theorem systemOp_format (f12 : Word) : (systemOp f12).format = none := by
  unfold systemOp
  split
  · rfl
  · split <;> rfl

/-- `i` has the operands of its format in `w`. -/
def Reads (w : Word) (i : Instruction) : Prop :=
  ∀ fmt, i.op.format = some fmt → i.operands = fmt.operandsOf w

theorem Reads.ite {w : Word} {c : Prop} [Decidable c] {i i' : Instruction} (h : Reads w i)
    (h' : Reads w i') : Reads w (if c then i else i') := by
  split
  · exact h
  · exact h'

/-- `decode` reads the operands of the format of the op it finds. -/
theorem decode_reads (w pc : Word) : Reads w (decode w pc) := by
  unfold decode
  repeat' apply Reads.ite
  all_goals intro fmt h
  -- LUI, AUIPC, JAL, JALR with a bad funct3, JALR.
  · cases h; rfl
  · cases h; rfl
  · cases h; rfl
  · cases h
  · cases h; rfl
  · obtain rfl := (branchOp_format (funct3 w)).eq h
    rfl
  · obtain rfl := (loadOp_format (funct3 w)).eq h
    rfl
  · obtain rfl := (storeOp_format (funct3 w)).eq h
    rfl
  · obtain rfl := (immOp_format (funct3 w) (funct7 w)).eq h
    cases immShift (immOp (funct3 w) (funct7 w)) <;> rfl
  · obtain rfl := (regOp_format (funct3 w) (funct7 w)).eq h
    rfl
  -- FENCE and the system instructions have no format.
  · cases h
  · cases h
  · cases h
  · exact absurd h (by simp [systemOp_format])
  · cases h

/-! ## Immediates there and back -/

theorem immI_enc {w x : Word} (hw : w.extractLsb' 20 12 = x.extractLsb' 0 12)
    (hlo : -2048 ≤ x.toInt) (hhi : x.toInt < 2048) : immI w = x := by
  rw [immI_eq, hw]
  exact Bits.signExtend_extractLsb' x (by decide) (by decide) hlo hhi

theorem immS_enc {w x : Word} (hhigh : w.extractLsb' 25 7 = x.extractLsb' 5 7)
    (hlow : w.extractLsb' 7 5 = x.extractLsb' 0 5) (hlo : -2048 ≤ x.toInt)
    (hhi : x.toInt < 2048) : immS w = x := by
  rw [immS_eq, hhigh, hlow, s_imm_join]
  exact Bits.signExtend_extractLsb' x (by decide) (by decide) hlo hhi

theorem immB_enc {w x : Word} (h12 : w.extractLsb' 31 1 = x.extractLsb' 12 1)
    (h11 : w.extractLsb' 7 1 = x.extractLsb' 11 1) (h5 : w.extractLsb' 25 6 = x.extractLsb' 5 6)
    (h1 : w.extractLsb' 8 4 = x.extractLsb' 1 4) (hlo : -4096 ≤ x.toInt) (hhi : x.toInt < 4096)
    (heven : x.toNat % 2 = 0) : immB w = x := by
  rw [immB_eq, h12, h11, h5, h1, ← (Bits.extractLsb'_eq_zero_iff x 1).mpr heven, b_imm_join]
  exact Bits.signExtend_extractLsb' x (by decide) (by decide) hlo hhi

theorem immJ_enc {w x : Word} (h20 : w.extractLsb' 31 1 = x.extractLsb' 20 1)
    (h12 : w.extractLsb' 12 8 = x.extractLsb' 12 8) (h11 : w.extractLsb' 20 1 = x.extractLsb' 11 1)
    (h1 : w.extractLsb' 21 10 = x.extractLsb' 1 10) (hlo : -1048576 ≤ x.toInt)
    (hhi : x.toInt < 1048576) (heven : x.toNat % 2 = 0) : immJ w = x := by
  rw [immJ_eq, h20, h12, h11, h1, ← (Bits.extractLsb'_eq_zero_iff x 1).mpr heven, j_imm_join]
  exact Bits.signExtend_extractLsb' x (by decide) (by decide) hlo hhi

theorem immU_enc {w x : Word} (hw : w.extractLsb' 12 20 = x.extractLsb' 12 20)
    (hlow : x.toNat % 4096 = 0) : immU w = x := by
  rw [immU_eq, hw, ← (Bits.extractLsb'_eq_zero_iff x 12).mpr hlow]
  exact (BitVec.extractLsb'_append_extractLsb'_eq_extractLsb' rfl).trans BitVec.extractLsb'_eq_self

theorem immI_cut (w : Word) : (immI w).extractLsb' 0 12 = w.extractLsb' 20 12 := by
  rw [immI_eq, Bits.extractLsb'_signExtend _ (by decide) (by decide), BitVec.extractLsb'_eq_self]

theorem immS_cut (w : Word) :
    (immS w).extractLsb' 5 7 = w.extractLsb' 25 7 ∧
      (immS w).extractLsb' 0 5 = w.extractLsb' 7 5 := by
  rw [immS_eq, Bits.extractLsb'_signExtend _ (by decide) (by decide),
    Bits.extractLsb'_signExtend _ (by decide) (by decide)]
  exact ⟨BitVec.extractLsb'_append_eq_left, BitVec.extractLsb'_append_eq_right⟩

theorem immB_cut (w : Word) :
    (immB w).extractLsb' 12 1 = w.extractLsb' 31 1 ∧ (immB w).extractLsb' 11 1 = w.extractLsb' 7 1 ∧
      (immB w).extractLsb' 5 6 = w.extractLsb' 25 6 ∧ (immB w).extractLsb' 1 4 = w.extractLsb' 8 4 ∧
      (immB w).extractLsb' 0 1 = 0#1 := by
  simp (disch := decide) only [immB_eq, Bits.extractLsb'_signExtend]
  exact b_imm_fields _ _ _ _

theorem immJ_cut (w : Word) :
    (immJ w).extractLsb' 20 1 = w.extractLsb' 31 1 ∧
      (immJ w).extractLsb' 12 8 = w.extractLsb' 12 8 ∧
      (immJ w).extractLsb' 11 1 = w.extractLsb' 20 1 ∧
      (immJ w).extractLsb' 1 10 = w.extractLsb' 21 10 ∧ (immJ w).extractLsb' 0 1 = 0#1 := by
  simp (disch := decide) only [immJ_eq, Bits.extractLsb'_signExtend]
  exact j_imm_fields _ _ _ _

theorem immU_cut (w : Word) :
    (immU w).extractLsb' 12 20 = w.extractLsb' 12 20 ∧ (immU w).extractLsb' 0 12 = 0#12 := by
  rw [immU_eq]
  exact ⟨BitVec.extractLsb'_append_eq_left, BitVec.extractLsb'_append_eq_right⟩

/-- A shift amount is the low five bits of the I immediate. -/
theorem shamt_eq (w : Word) : immI w &&& 0x1f = (w.extractLsb' 20 5).setWidth 32 := by
  have hlow := Bits.ushiftRight_and_mask (immI w) 0 5
  rw [BitVec.ushiftRight_zero, immI_eq, Bits.extractLsb'_signExtend _ (by decide) (by decide)]
    at hlow
  rw [Bits.extractLsb'_extractLsb' w (by decide)] at hlow
  rw [immI_eq]
  exact hlow

/-! ## Encoding, then decoding -/

/-- An encoded instruction is one of the encodings of its op. -/
theorem encodes_enc {op : Op} {fmt : Format} (h : op.format = some fmt) (o : Operands) :
    Encodes (fmt.enc op o) op := by
  unfold Encodes
  rw [h]
  cases fmt with
  | r =>
    obtain ⟨h0, _, h12, _, _, h25⟩ :=
      r_fields op.funct7Field o.rs2 o.rs1 o.rd op.funct3Field op.opcodeField
    exact ⟨h0, h12, h25⟩
  | i =>
    obtain ⟨h0, _, h12, _⟩ :=
      i_fields o.rs1 o.rd op.funct3Field op.opcodeField (o.imm.extractLsb' 0 12)
    exact ⟨h0, h12⟩
  | shift =>
    obtain ⟨h0, _, h12, _, _, h25⟩ :=
      r_fields op.funct7Field (o.imm.extractLsb' 0 5) o.rs1 o.rd op.funct3Field op.opcodeField
    exact ⟨h0, h12, h25⟩
  | s =>
    obtain ⟨h0, _, h12, _⟩ :=
      r_fields (o.imm.extractLsb' 5 7) o.rs2 o.rs1 (o.imm.extractLsb' 0 5) op.funct3Field
        op.opcodeField
    exact ⟨h0, h12⟩
  | b =>
    obtain ⟨h0, _, _, h12, _⟩ :=
      b_fields o.rs2 o.rs1 op.funct3Field op.opcodeField (o.imm.extractLsb' 12 1)
        (o.imm.extractLsb' 5 6) (o.imm.extractLsb' 1 4) (o.imm.extractLsb' 11 1)
    exact ⟨h0, h12⟩
  | u => exact (u_fields o.rd op.opcodeField (o.imm.extractLsb' 12 20)).1
  | j =>
    exact (j_fields o.rd op.opcodeField (o.imm.extractLsb' 20 1) (o.imm.extractLsb' 1 10)
      (o.imm.extractLsb' 11 1) (o.imm.extractLsb' 12 8)).1

/-- The extractors read back the operands of an encoded instruction. -/
theorem operandsOf_enc (op : Op) {fmt : Format} {o : Operands} (h : fmt.Fits o) :
    fmt.operandsOf (fmt.enc op o) = o := by
  obtain ⟨rd, rs1, rs2, imm⟩ := o
  cases fmt with
  | r =>
    obtain rfl : imm = 0 := h
    obtain ⟨_, h7, _, h15, h20, _⟩ :=
      r_fields op.funct7Field rs2 rs1 rd op.funct3Field op.opcodeField
    simp only [Format.operandsOf, rdField_eq, rs1Field_eq, rs2Field_eq, Operands.mk.injEq, and_true]
    exact ⟨h7, h15, h20⟩
  | i =>
    obtain ⟨rfl, hlo, hhi⟩ := h
    obtain ⟨_, h7, _, h15, h20⟩ :=
      i_fields rs1 rd op.funct3Field op.opcodeField (imm.extractLsb' 0 12)
    simp only [Format.operandsOf, rdField_eq, rs1Field_eq, Operands.mk.injEq, true_and]
    exact ⟨h7, h15, immI_enc h20 hlo hhi⟩
  | shift =>
    obtain ⟨rfl, hlt⟩ := h
    obtain ⟨_, h7, _, h15, h20, _⟩ :=
      r_fields op.funct7Field (imm.extractLsb' 0 5) rs1 rd op.funct3Field op.opcodeField
    have hshamt : (imm.extractLsb' 0 5).setWidth 32 = imm := by
      apply BitVec.eq_of_toNat_eq
      rw [BitVec.toNat_setWidth, BitVec.extractLsb'_toNat, Nat.shiftRight_zero]
      have hlt' : imm.toNat < 32 := hlt
      omega
    simp only [Format.operandsOf, rdField_eq, rs1Field_eq, shamt_eq, Operands.mk.injEq, true_and]
    exact ⟨h7, h15, (congrArg (BitVec.setWidth 32) h20).trans hshamt⟩
  | s =>
    obtain ⟨rfl, hlo, hhi⟩ := h
    obtain ⟨_, h7, _, h15, h20, h25⟩ :=
      r_fields (imm.extractLsb' 5 7) rs2 rs1 (imm.extractLsb' 0 5) op.funct3Field op.opcodeField
    simp only [Format.operandsOf, rs1Field_eq, rs2Field_eq, Operands.mk.injEq, true_and]
    exact ⟨h15, h20, immS_enc h25 h7 hlo hhi⟩
  | b =>
    obtain ⟨rfl, hlo, hhi, heven⟩ := h
    obtain ⟨_, h7, h8, _, h15, h20, h25, h31⟩ :=
      b_fields rs2 rs1 op.funct3Field op.opcodeField (imm.extractLsb' 12 1)
        (imm.extractLsb' 5 6) (imm.extractLsb' 1 4) (imm.extractLsb' 11 1)
    simp only [Format.operandsOf, rs1Field_eq, rs2Field_eq, Operands.mk.injEq, true_and]
    exact ⟨h15, h20, immB_enc h31 h7 h25 h8 hlo hhi heven⟩
  | u =>
    obtain ⟨rfl, rfl, hlow⟩ := h
    obtain ⟨_, h7, h12⟩ := u_fields rd op.opcodeField (imm.extractLsb' 12 20)
    simp only [Format.operandsOf, rdField_eq, Operands.mk.injEq, true_and]
    exact ⟨h7, immU_enc h12 hlow⟩
  | j =>
    obtain ⟨rfl, rfl, hlo, hhi, heven⟩ := h
    obtain ⟨_, h7, h12, h20, h21, h31⟩ :=
      j_fields rd op.opcodeField (imm.extractLsb' 20 1) (imm.extractLsb' 1 10)
        (imm.extractLsb' 11 1) (imm.extractLsb' 12 8)
    simp only [Format.operandsOf, rdField_eq, Operands.mk.injEq, true_and]
    exact ⟨h7, immJ_enc h31 h12 h20 h21 hlo hhi heven⟩

/-! ## Decoding, then encoding -/

/-- What the extractors read fits the format. -/
theorem fits_operandsOf (fmt : Format) (w : Word) : fmt.Fits (fmt.operandsOf w) := by
  cases fmt with
  | r => rfl
  | i =>
    obtain ⟨hlo, hhi⟩ := Bits.toInt_signExtend_range (w := 32) (w.extractLsb' 20 12) (by decide)
    rw [← immI_eq] at hlo hhi
    exact ⟨rfl, hlo, hhi⟩
  | shift =>
    have hlt := (w.extractLsb' 20 5).isLt
    refine ⟨rfl, ?_⟩
    simp only [Format.operandsOf, shamt_eq, BitVec.toNat_setWidth]
    omega
  | s =>
    obtain ⟨hlo, hhi⟩ :=
      Bits.toInt_signExtend_range (w := 32) (w.extractLsb' 25 7 ++ w.extractLsb' 7 5) (by decide)
    rw [← immS_eq] at hlo hhi
    exact ⟨rfl, hlo, hhi⟩
  | b =>
    obtain ⟨hlo, hhi⟩ := Bits.toInt_signExtend_range (w := 32) (w.extractLsb' 31 1 ++
      w.extractLsb' 7 1 ++ w.extractLsb' 25 6 ++ w.extractLsb' 8 4 ++ 0#1) (by decide)
    rw [← immB_eq] at hlo hhi
    exact ⟨rfl, hlo, hhi, (Bits.extractLsb'_eq_zero_iff _ 1).mp (immB_cut w).2.2.2.2⟩
  | u => exact ⟨rfl, rfl, (Bits.extractLsb'_eq_zero_iff _ 12).mp (immU_cut w).2⟩
  | j =>
    obtain ⟨hlo, hhi⟩ := Bits.toInt_signExtend_range (w := 32) (w.extractLsb' 31 1 ++
      w.extractLsb' 12 8 ++ w.extractLsb' 20 1 ++ w.extractLsb' 21 10 ++ 0#1) (by decide)
    rw [← immJ_eq] at hlo hhi
    exact ⟨rfl, rfl, hlo, hhi, (Bits.extractLsb'_eq_zero_iff _ 1).mp (immJ_cut w).2.2.2.2⟩

/-- Encoding the operands read from an encoding gives it back. -/
theorem enc_operandsOf {w : Word} {op : Op} {fmt : Format} (h : op.format = some fmt)
    (hw : Encodes w op) : fmt.enc op (fmt.operandsOf w) = w := by
  unfold Encodes at hw
  rw [h] at hw
  cases fmt with
  | r =>
    obtain ⟨h0, h12, h25⟩ := hw
    simp only [Format.enc, Format.operandsOf, rdField_eq, rs1Field_eq, rs2Field_eq, ← h0, ← h12,
      ← h25]
    exact r_join w
  | i =>
    obtain ⟨h0, h12⟩ := hw
    simp only [Format.enc, Format.operandsOf, rdField_eq, rs1Field_eq, immI_cut, ← h0, ← h12]
    exact i_join w
  | shift =>
    obtain ⟨h0, h12, h25⟩ := hw
    have hshamt : (BitVec.setWidth 32 (w.extractLsb' 20 5)).extractLsb' 0 5 =
        w.extractLsb' 20 5 := by
      rw [← BitVec.setWidth_eq_extractLsb' (by decide),
        BitVec.setWidth_setWidth_of_le _ (by decide), BitVec.setWidth_eq]
    simp only [Format.enc, Format.operandsOf, rdField_eq, rs1Field_eq, shamt_eq, hshamt, ← h0,
      ← h12, ← h25]
    exact r_join w
  | s =>
    obtain ⟨h0, h12⟩ := hw
    obtain ⟨hhigh, hlow⟩ := immS_cut w
    simp only [Format.enc, Format.operandsOf, rs1Field_eq, rs2Field_eq, hhigh, hlow, ← h0, ← h12]
    exact r_join w
  | b =>
    obtain ⟨h0, h12⟩ := hw
    obtain ⟨i12, i11, i5, i1, _⟩ := immB_cut w
    simp only [Format.enc, Format.operandsOf, rs1Field_eq, rs2Field_eq, i12, i11, i5, i1, ← h0,
      ← h12]
    exact b_join w
  | u =>
    simp only [Format.enc, Format.operandsOf, rdField_eq, (immU_cut w).1, ← hw]
    exact u_join w
  | j =>
    obtain ⟨i20, i12, i11, i1, _⟩ := immJ_cut w
    simp only [Format.enc, Format.operandsOf, rdField_eq, i20, i12, i11, i1, ← hw]
    exact j_join w

/-! ## The round trips -/

/-- Decoding an encoded instruction gives the instruction. -/
theorem decode_enc {op : Op} {fmt : Format} {o : Operands} (pc : Word)
    (h : op.format = some fmt) (ho : fmt.Fits o) :
    decode (fmt.enc op o) pc =
      { raw := fmt.enc op o, pc := pc, op := op, rd := o.rd, rs1 := o.rs1, rs2 := o.rs2,
        imm := o.imm } := by
  have hop : (decode (fmt.enc op o) pc).op = op := (encodes_enc h o).decode pc
  have hoperands : (decode (fmt.enc op o) pc).operands = o := by
    have hformat : (decode (fmt.enc op o) pc).op.format = some fmt := by rw [hop]; exact h
    exact (decode_reads _ pc fmt hformat).trans (operandsOf_enc op ho)
  obtain ⟨hrd, hrs1, hrs2, himm⟩ := Operands.mk.inj hoperands
  exact Instruction.mk.injEq .. |>.mpr ⟨decode_raw _ _, decode_pc _ _, hop, hrd, hrs1, hrs2, himm⟩

/-- Encoding a decoded instruction gives the word. -/
theorem enc_decode {w pc : Word} {fmt : Format} (h : (decode w pc).op.format = some fmt) :
    fmt.Fits (decode w pc).operands ∧ fmt.enc (decode w pc).op (decode w pc).operands = w := by
  have hs : ¬ StraySystem w := by
    intro hstray
    rcases hstray.decode pc with hd | hd <;> rw [hd] at h <;> cases h
  have hlegal : (decode w pc).op ≠ .illegal := by
    intro hd
    rw [hd] at h
    cases h
  rw [decode_reads w pc fmt h]
  exact ⟨fits_operandsOf fmt w, enc_operandsOf h (encodes_decode w pc hlegal hs)⟩

/-- Decoding and encoding are inverse on the instructions with operands: encoded operands decode
    to themselves, a decoded word encodes to itself, and no two words decode alike. -/
theorem decode_enc_inverse :
    (∀ (op : Op) (fmt : Format) (o : Operands) (pc : Word), op.format = some fmt → fmt.Fits o →
      decode (fmt.enc op o) pc =
        { raw := fmt.enc op o, pc := pc, op := op, rd := o.rd, rs1 := o.rs1, rs2 := o.rs2,
          imm := o.imm }) ∧
    (∀ (w pc : Word) (fmt : Format), (decode w pc).op.format = some fmt →
      fmt.Fits (decode w pc).operands ∧ fmt.enc (decode w pc).op (decode w pc).operands = w) ∧
    (∀ w w' pc pc' : Word, (decode w pc).op.format ≠ none →
      (decode w pc).op = (decode w' pc').op → (decode w pc).operands = (decode w' pc').operands →
      w = w') := by
  refine ⟨fun op fmt o pc h ho => decode_enc pc h ho, fun w pc fmt h => enc_decode h, ?_⟩
  intro w w' pc pc' hformat hop hoperands
  obtain ⟨fmt, hfmt⟩ := Option.ne_none_iff_exists'.mp hformat
  have hfmt' : (decode w' pc').op.format = some fmt := hop ▸ hfmt
  calc w = fmt.enc (decode w pc).op (decode w pc).operands := (enc_decode hfmt).2.symm
    _ = fmt.enc (decode w' pc').op (decode w' pc').operands := by rw [hop, hoperands]
    _ = w' := (enc_decode hfmt').2

/-- `beq x1, x2, -4` is encoded as fe208ee3. -/
theorem decode_enc_inverse_beqBack :
    Format.enc .beq ⟨0, 1, 2, -4⟩ .b = 0xfe208ee3 ∧
      decode (Format.enc .beq ⟨0, 1, 2, -4⟩ .b) 0x100 =
        { raw := Format.enc .beq ⟨0, 1, 2, -4⟩ .b, pc := 0x100, op := .beq, rd := 0, rs1 := 1,
          rs2 := 2, imm := -4 } :=
  ⟨by decide, decode_enc_inverse.1 .beq .b ⟨0, 1, 2, -4⟩ 0x100 rfl
    ⟨rfl, by decide, by decide, by decide⟩⟩

end CpuSim.Rv32i
