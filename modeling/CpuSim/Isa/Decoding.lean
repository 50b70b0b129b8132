import CpuSim.Isa.Formats

/-!
# What the decoder accepts

`decode` against the formats of the manual. The op depends on opcode, funct3, funct7 and
funct12 alone (`decode_op`), so accepting is a matter of these four. They decide every
instruction but ECALL and EBREAK, which are single words: the decoder clears their register
fields without looking at them, and accepts words that the manual reserves.
-/

namespace CpuSim.Rv32i

/-! ## The op -/

/-- The op `decode` finds, as a function of the fields it looks at. -/
def opOf (opc f3 f7 f12 : Word) : Op :=
  if opc = opcLui then .lui
  else if opc = opcAuipc then .auipc
  else if opc = opcJal then .jal
  else if opc = opcJalr then if f3 ≠ 0 then .illegal else .jalr
  else if opc = opcBranch then branchOp f3
  else if opc = opcLoad then loadOp f3
  else if opc = opcStore then storeOp f3
  else if opc = opcOpImm then immOp f3 f7
  else if opc = opcOp then regOp f3 f7
  else if opc = opcMiscMem then if f3 ≠ 0 then .illegal else .fence
  else if opc = opcSystem then if f3 ≠ 0 then .illegal else systemOp f12
  else .illegal

theorem decode_op (w pc : Word) :
    (decode w pc).op = opOf (opcode w) (funct3 w) (funct7 w) (funct12 w) := by
  unfold decode opOf
  simp only [apply_ite Instruction.op]

/-- The fields of `op` are the ones the manual fixes for it. -/
structure Carries (op : Op) (opc f3 f7 f12 : Word) : Prop where
  opcode : opc = op.opcodeField.setWidth 32
  funct3 : op.format ≠ some .u → op.format ≠ some .j → f3 = op.funct3Field.setWidth 32
  funct7 : op.format = some .r ∨ op.format = some .shift → f7 = op.funct7Field.setWidth 32
  ecall : op = .ecall → f12 = 0
  ebreak : op = .ebreak → f12 = 1

/-- Whatever `decode` accepts has the fields of the instruction that it names. -/
theorem opOf_carries (opc f3 f7 f12 : Word) :
    opOf opc f3 f7 f12 = .illegal ∨ Carries (opOf opc f3 f7 f12) opc f3 f7 f12 := by
  unfold opOf
  repeat' (refine iteInduction (motive := fun op : Op => op = .illegal ∨
    Carries op opc f3 f7 f12) ?_ ?_ <;> intro h)
  all_goals first
    | exact .inl rfl
    -- The formats with a funct7, and those with a funct3 only.
    | exact .inr ⟨‹opc = _›, fun _ _ => ‹f3 = _›, fun _ => ‹f7 = _›, (nomatch ·), (nomatch ·)⟩
    | exact .inr ⟨‹opc = _›, fun _ _ => ‹f3 = _›, (nomatch ·), (nomatch ·), (nomatch ·)⟩
    -- LUI, AUIPC and JAL.
    | exact .inr ⟨‹opc = _›, fun hu _ => absurd rfl hu, (nomatch ·), (nomatch ·), (nomatch ·)⟩
    | exact .inr ⟨‹opc = _›, fun _ hj => absurd rfl hj, (nomatch ·), (nomatch ·), (nomatch ·)⟩
    -- ECALL and EBREAK, then JALR and FENCE.
    | exact .inr ⟨‹opc = _›, fun _ _ => not_not.mp ‹_›, (nomatch ·), fun _ => ‹f12 = f12Ecall›,
        (nomatch ·)⟩
    | exact .inr ⟨‹opc = _›, fun _ _ => not_not.mp ‹_›, (nomatch ·), (nomatch ·),
        fun _ => ‹f12 = f12Ebreak›⟩
    | exact .inr ⟨‹opc = _›, fun _ _ => not_not.mp ‹_›, (nomatch ·), (nomatch ·), (nomatch ·)⟩

/-- Fields that the manual fixes for an instruction make `decode` name it. -/
theorem opOf_of_carries {op : Op} (hop : op ≠ .illegal) {opc f3 f7 f12 : Word}
    (h : Carries op opc f3 f7 f12) : opOf opc f3 f7 f12 = op := by
  obtain ⟨rfl, h3, h7, hc, hb⟩ := h
  cases op
  case illegal => exact absurd rfl hop
  case lui | auipc | jal => rfl
  case ecall => rw [h3 (nomatch ·) (nomatch ·), hc rfl]; rfl
  case ebreak => rw [h3 (nomatch ·) (nomatch ·), hb rfl]; rfl
  case add | sub | sll | srl | sra | slt | sltu | and | or | xor =>
    rw [h3 (nomatch ·) (nomatch ·), h7 (.inl rfl)]
    rfl
  case slli | srli | srai =>
    rw [h3 (nomatch ·) (nomatch ·), h7 (.inr rfl)]
    rfl
  all_goals
    rw [h3 (nomatch ·) (nomatch ·)]
    rfl

/-! ## Encodings of the manual -/

theorem opcode_iff (w : Word) (op : Op) :
    opcode w = op.opcodeField.setWidth 32 ↔ w.extractLsb' 0 7 = op.opcodeField := by
  rw [opcode_eq]
  exact Bits.setWidth_inj (by decide)

theorem funct3_iff (w : Word) (op : Op) :
    funct3 w = op.funct3Field.setWidth 32 ↔ w.extractLsb' 12 3 = op.funct3Field := by
  rw [funct3_eq]
  exact Bits.setWidth_inj (by decide)

theorem funct7_iff (w : Word) (op : Op) :
    funct7 w = op.funct7Field.setWidth 32 ↔ w.extractLsb' 25 7 = op.funct7Field := by
  rw [funct7_eq]
  exact Bits.setWidth_inj (by decide)

/-- An encoding of an instruction has its fields. -/
theorem Encodes.carries {w : Word} {op : Op} (h : Encodes w op) :
    op ≠ .illegal ∧ Carries op (opcode w) (funct3 w) (funct7 w) (funct12 w) := by
  unfold Encodes at h
  split at h
  case h_1 hf | h_2 hf =>
    obtain ⟨h1, h3, h7⟩ := h
    refine ⟨?_, (opcode_iff w op).mpr h1, fun _ _ => (funct3_iff w op).mpr h3,
      fun _ => (funct7_iff w op).mpr h7, ?_, ?_⟩ <;> rintro rfl <;> cases hf
  case h_3 hf | h_4 hf | h_5 hf =>
    obtain ⟨h1, h3⟩ := h
    refine ⟨?_, (opcode_iff w op).mpr h1, fun _ _ => (funct3_iff w op).mpr h3, ?_, ?_, ?_⟩
    · rintro rfl
      cases hf
    · rw [hf]
      rintro (hr | hr) <;> cases hr
    all_goals
      rintro rfl
      cases hf
  case h_6 hf | h_7 hf =>
    refine ⟨?_, (opcode_iff w op).mpr h, ?_, ?_, ?_, ?_⟩
    · rintro rfl
      cases hf
    · intro hu hj
      first | exact absurd hf hu | exact absurd hf hj
    · rw [hf]
      rintro (hr | hr) <;> cases hr
    all_goals
      rintro rfl
      cases hf
  case h_8 hf =>
    split at h
    · obtain ⟨h1, h3⟩ := h
      exact ⟨by decide, (opcode_iff w _).mpr h1, fun _ _ => (funct3_iff w _).mpr h3,
        (nomatch ·), (nomatch ·), (nomatch ·)⟩
    · subst h
      exact ⟨by decide, by decide, fun _ _ => by decide, (nomatch ·), fun _ => by decide,
        (nomatch ·)⟩
    · subst h
      exact ⟨by decide, by decide, fun _ _ => by decide, (nomatch ·), (nomatch ·),
        fun _ => by decide⟩
    · cases h

/-- Every encoding of an instruction decodes to it. -/
theorem Encodes.decode {w : Word} {op : Op} (h : Encodes w op) (pc : Word) :
    (decode w pc).op = op := by
  obtain ⟨hop, hc⟩ := h.carries
  rw [decode_op]
  exact opOf_of_carries hop hc

/-! ## Words and their fields -/

/-- A word is its fields, bit 31 first. -/
theorem word_eq_fields (w : Word) :
    w.extractLsb' 20 12 ++ w.extractLsb' 15 5 ++ w.extractLsb' 12 3 ++ w.extractLsb' 7 5 ++
      w.extractLsb' 0 7 = w := by
  rw [BitVec.extractLsb'_append_extractLsb'_eq_extractLsb' (by rfl),
    BitVec.extractLsb'_append_extractLsb'_eq_extractLsb' (by rfl),
    BitVec.extractLsb'_append_extractLsb'_eq_extractLsb' (by rfl),
    BitVec.extractLsb'_append_extractLsb'_eq_extractLsb' (by rfl)]
  exact BitVec.extractLsb'_eq_self

/-- ECALL or EBREAK but for its register fields, which the manual wants to be zero. -/
def StraySystem (w : Word) : Prop :=
  opcode w = opcSystem ∧ funct3 w = 0 ∧ (funct12 w = f12Ecall ∨ funct12 w = f12Ebreak) ∧
    (rdField w ≠ 0 ∨ rs1Field w ≠ 0)

instance (w : Word) : Decidable (StraySystem w) := by unfold StraySystem; infer_instance

/-- Without stray register fields the four fields of a system instruction are the whole word. -/
theorem system_word {w : Word} (hopc : opcode w = opcSystem) (hf3 : funct3 w = 0)
    {f : BitVec 12} (hf : funct12 w = f.setWidth 32) (hrd : rdField w = 0)
    (hrs1 : rs1Field w = 0) : w = f ++ 0#5 ++ 0#3 ++ 0#5 ++ 0b1110011#7 := by
  rw [opcode_eq] at hopc
  rw [funct3_eq] at hf3
  rw [funct12_eq] at hf
  have h0 : w.extractLsb' 0 7 = 0b1110011#7 := (Bits.setWidth_inj (by decide)).mp hopc
  have h12 : w.extractLsb' 12 3 = 0#3 := (Bits.setWidth_inj (w := 32) (by decide)).mp hf3
  have h20 : w.extractLsb' 20 12 = f := (Bits.setWidth_inj (by decide)).mp hf
  rw [rdField_eq] at hrd
  rw [rs1Field_eq] at hrs1
  have hw := word_eq_fields w
  rw [h0, h12, h20, hrd, hrs1] at hw
  exact hw.symm

/-- What `decode` accepts is an encoding of the instruction it names, unless it is a stray
    system word. -/
theorem encodes_decode (w pc : Word) (h : (decode w pc).op ≠ .illegal) (hs : ¬ StraySystem w) :
    Encodes w (decode w pc).op := by
  rw [decode_op] at h ⊢
  generalize hop : opOf (opcode w) (funct3 w) (funct7 w) (funct12 w) = op at h ⊢
  have hc : Carries op (opcode w) (funct3 w) (funct7 w) (funct12 w) := by
    have hcases := opOf_carries (opcode w) (funct3 w) (funct7 w) (funct12 w)
    rw [hop] at hcases
    exact hcases.resolve_left h
  have hrange : ∀ f : BitVec 12, (f = 0 ∨ f = 1) → opcode w = opcSystem → funct3 w = 0 →
      funct12 w = f.setWidth 32 → w = f ++ 0#5 ++ 0#3 ++ 0#5 ++ 0b1110011#7 := by
    intro f hf h1 h3 h12
    have hclean : ¬ (rdField w ≠ 0 ∨ rs1Field w ≠ 0) := by
      intro hstray
      refine hs ⟨h1, h3, ?_, hstray⟩
      rcases hf with rfl | rfl
      · exact .inl h12
      · exact .inr h12
    simp only [ne_eq, not_or, not_not] at hclean
    exact system_word h1 h3 h12 hclean.1 hclean.2
  unfold Encodes
  split
  case h_1 hf | h_2 hf =>
    refine ⟨(opcode_iff w op).mp hc.opcode, (funct3_iff w op).mp (hc.funct3 ?_ ?_),
      (funct7_iff w op).mp (hc.funct7 ?_)⟩ <;> rw [hf] <;> simp
  case h_3 hf | h_4 hf | h_5 hf =>
    refine ⟨(opcode_iff w op).mp hc.opcode, (funct3_iff w op).mp (hc.funct3 ?_ ?_)⟩ <;>
      rw [hf] <;> simp
  case h_6 hf | h_7 hf => exact (opcode_iff w op).mp hc.opcode
  case h_8 hf =>
    split
    · exact ⟨(opcode_iff w _).mp hc.opcode, (funct3_iff w _).mp (hc.funct3 (nomatch ·) (nomatch ·))⟩
    · exact hrange 0 (.inl rfl) hc.opcode (hc.funct3 (nomatch ·) (nomatch ·)) (hc.ecall rfl)
    · exact hrange 1 (.inr rfl) hc.opcode (hc.funct3 (nomatch ·) (nomatch ·)) (hc.ebreak rfl)
    · rename_i h1 h2 h3
      cases op with
      | fence => exact (h1 rfl).elim
      | ecall => exact (h2 rfl).elim
      | ebreak => exact (h3 rfl).elim
      | illegal => exact (h rfl).elim
      | _ => cases hf

/-- A stray system word is decoded as ECALL or EBREAK. -/
theorem StraySystem.decode {w : Word} (h : StraySystem w) (pc : Word) :
    (decode w pc).op = .ecall ∨ (decode w pc).op = .ebreak := by
  obtain ⟨hopc, hf3, hf12, _⟩ := h
  rw [decode_op, hopc, hf3]
  rcases hf12 with hf | hf <;> rw [hf]
  · exact .inl rfl
  · exact .inr rfl

/-- A stray system word encodes nothing. -/
theorem StraySystem.not_encodes {w : Word} (h : StraySystem w) (op : Op) : ¬ Encodes w op := by
  intro henc
  obtain ⟨_, _, _, hstray⟩ := id h
  have hfields : rdField (0x00000073 : Word) = 0 ∧ rs1Field (0x00000073 : Word) = 0 ∧
      rdField (0x00100073 : Word) = 0 ∧ rs1Field (0x00100073 : Word) = 0 := by decide
  have hop := henc.decode 0
  rcases h.decode 0 with hd | hd <;> rw [hop] at hd <;> subst hd
  · obtain rfl : w = 0x00000073 := henc
    exact hstray.elim (absurd hfields.1) (absurd hfields.2.1)
  · obtain rfl : w = 0x00100073 := henc
    exact hstray.elim (absurd hfields.2.2.1) (absurd hfields.2.2.2)

/-- `decode` accepts exactly the encodings of RV32I, each as the instruction it encodes, but for
    the words that are ECALL or EBREAK up to their register fields. -/
theorem decode_exact_iff (w pc : Word) :
    (((decode w pc).op ≠ .illegal ↔ ∃ op, Encodes w op) ∧
      ((decode w pc).op ≠ .illegal → Encodes w (decode w pc).op)) ↔ ¬ StraySystem w := by
  constructor
  · rintro ⟨_, hnames⟩ hstray
    refine hstray.not_encodes _ (hnames ?_)
    rcases hstray.decode pc with hd | hd <;> rw [hd] <;> decide
  · intro hs
    refine ⟨⟨fun h => ⟨_, encodes_decode w pc h hs⟩, ?_⟩, fun h => encodes_decode w pc h hs⟩
    rintro ⟨op, henc⟩
    rw [henc.decode pc]
    exact henc.carries.1

/-- `ecall` with 1 in its rd field is accepted, and is no instruction of RV32I. -/
theorem decode_accepts_stray_ecall :
    (decode 0x000000F3 0).op = .ecall ∧ ¬ ∃ op, Encodes 0x000000F3 op :=
  ⟨by decide, fun ⟨op, henc⟩ => (show StraySystem 0x000000F3 by decide).not_encodes op henc⟩

end CpuSim.Rv32i
