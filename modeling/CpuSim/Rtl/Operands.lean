import CpuSim.Rtl.Correct
import CpuSim.Rtl.InOrder

/-!
# Operands of an instruction held in EX

The forwarding unit matches destination numbers, the write-back stage looks at the op, and the
hazard unit keeps the reader of a load's destination out of EX. Together they make the operands
of an instruction in EX settle: behind an access that MEM waits for, they are the registers as
the older instructions leave them, and the capture on every stalled cycle keeps them while the
producers drain away.
-/

namespace CpuSim

open Rv32i

namespace Pipe

variable {p q u : Pipe} {f : FetchOut Port} {m : MemOut Port}

/-! ## Instructions that write no register -/

/-- A destination that forwarding may match although WB does not write it is x0. Only the words
    the decoder rejects keep their raw destination. -/
def NamesX0 (op : Op) (rd : RegIdx) : Prop :=
  hasWriteback op = false → op ≠ .illegal → rd = 0#5

/-- Every instruction past ID names a destination only if it writes it, or is rejected. -/
structure Named (p : Pipe) : Prop where
  idEx : p.idEx.valid = true → NamesX0 p.idEx.op p.idEx.rd
  exMem : p.exMem.valid = true → NamesX0 p.exMem.op p.exMem.rd
  memWb : p.memWb.valid = true → NamesX0 p.memWb.op p.memWb.rd

theorem decodeInsn_namesX0 (rf : RegFile) {fe : IfId} (h : (decodeInsn rf fe).valid = true) :
    NamesX0 (decodeInsn rf fe).op (decodeInsn rf fe).rd := by
  cases hv : fe.valid with
  | false =>
    unfold decodeInsn at h
    rw [hv] at h
    cases h
  | true =>
    have hh := decodeInsn_holds rf hv
    intro hw hnh
    rw [hh.op] at hw hnh
    rw [hh.rd]
    exact (decode_decoded fe.raw fe.pc).rd hw hnh

theorem Named.tick (h : p.Named) (hrun : p.halted = false) (ht : p.tick = some q) : q.Named := by
  obtain ⟨f, m, -, hm, ⟨hs, rfl⟩ | ⟨hs, rfl⟩⟩ := tick_cases hrun ht
  · obtain ⟨-, -, hout, -⟩ := mem_stalled hm hs
    refine ⟨fun hv => ?_, h.exMem, fun hv => ?_⟩
    · change p.captured.valid = true at hv
      rw [captured_valid] at hv
      change NamesX0 p.captured.op p.captured.rd
      rw [captured_of_valid hv]
      exact h.idEx hv
    · change m.out.valid = true at hv
      rw [hout] at hv; cases hv
  · refine ⟨fun hv => ?_, fun hv => ?_, fun hv => ?_⟩
    · have hid : (p.flowNext f m).idEx =
          if p.exec.redirect || p.hazard then {} else decodeInsn p.rf p.ifId := rfl
      rw [hid] at hv ⊢
      split at hv
      · cases hv
      · rename_i hstays
        rw [if_neg hstays]
        exact decodeInsn_namesX0 p.rf hv
    · change p.exec.out.valid = true at hv
      rw [exec_valid] at hv
      change NamesX0 p.exec.out.op p.exec.out.rd
      rw [exec_op hv, exec_rd hv]
      exact h.idEx hv
    · change m.out.valid = true at hv
      change NamesX0 m.out.op m.out.rd
      rw [mem_out hm hs] at hv ⊢
      split at hv
      · rename_i hx
        rw [if_pos hx]
        exact h.exMem hx
      · cases hv

/-- A register after the write-back of this cycle. -/
theorem Named.read_written (h : p.Named) (hnh : p.halting = false) {r : RegIdx} (hr : r ≠ 0#5) :
    p.written.read r =
      if p.memWb.valid && p.memWb.rd == r then p.memWb.wbVal else p.rf.read r := by
  unfold written writesBack
  cases hv : p.memWb.valid with
  | false => rfl
  | true =>
    rw [Bool.true_and, Bool.true_and]
    cases hw : hasWriteback p.memWb.op with
    | false =>
      have hop : p.memWb.op ≠ .illegal := by
        intro hi
        rw [halting, hv, hi] at hnh
        cases hnh
      have hne : (p.memWb.rd == r) = false := by
        rw [h.memWb hv hw hop]
        exact beq_eq_false_iff_ne.mpr (Ne.symm hr)
      rw [hne]
      rfl
    | true =>
      rw [if_pos rfl, RegFile.read_write]
      by_cases hrd : p.memWb.rd = r
      · rw [if_pos ⟨hrd.symm, hrd ▸ hr⟩, if_pos (beq_iff_eq.mpr hrd)]
      · rw [if_neg fun hc => hrd hc.1.symm, if_neg (by simpa using hrd)]

/-- What EX makes next cycle of a register that ID reads on this one. -/
def nextOperand (p : Pipe) (ex : ExMem) (wb : MemWb) (r : RegIdx) : Word :=
  resolve ex wb p.memWb r (p.rf.read r)

/-- It is the same whether ID reads before or after WB has written. -/
theorem Named.nextOperand_written (h : p.Named) (hnh : p.halting = false) (ex : ExMem)
    (wb : MemWb) (r : RegIdx) :
    resolve ex wb {} r (p.written.read r) = p.nextOperand ex wb r := by
  unfold nextOperand resolve
  by_cases hr : r = 0#5
  · rw [if_pos hr, if_pos hr]
  · rw [if_neg hr, if_neg hr, h.read_written hnh hr]
    rfl

/-! ## The load-use interlock -/

/-- A valid instruction in EX was decoded on the tick before. -/
theorem flowNext_idEx (hv : (p.flowNext f m).idEx.valid = true) :
    p.hazard = false ∧ p.ifId.valid = true ∧
      (p.flowNext f m).idEx = decodeInsn p.rf p.ifId := by
  have hid : (p.flowNext f m).idEx =
      if p.exec.redirect || p.hazard then {} else decodeInsn p.rf p.ifId := rfl
  rw [hid] at hv ⊢
  split at hv
  · cases hv
  · rename_i hstays
    rw [if_neg hstays]
    simp only [Bool.or_eq_true, not_or, Bool.not_eq_true] at hstays
    refine ⟨hstays.2, ?_, rfl⟩
    cases hif : p.ifId.valid with
    | true => rfl
    | false =>
      unfold decodeInsn at hv
      rw [hif] at hv
      cases hv

/-- No instruction in EX reads the register that a load in MEM is about to fetch. -/
def Interlocked (p : Pipe) : Prop :=
  p.exMem.valid = true → isLoad p.exMem.op = true → p.exMem.rd ≠ 0#5 → p.idEx.valid = true →
    p.idEx.rs1 ≠ p.exMem.rd ∧ p.idEx.rs2 ≠ p.exMem.rd

/-- The capture on a stalled cycle leaves the register numbers alone. -/
theorem Interlocked.stall (h : p.Interlocked) (f : FetchOut Port) (m : MemOut Port) :
    (p.stallNext f m).Interlocked := by
  intro hx hl hrd hv
  change p.captured.valid = true at hv
  change p.captured.rs1 ≠ p.exMem.rd ∧ p.captured.rs2 ≠ p.exMem.rd
  rw [captured_valid] at hv
  rw [captured_rs1, captured_rs2]
  exact h hx hl hrd hv

/-- The hazard unit has kept the reader out of EX when the load leaves it. -/
theorem interlocked_flow (p : Pipe) (f : FetchOut Port) (m : MemOut Port) :
    (p.flowNext f m).Interlocked := by
  intro hx hl hrd hv
  obtain ⟨hhz, hif, heq⟩ := flowNext_idEx hv
  rw [heq]
  exact Tracks.flow_interlock p hl hx hrd hhz hif

theorem Interlocked.tick (h : p.Interlocked) (ht : p.tick = some q) : q.Interlocked := by
  cases hh : p.halted with
  | true => exact eq_of_tick_of_halted hh ht ▸ h
  | false =>
    obtain ⟨f, m, -, -, ⟨-, rfl⟩ | ⟨-, rfl⟩⟩ := tick_cases hh ht
    · exact h.stall f m
    · exact interlocked_flow p f m

/-! ## The operands settle -/

/-- The instruction in EX does not read what a load in MEM is about to fetch, and what it has
    read is, but for the entry in MEM, the register file after this cycle's write-back. -/
structure Settled (p : Pipe) : Prop where
  named : p.Named
  interlock : p.exMem.valid = true → isLoad p.exMem.op = true → p.exMem.rd ≠ 0#5 →
    p.idEx.valid = true → p.idEx.rs1 ≠ p.exMem.rd ∧ p.idEx.rs2 ≠ p.exMem.rd
  rs1 : p.halting = false → p.idEx.valid = true →
    resolve {} p.memWb p.prevMemWb p.idEx.rs1 p.idEx.rs1Val = p.written.read p.idEx.rs1
  rs2 : p.halting = false → p.idEx.valid = true →
    resolve {} p.memWb p.prevMemWb p.idEx.rs2 p.idEx.rs2Val = p.written.read p.idEx.rs2

/-- An entry in EX/MEM that does not name the register is not forwarded. -/
theorem resolve_skip {ex : ExMem} {reg : RegIdx} (h : reg ≠ 0#5 → ex.rd ≠ reg)
    (wb prev : MemWb) (cur : Word) :
    resolve ex wb prev reg cur = resolve {} wb prev reg cur := by
  unfold resolve
  by_cases hr : reg = 0#5
  · rw [if_pos hr, if_pos hr]
  · have hne : (ex.rd == reg) = false := beq_eq_false_iff_ne.mpr (h hr)
    rw [if_neg hr, if_neg hr, hne, Bool.and_false]
    rfl

/-- So the address of a load in MEM is never forwarded to the instruction in EX. -/
theorem Interlocked.resolve_load (h : p.Interlocked) (hx : p.exMem.valid = true)
    (hl : isLoad p.exMem.op = true) (hv : p.idEx.valid = true) {reg : RegIdx}
    (hreg : reg = p.idEx.rs1 ∨ reg = p.idEx.rs2) (cur : Word) :
    p.operand reg cur = resolve {} p.memWb p.prevMemWb reg cur := by
  refine resolve_skip ?_ _ _ _
  intro hr hrd
  obtain ⟨h1, h2⟩ := h hx hl (hrd ▸ hr) hv
  rcases hreg with rfl | rfl
  · exact h1 hrd.symm
  · exact h2 hrd.symm

theorem isMemOp_cases {op : Op} (h : isMemOp op = true) :
    isLoad op = true ∨ (hasWriteback op = false ∧ op ≠ .illegal) := by
  cases op <;> simp_all [isMemOp, isStore, isLoad, hasWriteback]

/-- The destination of an access in MEM is no operand of the instruction behind it. -/
theorem Settled.exMem_rd (h : p.Settled) (hx : p.exMem.valid = true)
    (hop : isMemOp p.exMem.op = true) (hv : p.idEx.valid = true) {reg : RegIdx}
    (hreg : reg = p.idEx.rs1 ∨ reg = p.idEx.rs2) (hr : reg ≠ 0#5) : p.exMem.rd ≠ reg := by
  intro hrd
  rcases isMemOp_cases hop with hload | ⟨hw, hill⟩
  · obtain ⟨h1, h2⟩ := h.interlock hx hload (hrd ▸ hr) hv
    rcases hreg with rfl | rfl
    · exact h1 hrd.symm
    · exact h2 hrd.symm
  · rw [h.named.exMem hx hw hill] at hrd
    exact hr hrd.symm

/-- Behind an access, the operands are the registers after this cycle's write-back. -/
theorem Settled.operands (h : p.Settled) (hx : p.exMem.valid = true)
    (hop : isMemOp p.exMem.op = true) (hnh : p.halting = false) (hv : p.idEx.valid = true) :
    p.operand p.idEx.rs1 p.idEx.rs1Val = p.written.read p.idEx.rs1 ∧
      p.operand p.idEx.rs2 p.idEx.rs2Val = p.written.read p.idEx.rs2 := by
  constructor
  · rw [← h.rs1 hnh hv]
    exact resolve_skip (h.exMem_rd hx hop hv (.inl rfl)) _ _ _
  · rw [← h.rs2 hnh hv]
    exact resolve_skip (h.exMem_rd hx hop hv (.inr rfl)) _ _ _

/-- The forwarding snapshot alone finds the last write-back in the register file. -/
theorem Named.resolve_written (h : p.Named) (hnh : p.halting = false) (reg : RegIdx) :
    resolve {} {} p.memWb reg (p.written.read reg) = p.written.read reg := by
  unfold resolve
  by_cases hr : reg = 0#5
  · rw [if_pos hr, hr, RegFile.read_zero]
    rfl
  · rw [if_neg hr, h.read_written hnh hr]
    change (if p.memWb.valid && p.memWb.rd == reg then _ else _) = _
    split <;> rfl

theorem Settled.stall (h : p.Settled) (hnamed : (p.stallNext f m).Named) (hm : p.mem = some m)
    (hs : m.stalling = true) (hnh : p.halting = false) : (p.stallNext f m).Settled := by
  obtain ⟨hx, hop, hout, -⟩ := mem_stalled hm hs
  have hid : (p.stallNext f m).idEx = p.captured := rfl
  have hwb : (p.stallNext f m).memWb = {} := hout
  have hwritten : (p.stallNext f m).written = p.written := by
    unfold written
    rw [hwb]
    rfl
  refine ⟨hnamed, ?_, ?_, ?_⟩
  · exact Interlocked.stall h.interlock f m
  all_goals
    intro _ hv
    rw [hid, captured_valid] at hv
    obtain ⟨h1, h2⟩ := h.operands hx hop hnh hv
    rw [hwritten, hwb, hid, captured_of_valid hv]
  · dsimp only
    rw [h1]
    exact h.named.resolve_written hnh _
  · dsimp only
    rw [h2]
    exact h.named.resolve_written hnh _

theorem decodeInsn_vals (rf : RegFile) {fe : IfId} (h : fe.valid = true) :
    (decodeInsn rf fe).rs1Val = rf.read (decodeInsn rf fe).rs1 ∧
      (decodeInsn rf fe).rs2Val = rf.read (decodeInsn rf fe).rs2 := by
  unfold decodeInsn
  rw [h]
  exact ⟨rfl, rfl⟩

/-- What ID has read is the register file up to the two write-backs it has missed. -/
theorem Named.resolve_read (h : p.Named) (hnamed : (p.flowNext f m).Named)
    (hnh : p.halting = false) (hnh' : (p.flowNext f m).halting = false) (reg : RegIdx) :
    resolve {} m.out p.memWb reg (p.rf.read reg) = (p.flowNext f m).written.read reg := by
  unfold resolve
  by_cases hr : reg = 0#5
  · rw [if_pos hr, hr, RegFile.read_zero]
    rfl
  · rw [if_neg hr, hnamed.read_written hnh' hr]
    change (if m.out.valid && m.out.rd == reg then m.out.wbVal
      else if p.memWb.valid && p.memWb.rd == reg then p.memWb.wbVal else p.rf.read reg) =
      if m.out.valid && m.out.rd == reg then m.out.wbVal else p.written.read reg
    rw [h.read_written hnh hr]

theorem Settled.flow (h : p.Settled) (hnamed : (p.flowNext f m).Named)
    (hnh : p.halting = false) : (p.flowNext f m).Settled := by
  refine ⟨hnamed, ?_, ?_, ?_⟩
  · exact interlocked_flow p f m
  · intro hnh' hv
    obtain ⟨-, hif, heq⟩ := flowNext_idEx hv
    rw [heq, (decodeInsn_vals p.rf hif).1]
    exact h.named.resolve_read hnamed hnh hnh' _
  · intro hnh' hv
    obtain ⟨-, hif, heq⟩ := flowNext_idEx hv
    rw [heq, (decodeInsn_vals p.rf hif).2]
    exact h.named.resolve_read hnamed hnh hnh' _

theorem Settled.tick (h : p.Settled) (hrun : p.halted = false) (hnh : p.halting = false)
    (ht : p.tick = some q) : q.Settled := by
  have hnamed := h.named.tick hrun ht
  obtain ⟨f, m, -, hm, ⟨hs, rfl⟩ | ⟨hs, rfl⟩⟩ := tick_cases hrun ht
  · exact h.stall hnamed hm hs hnh
  · exact h.flow hnamed hnh

/-! ## The stall -/

/-- `q` still holds the instruction that `p` has in EX, behind the same entry in MEM, and
    forwarding still gives it the operands that it gave it in `p`. -/
structure Frozen (p q : Pipe) : Prop where
  running : q.halted = false
  calm : q.halting = false
  exMem : q.exMem = p.exMem
  idEx : q.idEx = { p.idEx with rs1Val := q.idEx.rs1Val, rs2Val := q.idEx.rs2Val }
  rs1 : q.operand p.idEx.rs1 q.idEx.rs1Val = p.operand p.idEx.rs1 p.idEx.rs1Val
  rs2 : q.operand p.idEx.rs2 q.idEx.rs2Val = p.operand p.idEx.rs2 p.idEx.rs2Val

/-- A stalled tick empties MEM/WB and keeps the operands. -/
theorem Frozen.stall (h : p.Frozen q) (hv : p.idEx.valid = true) (hs : q.stalls = true)
    (ht : q.tick = some u) : p.Frozen u ∧ u.memWb = {} := by
  obtain ⟨f, m, -, hm, ⟨hst, rfl⟩ | ⟨hst, rfl⟩⟩ := tick_cases h.running ht
  · obtain ⟨-, -, hout, -⟩ := mem_stalled hm hst
    have hvq : q.idEx.valid = true := by
      rw [h.idEx]
      exact hv
    have hrs1 : q.idEx.rs1 = p.idEx.rs1 := by rw [h.idEx]
    have hrs2 : q.idEx.rs2 = p.idEx.rs2 := by rw [h.idEx]
    have hwb : (q.stallNext f m).memWb = {} := hout
    have hid : (q.stallNext f m).idEx =
        { p.idEx with
          rs1Val := q.operand p.idEx.rs1 q.idEx.rs1Val
          rs2Val := q.operand p.idEx.rs2 q.idEx.rs2Val } := by
      change q.captured = _
      rw [captured_of_valid hvq, hrs1, hrs2]
      nth_rewrite 1 [h.idEx]
      rfl
    refine ⟨⟨?_, ?_, h.exMem, ?_, ?_, ?_⟩, hwb⟩
    · change (if q.halting then true else q.halted) = false
      rw [h.calm, h.running]
      rfl
    · unfold halting
      rw [hwb]
      rfl
    · rw [hid]
    · rw [hid]
      exact (Tracks.operand_stallNext q f hout _ _).trans h.rs1
    · rw [hid]
      exact (Tracks.operand_stallNext q f hout _ _).trans h.rs2
  · rw [mem_stalling hm, hs] at hst
    cases hst

theorem Frozen.refl (hrun : p.halted = false) (hnh : p.halting = false) : p.Frozen p :=
  ⟨hrun, hnh, rfl, rfl, rfl, rfl⟩

/-- However long MEM stalls, the instruction in EX keeps its operands. -/
theorem frozen_of_ticks (hrun : p.halted = false) (hnh : p.halting = false)
    (hv : p.idEx.valid = true) {n : Nat}
    (hstalls : ∀ i < n, ∀ u, p.ticks i = some u → u.stalls = true) (hq : p.ticks n = some q) :
    p.Frozen q ∧ (0 < n → q.memWb = {}) := by
  induction n generalizing q with
  | zero =>
    simp only [ticks, Runs.run_zero, Option.some.injEq] at hq
    subst hq
    exact ⟨.refl hrun hnh, fun hpos => absurd hpos (Nat.lt_irrefl 0)⟩
  | succ n ih =>
    obtain ⟨u, hu, huq⟩ := (Runs.run_succ_eq_some tick).mp hq
    obtain ⟨hfr, -⟩ := ih (fun i hi => hstalls i (by omega)) hu
    obtain ⟨hfr', hwb⟩ := hfr.stall hv (hstalls n (by omega) u hu) huq
    exact ⟨hfr', fun _ => hwb⟩

/-- On the cycle after the release the access has its entry in MEM/WB, and its write-back does
    not touch the operands. -/
theorem Settled.release (h : p.Settled) (hrun : p.halted = false) (hwb : p.memWb = {})
    (hx : p.exMem.valid = true) (hop : isMemOp p.exMem.op = true) (hv : p.idEx.valid = true)
    (hs : p.stalls = false) (ht : p.tick = some q) :
    p.operand p.idEx.rs1 p.idEx.rs1Val = q.written.read p.idEx.rs1 ∧
      p.operand p.idEx.rs2 p.idEx.rs2Val = q.written.read p.idEx.rs2 := by
  have hnh : p.halting = false := by
    unfold halting
    rw [hwb]
    rfl
  have hnamed := h.named.tick hrun ht
  obtain ⟨f, m, -, hm, ⟨hst, rfl⟩ | ⟨hst, rfl⟩⟩ := tick_cases hrun ht
  · rw [mem_stalling hm, hs] at hst
    cases hst
  · obtain ⟨-, hout, -⟩ := mem_flowed hm hst
    have hq : (p.flowNext f m).memWb = p.exMem.memWb p.dport.bytes := hout hx
    have hnh' : (p.flowNext f m).halting = false := by
      unfold halting
      rw [hq]
      have hno : isHalting p.exMem.op = false := by
        cases hop' : p.exMem.op <;> rw [hop'] at hop <;> first | rfl | cases hop
      exact hno
    have hkeep : ∀ reg, (reg = p.idEx.rs1 ∨ reg = p.idEx.rs2) →
        (p.flowNext f m).written.read reg = p.written.read reg := by
      intro reg hreg
      by_cases hr : reg = 0#5
      · rw [hr, RegFile.read_zero, RegFile.read_zero]
      · have hne : (p.exMem.rd == reg) = false :=
          beq_eq_false_iff_ne.mpr (h.exMem_rd hx hop hv hreg hr)
        rw [hnamed.read_written hnh' hr, hq]
        change (if true && p.exMem.rd == reg then _ else p.written.read reg) = _
        rw [hne]
        rfl
    obtain ⟨h1, h2⟩ := h.operands hx hop hnh hv
    exact ⟨h1.trans (hkeep _ (.inl rfl)).symm, h2.trans (hkeep _ (.inr rfl)).symm⟩

end Pipe

namespace Core

theorem settled_boot (cfg : SimConfig) (imem dmem : Nat → Byte) (rf : RegFile) :
    (boot cfg imem dmem rf).view.Settled :=
  ⟨⟨(nomatch ·), (nomatch ·), (nomatch ·)⟩, (nomatch ·), fun _ => (nomatch ·),
    fun _ => (nomatch ·)⟩

/-- From a running state on whose tick MEM stalls, with a valid instruction in EX and nothing to
    halt on in MEM/WB: through the whole stall, its last cycle included, that instruction stays
    in EX and forwarding gives it the same operands. When the access completes, these are the
    registers after the write-backs of all instructions that left EX before it. -/
theorem frozen_operands (cfg : SimConfig) (imem dmem : Nat → Byte) (rf : RegFile) (k : Nat)
    (c : Core) (hc : (boot cfg imem dmem rf).ticks k = some c) (hrun : c.halted = false)
    (hstall : c.view.stalls = true) (hex : c.idEx.reg.valid = true) (hnh : c.halting = false)
    (n : Nat) (d : Core) (hd : c.ticks n = some d)
    (hstalls : ∀ i < n, ∀ e, c.ticks i = some e → e.view.stalls = true) :
    d.idEx.reg =
        { c.idEx.reg with rs1Val := d.idEx.reg.rs1Val, rs2Val := d.idEx.reg.rs2Val } ∧
      d.resolveReg c.idEx.reg.rs1 d.idEx.reg.rs1Val =
        c.resolveReg c.idEx.reg.rs1 c.idEx.reg.rs1Val ∧
      d.resolveReg c.idEx.reg.rs2 d.idEx.reg.rs2Val =
        c.resolveReg c.idEx.reg.rs2 c.idEx.reg.rs2Val ∧
      ∀ e, d.view.stalls = false → d.tick = some e →
        let older := (boot cfg imem dmem rf).retired (k + n + 2)
        let after := older.foldl (fun rf wb => wb.writeBack rf) rf
        older.map MemWb.slip = ((boot cfg imem dmem rf).left (k + n)).map ExMem.slip ∧
          c.resolveReg c.idEx.reg.rs1 c.idEx.reg.rs1Val = after.read c.idEx.reg.rs1 ∧
          c.resolveReg c.idEx.reg.rs2 c.idEx.reg.rs2Val = after.read c.idEx.reg.rs2 := by
  have hquiet := quiet_boot cfg imem dmem rf
  have hcq : c.Quiet := Runs.run_invariant tick (fun _ _ => quiet_tick) hquiet hc
  have hdq : d.Quiet := Runs.run_invariant tick (fun _ _ => quiet_tick) hcq hd
  have hdv := view_of_ticks hcq hd
  have hstallsv : ∀ i < n, ∀ u, c.view.ticks i = some u → u.stalls = true := by
    intro i hi u hu
    rw [← view_ticks hcq] at hu
    obtain ⟨e, he, rfl⟩ := Option.map_eq_some_iff.mp hu
    exact hstalls i hi e he
  have hview : c.view.halting = false := hnh
  obtain ⟨hfr, hempty⟩ := Pipe.frozen_of_ticks (p := c.view) hrun hview hex hstallsv hdv
  refine ⟨hfr.idEx, hfr.rs1, hfr.rs2, ?_⟩
  intro e hs he
  have hpos : 0 < n := by
    rcases Nat.eq_zero_or_pos n with rfl | hpos
    · simp only [ticks, Runs.run_zero, Option.some.injEq] at hd
      rw [hd, hs] at hstall
      cases hstall
    · exact hpos
  have hwb : d.view.memWb = {} := hempty hpos
  have hrunD : d.view.halted = false := hfr.running
  have hreach : (boot cfg imem dmem rf).ticks (k + n) = some d :=
    (Runs.run_add_of_run tick hc).trans hd
  have hreach' : (boot cfg imem dmem rf).ticks (k + n + 1) = some e :=
    (Runs.run_succ_eq_some tick).mpr ⟨d, hreach, he⟩
  have hdview := view_of_ticks hquiet hreach
  have heview := view_of_ticks hquiet hreach'
  have hdtick : d.view.tick = some e.view := by
    rw [← view_tick hdq, he]
    rfl
  have hset : d.view.Settled := Pipe.running_invariant (fun _ _ h => h.tick)
    (settled_boot cfg imem dmem rf) hdview hrunD
  have hrunE : e.view.halted = false := by
    have hhalt := (Pipe.tick_drain hrunD hdtick).2.1
    rw [hfr.calm, hrunD] at hhalt
    exact hhalt
  -- What the access in MEM is, and that the instruction in EX is the one `c` has there.
  have hmem : d.view.exMem.valid = true ∧ isMemOp d.view.exMem.op = true := by
    rw [hfr.exMem]
    unfold Pipe.stalls Pipe.served at hstall
    simp only [Bool.and_eq_true, Bool.not_eq_true', Bool.or_eq_false_iff] at hstall
    exact ⟨hstall.1, by simpa using hstall.2.1⟩
  have hvalid : d.view.idEx.valid = true := by
    rw [hfr.idEx]
    exact hex
  have hrs : d.view.idEx.rs1 = c.view.idEx.rs1 ∧ d.view.idEx.rs2 = c.view.idEx.rs2 := by
    rw [hfr.idEx]
    exact ⟨rfl, rfl⟩
  obtain ⟨h1, h2⟩ := hset.release hrunD hwb hmem.1 hmem.2 hvalid hs hdtick
  rw [Pipe.written_of_ticks heview hrunE, ← retired_view hquiet] at h1 h2
  rw [hrs.1] at h1
  rw [hrs.2] at h2
  refine ⟨?_, hfr.rs1.symm.trans h1, hfr.rs2.symm.trans h2⟩
  rw [retired_view hquiet, left_view hquiet]
  exact Pipe.retired_of_release rfl rfl hdview hrunD hfr.calm hs hdtick

/-- In every state a core can be in, on stalled cycles and wrong paths too: an instruction in EX
    does not read the destination of a load in MEM, so forwarding looks past the entry that
    still holds the load's address. -/
theorem loadUse_interlock {cfg : SimConfig} {imem dmem : Nat → Byte} {rf : RegFile} {n : Nat}
    {c : Core} (hc : (boot cfg imem dmem rf).ticks n = some c)
    (hx : c.exMem.reg.valid = true) (hl : isLoad c.exMem.reg.op = true)
    (hv : c.idEx.reg.valid = true) :
    (c.exMem.reg.rd ≠ 0#5 →
      c.idEx.reg.rs1 ≠ c.exMem.reg.rd ∧ c.idEx.reg.rs2 ≠ c.exMem.reg.rd) ∧
    ∀ reg cur, reg = c.idEx.reg.rs1 ∨ reg = c.idEx.reg.rs2 →
      c.resolveReg reg cur = resolve {} c.memWb.reg c.fwd.prevMemWb reg cur := by
  have hlocked : c.view.Interlocked :=
    Runs.run_invariant Pipe.tick (P := Pipe.Interlocked) (fun _ _ h => h.tick)
      (settled_boot cfg imem dmem rf).interlock (view_of_ticks (quiet_boot cfg imem dmem rf) hc)
  refine ⟨fun hrd => hlocked hx hl hrd hv, ?_⟩
  intro reg cur hreg
  exact hlocked.resolve_load hx hl hv hreg cur

/-- A RAM of 32 bytes whose data side takes three cycles. -/
def slowData : SimConfig := { ramBaseAddr := 0, ramSizeBytes := 32, dmemLatencyCycles := 3 }

/-- `addi x1, x0, 5; lw x2, 0(x0); add x3, x1, x1; ebreak`. -/
def addLoadAdd : Nat → Byte :=
  halfwords [0x0093, 0x0050, 0x2103, 0x0000, 0x81B3, 0x0010, 0x0073, 0x0010]

theorem frozen_operands_addLoadAdd :
    ∃ c d, (boot slowData addLoadAdd (fun _ => 0) RegFile.zero).ticks 4 = some c ∧
      c.ticks 2 = some d ∧
      d.resolveReg c.idEx.reg.rs1 d.idEx.reg.rs1Val =
        c.resolveReg c.idEx.reg.rs1 c.idEx.reg.rs1Val := by
  let start := boot slowData addLoadAdd (fun _ => 0) RegFile.zero
  obtain ⟨c, hc, hfacts⟩ := Option.map_eq_some_iff.mp (by decide +kernel :
    (start.ticks 4).map (fun c => (c.halted, c.view.stalls, c.idEx.reg.valid, c.halting)) =
      some (false, true, true, false))
  simp only [Prod.mk.injEq] at hfacts
  obtain ⟨hrun, hstall, hex, hnh⟩ := hfacts
  have hrest : ∀ i, c.ticks i = start.ticks (4 + i) := fun i =>
    (Runs.run_add_of_run tick hc).symm
  obtain ⟨d, hd⟩ := Option.isSome_iff_exists.mp (by decide +kernel :
    (start.ticks (4 + 2)).isSome = true)
  have hstalls : ∀ i < 2, ∀ e, c.ticks i = some e → e.view.stalls = true := by
    have hmap : ∀ i < 2, (start.ticks (4 + i)).map (fun e => e.view.stalls) = some true := by
      decide +kernel
    intro i hi e he
    have hstep := hmap i hi
    rw [← hrest, he] at hstep
    exact Option.some.inj hstep
  have hd' : c.ticks 2 = some d := (hrest 2).trans hd
  exact ⟨c, d, hc, hd', (frozen_operands slowData addLoadAdd (fun _ => 0) RegFile.zero 4 c hc hrun
    hstall hex hnh 2 d hd' hstalls).2.1⟩

theorem loadUse_interlock_addLoadAdd :
    ∃ c, (boot slowData addLoadAdd (fun _ => 0) RegFile.zero).ticks 5 = some c ∧
      c.exMem.reg.rd = 2#5 ∧ c.idEx.reg.rs1 = 1#5 ∧
      c.resolveReg 1#5 7#32 = resolve {} c.memWb.reg c.fwd.prevMemWb 1#5 7#32 := by
  obtain ⟨c, hc, hfacts⟩ := Option.map_eq_some_iff.mp (by decide +kernel :
    ((boot slowData addLoadAdd (fun _ => 0) RegFile.zero).ticks 5).map (fun c =>
        (c.exMem.reg.valid, isLoad c.exMem.reg.op, c.idEx.reg.valid, c.exMem.reg.rd,
          c.idEx.reg.rs1)) =
      some (true, true, true, 2#5, 1#5))
  simp only [Prod.mk.injEq] at hfacts
  obtain ⟨hx, hl, hv, hrd, hrs⟩ := hfacts
  exact ⟨c, hc, hrd, hrs, (loadUse_interlock hc hx hl hv).2 1#5 7#32 (.inl hrs.symm)⟩

end Core

end CpuSim
