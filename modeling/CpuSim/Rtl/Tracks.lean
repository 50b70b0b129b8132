import CpuSim.Rtl.Instruction
import CpuSim.Rtl.Pipe

/-!
# The pipeline tracks the sequential machine

At any moment the register file is that of the sequential machine `s` behind the instructions
in flight. MEM/WB, EX/MEM and ID/EX hold its next instructions in order, bubbles apart, each
with the inputs the machine gives it, whatever way the front end goes (`Carries`); IF/ID and the
pc follow as long as no instruction ahead of them halts or redirects. `Tracks` says so for one
state, and one tick keeps it (`Tracks.stall`, `Tracks.flow`) when predictions of fetched
instructions name the instruction's own target.
-/

namespace CpuSim

open Rv32i Machine

/-- A taken prediction at `pc` is for a branch or JAL and carries its own target. -/
def Honest (code : ByteMap) (bp : Option BranchPredictor) (pc : Word) : Prop :=
  (predictAt bp pc).taken = true →
    (isCondBranch (decode (wordAt code pc) pc).op = true ∨
        (decode (wordAt code pc) pc).op = .jal) ∧
      (predictAt bp pc).target = pc + (decode (wordAt code pc) pc).imm

/-- `pc` is where the front end went after fetching `fe`, by an honest prediction. -/
def Follows (fe : IfId) (pc : Word) : Prop :=
  if fe.predictedTaken then
    (isCondBranch (decode fe.raw fe.pc).op = true ∨ (decode fe.raw fe.pc).op = .jal) ∧
      pc = fe.pc + (decode fe.raw fe.pc).imm
  else pc = fe.pc + 4

namespace Machine

variable {code : ByteMap} {v : Bool} {s t : Machine}

/-- From `s` to `t` the machine passes a slot. An instruction there changes registers and memory
    as it does on the machine; where the program goes on is left open. -/
def Passes (code : ByteMap) (v : Bool) (s t : Machine) : Prop :=
  if v then t.regs = (s.step code).regs ∧ t.mem = (s.step code).mem else t = s

theorem passes_advance (code : ByteMap) (v : Bool) (s : Machine) :
    s.Passes code v (s.advance code v) := by
  cases v with
  | false => rfl
  | true => exact ⟨rfl, rfl⟩

theorem Passes.regs (h : s.Passes code v t) : t.regs = (s.advance code v).regs := by
  cases v with
  | false => exact congrArg Machine.regs h
  | true => exact h.1

theorem Passes.mem (h : s.Passes code v t) : t.mem = (s.advance code v).mem := by
  cases v with
  | false => exact congrArg Machine.mem h
  | true => exact h.2

end Machine

namespace Pipe

/-! ## Slots in program order -/

section Slots

variable (code : ByteMap) (s : Machine) (p : Pipe)

/-- The machine when the instruction in EX/MEM is next. -/
def atMem : Machine := s.advance code p.memWb.valid

/-- The machine when the instruction in ID/EX is next. -/
def atEx : Machine := (p.atMem code s).advance code p.exMem.valid

/-- The machine when the instruction behind ID/EX is next. -/
def atId : Machine := (p.atEx code s).advance code p.idEx.valid

/-- MEM/WB does not halt. -/
def memLive : Bool := !p.halting

/-- Neither does EX/MEM. -/
def exLive : Bool := p.memLive && !(p.exMem.valid && isHalting p.exMem.op)

/-- Neither does ID/EX. -/
def idLive : Bool := p.exLive && !(p.idEx.valid && isHalting p.idEx.op)

/-- What IF and ID work on is what the sequential machine executes next. -/
def onPath : Bool := p.idLive && !p.exec.redirect

/-- The address of the oldest instruction that has not reached ID/EX. -/
def frontPc : Word := if p.ifId.valid then p.ifId.pc else p.pc

end Slots

theorem exLive_memLive {p : Pipe} (h : p.exLive = true) : p.memLive = true := by
  simp only [exLive, Bool.and_eq_true] at h; exact h.1

theorem idLive_exLive {p : Pipe} (h : p.idLive = true) : p.exLive = true := by
  simp only [idLive, Bool.and_eq_true] at h; exact h.1

theorem onPath_idLive {p : Pipe} (h : p.onPath = true) : p.idLive = true := by
  simp only [onPath, Bool.and_eq_true] at h; exact h.1

theorem onPath_of {p : Pipe} (h : p.idLive = true) (hr : p.exec.redirect = false) :
    p.onPath = true := by
  simp only [onPath, h, hr, Bool.not_false, Bool.and_self]

theorem onPath_redirect {p : Pipe} (h : p.onPath = true) : p.exec.redirect = false := by
  simp only [onPath, Bool.and_eq_true, Bool.not_eq_true'] at h; exact h.2

/-- Every slot's machine is one the run of `s` goes through. -/
theorem atId_eq_after (code : ByteMap) (s : Machine) (p : Pipe) :
    ∃ j, p.atId code s = s.after code j := by
  unfold atId atEx atMem
  simp only [advance_eq_after, after_add]
  exact ⟨_, rfl⟩

/-! ## What one tick reads from memory -/

theorem fetch_imem {p : Pipe} {f : FetchOut Port} (hf : p.fetch = some f) :
    f.imem.bytes = p.iport.bytes := by
  rw [(fetchWord_eq_some hf).1, Port.bytes_ready]

theorem fetch_valid {p : Pipe} {f : FetchOut Port} (hf : p.fetch = some f) :
    f.out.valid = !f.fetchStall := by
  obtain ⟨-, ⟨-, ho, hs, -⟩ | ⟨-, -, hs, ho, -⟩⟩ := fetchWord_eq_some hf <;> rw [ho, hs] <;> rfl

/-- A served fetch: the word at the pc, and the prediction made for it. -/
theorem fetch_served {p : Pipe} {f : FetchOut Port} (hf : p.fetch = some f)
    (hv : f.out.valid = true) :
    f.out.pc = p.pc ∧ f.out.raw = wordAt p.iport.bytes p.pc ∧
      f.out.predictedTaken = (predictAt p.bpred p.pc).taken ∧
      f.predictedPc =
        if (predictAt p.bpred p.pc).taken then (predictAt p.bpred p.pc).target else p.pc + 4 := by
  obtain ⟨-, ⟨-, ho, -⟩ | ⟨-, -, -, ho, hp⟩⟩ := fetchWord_eq_some hf
  · rw [ho] at hv; cases hv
  · rw [ho]; exact ⟨rfl, rfl, rfl, hp⟩

theorem mem_stalling {p : Pipe} {m : MemOut Port} (hm : p.mem = some m) :
    m.stalling = p.stalls := by
  unfold stalls served
  obtain ⟨hv, ho⟩ | ⟨hv, hop, hr, ho⟩ | ⟨hv, hr, -, -, ho, -⟩ := accessMem_eq_some hm
  · rw [hv, ho]; rfl
  · rw [hv, hop, hr, ho]; rfl
  · rw [hv, ho]
    cases hop : isMemOp p.exMem.op with
    | false => rfl
    | true => rw [hr hop]; rfl

theorem mem_stalled {p : Pipe} {m : MemOut Port} (hm : p.mem = some m)
    (hs : m.stalling = true) :
    p.exMem.valid = true ∧ isMemOp p.exMem.op = true ∧ m.out = {} ∧
      m.dmem = p.dport.asked p.exMem := accessMem_stalled hm hs

/-- On a tick that does not stall, MEM passes its entry on and performs its store. -/
theorem mem_flowed {p : Pipe} {m : MemOut Port} (hm : p.mem = some m)
    (hs : m.stalling = false) :
    m.out.valid = p.exMem.valid ∧
      (p.exMem.valid = true → m.out = p.exMem.memWb p.dport.bytes) ∧
      m.dmem.bytes =
        if p.exMem.valid then applyStore p.dport.bytes p.exMem.store else p.dport.bytes :=
  accessMem_flowed hm hs

/-- A tick moves neither memory. -/
theorem mem_span {p : Pipe} {m : MemOut Port} (hm : p.mem = some m) :
    m.dmem.span = p.dport.span := accessMem_span hm

theorem tick_span {p q : Pipe} (ht : p.tick = some q) :
    q.iport.span = p.iport.span ∧ q.dport.span = p.dport.span := by
  cases hh : p.halted with
  | true =>
    obtain rfl := eq_of_tick_of_halted hh ht
    exact ⟨rfl, rfl⟩
  | false =>
    obtain ⟨f, m, hf, hm, h⟩ := tick_cases hh ht
    have hi : f.imem.span = p.iport.span := by
      rw [(fetchWord_eq_some hf).1]
      exact Port.span_congr (Port.contents_ready _ _ _)
    have htick : ∀ r : Port, (IMemory.tick r).span = r.span := fun r =>
      Port.span_congr r.contents_tick
    obtain ⟨-, rfl⟩ | ⟨-, rfl⟩ := h
    · exact ⟨hi, (htick _).trans (mem_span hm)⟩
    · exact ⟨(htick _).trans hi, (htick _).trans (mem_span hm)⟩

/-! ## The invariant -/

/-- The latches of `p` hold what the machine executes next: MEM/WB at `s`, EX/MEM at `sm` and
    ID/EX at `sx`. -/
structure Carries (p : Pipe) (code : ByteMap) (s sm sx : Machine) : Prop where
  running : p.halted = false
  image : p.iport.bytes = code
  toMem : s.Passes code p.memWb.valid sm
  toEx : sm.Passes code p.exMem.valid sx
  regs : p.rf = s.regs
  data : p.dport.bytes = sm.mem
  wb : p.memWb.valid = true → p.memWb.Holds code s
  mem : p.exMem.valid = true → p.memLive = true → p.exMem.Holds code sm
  fetched : p.ifId.valid = true → p.ifId.raw = wordAt code p.ifId.pc
  decoded : p.idEx.valid = true →
    p.idEx.Holds (decode (wordAt code p.idEx.pc) p.idEx.pc)
  ex : p.idEx.valid = true → p.exLive = true →
    p.idEx.pc = sx.pc ∧
      p.operand p.idEx.rs1 p.idEx.rs1Val = sx.regs.read p.idEx.rs1 ∧
      p.operand p.idEx.rs2 p.idEx.rs2Val = sx.regs.read p.idEx.rs2
  interlock : p.exMem.valid = true → isLoad p.exMem.op = true → p.exMem.rd ≠ 0#5 →
    p.idEx.valid = true → p.idEx.rs1 ≠ p.exMem.rd ∧ p.idEx.rs2 ≠ p.exMem.rd

/-- The pipeline state `p` is ahead of the machine `s` by the instructions in its latches. -/
structure Tracks (p : Pipe) (code : ByteMap) (s : Machine) : Prop
    extends p.Carries code s (p.atMem code s) (p.atEx code s) where
  front : p.onPath = true → p.frontPc = (p.atId code s).pc
  predicted : p.onPath = true → p.ifId.valid = true → Follows p.ifId p.pc

/-! ## What the invariant says about the slots -/

namespace Carries

variable {code : ByteMap} {s sm sx : Machine} {p : Pipe}

theorem idEx_holds (h : p.Carries code s sm sx) (hv : p.idEx.valid = true)
    (hl : p.exLive = true) : p.idEx.Holds (sx.insn code) := by
  have hd := h.decoded hv
  rw [(h.ex hv hl).1] at hd
  exact hd

/-- EX works on the operands of the sequential machine. -/
theorem exec_eq (h : p.Carries code s sm sx) (hv : p.idEx.valid = true) (hl : p.exLive = true) :
    p.exec = executeAt sx p.idEx := by
  obtain ⟨-, h1, h2⟩ := h.ex hv hl
  unfold exec executeAt
  rw [hv, if_pos rfl, h1, h2]

theorem halting_eq (h : p.Carries code s sm sx) (hv : p.memWb.valid = true) :
    p.halting = s.halts code := by
  rw [halts_eq, ← (h.wb hv).op, halting, hv, Bool.true_and]

theorem runs_of_memLive (h : p.Carries code s sm sx) (hv : p.memWb.valid = true)
    (hl : p.memLive = true) : s.halts code = false := by
  rw [← h.halting_eq hv]
  simpa [memLive] using hl

theorem runs_of_exLive (h : p.Carries code s sm sx) (hv : p.exMem.valid = true)
    (hl : p.exLive = true) : sm.halts code = false := by
  rw [halts_eq, ← (h.mem hv (exLive_memLive hl)).op]
  simp only [exLive, hv, Bool.true_and, Bool.and_eq_true, Bool.not_eq_true'] at hl
  exact hl.2

theorem runs_of_idLive (h : p.Carries code s sm sx) (hv : p.idEx.valid = true)
    (hl : p.idLive = true) : sx.halts code = false := by
  rw [halts_eq, ← (h.idEx_holds hv (idLive_exLive hl)).op]
  simp only [idLive, hv, Bool.true_and, Bool.and_eq_true, Bool.not_eq_true'] at hl
  exact hl.2

/-- Write-back brings the register file up to what MEM sees. -/
theorem written_eq (h : p.Carries code s sm sx) : p.written = sm.regs := by
  rw [h.toMem.regs]
  unfold written
  rw [h.regs]
  cases hv : p.memWb.valid with
  | false => simp [writesBack, hv]
  | true => exact (h.wb hv).write_back hv

/-- A register that the instruction in MEM/WB leaves for the next ones to read. -/
theorem read_mem (h : p.Carries code s sm sx) (hl : p.memLive = true) {r : RegIdx}
    (hr : r ≠ 0#5) :
    sm.regs.read r =
      if p.memWb.valid && p.memWb.rd == r then p.memWb.wbVal else p.rf.read r := by
  rw [h.toMem.regs, h.regs]
  cases hv : p.memWb.valid with
  | false => simp
  | true =>
    rw [advance_true, (h.wb hv).read_step (h.runs_of_memLive hv hl) hr]
    simp

/-- EX redirects when the instruction does not go the way it was predicted. -/
theorem redirect_eq (h : p.Carries code s sm sx) (hv : p.idEx.valid = true)
    (hl : p.exLive = true) :
    p.exec.redirect = (sx.taken (sx.insn code) != p.idEx.predictedTaken) := by
  rw [h.exec_eq hv hl, executeAt_redirect (h.idEx_holds hv hl)]

/-- A redirect goes where the machine goes. -/
theorem redirectTarget_nextPc (h : p.Carries code s sm sx) (hl : p.exLive = true)
    (hr : p.exec.redirect = true) : p.exec.redirectTarget = sx.nextPc (sx.insn code) := by
  have hv := exec_redirect_valid hr
  rw [h.exec_eq hv hl, executeAt_redirectTarget (h.idEx_holds hv hl)]

end Carries

namespace Tracks

variable {code : ByteMap} {s : Machine} {p : Pipe}

/-! ## A tick on which MEM stalls -/

theorem captured_holds {p : Pipe} {i : Instruction} (h : p.idEx.Holds i) : p.captured.Holds i := by
  unfold captured
  split
  · exact ⟨h.pc, h.raw, h.op, h.rd, h.rs1, h.rs2, h.imm⟩
  · exact h

theorem resolve_hold (ex : ExMem) (wb prev : MemWb) (reg : RegIdx) (cur : Word) :
    resolve ex {} wb reg (resolve ex wb prev reg cur) = resolve ex wb prev reg cur := by
  unfold resolve
  by_cases h0 : reg = 0#5
  · simp [h0]
  · by_cases hex : (ex.valid && ex.rd == reg) = true
    · simp [h0, hex]
    · by_cases hwb : (wb.valid && wb.rd == reg) = true <;> simp [h0, hex, hwb]

/-- The captured operands resolve to what EX resolved before. -/
theorem operand_stallNext (p : Pipe) (f : FetchOut Port) {m : MemOut Port} (hm : m.out = {})
    (reg : RegIdx) (cur : Word) :
    (p.stallNext f m).operand reg (p.operand reg cur) = p.operand reg cur := by
  have hwb : (p.stallNext f m).memWb = {} := hm
  unfold operand
  rw [hwb]
  exact resolve_hold _ _ _ _ _

theorem exec_stallNext (p : Pipe) (f : FetchOut Port) {m : MemOut Port} (hm : m.out = {}) :
    (p.stallNext f m).exec = p.exec := by
  have hid : (p.stallNext f m).idEx = p.captured := rfl
  unfold exec
  rw [hid, captured_valid]
  by_cases hv : p.idEx.valid = true
  · rw [if_pos hv, if_pos hv, captured_of_valid hv]
    dsimp only
    rw [operand_stallNext p f hm, operand_stallNext p f hm]
    rfl
  · rw [if_neg hv, if_neg hv]

section Stall

variable {f : FetchOut Port} {m : MemOut Port}

theorem stall_memLive (hm : m.out = {}) : (p.stallNext f m).memLive = true := by
  change (!(m.out.valid && isHalting m.out.op)) = true
  rw [hm]
  rfl

theorem stall_exLive (hm : m.out = {}) (hrun : p.halting = false) :
    (p.stallNext f m).exLive = p.exLive := by
  have hlive : p.memLive = true := by simp [memLive, hrun]
  unfold exLive
  rw [stall_memLive hm, hlive]
  rfl

theorem stall_idLive (hm : m.out = {}) (hrun : p.halting = false) :
    (p.stallNext f m).idLive = p.idLive := by
  have hid : (p.stallNext f m).idEx = p.captured := rfl
  unfold idLive
  rw [stall_exLive hm hrun, hid, captured_valid, captured_op]

end Stall

end Tracks

/-- The stalled slots keep their places; the machine moves past MEM/WB. -/
theorem Carries.stall {p : Pipe} {code : ByteMap} {s sm sx : Machine}
    (h : p.Carries code s sm sx) {f : FetchOut Port} {m : MemOut Port} (hf : p.fetch = some f)
    (hm : p.mem = some m) (hs : m.stalling = true) (hrun : p.halting = false) :
    (p.stallNext f m).Carries code sm sm sx := by
  obtain ⟨hexv, -, hout, hdm⟩ := mem_stalled hm hs
  have hlive : p.memLive = true := by simp [memLive, hrun]
  have hid : (p.stallNext f m).idEx = p.captured := rfl
  constructor
  case running =>
    change (if p.halting then true else p.halted) = false
    rw [hrun]
    exact h.running
  case image => exact (fetch_imem hf).trans h.image
  case toMem =>
    change sm.Passes code m.out.valid sm
    rw [hout]
    rfl
  case toEx => exact h.toEx
  case regs => exact h.written_eq
  case data =>
    rw [← h.data]
    change (IMemory.tick m.dmem).bytes = _
    rw [Port.bytes_tick, hdm]
    exact Port.bytes_congr (p.dport.contents_asked _)
  case wb =>
    intro hv
    change m.out.valid = true at hv
    rw [hout] at hv
    cases hv
  case mem => exact fun hv _ => h.mem hv hlive
  case fetched => exact h.fetched
  case decoded =>
    intro hv
    rw [hid, captured_valid] at hv
    rw [hid, captured_pc]
    exact Tracks.captured_holds (h.decoded hv)
  case ex =>
    intro hv hl
    rw [hid, captured_valid] at hv
    rw [Tracks.stall_exLive hout hrun] at hl
    obtain ⟨hpc, h1, h2⟩ := h.ex hv hl
    rw [hid, captured_of_valid hv]
    exact ⟨hpc, (Tracks.operand_stallNext p f hout _ _).trans h1,
      (Tracks.operand_stallNext p f hout _ _).trans h2⟩
  case interlock =>
    intro hv hld hrd hi
    rw [hid, captured_valid] at hi
    rw [hid, captured_rs1, captured_rs2]
    exact h.interlock hv hld hrd hi

namespace Tracks

variable {code : ByteMap} {s : Machine} {p : Pipe}

/-- So does the front end, and what it follows. -/
theorem stall (h : p.Tracks code s) {f : FetchOut Port} {m : MemOut Port}
    (hf : p.fetch = some f) (hm : p.mem = some m) (hs : m.stalling = true)
    (hrun : p.halting = false) : (p.stallNext f m).Tracks code (p.atMem code s) := by
  obtain ⟨-, -, hout, -⟩ := mem_stalled hm hs
  have hmem' : (p.stallNext f m).atMem code (p.atMem code s) = p.atMem code s := by
    change (p.atMem code s).advance code m.out.valid = _
    rw [hout]; rfl
  have hex' : (p.stallNext f m).atEx code (p.atMem code s) = p.atEx code s := by
    unfold atEx; rw [hmem']; rfl
  have hid : (p.stallNext f m).idEx = p.captured := rfl
  have hid' : (p.stallNext f m).atId code (p.atMem code s) = p.atId code s := by
    unfold atId; rw [hex', hid, captured_valid]
  have hpath : (p.stallNext f m).onPath = p.onPath := by
    unfold onPath; rw [stall_idLive hout hrun, exec_stallNext p f hout]
  refine ⟨?_, ?_, ?_⟩
  · rw [hmem', hex']
    exact h.toCarries.stall hf hm hs hrun
  · intro hp
    rw [hpath] at hp
    rw [hid']; exact h.front hp
  · intro hp hv
    rw [hpath] at hp
    exact h.predicted hp hv

/-! ## A tick on which every stage moves -/

section Flow

variable {f : FetchOut Port} {m : MemOut Port}

/-- What halts in MEM/WB has come from EX/MEM. -/
theorem flow_halting (hm : p.mem = some m) (hs : m.stalling = false) :
    (p.flowNext f m).halting = (p.exMem.valid && isHalting p.exMem.op) := by
  obtain ⟨hv, ho, -⟩ := mem_flowed hm hs
  change (m.out.valid && isHalting m.out.op) = _
  rw [hv]
  cases hx : p.exMem.valid with
  | false => rfl
  | true =>
    rw [ho hx]
    rfl

theorem flow_memLive (hm : p.mem = some m) (hs : m.stalling = false) (hrun : p.halting = false)
    (hl : (p.flowNext f m).memLive = true) : p.exLive = true := by
  have hlive : p.memLive = true := by simp [memLive, hrun]
  unfold memLive at hl
  rw [flow_halting hm hs] at hl
  unfold exLive
  rw [hlive, hl, Bool.and_self]

theorem flow_exLive (hm : p.mem = some m) (hs : m.stalling = false) (hrun : p.halting = false)
    (hl : (p.flowNext f m).exLive = true) : p.idLive = true := by
  have hx := flow_memLive hm hs hrun (exLive_memLive hl)
  unfold idLive
  rw [hx, Bool.true_and]
  simp only [exLive, Bool.and_eq_true] at hl
  have hl2 : (!(p.exec.out.valid && isHalting p.exec.out.op)) = true := hl.2
  rw [exec_valid] at hl2
  cases hv : p.idEx.valid with
  | false => rfl
  | true => rw [hv, exec_op hv] at hl2; exact hl2

/-- The hazard unit keeps a reader of a load's destination out of EX. -/
theorem flow_interlock (p : Pipe) (hld : isLoad p.exec.out.op = true)
    (hev : p.exec.out.valid = true) (hrd : p.exec.out.rd ≠ 0#5) (hhz : p.hazard = false)
    (hfv : p.ifId.valid = true) :
    (decodeInsn p.rf p.ifId).rs1 ≠ p.exec.out.rd ∧
      (decodeInsn p.rf p.ifId).rs2 ≠ p.exec.out.rd := by
  have hidv : p.idEx.valid = true := by rw [← exec_valid]; exact hev
  rw [exec_op hidv] at hld
  rw [exec_rd hidv] at hrd ⊢
  simp only [hazard, loadUseHazard, hidv, hld, Bool.true_and, Bool.and_eq_false_iff,
    bne_eq_false_iff_eq, Bool.or_eq_false_iff, beq_eq_false_iff_ne] at hhz
  obtain hhz | ⟨h1, h2⟩ := hhz
  · exact absurd hhz hrd
  · have hd := decodeInsn_holds p.rf hfv
    rw [hd.rs1, hd.rs2]
    constructor
    · obtain he | he := (decode_decoded p.ifId.raw p.ifId.pc).rs1 <;> rw [he]
      · exact Ne.symm h1
      · exact Ne.symm hrd
    · obtain he | he := (decode_decoded p.ifId.raw p.ifId.pc).rs2 <;> rw [he]
      · exact Ne.symm h2
      · exact Ne.symm hrd

/-- What ID hands to EX when it moves, and the bubble when it does not. -/
theorem flow_idEx_valid (p : Pipe) (f : FetchOut Port) (m : MemOut Port) :
    (p.flowNext f m).idEx.valid = true ↔
      p.exec.redirect = false ∧ p.hazard = false ∧ p.ifId.valid = true := by
  change
    (if p.exec.redirect || p.hazard then ({} : IdEx) else decodeInsn p.rf p.ifId).valid = true ↔ _
  cases p.exec.redirect <;> cases p.hazard <;> simp [decodeInsn]
  cases p.ifId.valid <;> simp

theorem flow_idEx (p : Pipe) (f : FetchOut Port) (m : MemOut Port)
    (hv : (p.flowNext f m).idEx.valid = true) :
    (p.flowNext f m).idEx = decodeInsn p.rf p.ifId := by
  obtain ⟨hr, hz, -⟩ := (flow_idEx_valid p f m).mp hv
  change (if p.exec.redirect || p.hazard then ({} : IdEx) else decodeInsn p.rf p.ifId) = _
  rw [hr, hz]; rfl

/-- A load in EX and the instruction entering ID/EX behind it share no register. -/
theorem flow_apart (hev : p.exec.out.valid = true) (hld : isLoad p.exec.out.op = true)
    (hrd : p.exec.out.rd ≠ 0#5) (hidv : (p.flowNext f m).idEx.valid = true) :
    (p.flowNext f m).idEx.rs1 ≠ p.exec.out.rd ∧ (p.flowNext f m).idEx.rs2 ≠ p.exec.out.rd := by
  obtain ⟨-, hz, hfv⟩ := (flow_idEx_valid p f m).mp hidv
  rw [flow_idEx p f m hidv]
  exact flow_interlock p hld hev hrd hz hfv

end Flow

end Tracks

namespace Carries

variable {code : ByteMap} {s sm sx si : Machine} {p : Pipe} {f : FetchOut Port} {m : MemOut Port}

/-- What MEM hands to MEM/WB. -/
theorem flow_memWb (h : p.Carries code s sm sx) (hm : p.mem = some m) (hs : m.stalling = false)
    (hrun : p.halting = false) (hmv : m.out.valid = true) : m.out.Holds code sm := by
  have hlive : p.memLive = true := by simp [memLive, hrun]
  obtain ⟨hv, ho, -⟩ := mem_flowed hm hs
  rw [hv] at hmv
  have hmem := (h.mem hmv hlive).memWb
  rw [← h.data] at hmem
  rw [ho hmv]
  exact hmem

/-- What EX hands to EX/MEM. -/
theorem flow_exMem (h : p.Carries code s sm sx) (hev : p.exec.out.valid = true)
    (hxl : p.exLive = true) : p.exec.out.Holds code sx := by
  rw [exec_valid] at hev
  rw [h.exec_eq hev hxl]
  exact executeAt_holds (h.idEx_holds hev hxl)

/-- What the instruction behind the one in EX gets for a register: the result of that one, or
    the register of the machine there. -/
theorem flow_operand_behind (h : p.Carries code s sm sx) (hm : p.mem = some m)
    (hs : m.stalling = false) (hrun : p.halting = false) (hxl : p.exLive = true) {r : RegIdx}
    (hr : r ≠ 0#5) :
    (p.flowNext f m).operand r (p.rf.read r) =
      if p.exec.out.valid && p.exec.out.rd == r then p.exec.out.aluOut else sx.regs.read r := by
  have hlive : p.memLive = true := by simp [memLive, hrun]
  obtain ⟨hv, -, -⟩ := mem_flowed hm hs
  have hread : sx.regs.read r =
      if m.out.valid && m.out.rd == r then m.out.wbVal else sm.regs.read r := by
    rw [h.toEx.regs, ← hv]
    cases hmv : m.out.valid with
    | false => simp
    | true =>
      rw [advance_true, (h.flow_memWb hm hs hrun hmv).read_step
        (h.runs_of_exLive (hv ▸ hmv) hxl) hr]
      simp
  unfold operand resolve
  change (if r = 0#5 then _ else if p.exec.out.valid && p.exec.out.rd == r then p.exec.out.aluOut
    else if m.out.valid && m.out.rd == r then m.out.wbVal
    else if p.memWb.valid && p.memWb.rd == r then p.memWb.wbVal else p.rf.read r) = _
  rw [if_neg hr, ← h.read_mem hlive hr, ← hread]

/-- EX works on the machine's operands again after the tick. -/
theorem flow_operand (h : p.Carries code s sm sx) (hm : p.mem = some m) (hs : m.stalling = false)
    (hrun : p.halting = false) (hto : sx.Passes code p.idEx.valid si)
    (hl : (p.flowNext f m).exLive = true) {r : RegIdx}
    (hload : p.exec.out.valid = true → isLoad p.exec.out.op = true → p.exec.out.rd ≠ 0#5 →
      r ≠ p.exec.out.rd) :
    (p.flowNext f m).operand r (p.rf.read r) = si.regs.read r := by
  have hidl := Tracks.flow_exLive hm hs hrun hl
  have hxl := idLive_exLive hidl
  by_cases hr : r = 0#5
  · subst hr
    simp [operand, resolve]
  · rw [h.flow_operand_behind hm hs hrun hxl hr, hto.regs, ← exec_valid]
    cases hev : p.exec.out.valid with
    | false => simp
    | true =>
      have hidv : p.idEx.valid = true := by rw [← exec_valid]; exact hev
      have hne : isLoad p.exec.out.op = true → p.exec.out.rd ≠ r := by
        intro hld hrd
        have h0 : p.exec.out.rd ≠ 0#5 := by rw [hrd]; exact hr
        exact hload hev hld h0 hrd.symm
      rw [advance_true, (h.flow_exMem hev hxl).read_step (h.runs_of_idLive hidv hidl) hr hne]
      simp

/-- The instruction entering ID/EX is the machine's next, and so are its operands. -/
theorem flow_ex (h : p.Carries code s sm sx) (hm : p.mem = some m) (hs : m.stalling = false)
    (hrun : p.halting = false) (hto : sx.Passes code p.idEx.valid si)
    (hidv : (p.flowNext f m).idEx.valid = true) (hl : (p.flowNext f m).exLive = true)
    (hnext : p.ifId.pc = si.pc) :
    (p.flowNext f m).idEx.pc = si.pc ∧
      (p.flowNext f m).operand (p.flowNext f m).idEx.rs1 (p.flowNext f m).idEx.rs1Val =
        si.regs.read (p.flowNext f m).idEx.rs1 ∧
      (p.flowNext f m).operand (p.flowNext f m).idEx.rs2 (p.flowNext f m).idEx.rs2Val =
        si.regs.read (p.flowNext f m).idEx.rs2 := by
  obtain ⟨-, -, hfv⟩ := (Tracks.flow_idEx_valid p f m).mp hidv
  have hpc := (decodeInsn_holds p.rf hfv).pc.trans (decode_pc _ _)
  have hval : (decodeInsn p.rf p.ifId).rs1Val = p.rf.read (decodeInsn p.rf p.ifId).rs1 ∧
      (decodeInsn p.rf p.ifId).rs2Val = p.rf.read (decodeInsn p.rf p.ifId).rs2 := by
    simp [decodeInsn, hfv]
  have hop := fun {r : RegIdx} => h.flow_operand (r := r) hm hs hrun hto hl
  have hapart := fun hev hld hrd => Tracks.flow_apart hev hld hrd hidv
  rw [Tracks.flow_idEx p f m hidv] at hapart ⊢
  refine ⟨hpc.trans hnext, ?_, ?_⟩
  · rw [hval.1]
    exact hop fun hev hld hrd => (hapart hev hld hrd).1
  · rw [hval.2]
    exact hop fun hev hld hrd => (hapart hev hld hrd).2

/-- What IF/ID holds was fetched. -/
theorem flow_fetched (h : p.Carries code s sm sx) (hf : p.fetch = some f)
    (hv : (p.flowNext f m).ifId.valid = true) :
    (p.flowNext f m).ifId.raw = wordAt code (p.flowNext f m).ifId.pc := by
  have hid : (p.flowNext f m).ifId =
      if p.exec.redirect then {} else if p.hazard then p.ifId else f.out := rfl
  rw [hid] at hv ⊢
  cases hr : p.exec.redirect with
  | true =>
    rw [hr] at hv
    cases hv
  | false =>
    cases hz : p.hazard with
    | true =>
      rw [hr, hz] at hv
      exact h.fetched hv
    | false =>
      rw [hr, hz] at hv
      obtain ⟨h1, h2, -⟩ := fetch_served hf hv
      change f.out.raw = wordAt code f.out.pc
      rw [h1, h2, h.image]

/-- Every slot moves on by one stage. The instruction from IF/ID must be the one the machine
    executes at `si`. -/
theorem flow (h : p.Carries code s sm sx) (hf : p.fetch = some f) (hm : p.mem = some m)
    (hs : m.stalling = false) (hrun : p.halting = false) (hto : sx.Passes code p.idEx.valid si)
    (hnext : (p.flowNext f m).idEx.valid = true → (p.flowNext f m).exLive = true →
      p.ifId.pc = si.pc) : (p.flowNext f m).Carries code sm sx si := by
  have hlive : p.memLive = true := by simp [memLive, hrun]
  constructor
  case running =>
    change (if p.halting then true else p.halted) = false
    rw [hrun]
    exact h.running
  case image => exact (Port.bytes_tick _).trans ((fetch_imem hf).trans h.image)
  case toMem =>
    change sm.Passes code m.out.valid sx
    rw [(mem_flowed hm hs).1]
    exact h.toEx
  case toEx =>
    change sx.Passes code p.exec.out.valid si
    rw [exec_valid]
    exact hto
  case regs => exact h.written_eq
  case data =>
    have hdata : m.dmem.bytes = sx.mem := by
      rw [(mem_flowed hm hs).2.2, h.data, h.toEx.mem]
      cases hx : p.exMem.valid with
      | false => rfl
      | true => exact (h.mem hx hlive).mem_step
    exact (Port.bytes_tick _).trans hdata
  case wb => exact h.flow_memWb hm hs hrun
  case mem => exact fun hev hl => h.flow_exMem hev (Tracks.flow_memLive hm hs hrun hl)
  case fetched => exact h.flow_fetched hf
  case decoded =>
    intro hidv
    obtain ⟨-, -, hfv⟩ := (Tracks.flow_idEx_valid p f m).mp hidv
    have hd := decodeInsn_holds p.rf hfv
    have hpc : (decodeInsn p.rf p.ifId).pc = p.ifId.pc := hd.pc.trans (decode_pc _ _)
    rw [Tracks.flow_idEx p f m hidv, hpc, ← h.fetched hfv]
    exact hd
  case ex => exact fun hidv hl => h.flow_ex hm hs hrun hto hidv hl (hnext hidv hl)
  case interlock => exact Tracks.flow_apart

end Carries

namespace Tracks

section Flow

variable {code : ByteMap} {s : Machine} {p : Pipe} {f : FetchOut Port} {m : MemOut Port}

theorem flow_atMem (hm : p.mem = some m) (hs : m.stalling = false) :
    (p.flowNext f m).atMem code (p.atMem code s) = p.atEx code s := by
  change (p.atMem code s).advance code m.out.valid = _
  rw [(mem_flowed hm hs).1]; rfl

theorem flow_atEx (hm : p.mem = some m) (hs : m.stalling = false) :
    (p.flowNext f m).atEx code (p.atMem code s) = p.atId code s := by
  unfold atEx atId
  rw [flow_atMem hm hs]
  change (p.atEx code s).advance code p.exec.out.valid = _
  rw [exec_valid]

/-- On a redirect the target is the machine's next pc. -/
theorem redirectTarget_eq (h : p.Tracks code s) (hl : p.idLive = true)
    (hr : p.exec.redirect = true) : p.exec.redirectTarget = (p.atId code s).pc := by
  have hv := exec_redirect_valid hr
  rw [h.redirectTarget_nextPc (idLive_exLive hl) hr]
  unfold atId
  rw [hv, advance_true, step_of_runs (h.runs_of_idLive hv hl)]

/-- Without a redirect an honest prediction took the front end to the machine's next pc. -/
theorem follows_step {s : Machine} {fe : IfId} {pc : Word} (hfol : Follows fe pc)
    (hraw : fe.raw = wordAt code fe.pc) (hpc : fe.pc = s.pc) (hl : s.halts code = false)
    (ht : s.taken (s.insn code) = fe.predictedTaken) : pc = (s.step code).pc := by
  have hi : decode fe.raw fe.pc = s.insn code := by rw [hraw, hpc]; rfl
  have hipc : (s.insn code).pc = s.pc := decode_pc _ _
  rw [step_of_runs hl]
  unfold nextPc
  rw [ht]
  unfold Follows at hfol
  rw [hi] at hfol
  cases hp : fe.predictedTaken with
  | false =>
    rw [hp] at hfol
    rw [hipc, ← hpc]
    simpa using hfol
  | true =>
    rw [hp, if_pos rfl] at hfol
    obtain ⟨hop, htgt⟩ := hfol
    have hne : (s.insn code).op ≠ .jalr := by
      intro hj
      rw [hj] at hop
      simp [isCondBranch] at hop
    rw [if_pos rfl, Machine.target, if_neg hne, hipc, ← hpc, htgt]

/-- A fetch from the machine's pc leaves the front end on the machine's path. -/
theorem front_of_fetch {q : Pipe} {pc' : Word} (hf : p.fetch = some f)
    (himage : p.iport.bytes = code) (hpc : p.pc = pc') (hhonest : Honest code p.bpred p.pc)
    (hif : q.ifId = f.out) (hq : q.pc = if f.fetchStall then p.pc else f.predictedPc) :
    q.frontPc = pc' ∧ (q.ifId.valid = true → Follows q.ifId q.pc) := by
  unfold frontPc
  rw [hif]
  have hv := fetch_valid hf
  cases hst : f.fetchStall with
  | true =>
    rw [hst] at hv
    rw [hv, hq, hst]
    exact ⟨hpc, by simp⟩
  | false =>
    rw [hst] at hv
    obtain ⟨h1, h2, h3, h4⟩ := fetch_served hf hv
    rw [himage] at h2
    have hq' : q.pc = f.predictedPc := by rw [hq, hst]; rfl
    rw [hv]
    refine ⟨h1.trans hpc, fun _ => ?_⟩
    unfold Follows
    rw [h1, h2, h3, hq', h4]
    cases hp : (predictAt p.bpred p.pc).taken with
    | false => simp
    | true =>
      obtain ⟨hop, htgt⟩ := hhonest hp
      exact ⟨hop, htgt⟩

/-- The latches go on holding what the machine executes next. -/
theorem flow_carries (h : p.Tracks code s) (hf : p.fetch = some f) (hm : p.mem = some m)
    (hs : m.stalling = false) (hrun : p.halting = false) :
    (p.flowNext f m).Carries code (p.atMem code s) (p.atEx code s) (p.atId code s) := by
  refine h.toCarries.flow hf hm hs hrun (passes_advance _ _ _) fun hidv hl => ?_
  obtain ⟨hr, -, hfv⟩ := (flow_idEx_valid p f m).mp hidv
  have hfront := h.front (onPath_of (flow_exLive hm hs hrun hl) hr)
  unfold frontPc at hfront
  rwa [hfv, if_pos rfl] at hfront

theorem flow_atId (hm : p.mem = some m) (hs : m.stalling = false) :
    (p.flowNext f m).atId code (p.atMem code s) =
      (p.atId code s).advance code (p.flowNext f m).idEx.valid := by
  unfold atId
  rw [flow_atEx hm hs]
  rfl

/-- When ID moves and the tick stays on the machine's path, the pc is what comes after the
    instruction ID hands on. -/
theorem pc_of_flow (h : p.Tracks code s) (hf : p.fetch = some f) (hm : p.mem = some m)
    (hs : m.stalling = false) (hrun : p.halting = false) (hp : (p.flowNext f m).onPath = true)
    (hr : p.exec.redirect = false) (hz : p.hazard = false) :
    p.pc = ((p.flowNext f m).atId code (p.atMem code s)).pc := by
  have hidl' := onPath_idLive hp
  have hpath := onPath_of (flow_exLive hm hs hrun (idLive_exLive hidl')) hr
  have hfront := h.front hpath
  unfold frontPc at hfront
  rw [flow_atId hm hs]
  cases hfv : p.ifId.valid with
  | false =>
    have hbub : (p.flowNext f m).idEx.valid = false := by
      rw [Bool.eq_false_iff, ne_eq, flow_idEx_valid, hfv]
      simp
    rw [hbub, advance_false, ← hfront, hfv]
    rfl
  | true =>
    have hv' : (p.flowNext f m).idEx.valid = true := (flow_idEx_valid p f m).mpr ⟨hr, hz, hfv⟩
    rw [hfv, if_pos rfl] at hfront
    have hraw := h.fetched hfv
    have hdec := flow_idEx p f m hv'
    have hd := decodeInsn_holds p.rf hfv
    have hholds : (decodeInsn p.rf p.ifId).Holds ((p.atId code s).insn code) := by
      rw [hraw, hfront] at hd
      exact hd
    -- the new ID/EX entry resolves without a redirect, so the prediction was right
    have hnr := onPath_redirect hp
    rw [(h.flow_carries hf hm hs hrun).exec_eq hv' (idLive_exLive hidl'), hdec,
      executeAt_redirect hholds] at hnr
    have htk : (p.atId code s).taken ((p.atId code s).insn code) = p.ifId.predictedTaken := by
      have hpt : (decodeInsn p.rf p.ifId).predictedTaken = p.ifId.predictedTaken := by
        simp [decodeInsn, hfv]
      rw [hpt] at hnr
      simpa using hnr
    have hruns : (p.atId code s).halts code = false := by
      rw [halts_eq, ← hholds.op, ← hdec]
      simp only [idLive, hv', Bool.true_and, Bool.and_eq_true, Bool.not_eq_true'] at hidl'
      exact hidl'.2
    rw [hv', advance_true]
    exact follows_step (h.predicted hpath hfv) hraw hfront hruns htk

/-- Where the front end is after the tick, if it is on the machine's path. -/
theorem flow_front (h : p.Tracks code s) (hf : p.fetch = some f) (hm : p.mem = some m)
    (hs : m.stalling = false) (hrun : p.halting = false)
    (hhonest : ∀ j, p.pc = (s.after code j).pc → Honest code p.bpred p.pc)
    (hp : (p.flowNext f m).onPath = true) :
    (p.flowNext f m).frontPc = ((p.flowNext f m).atId code (p.atMem code s)).pc ∧
      ((p.flowNext f m).ifId.valid = true →
        Follows (p.flowNext f m).ifId (p.flowNext f m).pc) := by
  have hidl : p.idLive = true := flow_exLive hm hs hrun (idLive_exLive (onPath_idLive hp))
  have hid : (p.flowNext f m).ifId =
      if p.exec.redirect then {} else if p.hazard then p.ifId else f.out := rfl
  have hpc : (p.flowNext f m).pc = if p.exec.redirect then p.exec.redirectTarget
      else if p.hazard || f.fetchStall then p.pc else f.predictedPc := rfl
  cases hr : p.exec.redirect with
  | true =>
    have hbub : (p.flowNext f m).idEx.valid = false := by
      rw [Bool.eq_false_iff, ne_eq, flow_idEx_valid, hr]
      simp
    rw [flow_atId hm hs, hbub, advance_false]
    rw [hr, if_pos rfl] at hid hpc
    unfold frontPc
    rw [hid, hpc]
    exact ⟨redirectTarget_eq h hidl hr, by simp⟩
  | false =>
    rw [hr, if_neg (by simp)] at hid hpc
    cases hz : p.hazard with
    | true =>
      have hpath := onPath_of hidl hr
      have hbub : (p.flowNext f m).idEx.valid = false := by
        rw [Bool.eq_false_iff, ne_eq, flow_idEx_valid, hz]
        simp
      rw [flow_atId hm hs, hbub, advance_false]
      rw [hz] at hid hpc
      simp only [if_true, Bool.true_or] at hid hpc
      unfold frontPc
      rw [hid, hpc]
      exact ⟨h.front hpath, h.predicted hpath⟩
    | false =>
      rw [hz] at hid hpc
      simp only [Bool.false_eq_true, if_false, Bool.false_or] at hid hpc
      have hnext := h.pc_of_flow hf hm hs hrun hp hr hz
      obtain ⟨j, hj⟩ := atId_eq_after code (p.atMem code s) (p.flowNext f m)
      have hafter : p.pc = (s.after code (p.memWb.valid.toNat + j)).pc := by
        rw [hnext, hj, atMem, advance_eq_after, after_add]
      exact front_of_fetch hf h.image hnext (hhonest _ hafter) hid hpc

/-- A tick on which every stage moves keeps the pipeline ahead of the machine. -/
theorem flow (h : p.Tracks code s) (hf : p.fetch = some f) (hm : p.mem = some m)
    (hs : m.stalling = false) (hrun : p.halting = false)
    (hhonest : ∀ j, p.pc = (s.after code j).pc → Honest code p.bpred p.pc) :
    (p.flowNext f m).Tracks code (p.atMem code s) := by
  have hfront := h.flow_front hf hm hs hrun hhonest
  refine ⟨?_, fun hp => (hfront hp).1, fun hp hfv => (hfront hp).2 hfv⟩
  rw [flow_atMem hm hs, flow_atEx hm hs]
  exact h.flow_carries hf hm hs hrun

end Flow

end Tracks

end Pipe

end CpuSim
