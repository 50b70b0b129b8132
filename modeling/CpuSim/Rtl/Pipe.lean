import CpuSim.Sim.Core

/-!
# The pipeline without shadows and signals

`Pipe` keeps what a tick of the core carries to the next one: memories, registers, predictor,
the visible latches, the forwarding snapshot and the pc. The shadow halves of the latches and
the flags one stage sets on another live only inside a tick, so a tick is a function of this
state alone (`view_tick`), and every result about runs is proved on `Pipe`.
-/

namespace CpuSim

open Rv32i

/-- The registered state of the core. -/
structure Pipe where
  iport : Port
  dport : Port
  rf : RegFile
  bpred : Option BranchPredictor
  stats : SimStats
  ifId : IfId
  idEx : IdEx
  exMem : ExMem
  memWb : MemWb
  prevMemWb : MemWb
  pc : Word
  halted : Bool
  haltReason : HaltReason
  haltPc : Word
  haltRaw : Word

namespace Pipe

/-! ## What the stages compute from the registers -/

def fetch (p : Pipe) : Option (FetchOut Port) := fetchWord p.iport p.bpred p.pc

def mem (p : Pipe) : Option (MemOut Port) := accessMem p.dport p.exMem

/-- The access of the entry in EX/MEM, if there is one, is served on this tick. -/
def served (p : Pipe) : Bool :=
  !isMemOp p.exMem.op || (IMemory.ready p.dport p.exMem.aluOut (isStore p.exMem.op)).1

/-- MEM stalls this tick. -/
def stalls (p : Pipe) : Bool := p.exMem.valid && !p.served

/-- A register operand of the instruction in EX, after forwarding. -/
def operand (p : Pipe) (reg : RegIdx) (cur : Word) : Word :=
  resolve p.exMem p.memWb p.prevMemWb reg cur

def exec (p : Pipe) : ExecOut :=
  if p.idEx.valid then
    executeInsn p.idEx (p.operand p.idEx.rs1 p.idEx.rs1Val) (p.operand p.idEx.rs2 p.idEx.rs2Val)
  else {}

def hazard (p : Pipe) : Bool := loadUseHazard p.idEx p.ifId

def halting (p : Pipe) : Bool := p.memWb.valid && isHalting p.memWb.op

/-- The register file after this tick's write-back. -/
def written (p : Pipe) : RegFile :=
  if writesBack p.memWb then p.rf.write p.memWb.rd p.memWb.wbVal else p.rf

/-- ID/EX with its operands captured for the next cycle of a MEM stall. -/
def captured (p : Pipe) : IdEx :=
  if p.idEx.valid then
    { p.idEx with
      rs1Val := p.operand p.idEx.rs1 p.idEx.rs1Val
      rs2Val := p.operand p.idEx.rs2 p.idEx.rs2Val }
  else p.idEx

@[simp] theorem captured_valid (p : Pipe) : p.captured.valid = p.idEx.valid := by
  unfold captured; split <;> rfl

@[simp] theorem captured_pc (p : Pipe) : p.captured.pc = p.idEx.pc := by
  unfold captured; split <;> rfl

@[simp] theorem captured_op (p : Pipe) : p.captured.op = p.idEx.op := by
  unfold captured; split <;> rfl

@[simp] theorem captured_rs1 (p : Pipe) : p.captured.rs1 = p.idEx.rs1 := by
  unfold captured; split <;> rfl

@[simp] theorem captured_rs2 (p : Pipe) : p.captured.rs2 = p.idEx.rs2 := by
  unfold captured; split <;> rfl

theorem captured_of_valid {p : Pipe} (h : p.idEx.valid = true) :
    p.captured = { p.idEx with
      rs1Val := p.operand p.idEx.rs1 p.idEx.rs1Val
      rs2Val := p.operand p.idEx.rs2 p.idEx.rs2Val } := if_pos h

theorem exec_valid (p : Pipe) : p.exec.out.valid = p.idEx.valid := by
  unfold exec
  by_cases hv : p.idEx.valid = true
  · rw [if_pos hv, hv]; rfl
  · rw [if_neg hv]; simp [hv]

theorem exec_op {p : Pipe} (hv : p.idEx.valid = true) : p.exec.out.op = p.idEx.op := by
  unfold exec; rw [if_pos hv]; rfl

theorem exec_rd {p : Pipe} (hv : p.idEx.valid = true) : p.exec.out.rd = p.idEx.rd := by
  unfold exec; rw [if_pos hv]; rfl

/-- Only a valid instruction redirects. -/
theorem exec_redirect_valid {p : Pipe} (h : p.exec.redirect = true) : p.idEx.valid = true := by
  unfold exec at h
  by_contra hv
  rw [if_neg hv] at h
  cases h

/-- The predictor after the instruction in EX has trained it. -/
def trained (p : Pipe) : Option BranchPredictor :=
  if p.exec.trainable then
    p.bpred.map fun bp => bp.update p.idEx.pc p.exec.trainCond p.exec.out.branchTaken
      p.exec.out.branchTarget
  else p.bpred

/-- The counters after retirement, before any branch probe. -/
def retiredStats (p : Pipe) : SimStats :=
  if p.memWb.valid then p.stats.countInstruction else p.stats

/-! ## Next state -/

/-- What both kinds of tick do: write back, note a halt, move the forwarding snapshot. -/
def drain (p : Pipe) : Pipe :=
  { p with
    rf := p.written
    prevMemWb := p.memWb
    halted := if p.halting then true else p.halted
    haltReason := if p.halting then (if p.memWb.op = .ebreak then .ebreak else .illegal)
      else p.haltReason
    haltPc := if p.halting then p.memWb.pc else p.haltPc
    haltRaw := if p.halting then p.memWb.raw else p.haltRaw }

/-- A tick on which MEM stalls: IF, ID and EX hold, MEM/WB takes a bubble. -/
def stallNext (p : Pipe) (f : FetchOut Port) (m : MemOut Port) : Pipe :=
  { p.drain with
    iport := f.imem
    dport := IMemory.tick m.dmem
    stats := p.retiredStats.countCycle
    idEx := p.captured
    memWb := m.out }

/-- A tick on which every stage moves. -/
def flowNext (p : Pipe) (f : FetchOut Port) (m : MemOut Port) : Pipe :=
  { p.drain with
    iport := IMemory.tick f.imem
    dport := IMemory.tick m.dmem
    bpred := p.trained
    stats := (if p.exec.control then p.retiredStats.countBranch p.exec.redirect
      else p.retiredStats).countCycle
    ifId := if p.exec.redirect then {} else if p.hazard then p.ifId else f.out
    idEx := if p.exec.redirect || p.hazard then {} else decodeInsn p.rf p.ifId
    exMem := p.exec.out
    memWb := m.out
    pc := if p.exec.redirect then p.exec.redirectTarget
      else if p.hazard || f.fetchStall then p.pc else f.predictedPc }

def next (p : Pipe) (f : FetchOut Port) (m : MemOut Port) : Pipe :=
  if m.stalling then p.stallNext f m else p.flowNext f m

/-- One clock cycle. -/
def tick (p : Pipe) : Option Pipe :=
  if p.halted then some p
  else do
    let f ← p.fetch
    let m ← p.mem
    some (p.next f m)

def ticks (p : Pipe) (n : Nat) : Option Pipe := Runs.run tick n p

def retires (p : Pipe) : List MemWb := if !p.halted && p.memWb.valid then [p.memWb] else []

def retired (p : Pipe) (n : Nat) : List MemWb := Runs.log tick retires n p

/-- The instruction that leaves EX on this tick, by its pc and whether it redirects. -/
def resolves (p : Pipe) : List (Word × Bool) :=
  if !p.halted && !p.stalls && p.idEx.valid then [(p.idEx.pc, p.exec.redirect)] else []

/-- The resolutions of EX in the first `n` ticks. -/
def resolved (p : Pipe) (n : Nat) : List (Word × Bool) := Runs.log tick resolves n p

/-- Everything a tick of a running pipeline can do. -/
theorem tick_cases {p q : Pipe} (hrun : p.halted = false) (h : p.tick = some q) :
    ∃ f m, p.fetch = some f ∧ p.mem = some m ∧
      ((m.stalling = true ∧ q = p.stallNext f m) ∨
        (m.stalling = false ∧ q = p.flowNext f m)) := by
  simp only [tick, hrun, Bool.false_eq_true, if_false] at h
  obtain ⟨f, hf, h⟩ := Option.bind_eq_some_iff.mp h
  obtain ⟨m, hm, h⟩ := Option.bind_eq_some_iff.mp h
  refine ⟨f, m, hf, hm, ?_⟩
  simp only [next, Option.some.injEq] at h
  cases hs : m.stalling with
  | true => exact .inl ⟨rfl, by simp [← h, hs]⟩
  | false => exact .inr ⟨rfl, by simp [← h, hs]⟩

theorem tick_of_halted {p : Pipe} (h : p.halted = true) : p.tick = some p := by simp [tick, h]

theorem eq_of_tick_of_halted {p q : Pipe} (h : p.halted = true) (ht : p.tick = some q) : q = p :=
  Option.some.inj (ht.symm.trans (tick_of_halted h))

/-- A running state comes from a running state with nothing to halt on. -/
theorem running_of_tick {p q : Pipe} (ht : p.tick = some q) (hrun : q.halted = false) :
    p.halted = false ∧ p.halting = false := by
  cases hh : p.halted with
  | true =>
    rw [eq_of_tick_of_halted hh ht, hh] at hrun
    cases hrun
  | false =>
    have hq : q.halted = if p.halting then true else p.halted := by
      obtain ⟨f, m, -, -, ⟨-, rfl⟩ | ⟨-, rfl⟩⟩ := tick_cases hh ht <;> rfl
    refine ⟨rfl, ?_⟩
    cases hc : p.halting with
    | false => rfl
    | true =>
      rw [hq, hc] at hrun
      cases hrun

/-- What every tick between running states keeps holds in the running states of a run. -/
theorem running_invariant {P : Pipe → Prop}
    (hstep : ∀ p q, P p → p.halted = false → p.halting = false → p.tick = some q → P q)
    {n : Nat} {p q : Pipe} (hp : P p) (hq : p.ticks n = some q) (hrun : q.halted = false) :
    P q := by
  induction n generalizing q with
  | zero =>
    simp only [ticks, Runs.run_zero, Option.some.injEq] at hq
    exact hq ▸ hp
  | succ n ih =>
    obtain ⟨u, hu, huq⟩ := (Runs.run_succ_eq_some tick).mp hq
    obtain ⟨hur, hunh⟩ := running_of_tick huq hrun
    exact hstep u q (ih hu hur) hur hunh huq

theorem flow_cycles (p : Pipe) (f : FetchOut Port) (m : MemOut Port) :
    (p.flowNext f m).stats.cycles = p.stats.cycles + 1 := by
  change ((if p.exec.control then p.retiredStats.countBranch p.exec.redirect
    else p.retiredStats).countCycle).cycles = _
  unfold retiredStats SimStats.countBranch SimStats.countInstruction SimStats.countCycle
  split <;> split <;> (try split) <;> rfl

theorem flow_instructions (p : Pipe) (f : FetchOut Port) (m : MemOut Port) :
    (p.flowNext f m).stats.instructions = p.retiredStats.instructions := by
  change ((if p.exec.control then p.retiredStats.countBranch p.exec.redirect
    else p.retiredStats).countCycle).instructions = _
  unfold SimStats.countBranch
  split <;> (try split) <;> rfl

/-- A running tick counts one cycle, and the instruction that retires. -/
theorem cycles_tick {p q : Pipe} (hrun : p.halted = false) (ht : p.tick = some q) :
    q.stats.cycles = p.stats.cycles + 1 ∧
      q.stats.instructions = p.retiredStats.instructions := by
  obtain ⟨f, m, -, -, ⟨-, rfl⟩ | ⟨-, rfl⟩⟩ := tick_cases hrun ht
  · refine ⟨?_, rfl⟩
    change p.retiredStats.countCycle.cycles = _
    unfold retiredStats
    split <;> rfl
  · exact ⟨flow_cycles p f m, flow_instructions p f m⟩

/-- A running state has counted one cycle for each tick. -/
theorem cycles_of_ticks {p q : Pipe} {n : Nat} (hq : p.ticks n = some q)
    (hrun : q.halted = false) :
    q.stats.cycles = p.stats.cycles + n := by
  induction n generalizing q with
  | zero =>
    simp only [ticks, Runs.run_zero, Option.some.injEq] at hq
    rw [← hq]
    rfl
  | succ n ih =>
    obtain ⟨u, hu, huq⟩ := (Runs.run_succ_eq_some tick).mp hq
    obtain ⟨hur, -⟩ := running_of_tick huq hrun
    rw [(cycles_tick hur huq).1, ih hu hur]
    rfl

end Pipe

namespace Core

/-- Drop the shadows and the signals. -/
def view (c : Core) : Pipe :=
  { iport := c.iport, dport := c.dport, rf := c.rf, bpred := c.bpred, stats := c.stats,
    ifId := c.ifId.reg, idEx := c.idEx.reg, exMem := c.exMem.reg, memWb := c.memWb.reg,
    prevMemWb := c.fwd.prevMemWb, pc := c.fetch.pc, halted := c.halted,
    haltReason := c.haltReason, haltPc := c.haltPc, haltRaw := c.haltRaw }

/-- Between ticks no stage holds a signal from another. -/
structure Quiet (c : Core) : Prop where
  fetchStall : c.fetch.stall = false
  fetchRedirect : c.fetch.redirect = false
  decodeStall : c.decode.stall = false
  decodeFlush : c.decode.flush = false

/-- The core after the evaluate phase of a quiet tick. -/
def evaluated (c : Core) (f : FetchOut Port) (m : MemOut Port) : Core :=
  { c with
    iport := f.imem
    dport := m.dmem
    ifId := c.ifId.write f.out
    idEx := c.idEx.write (decodeInsn c.rf c.ifId.reg)
    exMem := c.exMem.write c.exOut.out
    memWb := c.memWb.write m.out
    fetch :=
      { c.fetch with
        fetchStall := f.fetchStall
        nextPc := if f.fetchStall then c.fetch.pc
          else if c.fetch.redirect then c.fetch.redirectTarget else f.predictedPc }
    fwd := { c.fwd with prevMemWbNext := c.memWb.reg }
    ex := c.exEvaluate.ex
    mem := { stalling := m.stalling }
    wb := c.wbEvaluate.wb
    hazard := c.hazardEvaluate.hazard }

theorem evaluateIn_eq (c : Core) :
    c.evaluateIn evaluateOrder =
      (fetchWord c.iport c.bpred c.fetch.pc).bind fun f =>
        (accessMem c.dport c.exMem.reg).map fun m => c.evaluated f m := by
  cases hf : fetchWord c.iport c.bpred c.fetch.pc with
  | none =>
    simp only [evaluateIn, evaluateOrder, List.foldlM_cons, evaluate, fetchEvaluate, hf]
    rfl
  | some f =>
    cases hm : accessMem c.dport c.exMem.reg with
    | none =>
      simp only [evaluateIn, evaluateOrder, List.foldlM_cons, evaluate, fetchEvaluate, hf,
        Option.map_some, Option.bind_eq_bind, Option.bind_some, memEvaluate, decodeEvaluate,
        fwdEvaluate, exEvaluate, Latch.write_reg, hm, Option.map_none, Option.bind_none]
    | some m =>
      simp only [evaluateIn, evaluateOrder, List.foldlM_cons, evaluate, fetchEvaluate, hf,
        Option.map_some, Option.bind_eq_bind, Option.bind_some, memEvaluate, decodeEvaluate,
        fwdEvaluate, exEvaluate, Latch.write_reg, hm]
      rfl

/-! ## A tick of the core is a tick of its view -/

/-- The write WB has pending is the one `Pipe.written` makes. -/
theorem written_eq (c : Core) :
    (if c.wbEvaluate.wb.pending then c.rf.write c.wbEvaluate.wb.rd c.wbEvaluate.wb.val else c.rf) =
      c.view.written := by
  by_cases h : writesBack c.memWb.reg = true
  · simp only [wbEvaluate, Pipe.written, view, h, if_true]
  · simp only [wbEvaluate, Pipe.written, view, h]; rfl

theorem exEvaluate_redirect (c : Core) : c.exEvaluate.ex.redirect = c.exOut.redirect := by
  by_cases h : c.idEx.reg.valid = true <;> simp only [exEvaluate, exOut, h] <;> rfl

theorem exEvaluate_control (c : Core) : c.exEvaluate.ex.control = c.exOut.control := by
  by_cases h : c.idEx.reg.valid = true <;> simp only [exEvaluate, exOut, h] <;> rfl

/-- A redirect only comes from a valid instruction, whose target EX has just set. -/
theorem exEvaluate_redirectTarget {c : Core} (h : c.exOut.redirect = true) :
    c.exEvaluate.ex.redirectTarget = c.exOut.redirectTarget := by
  by_cases hv : c.idEx.reg.valid = true
  · simp only [exEvaluate, hv, if_true]
  · simp [exOut, hv] at h

theorem exEvaluate_trained (c : Core) :
    (if c.exEvaluate.ex.train then
        c.bpred.map fun bp => bp.update c.exEvaluate.ex.trainPc c.exEvaluate.ex.trainCond
          c.exEvaluate.ex.trainTaken c.exEvaluate.ex.trainTarget
      else c.bpred) = c.view.trained := by
  have hx : c.view.exec = c.exOut := rfl
  have hb : c.view.bpred = c.bpred := rfl
  unfold Pipe.trained
  rw [hx, hb]
  by_cases hv : c.idEx.reg.valid = true
  · cases hb : c.bpred <;> simp [exEvaluate, hv, hb]
    rfl
  · simp [exEvaluate, exOut, hv]

/-- The state after a tick on which MEM stalls. -/
def stalled (c : Core) (f : FetchOut Port) (m : MemOut Port) : Core :=
  (((c.evaluated f m).noteHalt.noteRetire.captureExOperands).latchIn stallLatchOrder).countCycle

/-- The state after a tick on which every stage latches. -/
def flowed (c : Core) (f : FetchOut Port) (m : MemOut Port) : Core :=
  ((c.evaluated f m).noteHalt.noteRetire.latchIn latchOrder).countCycle

theorem view_stalled (c : Core) (f : FetchOut Port) (m : MemOut Port) :
    (c.stalled f m).view = c.view.stallNext f m := by
  have hidEx : (c.stalled f m).idEx.reg = c.view.captured := by
    change (if c.idEx.reg.valid = true then (_ : Latch IdEx) else _).reg =
      if c.idEx.reg.valid = true then _ else _
    split <;> rfl
  have hrf : (c.stalled f m).rf = c.view.written := written_eq c
  simp only [view, Pipe.stallNext, Pipe.drain] at *
  rw [hidEx, hrf]
  rfl

/-- ID's signals when it latches: EX and the hazard unit both flush. -/
def decodeSignals (c : Core) : DecodeStage :=
  let d := if c.exEvaluate.ex.redirect then c.decode.setFlush else c.decode
  if c.view.hazard then d.setFlush else d

/-- IF's registers and signals when it latches. -/
def fetchSignals (c : Core) (f : FetchOut Port) : FetchStage :=
  let s : FetchStage :=
    { c.fetch with
      fetchStall := f.fetchStall
      nextPc := if f.fetchStall then c.fetch.pc
        else if c.fetch.redirect then c.fetch.redirectTarget else f.predictedPc }
  let s := if c.exEvaluate.ex.redirect then s.setRedirect c.exEvaluate.ex.redirectTarget else s
  if c.view.hazard then s.setStall else s

theorem flowed_idEx {c : Core} (hq : c.Quiet) (f : FetchOut Port) (m : MemOut Port) :
    (c.flowed f m).idEx.reg =
      if c.exOut.redirect || c.view.hazard then {} else decodeInsn c.rf c.ifId.reg := by
  change (if c.decodeSignals.flush then (c.idEx.write (decodeInsn c.rf c.ifId.reg)).flush
    else if !c.decodeSignals.stall then (c.idEx.write (decodeInsn c.rf c.ifId.reg)).latch
    else c.idEx.write (decodeInsn c.rf c.ifId.reg)).reg = _
  unfold decodeSignals
  rw [exEvaluate_redirect]
  cases c.exOut.redirect <;> cases c.view.hazard <;>
    simp [DecodeStage.setFlush, hq.decodeStall, hq.decodeFlush] <;> rfl

theorem flowed_ifId {c : Core} (hq : c.Quiet) (f : FetchOut Port) (m : MemOut Port) :
    (c.flowed f m).ifId.reg =
      if c.exOut.redirect then {} else if c.view.hazard then c.ifId.reg else f.out := by
  change (if (c.fetchSignals f).redirect then (c.ifId.write f.out).flush
    else if !(c.fetchSignals f).stall then (c.ifId.write f.out).latch
    else c.ifId.write f.out).reg = _
  unfold fetchSignals
  rw [exEvaluate_redirect]
  cases c.exOut.redirect <;> cases c.view.hazard <;>
    simp [FetchStage.setRedirect, FetchStage.setStall, hq.fetchStall, hq.fetchRedirect] <;> rfl

theorem flowed_pc {c : Core} (hq : c.Quiet) (f : FetchOut Port) (m : MemOut Port) :
    (c.flowed f m).fetch.pc =
      if c.exOut.redirect then c.exOut.redirectTarget
      else if c.view.hazard || f.fetchStall then c.fetch.pc else f.predictedPc := by
  change (if (c.fetchSignals f).redirect then (c.fetchSignals f).redirectTarget
    else if !(c.fetchSignals f).stall && !(c.fetchSignals f).fetchStall then
      (c.fetchSignals f).nextPc else (c.fetchSignals f).pc) = _
  unfold fetchSignals
  rw [exEvaluate_redirect]
  cases hr : c.exOut.redirect <;> cases c.view.hazard <;> cases f.fetchStall <;>
    simp [FetchStage.setRedirect, FetchStage.setStall, hq.fetchStall, hq.fetchRedirect,
      exEvaluate_redirectTarget, hr]

theorem view_flowed {c : Core} (hq : c.Quiet) (f : FetchOut Port) (m : MemOut Port) :
    (c.flowed f m).view = c.view.flowNext f m := by
  have hrf : (c.flowed f m).rf = c.view.written := written_eq c
  have hbp : (c.flowed f m).bpred = c.view.trained := exEvaluate_trained c
  have hstats : (c.flowed f m).stats =
      (if c.exEvaluate.ex.control then c.view.retiredStats.countBranch c.exEvaluate.ex.redirect
        else c.view.retiredStats).countCycle := rfl
  rw [exEvaluate_control, exEvaluate_redirect] at hstats
  simp only [view, Pipe.flowNext, Pipe.drain] at *
  rw [hrf, hbp, hstats, flowed_idEx hq, flowed_ifId hq, flowed_pc hq]
  rfl

theorem quiet_stalled {c : Core} (hq : c.Quiet) (f : FetchOut Port) (m : MemOut Port) :
    (c.stalled f m).Quiet := ⟨hq.fetchStall, hq.fetchRedirect, hq.decodeStall, hq.decodeFlush⟩

theorem quiet_flowed (c : Core) (f : FetchOut Port) (m : MemOut Port) : (c.flowed f m).Quiet :=
  ⟨rfl, rfl, rfl, rfl⟩

theorem tick_eq (c : Core) :
    c.tick = if c.halted then some c else
      (fetchWord c.iport c.bpred c.fetch.pc).bind fun f =>
        (accessMem c.dport c.exMem.reg).map fun m =>
          if m.stalling then c.stalled f m else c.flowed f m := by
  unfold tick tickIn
  rw [evaluateIn_eq]
  cases fetchWord c.iport c.bpred c.fetch.pc with
  | none => rfl
  | some f =>
    cases accessMem c.dport c.exMem.reg with
    | none => rfl
    | some m =>
      have hs : (c.evaluated f m).mem.stalling = m.stalling := rfl
      simp only [Option.bind_eq_bind, Option.bind_some, Option.map_some, hs]
      cases m.stalling <;> rfl

theorem view_tick {c : Core} (hq : c.Quiet) : c.tick.map view = c.view.tick := by
  rw [tick_eq]
  by_cases hh : c.halted = true
  · simp [hh, Pipe.tick, view]
  · have hf : c.view.fetch = fetchWord c.iport c.bpred c.fetch.pc := rfl
    have hm : c.view.mem = accessMem c.dport c.exMem.reg := rfl
    have hv : c.view.halted = c.halted := rfl
    simp only [hh, Pipe.tick, hv, hf, hm]
    cases fetchWord c.iport c.bpred c.fetch.pc with
    | none => rfl
    | some f =>
      cases accessMem c.dport c.exMem.reg with
      | none => rfl
      | some m =>
        cases hs : m.stalling with
        | true => simp [Pipe.next, hs, view_stalled]
        | false => simp [Pipe.next, hs, view_flowed hq]

theorem quiet_tick {c d : Core} (hq : c.Quiet) (h : c.tick = some d) : d.Quiet := by
  rw [tick_eq] at h
  by_cases hh : c.halted = true
  · simp only [hh, if_true, Option.some.injEq] at h
    exact h ▸ hq
  · simp only [hh] at h
    obtain ⟨f, -, h⟩ := Option.bind_eq_some_iff.mp h
    obtain ⟨m, -, rfl⟩ := Option.map_eq_some_iff.mp h
    split
    · exact quiet_stalled hq f m
    · exact quiet_flowed c f m

theorem view_ticks {c : Core} (hq : c.Quiet) (n : Nat) :
    (c.ticks n).map view = c.view.ticks n :=
  Runs.run_map tick Pipe.tick (fun _ _ => quiet_tick) (fun _ => view_tick) hq n

theorem retired_view {c : Core} (hq : c.Quiet) (n : Nat) : c.retired n = c.view.retired n :=
  Runs.log_map tick Pipe.tick retires (fun _ _ => quiet_tick) (fun _ => view_tick)
    (fun _ _ => rfl) hq n

/-- The resolutions of EX in the first `n` ticks: pc and redirect of each instruction that left
    EX. -/
def resolved (c : Core) (n : Nat) : List (Word × Bool) :=
  Runs.log tick (fun c => c.view.resolves) n c

theorem resolved_view {c : Core} (hq : c.Quiet) (n : Nat) : c.resolved n = c.view.resolved n :=
  Runs.log_map tick Pipe.tick _ (fun _ _ => quiet_tick) (fun _ => view_tick)
    (fun _ _ => rfl) hq n

theorem quiet_boot (cfg : SimConfig) (imem dmem : Nat → Byte) (rf : RegFile) :
    (boot cfg imem dmem rf).Quiet := ⟨rfl, rfl, rfl, rfl⟩

/-- A run of the core is a run of its view. -/
theorem view_of_ticks {c d : Core} (hq : c.Quiet) {n : Nat} (h : c.ticks n = some d) :
    c.view.ticks n = some d.view := by
  rw [← view_ticks hq, h]; rfl

end Core

end CpuSim
