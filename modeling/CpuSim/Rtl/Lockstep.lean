import CpuSim.Rtl.Operands
import CpuSim.Rtl.Timeline
import CpuSim.Sim.DataPort

/-!
# One pipeline waits for data, the other does not

Two pipelines that differ in their data memory only. While `d` waits for an access, the
pipeline `b` without data stalls stands still, and `b.Facing d` says what they have in common:
what IF, EX and the hazard unit see on this cycle, and what WB has made or is about to make of
the register file. A stalled tick of `d` keeps it (`Facing.stall`), since whatever it re-evaluates
it does not latch. On the tick on which `d` moves, both move (`Facing.flow`), and the two agree
in every latch again.
-/

namespace CpuSim

open Rv32i

namespace Pipe

variable {p q b d : Pipe} {f : FetchOut Port} {m : MemOut Port}

/-! ## What a stalled and a waiting pipeline share -/

/-- The data pipeline `d` is on the cycle that `b` is on. -/
structure Facing (b d : Pipe) : Prop where
  halted : d.halted = b.halted
  iport : d.iport = b.iport ∨ d.iport = (IMemory.ready b.iport b.pc false).2
  bpred : d.bpred = b.bpred
  pc : d.pc = b.pc
  ifId : d.ifId = b.ifId
  idEx : ∃ v w, d.idEx = { b.idEx with rs1Val := v, rs2Val := w }
  exMem : d.exMem = b.exMem
  exec : d.exec = b.exec
  reads : ∀ ex wb r, d.nextOperand ex wb r = b.nextOperand ex wb r
  written : d.written = b.written
  halting : d.halting = b.halting
  bytes : d.dport.bytes = b.dport.bytes
  span : d.dport.span = b.dport.span
  counts : { d.retiredStats with cycles := 0 } = { b.retiredStats with cycles := 0 }
  named : d.Named

/-- They also agree on what WB holds, and IF has not asked for this cycle's word. -/
structure Aligned (b d : Pipe) : Prop extends Facing b d where
  fresh : d.iport = b.iport
  memWb : d.memWb = b.memWb

/-- What a cycle of the front end works with: the instruction memory once it was asked, the
    predictor, the pc, and every counter but the cycles. -/
structure FrontEnd where
  imem : Port
  bpred : Option BranchPredictor
  pc : Word
  counts : SimStats

def frontEnd (p : Pipe) : FrontEnd :=
  { imem := (IMemory.ready p.iport p.pc false).2, bpred := p.bpred, pc := p.pc
    counts := { p.retiredStats with cycles := 0 } }

theorem fetchWord_ready (r : Port) (bp : Option BranchPredictor) (pc : Word) :
    fetchWord (IMemory.ready r pc false).2 bp pc = fetchWord r bp pc := by
  unfold fetchWord
  rw [Port.ready_ready]

namespace Facing

/-- IF has the same to say, however often it was asked. -/
theorem asked (h : b.Facing d) :
    IMemory.ready d.iport d.pc false = IMemory.ready b.iport b.pc false := by
  rw [h.pc]
  rcases h.iport with hi | hi
  · rw [hi]
  · rw [hi, Port.ready_ready]

theorem fetch (h : b.Facing d) : d.fetch = b.fetch := by
  unfold Pipe.fetch
  rw [h.pc, h.bpred]
  rcases h.iport with hi | hi
  · rw [hi]
  · rw [hi, fetchWord_ready]

theorem frontEnd (h : b.Facing d) : d.frontEnd = b.frontEnd := by
  unfold Pipe.frontEnd
  rw [h.asked, h.bpred, h.pc, h.counts]

theorem hazard (h : b.Facing d) : d.hazard = b.hazard := by
  obtain ⟨v, w, hid⟩ := h.idEx
  unfold Pipe.hazard
  rw [hid, h.ifId]
  rfl

theorem trained (h : b.Facing d) : d.trained = b.trained := by
  obtain ⟨v, w, hid⟩ := h.idEx
  unfold Pipe.trained
  rw [h.exec, h.bpred, hid]

theorem leaving (h : b.Facing d) : d.leaving = b.leaving := by
  obtain ⟨v, w, hid⟩ := h.idEx
  unfold Pipe.leaving
  rw [h.exec, hid]

theorem serves (h : b.Facing d) (hs : b.dport.Serves b.exMem) : d.dport.Serves d.exMem := by
  have hspan := h.span
  simp only [Port.span, Prod.mk.injEq] at hspan
  rw [h.exMem]
  intro hop
  obtain ⟨hle, hlt⟩ := hs hop
  unfold FlatMem.InRange
  rw [hspan.1, hspan.2]
  exact ⟨hle, hlt⟩

end Facing

theorem mem_blank (hm : p.mem = some m) :
    m.dmem.blank = if p.exMem.valid then (p.dport.asked p.exMem).blank else p.dport.blank := by
  obtain ⟨hv, ho⟩ | ⟨hv, -, -, ho⟩ | ⟨hv, -, -, -, -, n, hd, hw⟩ := accessMem_eq_some hm
  · rw [hv, ho]; rfl
  · rw [hv, ho]; rfl
  · rw [hv, hd]
    exact Port.blank_setRam hw

/-! ## A tick on which only `d` ticks -/

/-- MEM always has an answer while it waits. -/
theorem exists_mem_of_stalls (h : p.stalls = true) :
    ∃ m, p.mem = some m ∧ m.stalling = true ∧ m.out = {} ∧
      m.dmem = p.dport.asked p.exMem := by
  have hwaits : isMemOp p.exMem.op = true →
      (IMemory.ready p.dport p.exMem.aluOut (isStore p.exMem.op)).1 = false := by
    intro hop
    unfold stalls served at h
    rw [hop] at h
    simp only [Bool.not_true, Bool.false_or, Bool.and_eq_true, Bool.not_eq_true'] at h
    exact h.2
  obtain ⟨m, hm⟩ : ∃ o, accessMem p.dport p.exMem = some o := exists_accessMem fun _ hop hr => by
    rw [hwaits hop] at hr
    cases hr
  have hs : m.stalling = true := (mem_stalling hm).trans h
  obtain ⟨-, -, hout, hd⟩ := mem_stalled hm hs
  exact ⟨m, hm, hs, hout, hd⟩

theorem retiredStats_stall (p : Pipe) (f : FetchOut Port) (hout : m.out = {}) :
    { (p.stallNext f m).retiredStats with cycles := 0 } =
      { p.retiredStats with cycles := 0 } := by
  have hwb : (p.stallNext f m).memWb = {} := hout
  have hst : (p.stallNext f m).stats = p.retiredStats.countCycle := rfl
  rw [retiredStats, hwb, hst]
  rfl

/-- What a stalled tick of `d` re-evaluates stays as it was. -/
theorem Facing.stall (h : b.Facing d) (hnh : b.halting = false) (hf : b.fetch = some f)
    (hm : d.mem = some m) (hs : m.stalling = true) (hout : m.out = {}) (hrun : d.halted = false) :
    b.Facing (d.stallNext f m) := by
  have hdf : d.fetch = some f := h.fetch.trans hf
  have hdh : d.halting = false := h.halting.trans hnh
  have htick : d.tick = some (d.stallNext f m) := by
    simp [Pipe.tick, Pipe.next, hrun, hdf, hm, hs]
  obtain ⟨-, -, -, hdm⟩ := mem_stalled hm hs
  have hwb : (d.stallNext f m).memWb = {} := hout
  have hrf : (d.stallNext f m).rf = d.written := rfl
  obtain ⟨-, hspan⟩ := tick_span htick
  refine ⟨?_, .inr ?_, h.bpred, h.pc, h.ifId, ?_, h.exMem, ?_, fun ex wb r => ?_, ?_, ?_, ?_,
    hspan.trans h.span, ?_, h.named.tick hrun htick⟩
  · change (if d.halting then true else d.halted) = b.halted
    rw [hdh]
    exact h.halted
  · change f.imem = _
    rw [(fetchWord_eq_some hdf).1, h.asked]
  · obtain ⟨v, w, hid⟩ := h.idEx
    change ∃ v w, d.captured = _
    unfold captured
    split
    · rw [hid]; exact ⟨_, _, rfl⟩
    · exact ⟨v, w, hid⟩
  · rw [Tracks.exec_stallNext d f hout, h.exec]
  · rw [← h.reads, ← h.named.nextOperand_written hdh]
    unfold nextOperand
    rw [hwb, hrf]
  · rw [Pipe.written, hwb, hrf]
    exact h.written
  · rw [Pipe.halting, hwb, hnh]
    rfl
  · rw [← h.bytes]
    change (IMemory.tick m.dmem).bytes = _
    rw [Port.bytes_tick, hdm]
    exact Port.bytes_congr (d.dport.contents_asked _)
  · rw [retiredStats_stall d f hout, h.counts]

/-! ## A tick on which both tick -/

/-- MEM of `d` completes as that of `b` does, once it is served. -/
theorem Facing.exists_mem (h : b.Facing d) (hm : b.mem = some m) (hs : m.stalling = false)
    (hd : d.stalls = false) :
    ∃ m', d.mem = some m' ∧ m'.stalling = false ∧ m'.out = m.out ∧
      m'.dmem.bytes = m.dmem.bytes := by
  have hserves : b.exMem.valid = true → b.dport.Serves b.exMem := by
    intro hv
    obtain ⟨hv', -⟩ | ⟨-, -, -, ho⟩ | ⟨-, -, hsv, -⟩ := accessMem_eq_some hm
    · rw [hv] at hv'; cases hv'
    · rw [ho] at hs; cases hs
    · exact hsv
  obtain ⟨m', hm'⟩ : ∃ o, accessMem d.dport d.exMem = some o := exists_accessMem fun hv hop _ =>
    h.serves (hserves (by rw [← h.exMem]; exact hv)) hop
  have hs' : m'.stalling = false := (mem_stalling hm').trans hd
  refine ⟨m', hm', hs', ?_, ?_⟩
  · rw [mem_out hm' hs', mem_out hm hs, h.exMem, h.bytes]
  · rw [(mem_flowed hm' hs').2.2, (mem_flowed hm hs).2.2, h.exMem, h.bytes]

theorem decodeInsn_congr (rf rf' : RegFile) (fe : IfId) :
    decodeInsn rf' fe = { decodeInsn rf fe with
      rs1Val := (decodeInsn rf' fe).rs1Val, rs2Val := (decodeInsn rf' fe).rs2Val } := by
  unfold decodeInsn
  split <;> rfl

/-- The operands that ID reads for EX. -/
theorem decodeInsn_reads (rf : RegFile) {fe : IfId} (h : (decodeInsn rf fe).valid = true) :
    (decodeInsn rf fe).rs1Val = rf.read (decodeInsn rf fe).rs1 ∧
      (decodeInsn rf fe).rs2Val = rf.read (decodeInsn rf fe).rs2 := by
  unfold decodeInsn at h ⊢
  split
  · rename_i hv
    rw [if_pos hv] at h
    cases h
  · exact ⟨rfl, rfl⟩

/-- EX after a tick, on the operands of the cycle before. -/
theorem exec_flowNext (p : Pipe) (f : FetchOut Port) (m : MemOut Port) :
    (p.flowNext f m).exec =
      if (p.flowNext f m).idEx.valid then
        executeInsn (p.flowNext f m).idEx
          (p.nextOperand p.exec.out m.out (p.flowNext f m).idEx.rs1)
          (p.nextOperand p.exec.out m.out (p.flowNext f m).idEx.rs2)
      else {} := by
  have hid : (p.flowNext f m).idEx =
      if p.exec.redirect || p.hazard then {} else decodeInsn p.rf p.ifId := rfl
  rw [Pipe.exec]
  by_cases hv : (p.flowNext f m).idEx.valid = true
  · rw [if_pos hv, if_pos hv]
    have hstays : (p.exec.redirect || p.hazard) = false := by
      cases hc : (p.exec.redirect || p.hazard) with
      | false => rfl
      | true =>
        rw [hid, hc] at hv
        cases hv
    rw [hstays] at hid
    have hreads : (p.flowNext f m).idEx.rs1Val = p.rf.read (p.flowNext f m).idEx.rs1 ∧
        (p.flowNext f m).idEx.rs2Val = p.rf.read (p.flowNext f m).idEx.rs2 := by
      rw [hid] at hv ⊢
      exact decodeInsn_reads p.rf hv
    unfold operand nextOperand
    rw [hreads.1, hreads.2]
    rfl
  · rw [if_neg hv, if_neg hv]

theorem counts_flow {p q : Pipe} {mp mq : MemOut Port}
    (hc : { q.retiredStats with cycles := 0 } = { p.retiredStats with cycles := 0 })
    (hx : q.exec = p.exec) (hout : mq.out = mp.out) :
    { (q.flowNext f mq).retiredStats with cycles := 0 } =
      { (p.flowNext f mp).retiredStats with cycles := 0 } := by
  have hst : ∀ (r : Pipe) (mr : MemOut Port), (r.flowNext f mr).retiredStats =
      if mr.out.valid then
        (if r.exec.control then r.retiredStats.countBranch r.exec.redirect
          else r.retiredStats).countCycle.countInstruction
      else (if r.exec.control then r.retiredStats.countBranch r.exec.redirect
          else r.retiredStats).countCycle := fun _ _ => rfl
  simp only [SimStats.mk.injEq, true_and] at hc
  obtain ⟨hi, hb, hb', hp, hp'⟩ := hc
  rw [hst, hst, hx, hout]
  unfold SimStats.countBranch SimStats.countInstruction SimStats.countCycle
  cases mp.out.valid <;> cases p.exec.control <;> cases p.exec.redirect <;>
    simp [hi, hb, hb', hp, hp']

/-- Once the access is served, both pipelines move, and agree in every latch. -/
theorem Facing.flow (h : b.Facing d) (hrun : d.halted = false) (hf : b.fetch = some f)
    (hm : b.mem = some m) (hs : m.stalling = false) (hd : d.stalls = false) :
    ∃ d', d.tick = some d' ∧ (b.flowNext f m).Aligned d' ∧
      d'.dport.blank = IMemory.tick
        (if d.exMem.valid then (d.dport.asked d.exMem).blank else d.dport.blank) := by
  obtain ⟨m', hm', hs', hout, hbytes⟩ := h.exists_mem hm hs hd
  have hdf : d.fetch = some f := h.fetch.trans hf
  have htick : d.tick = some (d.flowNext f m') := by
    simp [Pipe.tick, Pipe.next, hrun, hdf, hm', hs']
  have hx := h.exec
  have hz := h.hazard
  have hidEx : ∃ v w, (d.flowNext f m').idEx =
      { (b.flowNext f m).idEx with rs1Val := v, rs2Val := w } := by
    change ∃ v w, (if d.exec.redirect || d.hazard then {} else decodeInsn d.rf d.ifId : IdEx) =
      { (if b.exec.redirect || b.hazard then {} else decodeInsn b.rf b.ifId : IdEx) with
        rs1Val := v, rs2Val := w }
    rw [hx, hz, h.ifId]
    split
    · exact ⟨_, _, rfl⟩
    · exact ⟨_, _, decodeInsn_congr b.rf d.rf b.ifId⟩
  have hwb : (d.flowNext f m').memWb = (b.flowNext f m).memWb := hout
  have hrf : (d.flowNext f m').rf = (b.flowNext f m).rf := h.written
  have hspan : m'.dmem.span = m.dmem.span := by rw [mem_span hm', mem_span hm, h.span]
  have htrained : (d.flowNext f m').bpred = (b.flowNext f m).bpred := h.trained
  refine ⟨_, htick, ⟨⟨?_, .inl rfl, htrained, ?_, ?_, hidEx, ?_, ?_, fun ex wb r => ?_, ?_, ?_, ?_,
    ?_, counts_flow h.counts hx hout, h.named.tick hrun htick⟩, rfl, hwb⟩, ?_⟩
  · change (if d.halting then true else d.halted) = if b.halting then true else b.halted
    rw [h.halting, h.halted]
  · rw [flow_pc, flow_pc, hx, hz, h.pc]
  · rw [flow_ifId, flow_ifId, hx, hz, h.ifId]
  · exact congrArg ExecOut.out hx
  · obtain ⟨v, w, hid⟩ := hidEx
    rw [exec_flowNext, exec_flowNext, hid, hx, hout, h.reads, h.reads]
    rfl
  · unfold nextOperand
    rw [hwb, hrf]
  · unfold Pipe.written
    rw [hwb, hrf]
  · unfold Pipe.halting
    rw [hwb]
  · change (IMemory.tick m'.dmem).bytes = (IMemory.tick m.dmem).bytes
    rw [Port.bytes_tick, Port.bytes_tick, hbytes]
  · change (IMemory.tick m'.dmem).span = (IMemory.tick m.dmem).span
    rw [Port.span_congr m'.dmem.contents_tick, Port.span_congr m.dmem.contents_tick, hspan]
  · change (IMemory.tick m'.dmem).blank = _
    rw [← mem_blank hm']
    exact (Port.maps_blank.tick m'.dmem).symm

end Pipe

end CpuSim
