import CpuSim.Rtl.Separation
import CpuSim.Rtl.Total
import CpuSim.Sim.Disassembly

/-!
# What the cycle trace shows

A tracer in the Cycle format prints a line in every cycle. Read back, the log is the list of
retired instructions, each in the line of its cycle; and although it shows no values, it determines
the run: two runs from the same architectural state whose logs show the same instructions have
done the same to the registers and the memory, whatever their words and configurations.
-/

namespace CpuSim

open Rv32i Machine Tracer

/-! ## Texts and the machine -/

namespace Machine

variable {code code' : ByteMap} {s : Machine}

/-- Instructions of one text do the same, unless they stop the machine. -/
theorem effect_of_disasm
    (h : disasm (wordAt code s.pc) s.pc = disasm (wordAt code' s.pc) s.pc) :
    (s.insn code).op = (s.insn code').op ∧ s.nextPc (s.insn code) = s.nextPc (s.insn code') ∧
      s.regsAfter (s.insn code) = s.regsAfter (s.insn code') ∧
      (s.commit code).reg = (s.commit code').reg ∧
      s.store (s.insn code) = s.store (s.insn code') := by
  rcases operands_of_disasm h with ⟨hop, hargs⟩
  by_cases hill : (s.insn code).op = .illegal
  · have hill' : (s.insn code').op = .illegal := hop.symm.trans hill
    have hpc : (s.insn code).pc = (s.insn code').pc := (decode_pc _ _).trans (decode_pc _ _).symm
    simp [nextPc, taken, regsAfter, result, store, commit, hill, hill', hpc]
  · have hsame : s.insn code = { s.insn code' with raw := (s.insn code).raw } := by
      have hpc : (s.insn code).pc = (s.insn code').pc := (decode_pc _ _).trans (decode_pc _ _).symm
      have hfields := hargs hill
      simp only [Instruction.operands, Operands.mk.injEq] at hfields
      cases hi : s.insn code
      cases hi' : s.insn code'
      unfold insn at hi hi' hpc
      rw [hi, hi'] at hop hfields hpc
      simp_all
    refine ⟨hop, ?_, ?_, ?_, ?_⟩
    · rw [hsame]; rfl
    · rw [hsame]; rfl
    · unfold commit
      dsimp only
      rw [hsame]
      rfl
    · rw [hsame]; rfl

theorem step_of_disasm (h : disasm (wordAt code s.pc) s.pc = disasm (wordAt code' s.pc) s.pc) :
    s.halts code = s.halts code' ∧ s.step code = s.step code' := by
  rcases effect_of_disasm h with ⟨hop, hpc, hregs, -, hstore⟩
  have hhalts : s.halts code = s.halts code' := by simp [halts, hop]
  refine ⟨hhalts, ?_⟩
  cases hh : s.halts code with
  | true => rw [step_of_halts hh, step_of_halts (hhalts ▸ hh)]
  | false =>
    rw [step_of_runs hh, step_of_runs (hhalts ▸ hh), hpc, hregs]
    simp [memAfter, hstore]

end Machine

namespace Pipe

/-- The instruction columns of the retired instructions. -/
def columns (log : List MemWb) : List (Word × List Char) :=
  log.map fun wb => (wb.pc, disasm wb.raw wb.pc)

section Logs

variable {p q : Pipe} {log log' : List MemWb} {code code' : ByteMap} {s : Machine}

theorem Refines.halted_iff (h : p.Refines log code s) :
    p.halted = true ↔ ∃ k < log.length, (s.after code k).halts code = true := by
  rcases h.phase with ⟨hlive, htr⟩ | hstop
  · simp only [htr.running, Bool.false_eq_true, false_iff, not_exists, not_and]
    intro k hk hh
    rw [hlive k hk] at hh
    cases hh
  · rcases hstop.last with ⟨k, hlen, -, hh, -⟩
    exact ⟨fun _ => ⟨k, by omega, hh⟩, fun _ => hstop.halted⟩

theorem length_eq_of_columns (hcols : columns log = columns log') : log.length = log'.length := by
  simpa [columns] using congrArg List.length hcols

/-- Where the machines are in the same state, columns show the same text. -/
theorem Refines.text_eq (h : p.Refines log code s) (h' : q.Refines log' code' s)
    (hcols : columns log = columns log') {k : Nat} (hk : k < log.length)
    (heq : s.after code k = s.after code' k) :
    disasm (wordAt code (s.after code k).pc) (s.after code k).pc =
      disasm (wordAt code' (s.after code k).pc) (s.after code k).pc := by
  have hk' : k < log'.length := length_eq_of_columns hcols ▸ hk
  rcases h.held k _ (List.getElem?_eq_getElem hk) with ⟨-, hheld⟩
  rcases h'.held k _ (List.getElem?_eq_getElem hk') with ⟨-, hheld'⟩
  have hcol : (columns log)[k]? = (columns log')[k]? := by rw [hcols]
  simp only [columns, List.getElem?_map, List.getElem?_eq_getElem hk,
    List.getElem?_eq_getElem hk', Option.map_some, Option.some.injEq, Prod.mk.injEq] at hcol
  rw [hheld.raw, hheld'.raw, hheld.pc, hheld'.pc, ← heq] at hcol
  exact hcol.2

/-- Logs with the same columns come from machines that go through the same states. -/
theorem Refines.after_eq (h : p.Refines log code s) (h' : q.Refines log' code' s)
    (hcols : columns log = columns log') {k : Nat} (hk : k ≤ log.length) :
    s.after code k = s.after code' k := by
  induction k with
  | zero => rfl
  | succ k ih =>
    have heq := ih (by omega)
    have hstep := step_of_disasm (h.text_eq h' hcols (by omega) heq)
    rw [after_succ, after_succ, ← heq]
    exact hstep.2

theorem Refines.halts_eq (h : p.Refines log code s) (h' : q.Refines log' code' s)
    (hcols : columns log = columns log') {k : Nat} (hk : k < log.length) :
    (s.after code k).halts code = (s.after code' k).halts code' := by
  have heq := h.after_eq h' hcols hk.le
  rw [← heq]
  exact (step_of_disasm (h.text_eq h' hcols hk heq)).1

theorem Refines.halted_eq (h : p.Refines log code s) (h' : q.Refines log' code' s)
    (hcols : columns log = columns log') : p.halted = q.halted := by
  have hlen := length_eq_of_columns hcols
  rw [Bool.eq_iff_iff, h.halted_iff, h'.halted_iff, ← hlen]
  refine exists_congr fun k => and_congr_right fun hk => ?_
  rw [h.halts_eq h' hcols hk]

/-- What a halted pipeline has stopped at. -/
theorem Refines.stopped_of_halted (h : p.Refines log code s) (hh : p.halted = true) :
    p.Stopped log code s := by
  rcases h.phase with ⟨-, htr⟩ | hstop
  · rw [htr.running] at hh
    cases hh
  · exact hstop

theorem Refines.report_eq (h : p.Refines log code s) (h' : q.Refines log' code' s)
    (hcols : columns log = columns log') (hh : p.halted = true) :
    p.haltPc = q.haltPc ∧ p.haltReason = q.haltReason := by
  rcases (h.stopped_of_halted hh).last with ⟨k, hk, -, -, hpc, -, hreason⟩
  rcases (h'.stopped_of_halted (h.halted_eq h' hcols ▸ hh)).last with
    ⟨k', hk', -, -, hpc', -, hreason'⟩
  have hlen := length_eq_of_columns hcols
  obtain rfl : k' = k := by omega
  have heq := h.after_eq h' hcols (k := k') (by omega)
  rw [hpc, hpc', hreason, hreason', ← heq]
  exact ⟨rfl, congrArg reasonFor (effect_of_disasm (h.text_eq h' hcols (by omega) heq)).1⟩

/-- The effects of the retired instructions, in their order. -/
def effects (log : List MemWb) : List (Option (RegIdx × Word) × Option StoreEffect) :=
  log.map fun wb => (wb.commit.reg, wb.commit.store)

theorem Refines.effects_eq (h : p.Refines log code s) (h' : q.Refines log' code' s)
    (hcols : columns log = columns log') : effects log = effects log' := by
  have hlen := length_eq_of_columns hcols
  apply List.ext_getElem (by simpa [effects] using hlen)
  intro k hk hk'
  simp only [effects, List.length_map] at hk hk'
  have heq := h.after_eq h' hcols hk.le
  rcases effect_of_disasm (h.text_eq h' hcols hk heq) with ⟨-, -, -, hreg, hstore⟩
  have hcommit := h.commit_at (List.getElem?_eq_getElem hk)
  have hcommit' := h'.commit_at (List.getElem?_eq_getElem hk')
  simp only [effects, List.getElem_map, hcommit, hcommit', ← heq, hreg]
  exact congrArg _ hstore

end Logs

end Pipe

namespace Core

/-- The text of a tracer in the Cycle format that was attached before the first tick. -/
def cycleTrace (c : Core) (n : Nat) : List (List Char) :=
  Runs.log tick (fun c => if c.halted then []
    else [cycleLine c.memWb.reg (BitVec.ofNat 64 c.cycles)]) n c

/-- The lines of the first cycles of a run, one for each, and what stands in them. -/
theorem cycleTrace_spec {c d : Core} (hq : c.Quiet) (h0 : c.cycles = 0) {n : Nat}
    (hd : c.ticks n = some d) :
    (c.cycleTrace n).length = d.cycles ∧
      (c.cycleTrace n).filterMap readCycle = Pipe.columns (c.retired n) ∧
      (d.cycles ≤ 10 ^ 15 → (c.cycleTrace n).map readNumber = List.range d.cycles) := by
  induction n generalizing d with
  | zero =>
    cases hd
    simp [cycleTrace, retired, Runs.log, h0, Pipe.columns]
  | succ n ih =>
    rcases (Runs.run_succ_eq_some tick).mp hd with ⟨u, hu, hud⟩
    rcases ih hu with ⟨hlen, hcols, hnum⟩
    have htrace : c.cycleTrace (n + 1) = c.cycleTrace n ++ _ := Runs.log_succ_of_run tick _ hu
    have hretired : c.retired (n + 1) = c.retired n ++ u.retires := Runs.log_succ_of_run tick _ hu
    cases hh : u.halted with
    | true =>
      rw [tick_of_halted hh] at hud
      have hsame : u = d := Option.some.inj hud
      subst hsame
      have hnone : u.retires = [] := by simp [retires, hh]
      rw [htrace, hretired, hnone]
      simpa [hh] using ⟨hlen, hcols, hnum⟩
    | false =>
      have hquiet : u.Quiet := Runs.run_invariant tick (fun _ _ h ht => quiet_tick h ht) hq hu
      have hcycles := cycles_of_tick hquiet hh hud
      have hline : u.retires.map (fun wb => (wb.pc, disasm wb.raw wb.pc)) =
          [cycleLine u.memWb.reg (BitVec.ofNat 64 u.cycles)].filterMap readCycle := by
        have hread := readCycle_cycleLine u.memWb.reg (BitVec.ofNat 64 u.cycles)
        cases hv : u.memWb.reg.valid <;> simp [retires, hh, hv, hread]
      rw [htrace, hretired, hcycles, hh]
      refine ⟨?_, ?_, fun hle => ?_⟩
      · simp [hlen]
      · simp only [Bool.false_eq_true, if_false, List.filterMap_append, hcols, ← hline,
          Pipe.columns, List.map_append]
      · have hsmall : (BitVec.ofNat 64 u.cycles).toNat = u.cycles := by
          simp only [BitVec.toNat_ofNat]
          omega
        have hlast := readNumber_cycleLine u.memWb.reg (BitVec.ofNat 64 u.cycles) (by omega)
        rw [List.map_append, hnum (by omega), List.range_succ]
        simp [hlast, hsmall]

variable {cfg cfg' : SimConfig} {imem dmem imem' dmem' : Nat → Byte} {rf rf' : RegFile}
  {n n' : Nat} {c c' : Core}

/-- What the cycle trace of a run reads back to. -/
theorem cycleTrace_columns (hc : (boot cfg imem dmem rf).ticks n = some c) :
    ((boot cfg imem dmem rf).cycleTrace n).filterMap readCycle =
        Pipe.columns ((boot cfg imem dmem rf).retired n) ∧
      (((boot cfg imem dmem rf).cycleTrace n).filterMap readCycle).length = c.instructions := by
  have hquiet := quiet_boot cfg imem dmem rf
  rcases cycleTrace_spec hquiet rfl hc with ⟨-, hcols, -⟩
  have hcount : c.instructions = _ :=
    (Pipe.instructions_of_ticks (view_of_ticks hquiet hc)).trans (Nat.zero_add _)
  refine ⟨hcols, ?_⟩
  rw [hcols, hcount, ← retired_view hquiet]
  simp [Pipe.columns]

/-- The cycle trace of a run has a line for each cycle, numbered in order; read back, its lines
    with an instruction are the retired instructions, and the lines without one are gaps. -/
theorem cycle_trace_readback (hc : (boot cfg imem dmem rf).ticks n = some c) :
    ((boot cfg imem dmem rf).cycleTrace n).length = c.cycles ∧
      ((boot cfg imem dmem rf).cycleTrace n).filterMap readCycle =
        Pipe.columns ((boot cfg imem dmem rf).retired n) ∧
      (((boot cfg imem dmem rf).cycleTrace n).filterMap readCycle).length = c.instructions ∧
      (c.cycles ≤ 10 ^ 15 →
        ((boot cfg imem dmem rf).cycleTrace n).map readNumber = List.range c.cycles) := by
  rcases cycleTrace_spec (quiet_boot cfg imem dmem rf) rfl hc with ⟨hlen, hcols, hnum⟩
  exact ⟨hlen, hcols, (cycleTrace_columns hc).2, hnum⟩

theorem cycle_trace_readback_addiEbreak :
    ∃ c, (boot predicting addiEbreak (fun _ => 0) RegFile.zero).ticks 6 = some c ∧
      ((boot predicting addiEbreak (fun _ => 0) RegFile.zero).cycleTrace 6)[4]? =
        some "     4 | 0x00000000  addi  ra, zero, 5".toList ∧
      ((boot predicting addiEbreak (fun _ => 0) RegFile.zero).cycleTrace 6).map readNumber =
        List.range c.cycles := by
  obtain ⟨c, hc, hcycles⟩ := Option.map_eq_some_iff.mp (by decide +kernel :
    ((boot predicting addiEbreak (fun _ => 0) RegFile.zero).ticks 6).map cycles = some 6)
  exact ⟨c, hc, by decide +kernel, (cycle_trace_readback hc).2.2.2 (by omega)⟩

/-- Two runs from the same architectural state that print the same instructions, in whatever
    cycles: they have the same registers, their instructions have had the same effects in the same
    order, and either both have halted, in the same way, or none. The two cores may differ in their
    configurations and in their instruction memories. -/
theorem cycle_trace_determines (hcfg : cfg.Valid) (hcfg' : cfg'.Valid)
    (halign : cfg.bpredEnabled = true → (reference cfg dmem rf).Aligned (imageOf cfg imem))
    (halign' : cfg'.bpredEnabled = true → (reference cfg' dmem' rf').Aligned (imageOf cfg' imem'))
    (hstart : reference cfg dmem rf = reference cfg' dmem' rf')
    (hc : (boot cfg imem dmem rf).ticks n = some c)
    (hc' : (boot cfg' imem' dmem' rf').ticks n' = some c')
    (htrace : ((boot cfg imem dmem rf).cycleTrace n).filterMap readCycle =
      ((boot cfg' imem' dmem' rf').cycleTrace n').filterMap readCycle) :
    c.rf = c'.rf ∧ c.instructions = c'.instructions ∧
      Pipe.effects ((boot cfg imem dmem rf).retired n) =
        Pipe.effects ((boot cfg' imem' dmem' rf').retired n') ∧
      c.halted = c'.halted ∧
      (c.halted = true → c.haltPc = c'.haltPc ∧ c.haltReason = c'.haltReason) := by
  have hquiet := quiet_boot cfg imem dmem rf
  have hquiet' := quiet_boot cfg' imem' dmem' rf'
  rcases cycleTrace_columns hc with ⟨hcols, hcount⟩
  rcases cycleTrace_columns hc' with ⟨hcols', hcount'⟩
  have hsame := hcols.symm.trans (htrace.trans hcols')
  have href := refines_boot hcfg halign (view_of_ticks hquiet hc)
  have href' := refines_boot hcfg' halign' (view_of_ticks hquiet' hc')
  rw [← retired_view hquiet] at href
  rw [← retired_view hquiet', ← hstart] at href'
  have hlen := Pipe.length_eq_of_columns hsame
  refine ⟨?_, ?_, href.effects_eq href' hsame, href.halted_eq href' hsame, fun hh => ?_⟩
  · have hregs : c.rf = _ := href.regs
    have hregs' : c'.rf = _ := href'.regs
    rw [hregs, hregs', href.after_eq href' hsame le_rfl, hlen]
  · rw [← hcount, htrace, hcount']
  · exact href.report_eq href' hsame hh

/-- `addi x1, x0, 5`, then a word that is EBREAK but for its destination. -/
def addiStray : Nat → Byte := halfwords [0x0093, 0x0050, 0x00F3, 0x0010]

/-- The small core without a predictor, behind a slow instruction memory. -/
def slowFetching : SimConfig := { predicting with bpredEnabled := false, imemLatencyCycles := 3 }

theorem slowFetching_valid : slowFetching.Valid where
  dmem := ⟨by decide, by decide⟩
  imem := ⟨by decide, by decide⟩
  dcache h := nomatch h
  icache h := nomatch h
  bpred h := nomatch h

theorem cycle_trace_determines_addiStray :
    ∃ c c', (boot predicting addiEbreak (fun _ => 0) RegFile.zero).ticks 6 = some c ∧
      (boot slowFetching addiStray (fun _ => 0) RegFile.zero).ticks 12 = some c' ∧
      c.halted = true ∧ c.rf = c'.rf ∧ c.haltPc = c'.haltPc ∧ c.haltRaw ≠ c'.haltRaw := by
  obtain ⟨c, hc, hstate⟩ := Option.map_eq_some_iff.mp (by decide +kernel :
    ((boot predicting addiEbreak (fun _ => 0) RegFile.zero).ticks 6).map
      (fun c => (c.halted, c.haltRaw)) = some (true, 0x00100073))
  obtain ⟨c', hc', hraw'⟩ := Option.map_eq_some_iff.mp (by decide +kernel :
    ((boot slowFetching addiStray (fun _ => 0) RegFile.zero).ticks 12).map haltRaw =
      some 0x001000F3)
  obtain ⟨hhalted, hraw⟩ := Prod.mk.inj hstate
  have h := cycle_trace_determines predicting_valid slowFetching_valid (fun _ => addiEbreak_aligned)
    (nomatch ·) rfl hc hc' (by decide +kernel)
  refine ⟨c, c', hc, hc', hhalted, h.1, (h.2.2.2.2 hhalted).1, ?_⟩
  rw [hraw, hraw']
  decide

end Core

end CpuSim
