import CpuSim.Rtl.Prediction

/-!
# A booted core executes RV32I

The refinement of `CpuSim.Rtl.Refinement`, from the images a core is booted with to the state
it is in after any number of ticks.
-/

namespace CpuSim

open Rv32i Machine

namespace Core

/-- An image as the memory of the sequential machine: the RAM holds it from the base address
    on. -/
def imageOf (cfg : SimConfig) (image : Nat → Byte) : ByteMap :=
  ByteMap.ofList cfg.ramBaseAddr.toNat (bytesOf cfg.ramSizeBytes image)

/-- The sequential machine a booted core is meant to be. -/
def reference (cfg : SimConfig) (dmem : Nat → Byte) (rf : RegFile) : Machine :=
  { pc := cfg.ramBaseAddr, regs := rf, mem := imageOf cfg dmem }

theorem newIport_load_bytes (cfg : SimConfig) (bytes : List Byte) :
    ((newIport cfg).load bytes).bytes = ByteMap.ofList cfg.ramBaseAddr.toNat bytes := by
  unfold newIport
  dsimp only
  split <;> rfl

theorem newDport_load_bytes (cfg : SimConfig) (bytes : List Byte) :
    ((newDport cfg).load bytes).bytes = ByteMap.ofList cfg.ramBaseAddr.toNat bytes := by
  unfold newDport
  dsimp only
  split <;> rfl

variable {cfg : SimConfig} {imem dmem : Nat → Byte} {rf : RegFile}

/-- Before the first tick every slot is a bubble and the pc is the machine's. -/
theorem tracks_boot (cfg : SimConfig) (imem dmem : Nat → Byte) (rf : RegFile) :
    (boot cfg imem dmem rf).view.Tracks (imageOf cfg imem) (reference cfg dmem rf) where
  running := rfl
  image := newIport_load_bytes cfg _
  toMem := rfl
  toEx := rfl
  regs := rfl
  data := newDport_load_bytes cfg _
  wb h := nomatch h
  mem h := nomatch h
  fetched h := nomatch h
  decoded h := nomatch h
  ex h := nomatch h
  interlock h := nomatch h
  front _ := rfl
  predicted _ h := nomatch h

theorem knows_boot (hcfg : cfg.Valid) (code : ByteMap) :
    Knows (boot cfg imem dmem rf).view.bpred code := by
  intro bp hbp
  change (if cfg.bpredEnabled then
    some (BranchPredictor.new cfg.bpredBhtEntries cfg.bpredBtbEntries) else none) = some bp at hbp
  split at hbp
  · rename_i he
    obtain ⟨-, hpow, hlt⟩ := hcfg.bpred he
    rw [← Option.some.inj hbp]
    exact ⟨BranchPredictor.sound_new _ _ _, BranchPredictor.shaped_new hpow hlt⟩
  · cases hbp

/-- Without a predictor nothing is ever predicted taken. -/
theorem bpred_none_of_ticks {p q : Pipe} (hp : p.bpred = none) {n : Nat}
    (hq : p.ticks n = some q) : q.bpred = none := by
  refine Runs.run_invariant Pipe.tick (P := fun r : Pipe => r.bpred = none) ?_ hp hq
  intro u v hu huv
  cases hh : u.halted with
  | true =>
    obtain rfl := Pipe.eq_of_tick_of_halted hh huv
    exact hu
  | false =>
    obtain ⟨f, m, -, -, ⟨-, rfl⟩ | ⟨-, rfl⟩⟩ := Pipe.tick_cases hh huv
    · exact hu
    · change u.trained = none
      unfold Pipe.trained
      rw [hu]
      split <;> rfl

theorem refines_boot (hcfg : cfg.Valid)
    (halign : cfg.bpredEnabled = true → (reference cfg dmem rf).Aligned (imageOf cfg imem))
    {n : Nat} {q : Pipe} (hq : (boot cfg imem dmem rf).view.ticks n = some q) :
    q.Refines ((boot cfg imem dmem rf).view.retired n) (imageOf cfg imem)
      (reference cfg dmem rf) := by
  have htr := tracks_boot cfg imem dmem rf
  cases hb : cfg.bpredEnabled with
  | true => exact Pipe.refines_of_aligned htr (halign hb) (knows_boot hcfg _) hq
  | false =>
    have hnone : (boot cfg imem dmem rf).view.bpred = none := by
      change (if cfg.bpredEnabled then _ else none) = none
      rw [hb]; rfl
    refine Pipe.refines_of_ticks htr (fun k _ r hr _ _ j _ => ?_) hq
    rw [bpred_none_of_ticks hnone hr]
    intro ht
    cases ht

/-- For every configuration and every image, after any number of ticks: what has retired is
    what the sequential machine executes first, entry by entry; the register file is the
    machine's behind it, and while the core runs its data memory is the machine's behind the
    instruction in MEM/WB as well. The core has halted exactly when the machine's stopping
    instruction has retired, and then it reports that instruction. -/
theorem pipeline_refines_isa (cfg : SimConfig) (hcfg : cfg.Valid) (imem dmem : Nat → Byte)
    (rf : RegFile)
    (halign : cfg.bpredEnabled = true → (reference cfg dmem rf).Aligned (imageOf cfg imem))
    (n : Nat) (c : Core) (hrun : (boot cfg imem dmem rf).ticks n = some c) :
    let code := imageOf cfg imem
    let s := reference cfg dmem rf
    let log := (boot cfg imem dmem rf).retired n
    log.map MemWb.commit = execution code log.length s ∧
      c.rf = (s.after code log.length).regs ∧
      (c.halted = false →
        c.dport.bytes = (s.after code (log.length + c.memWb.reg.valid.toNat)).mem) ∧
      (c.halted = true ↔ ∃ k < log.length, (s.after code k).halts code = true) ∧
      (c.halted = true →
        c.haltPc = (s.after code log.length).pc ∧
          c.haltRaw = wordAt code (s.after code log.length).pc ∧
          c.haltReason = Pipe.reasonFor ((s.after code log.length).insn code).op) := by
  intro code s log
  have hq := view_of_ticks (quiet_boot cfg imem dmem rf) hrun
  have href := refines_boot hcfg halign hq
  rw [← retired_view (quiet_boot cfg imem dmem rf) n] at href
  refine ⟨href.commits, href.regs, ?_⟩
  obtain ⟨hlive, htr⟩ | hstop := href.phase
  · have hrunning : c.halted = false := htr.running
    refine ⟨fun _ => ?_, ?_, fun hh => by rw [hrunning] at hh; cases hh⟩
    · rw [← after_add, ← advance_eq_after]
      exact htr.data
    · rw [hrunning]
      refine ⟨fun hh => (by cases hh), fun ⟨k, hk, hkh⟩ => ?_⟩
      rw [hlive k hk] at hkh
      cases hkh
  · obtain ⟨k, hlen, -, hkh, hpc, hraw, hreason⟩ := hstop.last
    have hhalted : c.halted = true := hstop.halted
    have hsame : s.after code log.length = s.after code k := by
      rw [show log.length = k + 1 from hlen, after_succ, step_of_halts hkh]
    refine ⟨fun hh => (by rw [hhalted] at hh; cases hh), ?_, fun _ => ?_⟩
    · exact ⟨fun _ => ⟨k, by rw [show log.length = k + 1 from hlen]; omega, hkh⟩, fun _ => hhalted⟩
    · rw [hsame]
      exact ⟨hpc, hraw, hreason⟩

/-! ## Where the memories lie -/

/-- An access of `n` bytes at `addr` lies in the configured RAM. -/
def InRam (cfg : SimConfig) (addr : Word) (n : Nat) : Prop :=
  cfg.ramBaseAddr ≤ addr ∧ (addr - cfg.ramBaseAddr).toNat + n ≤ cfg.ramSizeBytes

instance (cfg : SimConfig) (addr : Word) (n : Nat) : Decidable (InRam cfg addr n) := by
  unfold InRam; infer_instance

theorem inRange_iff {cfg : SimConfig} {p : Port}
    (h : p.span = (cfg.ramBaseAddr, cfg.ramSizeBytes)) (addr : Word) (n : Nat) :
    p.ram.InRange addr n ↔ InRam cfg addr n := by
  simp only [Port.span, Prod.mk.injEq] at h
  simp only [FlatMem.InRange, InRam, h]

theorem span_of_ticks {q : Pipe} {n : Nat}
    (hq : (boot cfg imem dmem rf).view.ticks n = some q) :
    q.iport.span = (cfg.ramBaseAddr, cfg.ramSizeBytes) ∧
      q.dport.span = (cfg.ramBaseAddr, cfg.ramSizeBytes) := by
  have hload : ∀ (p : Port) (image : Nat → Byte), p.ram.base = cfg.ramBaseAddr →
      (p.load (bytesOf cfg.ramSizeBytes image)).span = (cfg.ramBaseAddr, cfg.ramSizeBytes) := by
    intro p image hp
    rw [Port.load_eq_setRam, Port.span, Port.setRam_ram, ← hp]
    simp [bytesOf]
  have hi := hload (newIport cfg) imem (by unfold newIport; dsimp only; split <;> rfl)
  have hd := hload (newDport cfg) dmem (by unfold newDport; dsimp only; split <;> rfl)
  refine Runs.run_invariant Pipe.tick (P := fun r : Pipe =>
    r.iport.span = (cfg.ramBaseAddr, cfg.ramSizeBytes) ∧
      r.dport.span = (cfg.ramBaseAddr, cfg.ramSizeBytes)) ?_ ⟨hi, hd⟩ hq
  intro u v hu huv
  obtain ⟨h1, h2⟩ := Pipe.tick_span huv
  exact ⟨h1.trans hu.1, h2.trans hu.2⟩

/-! ## A program of two instructions -/

/-- An image given by its halfwords, zero behind them. -/
def halfwords (ws : List Half) : Nat → Byte := fun i =>
  if i % 2 = 0 then (ws.getD (i / 2) 0).setWidth 8 else (ws.getD (i / 2) 0 >>> 8).setWidth 8

/-- A small core with a predictor. -/
def predicting : SimConfig :=
  { ramBaseAddr := 0, ramSizeBytes := 64, bpredEnabled := true, bpredBhtEntries := 4,
    bpredBtbEntries := 4 }

theorem predicting_valid : predicting.Valid where
  dmem := ⟨by decide, by decide⟩
  imem := ⟨by decide, by decide⟩
  dcache h := nomatch h
  icache h := nomatch h
  bpred _ := ⟨⟨2, rfl⟩, ⟨2, rfl⟩, by decide⟩

/-- `addi x1, x0, 5; ebreak`. -/
def addiEbreak : Nat → Byte := halfwords [0x0093, 0x0050, 0x0073, 0x0010]

theorem addiEbreak_aligned :
    (reference predicting (fun _ => 0) RegFile.zero).Aligned (imageOf predicting addiEbreak) := by
  intro j
  obtain h | h : j = 0 ∨ 1 ≤ j := by omega
  · subst h; rfl
  · obtain ⟨k, rfl⟩ := Nat.exists_eq_add_of_le h
    rw [← after_add, after_of_halts (by decide +kernel)]
    decide +kernel

theorem pipeline_refines_isa_addiEbreak :
    ∃ c, (boot predicting addiEbreak (fun _ => 0) RegFile.zero).ticks 6 = some c ∧
      ((boot predicting addiEbreak (fun _ => 0) RegFile.zero).retired 6).map MemWb.commit =
        execution (imageOf predicting addiEbreak)
          ((boot predicting addiEbreak (fun _ => 0) RegFile.zero).retired 6).length
          (reference predicting (fun _ => 0) RegFile.zero) ∧
      c.rf = ((reference predicting (fun _ => 0) RegFile.zero).after
        (imageOf predicting addiEbreak)
        ((boot predicting addiEbreak (fun _ => 0) RegFile.zero).retired 6).length).regs := by
  obtain ⟨c, hc⟩ := Option.isSome_iff_exists.mp (by decide +kernel :
    ((boot predicting addiEbreak (fun _ => 0) RegFile.zero).ticks 6).isSome = true)
  have h := pipeline_refines_isa predicting predicting_valid addiEbreak (fun _ => 0) RegFile.zero
    (fun _ => addiEbreak_aligned) 6 c hc
  exact ⟨c, hc, h.1, h.2.1⟩

end Core

end CpuSim
