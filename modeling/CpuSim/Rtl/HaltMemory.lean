import CpuSim.Rtl.Speculation

/-!
# Data memory when the core has halted

The tick that notices a halting instruction in MEM/WB has already evaluated MEM, so a store
right behind that instruction is performed if its access is served on that very tick. Whether
it is depends on the timing of data memory alone, which is how the timing configuration gets
into the final contents of data memory.
-/

namespace CpuSim

open Rv32i Machine

namespace Pipe

variable {p q : Pipe} {code : ByteMap} {s : Machine}

/-- The store behind the halting instruction is not performed, or changes nothing. -/
def ShadowKeeps (p : Pipe) : Prop :=
  p.exMem.valid = true → p.served = true → applyStore p.dport.bytes p.exMem.store = p.dport.bytes

/-- Data memory after a tick: the bytes before it, with the store MEM performed. -/
theorem bytes_of_tick (hrun : p.halted = false) (ht : p.tick = some q) :
    q.dport.bytes =
      if p.exMem.valid && p.served then applyStore p.dport.bytes p.exMem.store
      else p.dport.bytes := by
  obtain ⟨f, m, -, hm, h⟩ := tick_cases hrun ht
  have hq : q.dport.bytes = m.dmem.bytes := by
    obtain ⟨-, rfl⟩ | ⟨-, rfl⟩ := h <;> exact Port.bytes_tick m.dmem
  rw [hq]
  unfold served
  obtain ⟨hv, ho⟩ | ⟨hv, hop, hr, ho⟩ | ⟨hv, hr, -, -, -, n, hd, hw⟩ := accessMem_eq_some hm
  · rw [hv, ho]; rfl
  · rw [hv, hop, hr, ho]
    exact Port.bytes_congr (p.dport.contents_asked _)
  · rw [hv, hd, Port.bytes, Port.setRam_ram, hw.bytes]
    cases hop : isMemOp p.exMem.op with
    | false => rfl
    | true => rw [hr hop]; rfl

/-- On the halting tick: data memory stays the machine's when the store behind is harmless. -/
theorem Tracks.halt_bytes_iff (h : p.Tracks code s) (hh : p.halting = true)
    (ht : p.tick = some q) : q.dport.bytes = s.mem ↔ p.ShadowKeeps := by
  have hv := valid_of_halting hh
  have hmem : p.dport.bytes = s.mem := by
    rw [h.data, atMem, hv, advance_true, step_of_halts ((h.halting_eq hv).symm.trans hh)]
  rw [bytes_of_tick h.running ht, ← hmem]
  unfold ShadowKeeps
  cases hx : p.exMem.valid with
  | false => simp
  | true => cases hs : p.served <;> simp

/-- A halted run has a halting tick, and does not move after it. -/
theorem halting_tick_of_halted {n : Nat} (hp : p.halted = false) (hq : p.ticks n = some q)
    (hh : q.halted = true) : ∃ k r, k < n ∧ p.ticks k = some r ∧ r.halted = false ∧
      r.halting = true ∧ r.tick = some q := by
  induction n generalizing q with
  | zero =>
    simp only [ticks, Runs.run_zero, Option.some.injEq] at hq
    rw [← hq, hp] at hh
    cases hh
  | succ n ih =>
    obtain ⟨u, hu, huq⟩ := (Runs.run_succ_eq_some tick).mp hq
    cases huh : u.halted with
    | true =>
      obtain rfl := eq_of_tick_of_halted huh huq
      obtain ⟨k, r, hk, hr⟩ := ih hu huh
      exact ⟨k, r, by omega, hr⟩
    | false =>
      refine ⟨n, u, by omega, hu, huh, ?_, huq⟩
      have hd := (tick_drain huh huq).2.1
      rw [hh, huh] at hd
      cases hc : u.halting with
      | true => rfl
      | false => rw [hc] at hd; cases hd

/-- The log of a halted run ends with its halting tick. -/
theorem log_of_halting_tick {α : Type} (obs : Pipe → List α) {k n : Nat} {r : Pipe}
    (hr : p.ticks k = some r) (hrq : r.tick = some q) (hh : q.halted = true)
    (hobs : obs q = []) (hk : k < n) : Runs.log tick obs n p = Runs.log tick obs k p ++ obs r := by
  have hend : p.ticks (k + 1) = some q := (Runs.run_succ_eq_some tick).mpr ⟨r, hr, hrq⟩
  rw [Runs.log_of_fixed tick obs hend (tick_of_halted hh) hobs hk]
  exact Runs.log_succ_of_run tick obs hr

/-- A run has one halting tick at most. -/
theorem halting_tick_unique {k k' : Nat} {r r' : Pipe} (hr : p.ticks k = some r)
    (hr' : p.ticks k' = some r') (hrun : r.halted = false) (hrun' : r'.halted = false)
    (hh : r.halting = true) (hh' : r'.halting = true) : r = r' := by
  have later : ∀ {i j : Nat} {u v : Pipe}, p.ticks i = some u → p.ticks j = some v →
      u.halted = false → u.halting = true → v.halted = false → j ≤ i := by
    intro i j u v hu hv hur huh hvr
    by_contra hlt
    obtain ⟨d, rfl⟩ := Nat.exists_eq_add_of_lt (by omega : i < j)
    have hv' : p.ticks (i + (d + 1)) = some v := hv
    unfold ticks at hu hv'
    rw [Runs.run_add_of_run tick hu, Nat.add_comm, Runs.run_add] at hv'
    obtain ⟨w, hw, hwv⟩ := Option.bind_eq_some_iff.mp hv'
    simp only [Runs.run, Option.bind_some] at hw
    have hwh : w.halted = true := by rw [(tick_drain hur hw).2.1, huh]; rfl
    rw [Runs.run_of_fixed tick (tick_of_halted hwh), Option.some.injEq] at hwv
    rw [← hwv, hwh] at hvr
    cases hvr
  have h1 := later hr hr' hrun hh hrun'
  have h2 := later hr' hr hrun' hh' hrun
  have hkk : k = k' := by omega
  subst hkk
  rw [hr, Option.some.injEq] at hr'
  exact hr'

end Pipe

namespace Core

/-- On the halting tick of a run, if it has one, the store behind the halting instruction is
    not performed or changes nothing. -/
def HaltsCleanly (c : Core) : Prop :=
  ∀ k d, c.ticks k = some d → d.halted = false → d.halting = true → d.view.ShadowKeeps

/-- Two configurations of one RAM leave the same data memory behind when both halt, the one of
    the sequential machine. -/
def MemoryTimingFree (cfg cfg' : SimConfig) (imem dmem : Nat → Byte) (rf : RegFile) : Prop :=
  ∀ n n' c c', (boot cfg imem dmem rf).ticks n = some c →
    (boot cfg' imem dmem rf).ticks n' = some c' → c.halted = true → c'.halted = true →
    c.dport.bytes = c'.dport.bytes ∧
      c.dport.bytes = ((reference cfg dmem rf).after (imageOf cfg imem)
        ((boot cfg imem dmem rf).retired n).length).mem

variable {cfg cfg' : SimConfig} {imem dmem : Nat → Byte} {rf : RegFile}

/-- One halted run ends with the machine's memory exactly when it halts cleanly. -/
theorem halted_bytes_iff (hcfg : cfg.Valid)
    (halign : cfg.bpredEnabled = true → (reference cfg dmem rf).Aligned (imageOf cfg imem))
    {n : Nat} {c : Core} (hc : (boot cfg imem dmem rf).ticks n = some c) (hh : c.halted = true) :
    c.dport.bytes = ((reference cfg dmem rf).after (imageOf cfg imem)
        ((boot cfg imem dmem rf).retired n).length).mem ↔
      (boot cfg imem dmem rf).HaltsCleanly := by
  have hquiet := quiet_boot cfg imem dmem rf
  have hcv := view_of_ticks hquiet hc
  obtain ⟨k, r, -, hr, hrun, hrh, hrc⟩ := Pipe.halting_tick_of_halted rfl hcv hh
  have hclean : (boot cfg imem dmem rf).HaltsCleanly ↔ r.ShadowKeeps := by
    constructor
    · intro h
      rw [← view_ticks hquiet] at hr
      obtain ⟨d, hd, rfl⟩ := Option.map_eq_some_iff.mp hr
      exact h k d hd hrun hrh
    · intro h k' d hd hdrun hdh
      rw [← Pipe.halting_tick_unique hr (view_of_ticks hquiet hd) hrun hdrun hrh hdh]
      exact h
  -- the machine has stopped, so its memory at the halting tick is its memory at the end
  have href := refines_boot hcfg halign hr
  obtain ⟨hlive, htr⟩ | hstop := href.phase
  · have hstopped : ((reference cfg dmem rf).after (imageOf cfg imem)
        ((boot cfg imem dmem rf).view.retired k).length).halts (imageOf cfg imem) = true := by
      rw [← htr.halting_eq (Pipe.valid_of_halting hrh)]; exact hrh
    have hend := refines_boot hcfg halign hcv
    rw [← retired_view hquiet n] at hend
    have hlen : ((boot cfg imem dmem rf).retired n).length =
        ((boot cfg imem dmem rf).view.retired k).length + 1 := by
      obtain ⟨-, htr'⟩ | hstop' := hend.phase
      · have hnh : c.halted = false := htr'.running
        rw [hh] at hnh; cases hnh
      · obtain ⟨j, hj, hjlive, hjh, -⟩ := hstop'.last
        rw [hj, halts_unique hjlive hlive hjh hstopped]
    rw [hclean, hlen, after_succ, step_of_halts hstopped]
    exact htr.halt_bytes_iff hrh hrc
  · have := hstop.halted
    rw [hrun] at this; cases this

/-- Timing knobs leave the final data memory alone exactly when both runs halt cleanly. -/
theorem memory_timing_free_iff (hcfg : cfg.Valid) (hcfg' : cfg'.Valid)
    (hbase : cfg'.ramBaseAddr = cfg.ramBaseAddr) (hsize : cfg'.ramSizeBytes = cfg.ramSizeBytes)
    (halign : (reference cfg dmem rf).Aligned (imageOf cfg imem))
    (hhalts : ∃ n c, (boot cfg imem dmem rf).ticks n = some c ∧ c.halted = true)
    (hhalts' : ∃ n c, (boot cfg' imem dmem rf).ticks n = some c ∧ c.halted = true) :
    MemoryTimingFree cfg cfg' imem dmem rf ↔
      (boot cfg imem dmem rf).HaltsCleanly ∧ (boot cfg' imem dmem rf).HaltsCleanly := by
  have hcode : imageOf cfg' imem = imageOf cfg imem := by unfold imageOf; rw [hbase, hsize]
  have href : reference cfg' dmem rf = reference cfg dmem rf := by
    unfold reference imageOf; rw [hbase, hsize]
  have halign' : (reference cfg' dmem rf).Aligned (imageOf cfg' imem) := by
    rw [hcode, href]; exact halign
  have hlen : ∀ {n n' c c'}, (boot cfg imem dmem rf).ticks n = some c →
      (boot cfg' imem dmem rf).ticks n' = some c' → c.halted = true → c'.halted = true →
      ((boot cfg imem dmem rf).retired n).length =
        ((boot cfg' imem dmem rf).retired n').length := by
    intro n n' c c' hc hc' hh hh'
    have hr := refines_boot hcfg (fun _ => halign) (view_of_ticks (quiet_boot cfg imem dmem rf) hc)
    have hr' := refines_boot hcfg' (fun _ => halign')
      (view_of_ticks (quiet_boot cfg' imem dmem rf) hc')
    rw [hcode, href] at hr'
    rw [retired_view (quiet_boot cfg imem dmem rf), retired_view (quiet_boot cfg' imem dmem rf)]
    exact hr.length_of_halted hr' hh hh'
  constructor
  · intro h
    obtain ⟨n, c, hc, hh⟩ := hhalts
    obtain ⟨n', c', hc', hh'⟩ := hhalts'
    obtain ⟨heq, hmem⟩ := h n n' c c' hc hc' hh hh'
    refine ⟨(halted_bytes_iff hcfg (fun _ => halign) hc hh).mp hmem,
      (halted_bytes_iff hcfg' (fun _ => halign') hc' hh').mp ?_⟩
    rw [hcode, href, ← hlen hc hc' hh hh', ← heq]
    exact hmem
  · intro ⟨h, h'⟩ n n' c c' hc hc' hh hh'
    have hmem := (halted_bytes_iff hcfg (fun _ => halign) hc hh).mpr h
    have hmem' := (halted_bytes_iff hcfg' (fun _ => halign') hc' hh').mpr h'
    rw [hcode, href, ← hlen hc hc' hh hh'] at hmem'
    exact ⟨hmem.trans hmem'.symm, hmem⟩

/-! ## A store behind EBREAK -/

/-- A RAM of 32 bytes with the given data latency. -/
def smallRam (latency : Nat) : SimConfig :=
  { ramBaseAddr := 0, ramSizeBytes := 32, dmemLatencyCycles := latency }

theorem smallRam_valid {latency : Nat} (h : LatencyOk latency) : (smallRam latency).Valid where
  dmem := h
  imem := ⟨Nat.le_refl 1, (by decide : 1 < 2 ^ 31)⟩
  dcache h := nomatch h
  icache h := nomatch h
  bpred h := nomatch h

/-- `ebreak; sw x1, 0(x0)`. -/
def storeBehindEbreak : Nat → Byte := halfwords [0x0073, 0x0010, 0x2023, 0x0010]

theorem storeBehindEbreak_aligned :
    (reference (smallRam 1) (fun _ => 0) RegFile.zero).Aligned
      (imageOf (smallRam 1) storeBehindEbreak) := by
  intro j
  rw [after_of_halts (by decide +kernel)]
  decide +kernel

/-- With x1 at zero the store changes nothing, and both runs halt. -/
theorem memory_timing_free_iff_storeBehindEbreak :
    MemoryTimingFree (smallRam 1) (smallRam 2) storeBehindEbreak (fun _ => 0) RegFile.zero ↔
      (boot (smallRam 1) storeBehindEbreak (fun _ => 0) RegFile.zero).HaltsCleanly ∧
        (boot (smallRam 2) storeBehindEbreak (fun _ => 0) RegFile.zero).HaltsCleanly := by
  refine memory_timing_free_iff (smallRam_valid ⟨by decide, by decide⟩)
    (smallRam_valid ⟨by decide, by decide⟩) rfl rfl storeBehindEbreak_aligned ?_ ?_
  · exact ⟨5, Option.map_eq_some_iff.mp (by decide +kernel :
      ((boot (smallRam 1) storeBehindEbreak (fun _ => 0) RegFile.zero).ticks 5).map halted =
        some true)⟩
  · exact ⟨5, Option.map_eq_some_iff.mp (by decide +kernel :
      ((boot (smallRam 2) storeBehindEbreak (fun _ => 0) RegFile.zero).ticks 5).map halted =
        some true)⟩

/-- With x1 at five, latency 1 performs the store on the halting tick and latency 2 does not. -/
theorem memory_depends_on_timing :
    ¬ MemoryTimingFree (smallRam 1) (smallRam 2) storeBehindEbreak (fun _ => 0)
      (RegFile.zero.write 1 5) := by
  intro h
  obtain ⟨c, hc, hval⟩ := Option.map_eq_some_iff.mp (by decide +kernel :
    ((boot (smallRam 1) storeBehindEbreak (fun _ => 0) (RegFile.zero.write 1 5)).ticks 5).map
      (fun c => (c.halted, c.dport.bytes 0)) = some (true, 5))
  obtain ⟨c', hc', hval'⟩ := Option.map_eq_some_iff.mp (by decide +kernel :
    ((boot (smallRam 2) storeBehindEbreak (fun _ => 0) (RegFile.zero.write 1 5)).ticks 5).map
      (fun c => (c.halted, c.dport.bytes 0)) = some (true, 0))
  simp only [Prod.mk.injEq] at hval hval'
  obtain ⟨heq, -⟩ := h 5 5 c c' hc hc' hval.1 hval'.1
  have h0 := congrFun heq 0
  rw [hval.2, hval'.2] at h0
  revert h0
  decide

end Core

end CpuSim
