import CpuSim.Rtl.Separation

/-!
# Cycle counts from the program alone

With a prompt instruction side and no predictor every taken branch and every jump redirects, so
the schedule of `CpuSim.Rtl.Timeline` no longer depends on the run: it is a sum over the
instructions that the sequential machine executes. A predictor trades the two cycles of each of
them for two cycles of each instruction that it got wrong, and nothing else.
-/

namespace CpuSim

open Rv32i Machine

namespace Machine

/-- Among the first `n` instructions, those whose loaded value the next one names. -/
def loadUses (code : ByteMap) (s : Machine) (n : Nat) : Nat :=
  ((List.range n).map fun i => (Pipe.usesAt code s i).toNat).sum

/-- Instruction `i` of the machine is a taken branch or a jump. -/
def takenAt (code : ByteMap) (s : Machine) (i : Nat) : Bool :=
  (s.after code i).taken ((s.after code i).insn code)

/-- The taken branches and the jumps among the first `n` instructions. -/
def takens (code : ByteMap) (s : Machine) (n : Nat) : Nat :=
  ((List.range n).map fun i => (takenAt code s i).toNat).sum

end Machine

namespace Pipe

variable {p q : Pipe} {code : ByteMap} {s : Machine} {f : FetchOut Port} {m : MemOut Port}
  {retired : Nat} {res : List (Word × Bool)}

/-! ## Without a predictor -/

/-- No predictor, and nothing in flight is predicted taken. -/
structure Unpredicted (p : Pipe) : Prop where
  bpred : p.bpred = none
  ifId : p.ifId.predictedTaken = false
  idEx : p.idEx.predictedTaken = false

theorem Unpredicted.flow (h : p.Unpredicted) (hf : p.fetch = some f) (m : MemOut Port) :
    (p.flowNext f m).Unpredicted := by
  have hout : f.out.predictedTaken = false := by
    obtain ⟨-, ⟨-, ho, -⟩ | ⟨-, -, -, ho, -⟩⟩ := fetchWord_eq_some hf
    · rw [ho]
    · rw [ho, h.bpred]
      rfl
  refine ⟨?_, ?_, ?_⟩
  · change p.trained = none
    unfold trained
    rw [h.bpred]
    split <;> rfl
  · rw [flow_ifId]
    split
    · rfl
    · split
      · exact h.ifId
      · exact hout
  · change (if p.exec.redirect || p.hazard then ({} : IdEx)
      else decodeInsn p.rf p.ifId).predictedTaken = false
    split
    · rfl
    · unfold decodeInsn
      split
      · rfl
      · exact h.ifId

/-- What has been resolved on the machine's path went the way the machine goes. -/
def Resolved (code : ByteMap) (s : Machine) (res : List (Word × Bool)) : Prop :=
  ∀ (i : Nat) (x : Word × Bool), res[i]? = some x → Live code i s → x.2 = takenAt code s i

theorem Resolved.leaving (h : Resolved code s res)
    (hcount : res.length = retired + p.memWb.valid.toNat + p.exMem.valid.toNat)
    (htr : p.Tracks code (s.after code retired)) (hp : p.Unpredicted) :
    Resolved code s (res ++ p.leaving) := by
  intro i x hx hl
  by_cases hi : i < res.length
  · rw [List.getElem?_append_left hi] at hx
    exact h i x hx hl
  · obtain ⟨hv, rfl, rfl⟩ := getElem_leaving hx (by omega)
    rw [hcount] at hl
    have hxl := htr.exLive_of_live hl
    have hat := atEx_eq_after code s p retired
    rw [← hcount] at hat
    unfold takenAt
    rw [← hat, htr.redirect_eq hv hxl, hp.idEx]
    exact Bool.xor_false _

/-- Every running state of an ideal run without a predictor. -/
theorem resolved_of_ticks (hi : p.Ideal) (hot : p.OnTime code s 0 []) (hp : p.Unpredicted)
    (href : ∀ n q, p.ticks n = some q → q.Refines (p.retired n) code s) {n : Nat}
    (hq : p.ticks n = some q) (hrun : q.halted = false) :
    q.Unpredicted ∧ Resolved code s (p.resolved n) := by
  induction n generalizing q with
  | zero =>
    simp only [ticks, Runs.run_zero, Option.some.injEq] at hq
    subst hq
    exact ⟨hp, fun i x hx => by cases hx⟩
  | succ n ih =>
    obtain ⟨u, hu, huq⟩ := (Runs.run_succ_eq_some tick).mp hq
    obtain ⟨huh, -⟩ := running_of_tick huq hrun
    obtain ⟨hup, hures⟩ := ih hu huh
    obtain ⟨hui, huo⟩ := onTime_of_ticks hi hot href hu huh
    have hres : p.resolved (n + 1) = p.resolved n ++ u.resolves :=
      Runs.log_succ_of_run tick resolves hu
    obtain ⟨-, htr⟩ | hstop := (href n u hu).phase
    · obtain ⟨f, m, hf, -, -, -, rfl, -⟩ := hui.tick_cases huh huq
      rw [hres, resolves_eq_leaving huh (stalls_of_prompt hui.2)]
      exact ⟨hup.flow hf m, hures.leaving huo.count htr hup⟩
    · rw [hstop.halted] at huh
      cases huh

/-- So the redirects among the first resolutions are the taken branches and the jumps. -/
theorem countP_resolved {k : Nat} (h : Resolved code s res) (hk : k < res.length)
    (hlive : Live code k s) : (res.take k).countP Prod.snd = takens code s k := by
  rw [← sum_redirectedAt res (by omega)]
  unfold takens
  congr 1
  refine List.map_congr_left fun i hi => ?_
  have hik : i < k := List.mem_range.mp hi
  have hx : res[i]? = some res[i] := List.getElem?_eq_getElem (by omega)
  unfold redirectedAt
  rw [hx, ← h i _ hx (hlive.mono (by omega))]
  rfl

end Pipe

namespace Core

/-- One cycle for each fetch and no I-cache. -/
structure PromptFetch (cfg : SimConfig) : Prop where
  latency : cfg.imemLatencyCycles = 1
  icache : cfg.icacheEnabled = false

theorem PromptFetch.ideal {cfg : SimConfig} (h : PromptFetch cfg) :
    IdealMemory (promptData cfg) := ⟨h.latency, rfl, h.icache, rfl⟩

/-- The same machine without its predictor. -/
def unpredicted (cfg : SimConfig) : SimConfig := { cfg with bpredEnabled := false }

variable {cfg : SimConfig} {imem dmem : Nat → Byte} {rf : RegFile}

/-- The cycles of a halted run without data stalls: five more than the instructions before the
    last, one for each load whose value the next instruction names, two for each redirect. -/
theorem due_at_halt (hcfg : (promptData cfg).Valid) (hfetch : PromptFetch cfg)
    (halign : cfg.bpredEnabled = true → (reference cfg dmem rf).Aligned (imageOf cfg imem))
    {n : Nat} {c : Core} (hc : (boot (promptData cfg) imem dmem rf).ticks n = some c)
    (hh : c.halted = true) :
    let code := imageOf cfg imem
    let s := reference cfg dmem rf
    let res := (boot (promptData cfg) imem dmem rf).resolved n
    ∃ k, Live code k s ∧ (s.after code k).halts code = true ∧
      ((boot (promptData cfg) imem dmem rf).retired n).length = k + 1 ∧
      c.cycles = k + 5 + loadUses code s k + 2 * (res.take k).countP Prod.snd ∧
      (cfg.bpredEnabled = false → (res.take k).countP Prod.snd = takens code s k) := by
  intro code s res
  have hquiet := quiet_boot (promptData cfg) imem dmem rf
  have hcv := view_of_ticks hquiet hc
  have href := fun k q hq => @refines_boot (promptData cfg) imem dmem rf hcfg halign k q hq
  -- the tick that retires the halting instruction
  obtain ⟨j, r, hj, hr, hrr, hrh, hrc⟩ := Pipe.halting_tick_of_halted rfl hcv hh
  obtain ⟨hri, hrt⟩ := Pipe.onTime_of_ticks (ideal_boot hfetch.ideal)
    (onTime_boot (promptData cfg) imem dmem rf _ _) href hr hrr
  have hv := Pipe.valid_of_halting hrh
  obtain ⟨hlive, htr⟩ | hstop := (href j r hr).phase
  swap
  · rw [hstop.halted] at hrr
    cases hrr
  have hcycles : c.cycles = r.stats.cycles + 1 := (Pipe.cycles_tick hrr hrc).1
  have hlog : (boot (promptData cfg) imem dmem rf).retired n =
      (boot (promptData cfg) imem dmem rf).view.retired j ++ [r.memWb] := by
    have hretires : r.retires = [r.memWb] := by
      rw [Pipe.retires_of_running hrr, hv]
      rfl
    rw [retired_view hquiet, ← hretires]
    exact Pipe.log_of_halting_tick Pipe.retires hr hrc hh (Pipe.retires_of_halted hh) hj
  have hres : res = (boot (promptData cfg) imem dmem rf).view.resolved j ++ r.resolves := by
    change (boot (promptData cfg) imem dmem rf).resolved n = _
    rw [resolved_view hquiet]
    exact Pipe.log_of_halting_tick Pipe.resolves hr hrc hh (Pipe.resolves_of_halted hh) hj
  have hcount := hrt.count
  rw [hv, Bool.toNat_true] at hcount
  have hlt : ((boot (promptData cfg) imem dmem rf).view.retired j).length <
      ((boot (promptData cfg) imem dmem rf).view.resolved j).length := by omega
  refine ⟨((boot (promptData cfg) imem dmem rf).view.retired j).length, hlive,
    (htr.halting_eq hv).symm.trans hrh, by rw [hlog, List.length_append]; rfl, ?_, fun hoff => ?_⟩
  · have hwb : r.stats.cycles = Pipe.due code s
        ((boot (promptData cfg) imem dmem rf).view.resolved j)
        ((boot (promptData cfg) imem dmem rf).view.retired j).length := hrt.wb hv
    rw [hcycles, hwb, Pipe.due_eq, hres, List.take_append_of_le_length (by omega),
      Pipe.sum_redirectedAt _ (by omega)]
    unfold loadUses
    omega
  · have hnone : (boot (promptData cfg) imem dmem rf).view.Unpredicted := by
      refine ⟨?_, rfl, rfl⟩
      change (if cfg.bpredEnabled then _ else none) = none
      rw [hoff]
      rfl
    obtain ⟨-, hresolved⟩ := Pipe.resolved_of_ticks (ideal_boot hfetch.ideal)
      (onTime_boot (promptData cfg) imem dmem rf _ _) hnone href hr hrr
    rw [hres, List.take_append_of_le_length (by omega)]
    exact Pipe.countP_resolved hresolved hlt hlive

/-- Without a predictor, and with one cycle for each fetch, the program alone says how long a run
    takes: it needs the sequential machine and, for the data side, only the requests which that
    machine makes. With any data side the core halts after exactly so many cycles. -/
theorem cycles_from_program (hcfg : cfg.Valid) (hfetch : PromptFetch cfg)
    (hoff : cfg.bpredEnabled = false) (imem dmem : Nat → Byte) (rf : RegFile)
    (hhalts : ∃ t, (boot (promptData cfg) imem dmem rf).HaltsAt t) :
    let code := imageOf cfg imem
    let s := reference cfg dmem rf
    ∃ k costs dport, Live code k s ∧ (s.after code k).halts code = true ∧
      (IMemory.port Port).DrivesAll (s.accesses code (k + 1)) (boot cfg imem dmem rf).dport costs
        dport ∧
      ∀ t, (boot cfg imem dmem rf).HaltsAt t ↔
        t = k + 5 + loadUses code s k + 2 * takens code s k + stallTime costs := by
  intro code s
  obtain ⟨-, n, c, hc, hh, -⟩ := hhalts
  have halign : cfg.bpredEnabled = true → s.Aligned code := by
    intro hon
    rw [hoff] at hon
    cases hon
  obtain ⟨k, hlive, hkh, hlen, hcycles, htaken⟩ :=
    due_at_halt (valid_promptData hcfg) hfetch halign hc hh
  obtain ⟨k', -, -, hlen', hlog⟩ := retired_at_halt (valid_promptData hcfg)
    halign hc hh
  obtain rfl : k = k' := by omega
  obtain ⟨costs, dport, hdriven, hend⟩ := haltsAt_of_promptData hcfg hc hh
  rw [hcycles, htaken hoff] at hend
  refine ⟨k, costs, dport, hlive, hkh, hlog ▸ hdriven, fun t => ⟨fun ht => ht.unique hend, ?_⟩⟩
  rintro rfl
  exact hend

/-- A load, its reader and a jump, with a data memory of three cycles. -/
theorem cycles_from_program_loadUseJump :
    ∃ k costs,
      (boot { ramBaseAddr := 0, ramSizeBytes := 64, dmemLatencyCycles := 3 } loadUseJump
        (fun _ => 0) RegFile.zero).HaltsAt (k + 5 +
          loadUses (imageOf predicting loadUseJump)
            (reference predicting (fun _ => 0) RegFile.zero) k +
          2 * takens (imageOf predicting loadUseJump)
            (reference predicting (fun _ => 0) RegFile.zero) k + stallTime costs) := by
  obtain ⟨c, hc, hh⟩ := Option.map_eq_some_iff.mp (by decide +kernel :
    ((boot (promptData { ramBaseAddr := 0, ramSizeBytes := 64, dmemLatencyCycles := 3 })
      loadUseJump (fun _ => 0) RegFile.zero).ticks 11).map halted = some true)
  have hcfg : ({ ramBaseAddr := 0, ramSizeBytes := 64, dmemLatencyCycles := 3 } :
      SimConfig).Valid :=
    ⟨⟨by decide, by decide⟩, ⟨by decide, by decide⟩, fun h => (by cases h),
      fun h => (by cases h), fun h => (by cases h)⟩
  obtain ⟨k, costs, -, -, -, -, hiff⟩ := cycles_from_program hcfg ⟨rfl, rfl⟩ rfl loadUseJump
    (fun _ => 0) RegFile.zero ⟨c.cycles, 11, c, hc, hh, rfl⟩
  exact ⟨k, costs, (hiff _).mpr rfl⟩

/-- A predictor changes the cycle count by its redirects alone: with any data side the two counts
    agree but for two cycles for each taken branch and jump of the program, without it, and two
    cycles for each instruction before the last that EX redirected, with it. -/
theorem prediction_ledger (hcfg : cfg.Valid) (hfetch : PromptFetch cfg) (imem dmem : Nat → Byte)
    (rf : RegFile) (halign : (reference cfg dmem rf).Aligned (imageOf cfg imem)) (n : Nat)
    (c : Core) (hc : (boot (promptData cfg) imem dmem rf).ticks n = some c)
    (hh : c.halted = true)
    (hoff : ∃ t, (boot (promptData (unpredicted cfg)) imem dmem rf).HaltsAt t) :
    let code := imageOf cfg imem
    let s := reference cfg dmem rf
    ∃ k costs dport, Live code k s ∧ (s.after code k).halts code = true ∧
      (IMemory.port Port).DrivesAll (s.accesses code (k + 1)) (boot cfg imem dmem rf).dport costs
        dport ∧
      (boot (unpredicted cfg) imem dmem rf).HaltsAt
        (k + 5 + loadUses code s k + 2 * takens code s k + stallTime costs) ∧
      (boot cfg imem dmem rf).HaltsAt (k + 5 + loadUses code s k + 2 *
        (((boot (promptData cfg) imem dmem rf).resolved n).take k).countP Prod.snd +
          stallTime costs) := by
  intro code s
  obtain ⟨k, hlive, hkh, hlen, hcycles, -⟩ :=
    due_at_halt (valid_promptData hcfg) hfetch (fun _ => halign) hc hh
  obtain ⟨k', -, -, hlen', hlog⟩ := retired_at_halt (valid_promptData hcfg)
    (fun _ => halign) hc hh
  obtain rfl : k = k' := by omega
  obtain ⟨costs, dport, hdriven, hend⟩ := haltsAt_of_promptData hcfg hc hh
  have hvalid : (unpredicted cfg).Valid :=
    ⟨hcfg.dmem, hcfg.imem, hcfg.dcache, hcfg.icache, fun h => (by cases h)⟩
  obtain ⟨-, n', c', hc', hh', -⟩ := hoff
  have haligned : (unpredicted cfg).bpredEnabled = true →
      (reference (unpredicted cfg) dmem rf).Aligned (imageOf (unpredicted cfg) imem) :=
    fun _ => halign
  obtain ⟨j, hlive', hjh, hlen₁, hcycles', htaken⟩ :=
    due_at_halt (valid_promptData hvalid) ⟨hfetch.latency, hfetch.icache⟩
      haligned hc' hh'
  obtain ⟨j', -, -, hlen₂, hlog'⟩ :=
    retired_at_halt (valid_promptData hvalid) haligned hc' hh'
  obtain rfl : j = j' := by omega
  obtain rfl : k = j := halts_unique hlive hlive' hkh hjh
  obtain ⟨costs', dport', hdriven', hend'⟩ := haltsAt_of_promptData hvalid hc' hh'
  rw [hlog'] at hdriven'
  rw [hlog] at hdriven
  have hsame : costs = costs' := (hdriven.unique hdriven').1
  rw [hcycles'] at hend'
  rw [htaken rfl, ← hsame] at hend'
  rw [hcycles] at hend
  exact ⟨k, costs, dport, hlive, hkh, hdriven, hend', hend⟩

/-- The jump of `loadUseJump` with and without a predictor. -/
theorem prediction_ledger_loadUseJump :
    ∃ k rest, (boot (unpredicted predicting) loadUseJump (fun _ => 0) RegFile.zero).HaltsAt
        (rest + 2 * takens (imageOf predicting loadUseJump)
          (reference predicting (fun _ => 0) RegFile.zero) k) ∧
      (boot predicting loadUseJump (fun _ => 0) RegFile.zero).HaltsAt (rest + 2 *
        (((boot (promptData predicting) loadUseJump (fun _ => 0) RegFile.zero).resolved 11).take
          k).countP Prod.snd) := by
  obtain ⟨c, hc, hh⟩ := Option.map_eq_some_iff.mp (by decide +kernel :
    ((boot (promptData predicting) loadUseJump (fun _ => 0) RegFile.zero).ticks 11).map halted =
      some true)
  obtain ⟨d, hd, hdh⟩ := Option.map_eq_some_iff.mp (by decide +kernel :
    ((boot (promptData (unpredicted predicting)) loadUseJump (fun _ => 0) RegFile.zero).ticks
      11).map halted = some true)
  obtain ⟨k, costs, -, -, -, -, hoff, hon⟩ := prediction_ledger predicting_valid ⟨rfl, rfl⟩
    loadUseJump (fun _ => 0) RegFile.zero loadUseJump_aligned 11 c hc hh
    ⟨d.cycles, 11, d, hd, hdh, rfl⟩
  rw [Nat.add_right_comm] at hoff hon
  exact ⟨k, _, hoff, hon⟩

end Core

end CpuSim
