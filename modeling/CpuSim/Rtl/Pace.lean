import CpuSim.Rtl.Separation
import CpuSim.Rtl.Throughput

/-!
# A slow instruction memory sets the pace

Behind an instruction memory of three cycles or more, with prompt data, the stages are empty
often enough that nothing is lost: when an instruction is in EX the one behind it is still being
fetched, so a redirect finds nothing to flush and only changes the pc the fetch under way will
deliver for, and no operand waits for a load. Every service of the memory becomes a retired
instruction, and the cycle count alone says how many instructions each stage has seen.
-/

namespace CpuSim

open Rv32i

/-- The quotient moves on at the multiples only. -/
theorem dvd_of_div_pred {n k : Nat} (h : n / k = (n - 1) / k + 1) : 0 < n ∧ k ∣ n := by
  cases n with
  | zero => cases Nat.zero_div k ▸ h
  | succ n =>
    refine ⟨Nat.succ_pos n, ?_⟩
    by_contra hdvd
    rw [Nat.succ_div_of_not_dvd hdvd, Nat.add_sub_cancel] at h
    exact Nat.ne_of_lt (Nat.lt_succ_self _) h

namespace Pipe

variable {p q : Pipe} {f : FetchOut Port} {m : MemOut Port} {latency : Nat}

/-- The fields of a bubble name x0, which no load waits for. -/
theorem hazard_of_empty (h : p.ifId = {}) : p.hazard = false := by
  have hrs1 : rs1Field ({} : IfId).raw = 0#5 := by decide
  have hrs2 : rs2Field ({} : IfId).raw = 0#5 := by decide
  unfold hazard loadUseHazard
  rw [h, hrs1, hrs2]
  cases hrd : p.idEx.rd == 0#5 <;> simp [bne, hrd]

/-! ## The schedule -/

/-- How many instructions have come up to each stage is a matter of the cycle count. -/
structure Paced (latency : Nat) (p : Pipe) : Prop where
  imem : ∃ r, p.iport = .flat r ∧ r.Timing latency ∧
    p.stats.cycles + r.rank + 1 = (p.uptoId + 1) * latency
  ex : p.uptoEx = (p.stats.cycles - 1) / latency
  mem : p.uptoMem = (p.stats.cycles - 2) / latency
  wb : p.uptoWb = (p.stats.cycles - 3) / latency
  retired : p.stats.instructions = (p.stats.cycles - 4) / latency
  bubble : p.ifId.valid = false → p.ifId = {}

theorem Paced.id (h : p.Paced latency) : p.uptoId = p.stats.cycles / latency := by
  obtain ⟨r, -, htiming, hpaid⟩ := h.imem
  have hle := (FlatMem.ranked latency).le htiming
  have hpos := htiming.ok.1
  rw [Nat.succ_mul] at hpaid
  exact (Nat.div_eq_of_lt_le (by omega) (by rw [Nat.succ_mul]; omega)).symm

/-- The instruction in EX came there on the cycle before. -/
theorem Paced.dvd_of_ex (h : p.Paced latency) (hv : p.idEx.valid = true) :
    1 < p.stats.cycles ∧ latency ∣ p.stats.cycles - 1 := by
  have hcount : p.uptoEx = p.uptoMem + 1 := by
    unfold uptoEx
    rw [hv]
    rfl
  rw [h.ex, h.mem] at hcount
  obtain ⟨hpos, hdvd⟩ := dvd_of_div_pred hcount
  exact ⟨by omega, hdvd⟩

/-- What is in WB came there on the cycle before. -/
theorem Paced.dvd_of_wb (h : p.Paced latency) (hv : p.memWb.valid = true) :
    3 < p.stats.cycles ∧ latency ∣ p.stats.cycles - 3 := by
  have hcount : p.uptoWb = p.stats.instructions + 1 := by
    unfold uptoWb
    rw [hv]
    rfl
  rw [h.wb, h.retired] at hcount
  obtain ⟨hpos, hdvd⟩ := dvd_of_div_pred hcount
  exact ⟨by omega, hdvd⟩

/-- While an instruction is in EX, ID is empty and the fetch behind it is not served. -/
theorem Paced.alone_in_ex (h : p.Paced latency) (hslow : 3 ≤ latency)
    (hf : p.fetch = some f) (hv : p.idEx.valid = true) : p.ifId = {} ∧ f.out.valid = false := by
  obtain ⟨hlate, hdvd⟩ := h.dvd_of_ex hv
  constructor
  · refine h.bubble ?_
    by_contra hid
    have hcount : p.uptoId = p.uptoEx + 1 := by
      unfold uptoId
      rw [Bool.not_eq_false] at hid
      rw [hid]
      rfl
    rw [h.id, h.ex] at hcount
    obtain ⟨-, hdvd'⟩ := dvd_of_div_pred hcount
    have hone : latency ∣ p.stats.cycles - (p.stats.cycles - 1) := Nat.dvd_sub hdvd' hdvd
    have := Nat.le_of_dvd (by omega) hone
    omega
  · obtain ⟨r, hport, htiming, hpaid⟩ := h.imem
    obtain ⟨-, ⟨-, ho, -⟩ | ⟨hr, -, -, -, -⟩⟩ := fetchWord_eq_some hf
    · rw [ho]
    · rw [hport] at hr
      have hzero := ((htiming.rank_poll p.pc false).2 hr).1
      have hdvd' : latency ∣ p.stats.cycles + 1 := by
        rw [hzero] at hpaid
        exact ⟨p.uptoId + 1, by rw [Nat.mul_comm]; exact hpaid⟩
      have htwo : latency ∣ p.stats.cycles + 1 - (p.stats.cycles - 1) := Nat.dvd_sub hdvd' hdvd
      have := Nat.le_of_dvd (by omega) htwo
      omega

/-- So a tick drops no instruction: what is in ID goes to EX, what is fetched goes to ID. -/
theorem Paced.advance (h : p.Paced latency) (hslow : 3 ≤ latency) (hf : p.fetch = some f)
    (m : MemOut Port) :
    (p.flowNext f m).idEx.valid = p.ifId.valid ∧ (p.flowNext f m).ifId = f.out := by
  have hidEx : (p.flowNext f m).idEx.valid = (!p.exec.redirect && !p.hazard && p.ifId.valid) := by
    rw [Bool.eq_iff_iff, Tracks.flow_idEx_valid]
    simp [and_assoc]
  rw [hidEx, flow_ifId]
  cases hv : p.idEx.valid with
  | true =>
    obtain ⟨hempty, hwaits⟩ := h.alone_in_ex hslow hf hv
    have hword : f.out = {} := by
      obtain ⟨-, ⟨-, ho, -⟩ | ⟨-, -, -, ho, -⟩⟩ := fetchWord_eq_some hf
      · exact ho
      · rw [ho] at hwaits
        cases hwaits
    rw [hempty, hazard_of_empty hempty, hword]
    cases p.exec.redirect <;> simp
  | false =>
    have hred : p.exec.redirect = false := by
      cases hr : p.exec.redirect with
      | false => rfl
      | true => rw [exec_redirect_valid hr] at hv; cases hv
    have hhaz : p.hazard = false := by
      unfold hazard loadUseHazard
      rw [hv]
      rfl
    rw [hred, hhaz]
    exact ⟨rfl, rfl⟩

/-- One tick of the schedule. -/
theorem Paced.flow (h : p.Paced latency) (hslow : 3 ≤ latency) (hf : p.fetch = some f)
    (hm : p.mem = some m) (hs : m.stalling = false) : (p.flowNext f m).Paced latency := by
  obtain ⟨hidEx, hifId⟩ := h.advance hslow hf m
  have hc := flow_cycles p f m
  obtain ⟨hwb, hmem⟩ := upto_flowNext f hm hs
  have hex : (p.flowNext f m).uptoEx = p.uptoId := by
    unfold uptoEx
    rw [hmem, hidEx]
    rfl
  have hid : (p.flowNext f m).uptoId = p.uptoId + f.out.valid.toNat := by
    unfold uptoId
    rw [hex, hifId]
    rfl
  refine ⟨?_, ?_, ?_, ?_, ?_, fun hv => ?_⟩
  · obtain ⟨r, hport, htiming, hpaid⟩ := h.imem
    have himem := (fetchWord_eq_some hf).1
    rw [hport] at himem
    refine ⟨(r.ready p.pc false).2.tick, congrArg IMemory.tick himem,
      (htiming.ready p.pc false).1.tick, ?_⟩
    have hout : f.out.valid = (r.ready p.pc false).1 := by
      have hserved : (IMemory.ready p.iport p.pc false).1 = (r.ready p.pc false).1 := by
        rw [hport]
        rfl
      obtain ⟨-, ⟨hr, ho, -⟩ | ⟨hr, -, -, ho, -⟩⟩ := fetchWord_eq_some hf <;>
        rw [ho, ← hserved, hr]
    obtain ⟨hwait, hdone⟩ := htiming.rank_poll p.pc false
    rw [hid, hc, hout]
    cases hr : (r.ready p.pc false).1 with
    | false =>
      have hrank := hwait hr
      rw [Bool.toNat_false, Nat.add_zero, ← hpaid]
      omega
    | true =>
      obtain ⟨hzero, hfull⟩ := hdone hr
      have hpos := htiming.ok.1
      rw [Bool.toNat_true, Nat.succ_mul (p.uptoId + 1)]
      omega
  · rw [hex, h.id, hc]
    rfl
  · rw [hmem, h.ex, hc]
    rfl
  · rw [hwb, h.mem, hc]
    rfl
  · rw [instructions_flowNext, h.wb, hc]
    rfl
  · rw [hifId] at hv ⊢
    obtain ⟨-, ⟨-, ho, -⟩ | ⟨-, -, -, ho, -⟩⟩ := fetchWord_eq_some hf
    · exact ho
    · rw [ho] at hv
      cases hv

/-- Every reached state of a run with prompt data is on schedule, the halted one as well. -/
theorem paced_of_ticks (hp : p.Paced latency) (hprompt : p.dport.Prompt) (hslow : 3 ≤ latency)
    {n : Nat} (hq : p.ticks n = some q) : q.Paced latency := by
  have hstep : ∀ u v : Pipe, u.Paced latency ∧ (u.halted = false → u.dport.Prompt) →
      u.tick = some v → v.Paced latency ∧ (v.halted = false → v.dport.Prompt) := by
    rintro u v ⟨hu, hup⟩ huv
    cases hh : u.halted with
    | true =>
      obtain rfl := eq_of_tick_of_halted hh huv
      exact ⟨hu, hup⟩
    | false =>
      obtain ⟨f, m, hf, hm, hs, rfl, hv⟩ := tick_of_prompt (hup hh) hh huv
      exact ⟨hu.flow hslow hf hm hs, fun _ => hv⟩
  exact (Runs.run_invariant tick hstep ⟨hp, fun _ => hprompt⟩ hq).1

end Pipe

namespace Core

variable {cfg : SimConfig}

theorem paced_boot (hcache : cfg.icacheEnabled = false) (hlat : LatencyOk cfg.imemLatencyCycles)
    (hslow : 3 ≤ cfg.imemLatencyCycles) (imem dmem : Nat → Byte) (rf : RegFile) :
    (boot cfg imem dmem rf).view.Paced cfg.imemLatencyCycles := by
  have hport : (boot cfg imem dmem rf).view.iport =
      (newIport cfg).load (bytesOf cfg.ramSizeBytes imem) := rfl
  unfold newIport at hport
  rw [hcache, if_neg (by decide)] at hport
  have hl : (if cfg.imemLatencyCycles = 0 then 1 else cfg.imemLatencyCycles) =
      cfg.imemLatencyCycles := if_neg (by omega)
  have hzero : 0 = 0 / cfg.imemLatencyCycles := (Nat.zero_div _).symm
  refine ⟨⟨_, hport, ⟨hlat, hl, (nomatch ·)⟩, ?_⟩, hzero, hzero, hzero, hzero, fun _ => rfl⟩
  change 0 + ((if cfg.imemLatencyCycles = 0 then 1 else cfg.imemLatencyCycles) - 1) + 1 =
    (0 + 1) * cfg.imemLatencyCycles
  rw [hl]
  omega

/-- Without an I-cache, behind an instruction memory of `L ≥ 3` cycles and with prompt data,
    exactly one instruction retires in every `L` cycles, four cycles after its word was served,
    whatever the program and the predictor do. So a halted run of `N` instructions has taken
    `N * L + 4` cycles, and with any other data side what its accesses cost in addition. -/
theorem slow_fetch_pace (hcfg : cfg.Valid) (hcache : cfg.icacheEnabled = false)
    (hslow : 3 ≤ cfg.imemLatencyCycles) (imem dmem : Nat → Byte) (rf : RegFile) (n : Nat)
    (c : Core) (hc : (boot (promptData cfg) imem dmem rf).ticks n = some c) :
    c.instructions = (c.cycles - 4) / cfg.imemLatencyCycles ∧
      (c.halted = true → c.cycles = c.instructions * cfg.imemLatencyCycles + 4 ∧
        ∃ costs dport, (IMemory.port Port).DrivesAll
            (accesses ((boot (promptData cfg) imem dmem rf).retired n))
            (boot cfg imem dmem rf).dport costs dport ∧
          (boot cfg imem dmem rf).HaltsAt
            (c.instructions * cfg.imemLatencyCycles + 4 + stallTime costs)) := by
  have hcv := view_of_ticks (quiet_boot (promptData cfg) imem dmem rf) hc
  have hpaced : ∀ {k : Nat} {q : Pipe},
      (boot (promptData cfg) imem dmem rf).view.ticks k = some q →
      q.Paced cfg.imemLatencyCycles := fun hq => Pipe.paced_of_ticks
    (@paced_boot (promptData cfg) hcache hcfg.imem hslow imem dmem rf)
    (prompt_boot cfg imem dmem rf) hslow hq
  refine ⟨(hpaced hcv).retired, fun hh => ?_⟩
  have hcycles : c.cycles = c.instructions * cfg.imemLatencyCycles + 4 := by
    obtain ⟨k, r, -, hr, hrr, hrh, hrc⟩ := Pipe.halting_tick_of_halted rfl hcv hh
    have hv := Pipe.valid_of_halting hrh
    obtain ⟨hlate, i, hi⟩ := (hpaced hr).dvd_of_wb hv
    have hcount : c.instructions = r.uptoWb :=
      (Pipe.cycles_tick hrr hrc).2.trans (Pipe.instructions_retiredStats r)
    have hticked : c.cycles = r.stats.cycles + 1 := (Pipe.cycles_tick hrr hrc).1
    rw [hcount, (hpaced hr).wb, hi, Nat.mul_div_cancel_left i (by omega), hticked,
      Nat.mul_comm i]
    omega
  obtain ⟨costs, dport, hdriven, hhalts⟩ := haltsAt_of_promptData hcfg hc hh
  rw [hcycles] at hhalts
  exact ⟨hcycles, costs, dport, hdriven, hhalts⟩

/-- A load and an EBREAK behind an instruction memory of three cycles. -/
theorem slow_fetch_pace_loadEbreak :
    ∃ costs, (boot { slowCached with imemLatencyCycles := 3 } loadEbreak (fun _ => 0)
      RegFile.zero).HaltsAt (2 * 3 + 4 + stallTime costs) := by
  obtain ⟨c, hc, hct⟩ := Option.map_eq_some_iff.mp (by decide +kernel :
    ((boot (promptData { slowCached with imemLatencyCycles := 3 }) loadEbreak (fun _ => 0)
      RegFile.zero).ticks 10).map (fun c => (c.halted, c.instructions)) = some (true, 2))
  simp only [Prod.mk.injEq] at hct
  have hcfg : ({ slowCached with imemLatencyCycles := 3 } : SimConfig).Valid :=
    ⟨slowCached_valid.dmem, ⟨by decide, by decide⟩, slowCached_valid.dcache, (nomatch ·),
      (nomatch ·)⟩
  obtain ⟨-, hhalted⟩ := slow_fetch_pace hcfg rfl (by decide) loadEbreak (fun _ => 0)
    RegFile.zero 10 c hc
  obtain ⟨-, costs, -, -, hhalts⟩ := hhalted hct.1
  rw [hct.2] at hhalts
  exact ⟨costs, hhalts⟩

end Core

end CpuSim
