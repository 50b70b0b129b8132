import CpuSim.Memory.Waiting
import CpuSim.Rtl.InOrder
import CpuSim.Rtl.Speculation

/-!
# The instruction memory bounds the throughput

Without an I-cache every word that reaches IF/ID has had a service of the instruction memory to
itself. Redirects and hazards throw words away and a stall of MEM stops the timer, so they only
cost services. `Served` keeps the account: the cycles so far cover one service for each
instruction still in the pipeline or retired, the cycles it has spent in the stages since, and
the service under way.
-/

namespace CpuSim

namespace Pipe

variable {p q : Pipe} {f : FetchOut Port} {m : MemOut Port} {latency : Nat}

/-! ## Instructions by stage -/

/-- The instructions retired or waiting to retire. -/
def uptoWb (p : Pipe) : Nat := p.stats.instructions + p.memWb.valid.toNat

/-- Those, and the one in MEM. -/
def uptoMem (p : Pipe) : Nat := p.uptoWb + p.exMem.valid.toNat

def uptoEx (p : Pipe) : Nat := p.uptoMem + p.idEx.valid.toNat

def uptoId (p : Pipe) : Nat := p.uptoEx + p.ifId.valid.toNat

theorem instructions_retiredStats (p : Pipe) : p.retiredStats.instructions = p.uptoWb := by
  unfold retiredStats uptoWb
  cases p.memWb.valid <;> rfl

theorem instructions_flowNext (p : Pipe) (f : FetchOut Port) (m : MemOut Port) :
    (p.flowNext f m).stats.instructions = p.uptoWb :=
  (flow_instructions p f m).trans (instructions_retiredStats p)

/-- On a stalled tick the counts stay what they are. -/
theorem upto_stallNext (f : FetchOut Port) (hm : p.mem = some m) (hs : m.stalling = true) :
    (p.stallNext f m).uptoWb = p.uptoWb ∧ (p.stallNext f m).uptoMem = p.uptoMem ∧
      (p.stallNext f m).uptoEx = p.uptoEx ∧ (p.stallNext f m).uptoId = p.uptoId := by
  have hwb : (p.stallNext f m).uptoWb = p.uptoWb := by
    have hbubble : (p.stallNext f m).memWb.valid = false :=
      congrArg MemWb.valid (mem_stalled hm hs).2.2.1
    rw [uptoWb, hbubble]
    exact instructions_retiredStats p
  have hmem : (p.stallNext f m).uptoMem = p.uptoMem := congrArg (· + _) hwb
  have hex : (p.stallNext f m).uptoEx = p.uptoEx := by
    unfold uptoEx
    rw [hmem]
    exact congrArg (fun v : Bool => p.uptoMem + v.toNat) p.captured_valid
  exact ⟨hwb, hmem, hex, congrArg (· + _) hex⟩

/-- On any other tick every count moves one stage along. -/
theorem upto_flowNext (f : FetchOut Port) (hm : p.mem = some m) (hs : m.stalling = false) :
    (p.flowNext f m).uptoWb = p.uptoMem ∧ (p.flowNext f m).uptoMem = p.uptoEx := by
  have hwb : (p.flowNext f m).uptoWb = p.uptoMem := by
    unfold uptoMem
    rw [← instructions_flowNext p f m, ← (mem_flowed hm hs).1]
    rfl
  refine ⟨hwb, ?_⟩
  unfold uptoMem uptoEx
  rw [hwb, ← exec_valid]
  rfl

/-- IF and ID drop what they hold, keep it for another tick, or take the word of the fetch. -/
theorem uptoId_flowNext (f : FetchOut Port) (hm : p.mem = some m) (hs : m.stalling = false) :
    ((p.flowNext f m).uptoId ≤ p.uptoId ∧
        ((p.flowNext f m).ifId.valid = true →
          p.ifId.valid = true ∧ (p.flowNext f m).uptoId = p.uptoId)) ∨
      ((p.flowNext f m).ifId = f.out ∧
        (p.flowNext f m).uptoId = p.uptoId + f.out.valid.toNat) := by
  have hid := flow_ifId p f m
  have hex : (p.flowNext f m).idEx.valid =
      (!p.exec.redirect && !p.hazard && p.ifId.valid) := by
    rw [Bool.eq_iff_iff, Tracks.flow_idEx_valid]
    simp [and_assoc]
  have hupto : (p.flowNext f m).uptoId = p.uptoEx + (p.flowNext f m).idEx.valid.toNat +
      (p.flowNext f m).ifId.valid.toNat := by
    unfold uptoId uptoEx
    rw [(upto_flowNext f hm hs).2]
    rfl
  cases hr : p.exec.redirect with
  | true =>
    rw [hr, if_pos rfl] at hid
    rw [hr] at hex
    refine .inl ⟨?_, fun hv => ?_⟩
    · rw [hupto, hex, hid]
      exact Nat.le_add_right _ _
    · rw [hid] at hv
      cases hv
  | false =>
    rw [hr, if_neg (by decide)] at hid
    rw [hr] at hex
    cases hz : p.hazard with
    | true =>
      rw [hz, if_pos rfl] at hid
      rw [hz] at hex
      have hsame : (p.flowNext f m).uptoId = p.uptoId := by
        rw [hupto, hex, hid]
        rfl
      exact .inl ⟨hsame.le, fun hv => ⟨hid ▸ hv, hsame⟩⟩
    | false =>
      rw [hz, if_neg (by decide)] at hid
      rw [hz] at hex
      refine .inr ⟨hid, ?_⟩
      rw [hupto, hex, hid]
      rfl

/-! ## The account -/

/-- The cycles so far pay for one service for every instruction up to a stage, and for the stages
    behind it. `imem` adds the part of the next service that is done. -/
structure Served (latency : Nat) (p : Pipe) : Prop where
  imem : ∃ r, p.iport = .flat r ∧ r.Timing latency ∧
    (p.uptoId + 1) * latency ≤ p.stats.cycles + r.rank + 1
  ifId : p.ifId.valid = true → p.uptoId * latency ≤ p.stats.cycles
  idEx : p.idEx.valid = true → p.uptoEx * latency + 1 ≤ p.stats.cycles
  exMem : p.exMem.valid = true → p.uptoMem * latency + 2 ≤ p.stats.cycles
  memWb : p.memWb.valid = true → p.uptoWb * latency + 3 ≤ p.stats.cycles
  retired : 1 ≤ p.stats.instructions → p.stats.instructions * latency + 4 ≤ p.stats.cycles

/-- What retires on this tick has been paid for, too. -/
theorem Served.retire (h : p.Served latency) (hn : 1 ≤ p.uptoWb) :
    p.uptoWb * latency + 4 ≤ p.stats.cycles + 1 := by
  cases hv : p.memWb.valid with
  | true =>
    have hwb := h.memWb hv
    omega
  | false =>
    have hsame : p.uptoWb = p.stats.instructions := by
      unfold uptoWb
      rw [hv]
      rfl
    have hretired := h.retired (hsame ▸ hn)
    rw [hsame]
    omega

/-- The timer of the instruction memory stands still while MEM stalls. -/
theorem Served.stall (h : p.Served latency) (hf : p.fetch = some f) (hm : p.mem = some m)
    (hs : m.stalling = true) (hc : (p.stallNext f m).stats.cycles = p.stats.cycles + 1) :
    (p.stallNext f m).Served latency := by
  obtain ⟨hwb, hmem, hex, hid⟩ := upto_stallNext f hm hs
  obtain ⟨r, hport, htiming, hpaid⟩ := h.imem
  have hi : (p.stallNext f m).stats.instructions = p.uptoWb := instructions_retiredStats p
  have hfetch : (p.stallNext f m).iport = .flat (r.ready p.pc false).2 := by
    have himem := (fetchWord_eq_some hf).1
    rw [hport] at himem
    exact himem
  obtain ⟨htiming', -, hrank⟩ := htiming.ready p.pc false
  refine ⟨⟨_, hfetch, htiming', ?_⟩, fun hv => ?_, fun hv => ?_, fun hv => ?_, fun hv => ?_,
    fun hn => ?_⟩
  · rw [hid, hc, hrank]
    omega
  · have hle := h.ifId hv
    rw [hid, hc]
    omega
  · have hle := h.idEx (p.captured_valid ▸ hv)
    rw [hex, hc]
    omega
  · have hle := h.exMem hv
    rw [hmem, hc]
    omega
  · have hbubble : (p.stallNext f m).memWb.valid = false :=
      congrArg MemWb.valid (mem_stalled hm hs).2.2.1
    rw [hbubble] at hv
    cases hv
  · rw [hi] at hn ⊢
    rw [hc]
    exact h.retire hn

/-- A word that reaches IF/ID uses up a whole service; every other word is paid for in vain. -/
theorem Served.flow (h : p.Served latency) (hf : p.fetch = some f) (hm : p.mem = some m)
    (hs : m.stalling = false) : (p.flowNext f m).Served latency := by
  have hc := flow_cycles p f m
  have hi := instructions_flowNext p f m
  obtain ⟨hwb, hmem⟩ := upto_flowNext f hm hs
  obtain ⟨r, hport, htiming, hpaid⟩ := h.imem
  have hfetch : (p.flowNext f m).iport = .flat (r.ready p.pc false).2.tick := by
    have himem := (fetchWord_eq_some hf).1
    rw [hport] at himem
    exact congrArg IMemory.tick himem
  have hout : f.out.valid = (r.ready p.pc false).1 := by
    have hserved : (IMemory.ready p.iport p.pc false).1 = (r.ready p.pc false).1 := by
      rw [hport]
      rfl
    obtain ⟨-, ⟨hr, ho, -⟩ | ⟨hr, -, -, ho, -⟩⟩ := fetchWord_eq_some hf <;>
      rw [ho, ← hserved, hr]
  obtain ⟨hwait, hdone⟩ := htiming.rank_poll p.pc false
  have hpos := htiming.ok.1
  have hfront := uptoId_flowNext f hm hs
  have hmul : ∀ {i j : Nat}, i ≤ j → i * latency ≤ j * latency :=
    fun hij => Nat.mul_le_mul_right latency hij
  refine ⟨⟨_, hfetch, (htiming.ready p.pc false).1.tick, ?_⟩, fun hv => ?_, fun hv => ?_,
    fun hv => ?_, fun hv => ?_, fun hn => ?_⟩
  · rw [hc]
    cases hr : (r.ready p.pc false).1 with
    | false =>
      rw [hr] at hout
      have hle : (p.flowNext f m).uptoId ≤ p.uptoId := by
        rcases hfront with ⟨hle, -⟩ | ⟨-, hnew⟩
        · exact hle
        · rw [hnew, hout]
          exact le_refl _
      have hservices := hmul (Nat.add_le_add_right hle 1)
      have hrank := hwait hr
      omega
    | true =>
      obtain ⟨hzero, hfull⟩ := hdone hr
      rw [hr] at hout
      have hle : (p.flowNext f m).uptoId ≤ p.uptoId + 1 := by
        rcases hfront with ⟨hle, -⟩ | ⟨-, hnew⟩
        · exact hle.trans (Nat.le_succ _)
        · rw [hnew, hout]
          exact le_refl _
      have hservices := hmul (Nat.add_le_add_right hle 1)
      rw [Nat.succ_mul (p.uptoId + 1)] at hservices
      omega
  · rw [hc]
    rcases hfront with ⟨-, hkept⟩ | ⟨hword, hnew⟩
    · obtain ⟨hv', hsame⟩ := hkept hv
      have hle := h.ifId hv'
      rw [hsame]
      omega
    · rw [hword] at hv
      have hzero := (hdone (hout ▸ hv)).1
      rw [hnew, hv]
      change (p.uptoId + 1) * latency ≤ _
      omega
  · obtain ⟨-, -, hv'⟩ := (Tracks.flow_idEx_valid p f m).mp hv
    have hex : (p.flowNext f m).uptoEx = p.uptoId := by
      unfold uptoEx uptoId
      rw [hmem, hv, hv']
    have hle := h.ifId hv'
    rw [hex, hc]
    omega
  · have hle := h.idEx (p.exec_valid ▸ hv)
    rw [hmem, hc]
    omega
  · have hle := h.exMem ((mem_flowed hm hs).1 ▸ hv)
    rw [hwb, hc]
    omega
  · rw [hi] at hn ⊢
    rw [hc]
    exact h.retire hn

theorem Served.tick (h : p.Served latency) (ht : p.tick = some q) : q.Served latency := by
  cases hh : p.halted with
  | true => exact eq_of_tick_of_halted hh ht ▸ h
  | false =>
    have hc := (cycles_tick hh ht).1
    obtain ⟨f, m, hf, hm, ⟨hs, rfl⟩ | ⟨hs, rfl⟩⟩ := tick_cases hh ht
    · exact h.stall hf hm hs hc
    · exact h.flow hf hm hs

/-- The counter counts what retires. -/
theorem instructions_of_ticks {n : Nat} (hq : p.ticks n = some q) :
    q.stats.instructions = p.stats.instructions + (p.retired n).length := by
  induction n generalizing q with
  | zero =>
    simp only [ticks, Runs.run_zero, Option.some.injEq] at hq
    subst hq
    rfl
  | succ n ih =>
    obtain ⟨u, hu, huq⟩ := (Runs.run_succ_eq_some tick).mp hq
    have hl : p.retired (n + 1) = p.retired n ++ u.retires := Runs.log_succ_of_run tick retires hu
    rw [hl, List.length_append, ← Nat.add_assoc, ← ih hu]
    cases hh : u.halted with
    | true =>
      rw [eq_of_tick_of_halted hh huq, retires_of_halted hh]
      rfl
    | false =>
      rw [(cycles_tick hh huq).2, retires_of_running hh, instructions_retiredStats, uptoWb]
      cases u.memWb.valid <;> rfl

end Pipe

namespace Core

variable {cfg : SimConfig}

theorem served_boot (hcache : cfg.icacheEnabled = false) (hlat : LatencyOk cfg.imemLatencyCycles)
    (imem dmem : Nat → Byte) (rf : RegFile) :
    (boot cfg imem dmem rf).view.Served cfg.imemLatencyCycles := by
  have hpos := hlat.1
  have hport : (boot cfg imem dmem rf).view.iport =
      (newIport cfg).load (bytesOf cfg.ramSizeBytes imem) := rfl
  unfold newIport at hport
  rw [hcache, if_neg (by decide)] at hport
  have hl : (if cfg.imemLatencyCycles = 0 then 1 else cfg.imemLatencyCycles) =
      cfg.imemLatencyCycles := if_neg (by omega)
  refine ⟨⟨_, hport, ⟨hlat, hl, (nomatch ·)⟩, ?_⟩, (nomatch ·), (nomatch ·), (nomatch ·),
    (nomatch ·), (nomatch ·)⟩
  change (0 + 1) * cfg.imemLatencyCycles ≤
    0 + ((if cfg.imemLatencyCycles = 0 then 1 else cfg.imemLatencyCycles) - 1) + 1
  rw [hl]
  omega

/-- No two retired instructions share a service of the instruction memory, and the last of them
    still has four stages to pass. -/
theorem instruction_memory_ceiling (hcache : cfg.icacheEnabled = false)
    (hlat : LatencyOk cfg.imemLatencyCycles) (imem dmem : Nat → Byte) (rf : RegFile) (n : Nat)
    (c : Core) (hc : (boot cfg imem dmem rf).ticks n = some c) :
    c.instructions = ((boot cfg imem dmem rf).retired n).length ∧
      (1 ≤ c.instructions → c.instructions * cfg.imemLatencyCycles + 4 ≤ c.cycles) := by
  have hquiet := quiet_boot cfg imem dmem rf
  have hview := view_of_ticks hquiet hc
  have hserved : c.view.Served cfg.imemLatencyCycles :=
    Runs.run_invariant Pipe.tick (fun _ _ h ht => h.tick ht) (served_boot hcache hlat imem dmem rf)
      hview
  refine ⟨?_, hserved.retired⟩
  have hcount := Pipe.instructions_of_ticks hview
  rw [← retired_view hquiet] at hcount
  exact hcount.trans (Nat.zero_add _)

/-- Two instructions behind an instruction memory of three cycles. -/
theorem instruction_memory_ceiling_addiEbreak :
    ∃ c, (boot { ramBaseAddr := 0, ramSizeBytes := 64, imemLatencyCycles := 3 } addiEbreak
        (fun _ => 0) RegFile.zero).ticks 10 = some c ∧
      c.instructions = 2 ∧ 2 * 3 + 4 ≤ c.cycles := by
  obtain ⟨c, hc, hn⟩ := Option.map_eq_some_iff.mp (by decide +kernel :
    ((boot { ramBaseAddr := 0, ramSizeBytes := 64, imemLatencyCycles := 3 } addiEbreak
        (fun _ => 0) RegFile.zero).ticks 10).map instructions = some 2)
  have hle := (instruction_memory_ceiling rfl ⟨by decide, by decide⟩ addiEbreak (fun _ => 0)
    RegFile.zero 10 c hc).2 (by omega)
  rw [hn] at hle
  exact ⟨c, hc, hn, hle⟩

end Core

end CpuSim
