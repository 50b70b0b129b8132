import CpuSim.Memory.Waiting
import CpuSim.Rtl.Correct

/-!
# Every run makes progress

Only the oldest instruction in flight decides when the next one retires: what is behind it may
be flushed, refetched or held without end and does not matter before it is the oldest itself.
So the ticks up to the next retirement are bounded by the stage the oldest instruction is in
and, while that stage waits for its port, by the rank of the port.
-/

namespace CpuSim

open Rv32i

namespace Port

/-- The timers behind a port with these latencies. -/
def Timing (latency hit : Nat) : Port → Prop
  | flat m => m.Timing latency
  | cached c => c.Timing (FlatMem.Timing latency) hit

/-- The cycles left before the port serves its caller. -/
def rank (latency : Nat) : Port → Nat
  | flat m => m.rank
  | cached c => c.rank FlatMem.rank (latency - 1)

theorem ranked (latency hit : Nat) :
    (IMemory.port Port).Ranked (Timing latency hit) (rank latency)
      (hit + (latency - 1) + 1 + (latency - 1)) where
  ready := by
    rintro (m | c) r h
    · exact (FlatMem.ranked latency).ready r h
    · exact (Cache.ranked (FlatMem.ranked latency) hit).ready r h
  tick := by
    rintro (m | c) h
    · exact (FlatMem.ranked latency).tick h
    · exact (Cache.ranked (FlatMem.ranked latency) hit).tick h
  le := by
    rintro (m | c) h
    · have hle := (FlatMem.ranked latency).le h
      change m.rank ≤ _
      omega
    · exact (Cache.ranked (FlatMem.ranked latency) hit).le h
  waits := by
    rintro (m | c) r h hr
    · exact (FlatMem.ranked latency).waits r h hr
    · exact (Cache.ranked (FlatMem.ranked latency) hit).waits r h hr

theorem Timing.setRam {latency hit : Nat} {p : Port} {m : FlatMem} {b : ByteMap}
    (h : p.Timing latency hit) (hm : p.ram.Rewrites m b) : (p.setRam m).Timing latency hit := by
  have hram : ∀ {n : FlatMem}, n.Rewrites m b → n.Timing latency → m.Timing latency := by
    intro n hn ht
    rw [hn.frame]
    exact ⟨ht.ok, ht.eq, ht.timer⟩
  cases p with
  | flat n => exact hram hm h
  | cached c => exact ⟨h.ok, h.eq, hram hm h.backing, h.timer⟩

end Port

namespace Pipe

/-- The timers of both ports. -/
structure Timers (cfg : SimConfig) (p : Pipe) : Prop where
  iport : p.iport.Timing cfg.imemLatencyCycles cfg.icacheHitLatencyCycles
  dport : p.dport.Timing cfg.dmemLatencyCycles cfg.dcacheHitLatencyCycles

/-- What an access waits at most on the data side. -/
def dataWait (cfg : SimConfig) : Nat :=
  cfg.dcacheHitLatencyCycles + (cfg.dmemLatencyCycles - 1) + 1 + (cfg.dmemLatencyCycles - 1)

/-- The ticks before the one that retires the next instruction: by the oldest instruction in
    flight, or by the fetch when there is none. -/
def waiting (cfg : SimConfig) (p : Pipe) : Nat :=
  if p.memWb.valid then 0
  else if p.exMem.valid then p.dport.rank cfg.dmemLatencyCycles + 1
  else if p.idEx.valid then dataWait cfg + 2
  else if p.ifId.valid then dataWait cfg + 3
  else p.iport.rank cfg.imemLatencyCycles + dataWait cfg + 4

variable {cfg : SimConfig} {p q : Pipe} {f : FetchOut Port} {m : MemOut Port}

theorem Timers.mem (h : p.Timers cfg) (hm : p.mem = some m) :
    m.dmem.Timing cfg.dmemLatencyCycles cfg.dcacheHitLatencyCycles := by
  have hasked : (p.dport.asked p.exMem).Timing cfg.dmemLatencyCycles
      cfg.dcacheHitLatencyCycles := by
    unfold Port.asked
    split
    · exact (Port.ranked _ _).ready (p.exMem.aluOut, isStore p.exMem.op) h.dport
    · exact h.dport
  obtain ⟨-, ho⟩ | ⟨-, -, -, ho⟩ | ⟨-, -, -, -, -, n, hd, hw⟩ := accessMem_eq_some hm
  · rw [ho]
    exact h.dport
  · rw [ho]
    exact hasked
  · rw [hd]
    exact hasked.setRam hw

theorem Timers.fetch (h : p.Timers cfg) (hf : p.fetch = some f) :
    f.imem.Timing cfg.imemLatencyCycles cfg.icacheHitLatencyCycles := by
  obtain ⟨him, -⟩ := fetchWord_eq_some hf
  rw [him]
  exact (Port.ranked _ _).ready (p.pc, false) h.iport

theorem Timers.stallNext (h : p.Timers cfg) (hf : p.fetch = some f) (hm : p.mem = some m) :
    (p.stallNext f m).Timers cfg :=
  ⟨h.fetch hf, (Port.ranked _ _).tick (h.mem hm)⟩

theorem Timers.flowNext (h : p.Timers cfg) (hf : p.fetch = some f) (hm : p.mem = some m) :
    (p.flowNext f m).Timers cfg :=
  ⟨(Port.ranked _ _).tick (h.fetch hf), (Port.ranked _ _).tick (h.mem hm)⟩

theorem Timers.tick (h : p.Timers cfg) (ht : p.tick = some q) : q.Timers cfg := by
  cases hh : p.halted with
  | true =>
    obtain rfl := eq_of_tick_of_halted hh ht
    exact h
  | false =>
    obtain ⟨f, m, hf, hm, ⟨-, rfl⟩ | ⟨-, rfl⟩⟩ := tick_cases hh ht
    · exact h.stallNext hf hm
    · exact h.flowNext hf hm

/-- The data side serves, within its bound, what waits in EX/MEM. -/
theorem Timers.waiting_exMem (h : p.Timers cfg) (hv : p.exMem.valid = true) :
    p.waiting cfg ≤ dataWait cfg + 1 := by
  have hle := (Port.ranked _ _).le h.dport
  unfold waiting dataWait
  rw [hv, if_pos rfl]
  split <;> omega

/-- While the oldest instruction waits in MEM, the rank of the data port falls. -/
theorem Timers.waiting_stallNext (h : p.Timers cfg) (hwb : p.memWb.valid = false)
    (hm : p.mem = some m) (hs : m.stalling = true) (f : FetchOut Port) :
    (p.stallNext f m).waiting cfg < p.waiting cfg := by
  obtain ⟨hv, hop, hout, hd⟩ := mem_stalled hm hs
  have hwait : ((IMemory.port Port).ready p.dport (p.exMem.aluOut, isStore p.exMem.op)).1 =
      false := by
    have hst : p.stalls = true := (mem_stalling hm).symm.trans hs
    unfold stalls served at hst
    rw [hv, hop] at hst
    change (!((IMemory.port Port).ready p.dport (p.exMem.aluOut, isStore p.exMem.op)).1) = true
      at hst
    exact (Bool.not_eq_true' _).mp hst
  have hlt := (Port.ranked _ _).waits (p.exMem.aluOut, isStore p.exMem.op) h.dport hwait
  have hpoll : (p.stallNext f m).dport =
      (IMemory.port Port).poll p.dport (p.exMem.aluOut, isStore p.exMem.op) := by
    change IMemory.tick m.dmem = _
    rw [hd]
    unfold Port.asked
    rw [hop]
    rfl
  have hwb' : (p.stallNext f m).memWb.valid = false := congrArg MemWb.valid hout
  have hv' : (p.stallNext f m).exMem.valid = true := hv
  unfold waiting
  rw [hwb', hv', hpoll, hwb, hv]
  simp only [Bool.false_eq_true, if_false, if_true]
  omega

/-- On any other tick the oldest instruction moves on, or the fetch port gets nearer. -/
theorem Timers.waiting_flowNext (h : p.Timers cfg) (hwb : p.memWb.valid = false)
    (hf : p.fetch = some f) (hm : p.mem = some m) (hs : m.stalling = false) :
    (p.flowNext f m).waiting cfg < p.waiting cfg := by
  have hq := h.flowNext hf hm
  obtain ⟨hout, -, -⟩ := mem_flowed hm hs
  have hwb' : (p.flowNext f m).memWb.valid = p.exMem.valid := hout
  have hex' : (p.flowNext f m).exMem.valid = p.idEx.valid := exec_valid p
  cases hex : p.exMem.valid with
  | true =>
    -- From MEM into MEM/WB.
    unfold waiting
    rw [hwb', hex, hwb]
    simp only [Bool.false_eq_true, if_false, if_true]
    omega
  | false =>
    cases hid : p.idEx.valid with
    | true =>
      -- From EX into EX/MEM.
      have hle := hq.waiting_exMem (hex'.trans hid)
      have hp : p.waiting cfg = dataWait cfg + 2 := by
        unfold waiting
        rw [hwb, hex, hid]
        rfl
      omega
    | false =>
      -- Nothing in EX, so nothing flushes or holds IF and ID.
      have hred : p.exec.redirect = false := by
        cases hr : p.exec.redirect with
        | false => rfl
        | true => rw [exec_redirect_valid hr] at hid; cases hid
      have hhaz : p.hazard = false := by
        unfold hazard loadUseHazard
        rw [hid]
        rfl
      have hid' : (p.flowNext f m).idEx = decodeInsn p.rf p.ifId := by
        change (if p.exec.redirect || p.hazard then _ else _) = _
        rw [hred, hhaz]
        rfl
      cases hif : p.ifId.valid with
      | true =>
        have hdec : (p.flowNext f m).idEx.valid = true := by
          rw [hid']
          unfold decodeInsn
          rw [hif]
          rfl
        unfold waiting
        rw [hwb', hex', hdec, hwb, hex, hid, hif]
        simp only [Bool.false_eq_true, if_false, if_true]
        omega
      | false =>
        have hdec : (p.flowNext f m).idEx.valid = false := by
          rw [hid']
          unfold decodeInsn
          rw [hif]
          rfl
        have hif' : (p.flowNext f m).ifId = f.out := by
          change (if p.exec.redirect then _ else if p.hazard then _ else f.out) = _
          rw [hred, hhaz]
          rfl
        unfold waiting
        rw [hwb', hex', hdec, hif', hwb, hex, hid, hif]
        simp only [Bool.false_eq_true, if_false]
        obtain ⟨him, ⟨hr, ho, -⟩ | ⟨-, -, -, ho, -⟩⟩ := fetchWord_eq_some hf
        · -- IF waits for its word.
          have hlt := (Port.ranked _ _).waits (p.pc, false) h.iport hr
          have hpoll : (p.flowNext f m).iport =
              (IMemory.port Port).poll p.iport (p.pc, false) := by
            change IMemory.tick f.imem = _
            rw [him]
            rfl
          rw [ho, hpoll]
          simp only [Bool.false_eq_true, if_false]
          omega
        · rw [ho, if_pos rfl]
          omega

/-- A tick retires an instruction or lowers the measure. -/
theorem Timers.waiting_tick (h : p.Timers cfg) (hrun : p.halted = false)
    (ht : p.tick = some q) :
    q.stats.instructions = p.stats.instructions + 1 ∨
      (q.stats.instructions = p.stats.instructions ∧ q.halted = false ∧
        q.waiting cfg < p.waiting cfg) := by
  have hcount := (cycles_tick hrun ht).2
  unfold retiredStats at hcount
  cases hwb : p.memWb.valid with
  | true =>
    rw [hwb, if_pos rfl] at hcount
    exact .inl hcount
  | false =>
    rw [hwb, if_neg (by decide)] at hcount
    have hhalt : p.drain.halted = false := by
      have hno : p.halting = false := by
        unfold halting
        rw [hwb]
        rfl
      change (if p.halting then true else p.halted) = false
      rw [hno, hrun]
      rfl
    refine .inr ⟨hcount, ?_⟩
    obtain ⟨f, m, hf, hm, ⟨hs, rfl⟩ | ⟨hs, rfl⟩⟩ := tick_cases hrun ht
    · exact ⟨hhalt, h.waiting_stallNext hwb hm hs f⟩
    · exact ⟨hhalt, h.waiting_flowNext hwb hf hm hs⟩

end Pipe

namespace Core

/-- The ticks before the one that retires the next instruction, at most. -/
def waiting (cfg : SimConfig) (c : Core) : Nat := c.view.waiting cfg

theorem timers_boot {cfg : SimConfig} (hcfg : cfg.Valid) (imem dmem : Nat → Byte)
    (rf : RegFile) : (boot cfg imem dmem rf).view.Timers cfg := by
  have hflat : ∀ {latency : Nat} (bytes : List Byte), LatencyOk latency →
      ({ FlatMem.new cfg.ramBaseAddr cfg.ramSizeBytes latency with mem := bytes } :
        FlatMem).Timing latency := by
    intro latency bytes hl
    refine ⟨hl, if_neg ?_, (nomatch ·)⟩
    have := hl.1
    omega
  have hhit : ∀ {hit : Nat}, LatencyOk hit → (if hit = 0 then 1 else hit) = hit := by
    intro hit hl
    refine if_neg ?_
    have := hl.1
    omega
  constructor
  · change ((newIport cfg).load _).Timing _ _
    unfold newIport
    cases hc : cfg.icacheEnabled with
    | false => exact hflat _ hcfg.imem
    | true =>
      obtain ⟨-, hl⟩ := hcfg.icache hc
      exact ⟨hl, hhit hl, hflat _ hcfg.imem, (nomatch ·)⟩
  · change ((newDport cfg).load _).Timing _ _
    unfold newDport
    cases hc : cfg.dcacheEnabled with
    | false => exact hflat _ hcfg.dmem
    | true =>
      obtain ⟨-, hl⟩ := hcfg.dcache hc
      exact ⟨hl, hhit hl, hflat _ hcfg.dmem, (nomatch ·)⟩

/-- From every running state whose accesses stay in range another instruction retires. The
    ticks before it all lower the measure, so it also bounds them. -/
theorem retires_again (cfg : SimConfig) (hcfg : cfg.Valid) (imem dmem : Nat → Byte)
    (rf : RegFile) (k : Nat) (c : Core) (hc : (boot cfg imem dmem rf).ticks k = some c)
    (hrun : c.halted = false) (hrange : ∀ n, ∃ d, c.ticks n = some d) :
    (∀ d, c.tick = some d → d.instructions = c.instructions → d.waiting cfg < c.waiting cfg) ∧
      ∃ n d, n ≤ c.waiting cfg ∧ c.ticks (n + 1) = some d ∧
        d.instructions = c.instructions + 1 := by
  have hquiet := quiet_boot cfg imem dmem rf
  have hcv := view_of_ticks hquiet hc
  have hcq : c.Quiet := Runs.run_invariant tick (fun _ _ => quiet_tick) hquiet hc
  have htimers : c.view.Timers cfg :=
    Runs.run_invariant Pipe.tick (fun _ _ h => h.tick) (timers_boot hcfg imem dmem rf) hcv
  constructor
  · intro d hd hsame
    have hdv : c.view.tick = some d.view := by
      rw [← view_tick hcq, hd]
      rfl
    rcases htimers.waiting_tick hrun hdv with hone | ⟨-, -, hlt⟩
    · have hinc : d.instructions = c.instructions + 1 := hone
      omega
    · exact hlt
  · have hstep : ∀ p q : Pipe, p.Timers cfg ∧ p.halted = false ∧
        p.stats.instructions = c.instructions → p.tick = some q →
        q.stats.instructions = c.instructions + 1 ∨
          (q.Timers cfg ∧ q.halted = false ∧ q.stats.instructions = c.instructions) ∧
            q.waiting cfg < p.waiting cfg := by
      rintro p q ⟨hp, hpr, hpc⟩ hpq
      rcases hp.waiting_tick hpr hpq with hone | ⟨hsame, hqr, hlt⟩
      · exact .inl (by omega)
      · exact .inr ⟨⟨hp.tick hpq, hqr, hsame.trans hpc⟩, hlt⟩
    have hviews : ∀ n, ∃ q, c.view.ticks n = some q := by
      intro n
      obtain ⟨d, hd⟩ := hrange n
      exact ⟨d.view, view_of_ticks hcq hd⟩
    obtain ⟨n, q, hn, hq, hgoal⟩ := Runs.exists_run_of_measure Pipe.tick hstep
      ⟨htimers, hrun, rfl⟩ hviews
    obtain ⟨d, hd⟩ := hrange (n + 1)
    have hdq := view_of_ticks hcq hd
    have heq : d.view = q := Option.some.inj (hdq.symm.trans hq)
    refine ⟨n, d, hn, hd, ?_⟩
    rw [← heq] at hgoal
    exact hgoal

/-- A run that halts stays in range. -/
theorem ticks_of_halted {c d : Core} {k : Nat} (h : c.ticks k = some d) (hd : d.halted = true)
    (n : Nat) : ∃ e, c.ticks n = some e := by
  have hfix : d.tick = some d := by
    unfold tick tickIn
    rw [hd]
    rfl
  rcases Nat.le_total n k with hle | hle
  · exact Runs.run_of_le tick h hle
  · obtain ⟨i, rfl⟩ := Nat.exists_eq_add_of_le hle
    exact ⟨d, (Runs.run_add_of_run tick h).trans (Runs.run_of_fixed tick hfix i)⟩

theorem retires_again_addiEbreak :
    ∃ c n d, (boot predicting addiEbreak (fun _ => 0) RegFile.zero).ticks 0 = some c ∧
      n ≤ c.waiting predicting ∧ c.ticks (n + 1) = some d ∧
        d.instructions = c.instructions + 1 := by
  obtain ⟨e, he, hh⟩ := Option.map_eq_some_iff.mp (by decide +kernel :
    ((boot predicting addiEbreak (fun _ => 0) RegFile.zero).ticks 6).map halted = some true)
  obtain ⟨-, n, d, hn, hd, hcount⟩ := retires_again predicting predicting_valid addiEbreak
    (fun _ => 0) RegFile.zero 0 _ rfl rfl (ticks_of_halted he hh)
  exact ⟨_, n, d, rfl, hn, hd, hcount⟩

end Core

end CpuSim
