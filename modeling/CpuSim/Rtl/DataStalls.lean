import CpuSim.Rtl.Lockstep

/-!
# Data stalls are additive

Every cycle of a machine without data stalls is matched by the cycles that its data access
takes (`Facing.drives`), one when there is none. So the machine with the slower memory reaches
the same states later by what its accesses cost, driven one at a time through its data memory
(`Lockstep`), until the cycle on which both halt.
-/

namespace CpuSim

open Rv32i

/-- The request of a retired load or store to the data memory. -/
def MemWb.access (wb : MemWb) : Option (Word × Bool) :=
  if isMemOp wb.op then some (wb.memAddr, wb.isStore) else none

/-- The data accesses of a log of retired instructions, in order. -/
def accesses (log : List MemWb) : List (Word × Bool) := log.filterMap MemWb.access

/-- The cycles that a list of accesses adds to a run. -/
def stallTime (costs : List Nat) : Nat := (costs.map (· - 1)).sum

theorem accesses_append (l l' : List MemWb) : accesses (l ++ l') = accesses l ++ accesses l' :=
  List.filterMap_append

namespace Pipe

variable {p q b b' d : Pipe} {f : FetchOut Port} {m : MemOut Port}

/-- What the front end works with on the cycles of a run up to its halt. -/
def frontEnds (p : Pipe) : List FrontEnd := if p.halted then [] else [p.frontEnd]

def evolution (p : Pipe) (n : Nat) : List FrontEnd := Runs.log tick frontEnds n p

theorem frontEnds_of_running (h : p.halted = false) : p.frontEnds = [p.frontEnd] := by
  unfold frontEnds
  rw [h]
  rfl

theorem frontEnds_of_halted (h : p.halted = true) : p.frontEnds = [] := by
  unfold frontEnds
  rw [h]
  rfl

theorem resolves_of_stalls (h : p.stalls = true) : p.resolves = [] := by
  unfold resolves
  rw [h, Bool.not_true, Bool.and_false]
  rfl

theorem pending_congr (h : q.memWb = p.memWb) : q.pending = p.pending := by
  unfold pending
  rw [h]

/-! ## Logs of the first tick and of the others -/

section FirstTick

variable {n : Nat}

theorem ticks_one : p.ticks 1 = p.tick := Option.bind_some _ _

theorem ticks_succ_of_tick (h : p.tick = some q) : p.ticks (n + 1) = q.ticks n := by
  rw [Nat.add_comm]
  exact Runs.run_add_of_run tick (ticks_one.trans h)

theorem log_succ_of_tick {α : Type} (obs : Pipe → List α) (h : p.tick = some q) :
    Runs.log tick obs (n + 1) p = obs p ++ Runs.log tick obs n q := by
  rw [Nat.add_comm, Runs.log_add_of_run tick obs (ticks_one.trans h)]
  rfl

end FirstTick

/-! ## One access -/

/-- The logs of a single cycle on which `d`, facing `b`, moves every stage. -/
theorem Facing.logs_one (h : b.Facing d) (hdr : d.halted = false) (hst : d.stalls = false)
    {d' : Pipe} (ht : d.tick = some d') :
    d.retired 1 = d.pending ∧ d.resolved 1 = b.leaving ∧ d.evolution 1 = [b.frontEnd] := by
  have hone : ∀ {α : Type} (obs : Pipe → List α), Runs.log tick obs 1 d = obs d := fun obs =>
    (log_succ_of_tick obs ht).trans (List.append_nil _)
  refine ⟨(hone retires).trans (retires_eq_pending hdr), ?_, ?_⟩
  · rw [← h.leaving]
    exact (hone resolves).trans (resolves_eq_leaving hdr hst)
  · rw [← h.frontEnd]
    exact (hone frontEnds).trans (frontEnds_of_running hdr)

/-- From facing `b`, `d` reaches the state behind the tick of `b` after the cycles its access
    takes. All but the last are stalled and retire and resolve nothing of their own. -/
theorem Facing.drives (h : b.Facing d) (hrun : b.halted = false) (hnh : b.halting = false)
    (hf : b.fetch = some f) (hm : b.mem = some m) (hs : m.stalling = false)
    (hv : b.exMem.valid = true) (hop : isMemOp b.exMem.op = true) {n : Nat} {u : Port}
    (hd : (IMemory.port Port).Drives (b.exMem.aluOut, isStore b.exMem.op) d.dport.blank n u) :
    ∃ d', d.ticks n = some d' ∧ (b.flowNext f m).Aligned d' ∧ d'.dport.blank = u ∧
      d.retired n = d.pending ∧ d.resolved n = b.leaving ∧
      d.evolution n = List.replicate n b.frontEnd := by
  generalize hblank : d.dport.blank = s at hd
  have hsees : ∀ {d : Pipe}, b.Facing d → ∀ {s : Port}, d.dport.blank = s →
      d.stalls = !((IMemory.port Port).ready s (b.exMem.aluOut, isStore b.exMem.op)).1 ∧
        (IMemory.port Port).poll s (b.exMem.aluOut, isStore b.exMem.op) =
          IMemory.tick (d.dport.asked d.exMem).blank := by
    intro d h s hs
    subst hs
    have hr := Port.maps_blank.ready d.dport (b.exMem.aluOut, isStore b.exMem.op)
    constructor
    · rw [hr]
      unfold stalls served
      rw [h.exMem, hv, hop]
      rfl
    · unfold Blocking.poll
      rw [hr]
      unfold Port.asked
      rw [h.exMem, if_pos hop]
      rfl
  induction hd generalizing d with
  | served hready =>
    obtain ⟨hst, hpoll⟩ := hsees h hblank
    rw [hready] at hst
    have hdr : d.halted = false := h.halted.trans hrun
    obtain ⟨d', ht, hal, hbl⟩ := h.flow hdr hf hm hs hst
    rw [h.exMem, hv, if_pos rfl, ← h.exMem, ← hpoll] at hbl
    exact ⟨d', ticks_one.trans ht, hal, hbl, h.logs_one hdr hst ht⟩
  | @waits s t n hready hd ih =>
    obtain ⟨hst, hpoll⟩ := hsees h hblank
    rw [hready] at hst
    have hdr : d.halted = false := h.halted.trans hrun
    obtain ⟨m', hm', hs', hout, hdm⟩ := exists_mem_of_stalls hst
    have hnext := h.stall hnh hf hm' hs' hout hdr
    have ht : d.tick = some (d.stallNext f m') := by
      simp [Pipe.tick, Pipe.next, hdr, h.fetch.trans hf, hm', hs']
    have hbl : (d.stallNext f m').dport.blank =
        (IMemory.port Port).poll s (b.exMem.aluOut, isStore b.exMem.op) := by
      rw [hpoll, ← hdm]
      exact (Port.maps_blank.tick m'.dmem).symm
    have hwb : (d.stallNext f m').memWb = {} := hout
    obtain ⟨d', htn, hal, hu, hret, hres, hev⟩ := ih hnext hbl
    refine ⟨d', (ticks_succ_of_tick ht).trans htn, hal, hu, ?_, ?_, ?_⟩
    · refine (log_succ_of_tick retires ht).trans ?_
      rw [retires_eq_pending hdr]
      refine (congrArg (d.pending ++ ·) hret).trans ?_
      unfold pending
      rw [hwb]
      exact List.append_nil _
    · refine (log_succ_of_tick resolves ht).trans ?_
      rw [resolves_of_stalls hst]
      exact hres
    · refine (log_succ_of_tick frontEnds ht).trans ?_
      rw [frontEnds_of_running hdr, h.frontEnd, List.replicate_succ]
      exact congrArg (b.frontEnd :: ·) hev

/-! ## Runs -/

/-- After `k` cycles of `p` in `b`, and the cycles that the accesses so far have cost in
    addition, the run of `q` is in `d`, and the two agree. -/
structure Lockstep (p q : Pipe) (k : Nat) (b : Pipe) (costs : List Nat) (d : Pipe) : Prop where
  reached : q.ticks (k + stallTime costs) = some d
  aligned : b.Aligned d
  idle : d.dport.blank.Idle
  driven : (IMemory.port Port).DrivesAll (accesses (p.retired k ++ b.pending)) q.dport.blank
    costs d.dport.blank
  retired : q.retired (k + stallTime costs) = p.retired k
  resolved : q.resolved (k + stallTime costs) = p.resolved k
  evolution : Runs.Stutters (p.evolution k) (q.evolution (k + stallTime costs))

/-- The access of the entry that MEM passes on. -/
theorem accesses_pending_flow (hm : p.mem = some m) (hs : m.stalling = false) :
    accesses (p.flowNext f m).pending =
      if p.exMem.valid && isMemOp p.exMem.op then [(p.exMem.aluOut, isStore p.exMem.op)]
      else [] := by
  have hwb : (p.flowNext f m).memWb =
      if p.exMem.valid then p.exMem.memWb p.dport.bytes else {} := mem_out hm hs
  unfold pending
  rw [hwb]
  cases hv : p.exMem.valid with
  | false => rfl
  | true =>
    rw [if_pos rfl]
    change List.filterMap MemWb.access [p.exMem.memWb p.dport.bytes] = _
    rw [List.filterMap_cons, List.filterMap_nil]
    unfold MemWb.access ExMem.memWb
    dsimp only
    cases hop : isMemOp p.exMem.op <;> rfl

/-- For a cycle of `b`, `d` takes as many as its access does, or one. -/
theorem Facing.cycle (h : b.Facing d) (hidle : d.dport.blank.Idle) (hrun : b.halted = false)
    (hnh : b.halting = false) (hf : b.fetch = some f) (hm : b.mem = some m)
    (hs : m.stalling = false) :
    ∃ n d' costs, 0 < n ∧ n = 1 + stallTime costs ∧ d.ticks n = some d' ∧
      (b.flowNext f m).Aligned d' ∧ d'.dport.blank.Idle ∧
      (IMemory.port Port).DrivesAll (accesses (b.flowNext f m).pending) d.dport.blank costs
        d'.dport.blank ∧
      d.retired n = d.pending ∧ d.resolved n = b.leaving ∧
      d.evolution n = List.replicate n b.frontEnd := by
  rw [accesses_pending_flow hm hs]
  have hdr : d.halted = false := h.halted.trans hrun
  cases hop : b.exMem.valid && isMemOp b.exMem.op with
  | true =>
    rw [Bool.and_eq_true] at hop
    obtain ⟨n, u, hd, hu⟩ := hidle.exists_drives (b.exMem.aluOut, isStore b.exMem.op)
    obtain ⟨d', hdt, hal, rfl, hlogs⟩ := h.drives hrun hnh hf hm hs hop.1 hop.2 hd
    have hpos := hd.pos
    refine ⟨n, d', [n], hpos, ?_, hdt, hal, hu, .cons hd (.nil _), hlogs⟩
    change n = 1 + (n - 1 + 0)
    omega
  | false =>
    have hst : d.stalls = false := by
      unfold stalls served
      rw [h.exMem]
      cases hv : b.exMem.valid with
      | false => rfl
      | true =>
        rw [hv, Bool.true_and] at hop
        rw [hop]
        rfl
    obtain ⟨d', hdt, hal, hbl⟩ := h.flow hdr hf hm hs hst
    have hask : (if b.exMem.valid then (d.dport.asked b.exMem).blank else d.dport.blank) =
        d.dport.blank := by
      unfold Port.asked
      cases hv : b.exMem.valid with
      | false => rfl
      | true =>
        rw [hv, Bool.true_and] at hop
        rw [hop]
        rfl
    have hstays : d'.dport.blank = d.dport.blank := by
      rw [hbl, h.exMem, hask]
      exact hidle.rests
    refine ⟨1, d', [], Nat.one_pos, rfl, ticks_one.trans hdt, hal, ?_, ?_,
      h.logs_one hdr hst hdt⟩
    · rw [hstays]
      exact hidle
    · rw [hstays]
      exact .nil _

/-- One cycle of `p`, and the cycles of `q` that go with it. -/
theorem Lockstep.step {k : Nat} {costs : List Nat} (h : Lockstep p q k b costs d)
    (hb : p.ticks k = some b) (hrun : b.halted = false) (hnh : b.halting = false)
    (hprompt : b.dport.Prompt) (ht : b.tick = some b') :
    ∃ costs' d', Lockstep p q (k + 1) b' costs' d' := by
  obtain ⟨f, m, hf, hm, hs, rfl, -⟩ := tick_of_prompt hprompt hrun ht
  have hface := h.aligned.toFacing
  have hdr : d.halted = false := hface.halted.trans hrun
  have hret : p.retired (k + 1) = p.retired k ++ b.pending := by
    rw [← retires_eq_pending hrun]
    exact Runs.log_succ_of_run tick retires hb
  have hres : p.resolved (k + 1) = p.resolved k ++ b.leaving := by
    rw [← resolves_eq_leaving hrun (stalls_of_prompt hprompt)]
    exact Runs.log_succ_of_run tick resolves hb
  have hev : p.evolution (k + 1) = p.evolution k ++ [b.frontEnd] := by
    rw [← frontEnds_of_running hrun]
    exact Runs.log_succ_of_run tick frontEnds hb
  obtain ⟨n, d', more, hn, hnm, hdt, hal, hidle, hdriven, hlogs⟩ :=
    hface.cycle h.idle hrun hnh hf hm hs
  rw [pending_congr h.aligned.memWb] at hlogs
  have htime : k + 1 + stallTime (costs ++ more) = k + stallTime costs + n := by
    unfold stallTime at hnm ⊢
    rw [List.map_append, List.sum_append]
    omega
  have hreach := h.reached
  refine ⟨costs ++ more, d', ?_, hal, hidle, ?_, ?_, ?_, ?_⟩
  · rw [htime]
    exact (Runs.run_add_of_run tick hreach).trans hdt
  · rw [accesses_append, hret]
    exact h.driven.append hdriven
  · rw [htime, hret, ← h.retired, ← hlogs.1]
    exact Runs.log_add_of_run tick retires hreach
  · rw [htime, hres, ← h.resolved, ← hlogs.2.1]
    exact Runs.log_add_of_run tick resolves hreach
  · have hq : q.evolution (k + stallTime costs + n) =
        q.evolution (k + stallTime costs) ++ List.replicate n b.frontEnd := by
      rw [← hlogs.2.2]
      exact Runs.log_add_of_run tick frontEnds hreach
    rw [htime, hev, hq]
    exact h.evolution.replicate b.frontEnd hn

/-- Every cycle of `p` on which it still runs has its place in the run of `q`. -/
theorem lockstep_of_ticks (hprompt : p.dport.Prompt) (hal : p.Aligned q)
    (hidle : q.dport.blank.Idle) (hpend : p.pending = []) {k : Nat} (hb : p.ticks k = some b)
    (hrun : b.halted = false) :
    b.dport.Prompt ∧ ∃ costs d, Lockstep p q k b costs d := by
  induction k generalizing b with
  | zero =>
    simp only [ticks, Runs.run_zero, Option.some.injEq] at hb
    subst hb
    refine ⟨hprompt, [], q, rfl, hal, hidle, ?_, rfl, rfl, .nil⟩
    rw [hpend]
    exact .nil _
  | succ k ih =>
    obtain ⟨a, ha, hab⟩ := (Runs.run_succ_eq_some tick).mp hb
    obtain ⟨har, hanh⟩ := running_of_tick hab hrun
    obtain ⟨hap, costs, d, hlock⟩ := ih ha har
    obtain ⟨-, -, -, -, -, -, hbp⟩ := tick_of_prompt hap har hab
    exact ⟨hbp, hlock.step ha har hanh hap hab⟩

/-- On the halting cycle `q` halts as well, whether its access is served or not. -/
theorem Facing.halts (h : b.Facing d) (hrun : b.halted = false) (hh : b.halting = true)
    (hf : b.fetch = some f) (hm : b.mem = some m) (hs : m.stalling = false) :
    ∃ d', d.tick = some d' ∧ d'.halted = true := by
  have hdr : d.halted = false := h.halted.trans hrun
  have hdh : d.halting = true := h.halting.trans hh
  have hhalts : ∀ {d' : Pipe}, d.tick = some d' → d'.halted = true := by
    intro d' ht
    rw [(tick_drain hdr ht).2.1, hdh]
    rfl
  cases hst : d.stalls with
  | true =>
    obtain ⟨m', hm', hs', -, -⟩ := exists_mem_of_stalls hst
    have ht : d.tick = some (d.stallNext f m') := by
      simp [Pipe.tick, Pipe.next, hdr, h.fetch.trans hf, hm', hs']
    exact ⟨_, ht, hhalts ht⟩
  | false =>
    obtain ⟨d', ht, -⟩ := h.flow hdr hf hm hs hst
    exact ⟨d', ht, hhalts ht⟩

end Pipe

namespace Core

/-- The same machine with a data memory of latency one and no D-cache. -/
def promptData (cfg : SimConfig) : SimConfig :=
  { cfg with dmemLatencyCycles := 1, dcacheEnabled := false }

/-- What the front end worked with on each of the first `n` cycles of a run, up to its halt. -/
def evolution (c : Core) (n : Nat) : List Pipe.FrontEnd :=
  Runs.log tick (fun c => c.view.frontEnds) n c

theorem evolution_view {c : Core} (hq : c.Quiet) (n : Nat) :
    c.evolution n = c.view.evolution n :=
  Runs.log_map tick Pipe.tick _ (fun _ _ => quiet_tick) (fun _ => view_tick)
    (fun _ _ => rfl) hq n

theorem aligned_boot (cfg : SimConfig) (imem dmem : Nat → Byte) (rf : RegFile) :
    (boot (promptData cfg) imem dmem rf).view.Aligned (boot cfg imem dmem rf).view := by
  have hram : ∀ cfg : SimConfig, ((newDport cfg).load (bytesOf cfg.ramSizeBytes dmem)).contents =
      (cfg.ramBaseAddr, bytesOf cfg.ramSizeBytes dmem) := by
    intro cfg
    unfold newDport
    cases cfg.dcacheEnabled <;> rfl
  have hcontents : (boot cfg imem dmem rf).view.dport.contents =
      (boot (promptData cfg) imem dmem rf).view.dport.contents :=
    (hram cfg).trans (hram (promptData cfg)).symm
  refine ⟨⟨rfl, .inl rfl, rfl, rfl, rfl, ⟨0, 0, rfl⟩, rfl, rfl, fun _ _ _ => rfl, rfl, rfl,
    Port.bytes_congr hcontents, Port.span_congr hcontents, rfl, ?_⟩, rfl, rfl⟩
  exact ⟨(nomatch ·), (nomatch ·), (nomatch ·)⟩

theorem prompt_boot (cfg : SimConfig) (imem dmem : Nat → Byte) (rf : RegFile) :
    (boot (promptData cfg) imem dmem rf).view.dport.Prompt := ⟨rfl, rfl⟩

/-- When the machine without data stalls halts, so does the machine with any data side, as many
    cycles later as the retired loads and stores take, driven one at a time through its data
    memory, beyond one cycle each. Both retire the same instructions and EX resolves them the
    same way; and on every cycle up to the halting one the front ends work with the same
    instruction memory, predictor, pc and counters, stalled cycles repeating them. -/
theorem data_stalls_additive (cfg : SimConfig) (hcfg : cfg.Valid) (imem dmem : Nat → Byte)
    (rf : RegFile) (n : Nat) (c : Core)
    (hrun : (boot (promptData cfg) imem dmem rf).ticks n = some c) (hhalted : c.halted = true) :
    let base := boot (promptData cfg) imem dmem rf
    let core := boot cfg imem dmem rf
    ∃ costs dport N d,
      (IMemory.port Port).DrivesAll (accesses (base.retired n)) core.dport costs dport ∧
      core.ticks N = some d ∧ d.halted = true ∧
      d.cycles = c.cycles + stallTime costs ∧
      core.retired N = base.retired n ∧ d.stats.instructions = c.stats.instructions ∧
      (core.resolved N).take (core.retired N).length =
        (base.resolved n).take (base.retired n).length ∧
      ((base.resolved n).take (base.retired n).length).map Prod.fst =
        (base.retired n).map MemWb.pc ∧
      Runs.Stutters (base.evolution n) (core.evolution N) := by
  intro base core
  have hbq : base.Quiet := quiet_boot (promptData cfg) imem dmem rf
  have hcq : core.Quiet := quiet_boot cfg imem dmem rf
  have hcv : base.view.ticks n = some c.view := view_of_ticks hbq hrun
  obtain ⟨k, b, hkn, hb, hbr, hbh, hbc⟩ := Pipe.halting_tick_of_halted rfl hcv hhalted
  obtain ⟨hprompt, costs, d, hlock⟩ := Pipe.lockstep_of_ticks (prompt_boot cfg imem dmem rf)
    (aligned_boot cfg imem dmem rf) (idle_newDport hcfg _) rfl hb hbr
  have hface := hlock.aligned.toFacing
  have hdr : d.halted = false := hface.halted.trans hbr
  obtain ⟨f, m, hf, hm, hs, -⟩ := Pipe.tick_of_prompt hprompt hbr hbc
  obtain ⟨d', hdt, hdh⟩ := hface.halts hbr hbh hf hm hs
  -- the run of `core` up to and including its halting cycle
  have hreach : core.view.ticks (k + stallTime costs + 1) = some d' :=
    (Runs.run_succ_eq_some Pipe.tick).mpr ⟨d, hlock.reached, hdt⟩
  rw [← view_ticks hcq] at hreach
  obtain ⟨e, he, rfl⟩ := Option.map_eq_some_iff.mp hreach
  -- the logs of `base` end on its halting cycle
  have hends : ∀ {α : Type} (obs : Pipe → List α), obs c.view = [] →
      Runs.log Pipe.tick obs n base.view = Runs.log Pipe.tick obs k base.view ++ obs b :=
    fun obs hobs => Pipe.log_of_halting_tick obs hb hbc hhalted hobs hkn
  have hret : base.retired n = base.view.retired k ++ b.pending := by
    rw [retired_view hbq, ← Pipe.retires_eq_pending hbr]
    exact hends Pipe.retires (Pipe.retires_of_halted hhalted)
  have hres : base.resolved n = base.view.resolved k ++ b.resolves := by
    rw [resolved_view hbq]
    exact hends Pipe.resolves (Pipe.resolves_of_halted hhalted)
  have hev : base.evolution n = base.view.evolution k ++ [b.frontEnd] := by
    rw [evolution_view hbq]
    rw [← Pipe.frontEnds_of_running hbr]
    exact hends Pipe.frontEnds (Pipe.frontEnds_of_halted hhalted)
  -- and so do those of `core`
  have hpend : d.pending = b.pending := Pipe.pending_congr hlock.aligned.memWb
  have hret' : core.retired (k + stallTime costs + 1) = base.retired n := by
    rw [retired_view hcq, hret, ← hlock.retired, ← hpend, ← Pipe.retires_eq_pending hdr]
    exact Runs.log_succ_of_run Pipe.tick Pipe.retires hlock.reached
  have hres' : core.resolved (k + stallTime costs + 1) =
      base.view.resolved k ++ d.resolves := by
    rw [resolved_view hcq, ← hlock.resolved]
    exact Runs.log_succ_of_run Pipe.tick Pipe.resolves hlock.reached
  have hev' : core.evolution (k + stallTime costs + 1) =
      core.view.evolution (k + stallTime costs) ++ [b.frontEnd] := by
    rw [evolution_view hcq]
    rw [← hface.frontEnd, ← Pipe.frontEnds_of_running hdr]
    exact Runs.log_succ_of_run Pipe.tick Pipe.frontEnds hlock.reached
  have hlen : (base.retired n).length ≤ (base.view.resolved k).length := by
    rw [hret, List.length_append]
    exact Pipe.length_resolved rfl rfl hb
  obtain ⟨dport, hdriven, -⟩ := Port.maps_blank.drivesAll_lift hlock.driven
  rw [← hret] at hdriven
  refine ⟨costs, dport, k + stallTime costs + 1, e, hdriven, he, hdh, ?_, hret', ?_, ?_, ?_, ?_⟩
  · have hc : c.cycles = b.stats.cycles + 1 := (Pipe.cycles_tick hbr hbc).1
    have he' : e.cycles = d.stats.cycles + 1 := (Pipe.cycles_tick hdr hdt).1
    have hbase : base.view.stats.cycles = 0 := rfl
    have hcore : core.view.stats.cycles = 0 := rfl
    rw [hc, he', Pipe.cycles_of_ticks hb hbr, Pipe.cycles_of_ticks hlock.reached hdr, hbase, hcore]
    omega
  · have hc : c.stats.instructions = _ := (Pipe.cycles_tick hbr hbc).2
    have he' : e.stats.instructions = _ := (Pipe.cycles_tick hdr hdt).2
    have hcounts := congrArg SimStats.instructions hface.counts
    rw [hc, he']
    exact hcounts
  · rw [hret', hres', hres, List.take_append_of_le_length hlen,
      List.take_append_of_le_length hlen]
  · rw [retired_view hbq, resolved_view hbq]
    exact Pipe.take_resolved_eq rfl rfl hcv
  · rw [hev, hev']
    exact hlock.evolution.next b.frontEnd

/-- A RAM of 32 bytes of latency 3 behind a D-cache of two sets of two 4-byte lines. -/
def slowCached : SimConfig :=
  { ramBaseAddr := 0, ramSizeBytes := 32, dmemLatencyCycles := 3, dcacheEnabled := true,
    dcacheLineBytes := 4, dcacheSets := 2, dcacheWays := 2 }

theorem slowCached_valid : slowCached.Valid where
  dmem := ⟨by decide, by decide⟩
  imem := ⟨by decide, by decide⟩
  dcache _ := ⟨⟨⟨2, rfl⟩, ⟨1, rfl⟩, ⟨1, rfl⟩, by decide⟩, by decide, by decide⟩
  icache h := nomatch h
  bpred h := nomatch h

/-- `lw x2, 0(x0); ebreak`. -/
def loadEbreak : Nat → Byte := halfwords [0x2103, 0x0000, 0x0073, 0x0010]

theorem data_stalls_additive_loadEbreak :
    ∃ c costs dport N d,
      (boot (promptData slowCached) loadEbreak (fun _ => 0) RegFile.zero).ticks 6 = some c ∧
      (IMemory.port Port).DrivesAll
        (accesses ((boot (promptData slowCached) loadEbreak (fun _ => 0) RegFile.zero).retired 6))
        (boot slowCached loadEbreak (fun _ => 0) RegFile.zero).dport costs dport ∧
      (boot slowCached loadEbreak (fun _ => 0) RegFile.zero).ticks N = some d ∧
      d.halted = true ∧ d.cycles = c.cycles + stallTime costs := by
  obtain ⟨c, hc, hh⟩ := Option.map_eq_some_iff.mp (by decide +kernel :
    ((boot (promptData slowCached) loadEbreak (fun _ => 0) RegFile.zero).ticks 6).map halted =
      some true)
  obtain ⟨costs, dport, N, d, hdriven, hd, hdh, hcycles, -⟩ := data_stalls_additive slowCached
    slowCached_valid loadEbreak (fun _ => 0) RegFile.zero 6 c hc hh
  exact ⟨c, costs, dport, N, d, hc, hdriven, hd, hdh, hcycles⟩

/-- The same small core as before, with a data memory of latency 3. -/
def predictingSlow : SimConfig := { predicting with dmemLatencyCycles := 3 }

/-- `ebreak; lw x1, 0(x0); jal x0, +8`. -/
def jumpBehindEbreak : Nat → Byte :=
  halfwords [0x0073, 0x0010, 0x2083, 0x0000, 0x006F, 0x0080]

/-- On the halting cycle the JAL two behind the EBREAK is in EX. It still trains the predictor
    when the load between them does not wait, and does not when it waits: both runs have halted,
    with different predictors. -/
theorem predictors_differ_jumpBehindEbreak :
    ∃ c d, (boot (promptData predictingSlow) jumpBehindEbreak (fun _ => 0)
        RegFile.zero).ticks 5 = some c ∧ c.halted = true ∧
      (boot predictingSlow jumpBehindEbreak (fun _ => 0) RegFile.zero).ticks 5 = some d ∧
      d.halted = true ∧ c.bpred ≠ d.bpred := by
  obtain ⟨c, hc, hcv⟩ := Option.map_eq_some_iff.mp (by decide +kernel :
    ((boot (promptData predictingSlow) jumpBehindEbreak (fun _ => 0) RegFile.zero).ticks 5).map
      (fun c => (c.halted, (predictAt c.bpred 8).taken)) = some (true, true))
  obtain ⟨d, hd, hdv⟩ := Option.map_eq_some_iff.mp (by decide +kernel :
    ((boot predictingSlow jumpBehindEbreak (fun _ => 0) RegFile.zero).ticks 5).map
      (fun c => (c.halted, (predictAt c.bpred 8).taken)) = some (true, false))
  simp only [Prod.mk.injEq] at hcv hdv
  refine ⟨c, d, hc, hcv.1, hd, hdv.1, fun heq => ?_⟩
  rw [heq, hdv.2] at hcv
  cases hcv.2

end Core

end CpuSim
