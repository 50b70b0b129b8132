import CpuSim.Rtl.Correct
import CpuSim.Sim.DataPort

/-!
# Whose request serves a fetch

The instruction port serves one request at a time and takes `ready(pc)` for any pc as a
question about the one it is serving. A redirect from EX changes the pc under an outstanding
request, and the fetch of the new pc is then served when the old request is. `Fetching` follows
what led to the outstanding request; as long as no redirect interrupts one, it is always the
pc's own (`served_by_own`).
-/

namespace CpuSim

open Rv32i

/-! ## The outstanding request of a port -/

namespace Port

/-- A request is outstanding. -/
def busy : Port → Bool
  | flat m => m.serving
  | cached c => c.phase != .idle

/-- The outstanding request is one for `pc` that was made `waited` ticks ago: a cache remembers
    the address, a flat memory of latency `latency` only the time. -/
def ServesFor (latency : Nat) (pc : Word) (waited : Nat) : Port → Prop
  | flat m => 0 ≤ m.remaining → (latency : Int) ≤ m.remaining + 1 + waited
  | cached c => c.curAddr = pc

/-- A flat memory's timer starts at `latency`, or below zero. -/
def Timed (latency : Nat) : Port → Prop
  | flat m => 1 ≤ toInt32 m.latency → (latency : Int) ≤ toInt32 m.latency
  | cached _ => True

variable {p : Port} {latency waited : Nat} {pc : Word}

theorem ready_of_busy (h : p.busy = true) (a : Word) (w : Bool) :
    (IMemory.ready p a w).2 = p := by
  cases p with
  | flat m => exact congrArg flat (congrArg Prod.snd (FlatMem.ready_of_serving h a w))
  | cached c =>
    have hp : c.phase ≠ .idle := by simpa [busy] using h
    exact congrArg cached (congrArg Prod.snd (Cache.ready_of_busy hp a w))

/-- It then serves the address it was asked about. -/
theorem servesFor_ready (ht : p.Timed latency) (hb : p.busy = false) (pc : Word) (w : Bool) :
    (IMemory.ready p pc w).2.ServesFor latency pc 0 := by
  cases p with
  | flat m =>
    have hr : (m.ready pc w).2 = m.started := congrArg Prod.snd (FlatMem.ready_of_idle hb pc w)
    change (flat (m.ready pc w).2).ServesFor latency pc 0
    rw [hr]
    intro hk
    change 0 ≤ toInt32 m.latency - 1 at hk
    change (latency : Int) ≤ toInt32 m.latency - 1 + 1 + (0 : Nat)
    have hl := ht (by omega)
    omega
  | cached c =>
    have hp : c.phase = .idle := by simpa [busy] using hb
    obtain ⟨act, addr, way, n, hframe⟩ := Cache.noted_frame c pc w
    have hcur : (c.noted pc w).curAddr = pc := by rw [hframe]; rfl
    change (c.ready pc w).2.curAddr = pc
    rw [Cache.ready_of_idle hp, Cache.accept_eq]
    rcases c.findWay pc with _ | way
    · dsimp only
      split
      · exact hcur
      · rw [Cache.acceptMiss_eq]
        exact hcur
    · dsimp only
      rw [Cache.acceptHit_eq]
      exact hcur

theorem timed_ready (h : p.Timed latency) (a : Word) (w : Bool) :
    (IMemory.ready p a w).2.Timed latency := by
  cases p with
  | flat m =>
    change (flat (m.ready a w).2).Timed latency
    unfold FlatMem.ready
    dsimp only
    split <;> exact h
  | cached c => trivial

theorem timed_tick (h : p.Timed latency) : (IMemory.tick p).Timed latency := by
  cases p with
  | flat m =>
    change (flat m.tick).Timed latency
    unfold FlatMem.tick
    split
    · exact h
    · split <;> exact h
  | cached c => trivial

/-- A tick keeps the address of a request, or adds to the time it has taken. -/
theorem servesFor_tick (h : p.ServesFor latency pc waited) (hb : (IMemory.tick p).busy = true) :
    (IMemory.tick p).ServesFor latency pc (waited + 1) := by
  cases p with
  | flat m =>
    change (flat m.tick).ServesFor latency pc (waited + 1)
    change m.tick.serving = true at hb
    unfold FlatMem.tick at hb ⊢
    split at hb
    · rename_i hs
      rw [Bool.not_eq_true'] at hs
      rw [hs] at hb; cases hb
    · rename_i hs
      split at hb
      · rename_i hpos
        rw [if_neg hs, if_pos hpos]
        intro hk
        have hl := h (by omega)
        change (latency : Int) ≤ m.remaining - 1 + 1 + ((waited + 1 : Nat) : Int)
        omega
      · cases hb
  | cached c =>
    change c.tick.curAddr = pc
    have hfill : ∀ b, ({ c with backing := b } : Cache FlatMem).fill.curAddr = c.curAddr := by
      intro b
      unfold Cache.fill
      rw [Cache.installLine_eq]
    rw [Cache.tick_eq]
    cases c.phase with
    | idle =>
      dsimp only
      obtain ⟨b, l, r, st, act, addr, way, n, hf⟩ := c.servicePrefetch_frame
      rw [hf]
      exact h
    | hitWait =>
      dsimp only
      obtain ⟨b, l, r, st, act, addr, way, n, hf⟩ := c.countDown.servicePrefetch_frame
      rw [hf]
      change c.countDown.curAddr = pc
      unfold Cache.countDown
      split <;> exact h
    | writeBack | missFetch | prefetchWait =>
      dsimp only
      rw [Cache.drive_eq]
      split
      · first
          | exact h
          | exact (hfill _).trans h
      · exact h

/-- A served request is released by the next tick. -/
theorem released (a : Word) (w : Bool) (h : (IMemory.ready p a w).1 = true) :
    (IMemory.tick (IMemory.ready p a w).2).busy = false := by
  cases p with
  | flat m =>
    change (m.ready a w).1 = true at h
    change (m.ready a w).2.tick.serving = false
    have hz : (m.ready a w).2.remaining = 0 := by
      have hr : ((m.ready a w).2.remaining == 0) = true := h
      exact beq_iff_eq.mp hr
    unfold FlatMem.tick
    split
    · rename_i hs
      simpa using hs
    · rw [if_neg (by omega)]
  | cached c =>
    change (c.ready a w).1 = true at h
    change ((c.ready a w).2.tick.phase != .idle) = false
    have hserved : (c.ready a w).2.phase = .hitWait ∧ (c.ready a w).2.hitRemaining = 0 := by
      have hr : ((c.ready a w).2.phase == .hitWait && (c.ready a w).2.hitRemaining == 0) = true := h
      rwa [Bool.and_eq_true, beq_iff_eq, beq_iff_eq] at hr
    rw [Cache.tick_eq, hserved.1]
    dsimp only
    obtain ⟨b, l, r, st, act, addr, way, n, hf⟩ := (c.ready a w).2.countDown.servicePrefetch_frame
    rw [hf]
    change ((c.ready a w).2.countDown.phase != .idle) = false
    unfold Cache.countDown
    rw [if_neg (by rw [hserved.2]; decide)]
    rfl

end Port

/-! ## What led to the outstanding request -/

/-- The pc of the `ready()` call that started the request at the instruction port, and the
    ticks of the port since the pc was first presented for this fetch. -/
structure Fetching where
  start : Word
  waited : Nat
  deriving DecidableEq, Repr

namespace Pipe

variable {p q : Pipe} {g : Fetching} {latency : Nat}

/-- IF asks: if the port is free, this starts the request. -/
def asking (p : Pipe) (g : Fetching) : Fetching :=
  if p.iport.busy then g else { start := p.pc, waited := 0 }

/-- After the tick from `p` to `q`. A stalled tick does not tick the port, and a new pc is
    presented anew. -/
def fetching (p q : Pipe) (g : Fetching) : Fetching :=
  if p.stalls then p.asking g
  else { p.asking g with waited := if q.pc = p.pc then (p.asking g).waited + 1 else 0 }

/-- If IF redirects on this tick, its request is served on this tick or is for the address that
    EX redirects to. -/
def KeepsFetch (p : Pipe) : Prop :=
  p.halted = false → p.stalls = false → p.exec.redirect = true → p.exec.redirectTarget ≠ p.pc →
    (IMemory.ready p.iport p.pc false).1 = true

/-- A fetch that is served now is served by its own request: one that a question about this very
    pc started, and that the port has worked on for its latency. -/
def ServedByOwn (latency : Nat) (p : Pipe) (g : Fetching) : Prop :=
  p.halted = false → (IMemory.ready p.iport p.pc false).1 = true →
    (p.asking g).start = p.pc ∧
      match (IMemory.ready p.iport p.pc false).2 with
      | .flat _ => latency - 1 ≤ (p.asking g).waited
      | .cached c => c.curAddr = p.pc

/-- The outstanding request, if there is one, is for the pc. -/
structure OwnsFetch (latency : Nat) (p : Pipe) (g : Fetching) : Prop where
  timed : p.iport.Timed latency
  own : p.iport.busy = true → g.start = p.pc ∧ p.iport.ServesFor latency p.pc g.waited

/-- Once IF has asked, there is one. -/
theorem OwnsFetch.asked (h : OwnsFetch latency p g) :
    (p.asking g).start = p.pc ∧
      (IMemory.ready p.iport p.pc false).2.ServesFor latency p.pc (p.asking g).waited := by
  unfold asking
  cases hb : p.iport.busy with
  | true =>
    rw [if_pos rfl, Port.ready_of_busy hb]
    exact h.own hb
  | false => exact ⟨rfl, Port.servesFor_ready h.timed hb p.pc false⟩

theorem OwnsFetch.served (h : OwnsFetch latency p g) : ServedByOwn latency p g := by
  intro _ hr
  obtain ⟨hstart, hserves⟩ := h.asked
  refine ⟨hstart, ?_⟩
  cases hport : (IMemory.ready p.iport p.pc false).2 with
  | cached c =>
    rw [hport] at hserves
    exact hserves
  | flat m =>
    rw [hport] at hserves
    have hz : m.remaining = 0 := by
      cases hp : p.iport with
      | cached c =>
        rw [hp] at hport
        cases hport
      | flat m₀ =>
        rw [hp] at hr hport
        cases hport
        exact beq_iff_eq.mp hr
    have hl := hserves (by omega)
    dsimp only
    omega

/-- Every tick keeps it that does not redirect under an outstanding request. -/
theorem OwnsFetch.tick (h : OwnsFetch latency p g) (hrun : p.halted = false)
    (hok : p.KeepsFetch) (ht : p.tick = some q) : OwnsFetch latency q (p.fetching q g) := by
  obtain ⟨hstart, hserves⟩ := h.asked
  obtain ⟨f, m, hf, hm, ⟨hs, rfl⟩ | ⟨hs, rfl⟩⟩ := tick_cases hrun ht
  · have himem : (p.stallNext f m).iport = (IMemory.ready p.iport p.pc false).2 :=
      (fetchWord_eq_some hf).1
    have hg : p.fetching (p.stallNext f m) g = p.asking g :=
      if_pos ((mem_stalling hm).symm.trans hs)
    rw [hg]
    refine ⟨?_, fun _ => ?_⟩
    · rw [himem]
      exact Port.timed_ready h.timed _ _
    · rw [himem]
      exact ⟨hstart, hserves⟩
  · have hstalls : p.stalls = false := (mem_stalling hm).symm.trans hs
    have himem : (p.flowNext f m).iport =
        IMemory.tick (IMemory.ready p.iport p.pc false).2 :=
      congrArg IMemory.tick (fetchWord_eq_some hf).1
    refine ⟨?_, fun hb => ?_⟩
    · rw [himem]
      exact Port.timed_tick (Port.timed_ready h.timed _ _)
    -- a request that is still outstanding was not served, so the pc has stayed
    have hwait : (IMemory.ready p.iport p.pc false).1 = false := by
      cases hr : (IMemory.ready p.iport p.pc false).1 with
      | false => rfl
      | true =>
        rw [himem, Port.released _ _ hr] at hb
        cases hb
    have hpc : (p.flowNext f m).pc = p.pc := by
      obtain ⟨-, ⟨-, -, hfs, -⟩ | ⟨hr, -⟩⟩ := fetchWord_eq_some hf
      · change (if p.exec.redirect then p.exec.redirectTarget
          else if p.hazard || f.fetchStall then p.pc else f.predictedPc) = p.pc
        rw [hfs, Bool.or_true, if_pos rfl]
        split
        · rename_i hr
          by_contra hne
          rw [hok hrun hstalls hr hne] at hwait
          cases hwait
        · rfl
      · rw [hwait] at hr; cases hr
    have hg : p.fetching (p.flowNext f m) g =
        { p.asking g with waited := (p.asking g).waited + 1 } := by
      unfold fetching
      rw [hstalls, hpc, if_pos rfl]
      rfl
    rw [himem] at hb
    rw [hg, hpc, himem]
    exact ⟨hstart, Port.servesFor_tick hserves hb⟩

/-- A redirect to another address under an outstanding request leaves that request to the new
    pc. -/
theorem OwnsFetch.foreign (h : OwnsFetch latency p g) (hrun : p.halted = false)
    (hbad : ¬ p.KeepsFetch) (ht : p.tick = some q)
    (hb : (IMemory.tick (IMemory.ready p.iport p.pc false).2).busy = true) :
    (q.asking (p.fetching q g)).start ≠ q.pc := by
  unfold KeepsFetch at hbad
  push Not at hbad
  obtain ⟨-, hstalls, hr, hne, -⟩ := hbad
  obtain ⟨hstart, -⟩ := h.asked
  obtain ⟨f, m, hf, hm, ⟨hs, rfl⟩ | ⟨hs, rfl⟩⟩ := tick_cases hrun ht
  · rw [mem_stalling hm, hstalls] at hs; cases hs
  · have hbusy : (p.flowNext f m).iport.busy = true := by
      have himem : (p.flowNext f m).iport =
          IMemory.tick (IMemory.ready p.iport p.pc false).2 :=
        congrArg IMemory.tick (fetchWord_eq_some hf).1
      rw [himem]
      exact hb
    have hpc : (p.flowNext f m).pc = p.exec.redirectTarget := if_pos hr
    unfold asking fetching
    rw [if_pos hbusy, hstalls, hpc]
    exact fun he => hne (he.symm.trans hstart)

end Pipe

namespace Core

/-- What led to the request at the instruction port after `n` ticks. -/
def fetching (c : Core) : Nat → Fetching
  | 0 => { start := c.fetch.pc, waited := 0 }
  | n + 1 =>
    match c.ticks n, c.ticks (n + 1) with
    | some a, some b => a.view.fetching b.view (c.fetching n)
    | _, _ => c.fetching n

variable {cfg : SimConfig} {imem dmem : Nat → Byte} {rf : RegFile}

theorem ownsFetch_boot (hlat : cfg.imemLatencyCycles < 2 ^ 32) :
    (boot cfg imem dmem rf).view.OwnsFetch cfg.imemLatencyCycles
      ((boot cfg imem dmem rf).fetching 0) := by
  have hport : (boot cfg imem dmem rf).view.iport =
      (newIport cfg).load (bytesOf cfg.ramSizeBytes imem) := rfl
  unfold newIport at hport
  refine ⟨?_, fun hb => ?_⟩
  · rw [hport]
    cases cfg.icacheEnabled with
    | true => trivial
    | false =>
      change 1 ≤ toInt32 (if cfg.imemLatencyCycles = 0 then 1 else cfg.imemLatencyCycles) →
        (cfg.imemLatencyCycles : Int) ≤
          toInt32 (if cfg.imemLatencyCycles = 0 then 1 else cfg.imemLatencyCycles)
      intro hpos
      split
      · rename_i h0
        rw [h0]
        decide
      · rename_i h0
        rw [if_neg h0] at hpos
        -- a timer that starts above zero starts at the latency
        rcases Nat.lt_or_ge cfg.imemLatencyCycles (2 ^ 31) with hlt | hge
        · rw [toInt32_of_latencyOk ⟨by omega, hlt⟩]
        · have hneg : toInt32 cfg.imemLatencyCycles < 0 := by
            unfold toInt32
            rw [BitVec.toInt_eq_toNat_cond, if_neg (by rw [BitVec.toNat_ofNat]; omega),
              BitVec.toNat_ofNat, Nat.mod_eq_of_lt hlat]
            omega
          omega
  · rw [hport] at hb
    cases hc : cfg.icacheEnabled <;> rw [hc] at hb <;> cases hb

/-- In a run that never redirects IF away from an outstanding request, every fetch is served by
    its own request: the I-cache has decided, installed and charged for the pc, or the memory
    has taken its latency since the pc was presented. -/
theorem served_by_own (cfg : SimConfig) (imem dmem : Nat → Byte) (rf : RegFile)
    (hlat : cfg.imemLatencyCycles < 2 ^ 32) {n : Nat}
    (hok : ∀ k < n, ∀ d, (boot cfg imem dmem rf).ticks k = some d → d.view.KeepsFetch)
    {c : Core} (hc : (boot cfg imem dmem rf).ticks n = some c) :
    c.view.ServedByOwn cfg.imemLatencyCycles ((boot cfg imem dmem rf).fetching n) := by
  have hinv : c.halted = false → c.view.OwnsFetch cfg.imemLatencyCycles
      ((boot cfg imem dmem rf).fetching n) := by
    induction n generalizing c with
    | zero =>
      simp only [ticks, Runs.run_zero, Option.some.injEq] at hc
      subst hc
      exact fun _ => ownsFetch_boot hlat
    | succ n ih =>
      obtain ⟨b, hb, hbc⟩ := (Runs.run_succ_eq_some tick).mp hc
      intro hrun
      have hquiet : b.Quiet := Runs.run_invariant tick (fun _ _ => quiet_tick)
        (quiet_boot cfg imem dmem rf) hb
      have htick : b.view.tick = some c.view := by rw [← view_tick hquiet, hbc]; rfl
      have hbr := (Pipe.running_of_tick htick hrun).1
      have hg : (boot cfg imem dmem rf).fetching (n + 1) =
          b.view.fetching c.view ((boot cfg imem dmem rf).fetching n) := by
        have hb' : (boot cfg imem dmem rf).ticks n = some b := hb
        rw [fetching, hb', hc]
      rw [hg]
      exact (ih (fun k hk => hok k (by omega)) hb hbr).tick hbr (hok n (by omega) b hb) htick
  intro hrun hr
  exact (hinv hrun).served hrun hr

/-- A RAM of 64 bytes whose instruction side takes three cycles. -/
def slowFetch : SimConfig := { ramBaseAddr := 0, ramSizeBytes := 64, imemLatencyCycles := 3 }

theorem served_by_own_addiEbreak :
    ∃ c, (boot slowFetch addiEbreak (fun _ => 0) RegFile.zero).ticks 5 = some c ∧
      (IMemory.ready c.iport c.fetch.pc false).1 = true ∧
      c.view.ServedByOwn 3 ((boot slowFetch addiEbreak (fun _ => 0) RegFile.zero).fetching 5) := by
  obtain ⟨c, hc, hr⟩ := Option.map_eq_some_iff.mp (by decide +kernel :
    ((boot slowFetch addiEbreak (fun _ => 0) RegFile.zero).ticks 5).map
      (fun c => (IMemory.ready c.iport c.fetch.pc false).1) = some true)
  have hstraight : ∀ k < 5, ((boot slowFetch addiEbreak (fun _ => 0) RegFile.zero).ticks k).map
      (fun d => d.view.exec.redirect) = some false := by decide +kernel
  have hok : ∀ k < 5, ∀ d, (boot slowFetch addiEbreak (fun _ => 0) RegFile.zero).ticks k = some d →
      d.view.KeepsFetch := by
    intro k hk d hd _ _ hredirect
    have hs := hstraight k hk
    rw [hd, Option.map_some, hredirect] at hs
    cases hs
  exact ⟨c, hc, hr, served_by_own slowFetch addiEbreak (fun _ => 0) RegFile.zero (by decide) hok hc⟩

/-- `jal x0, +16`. -/
def jumpAhead : Nat → Byte := halfwords [0x006F, 0x0100]

/-- The JAL redirects to 16 two ticks into the fetch of 4; the fetch of 16 is served one tick
    later by the request for 4. -/
theorem served_by_foreign_jumpAhead :
    ∃ c, (boot slowFetch jumpAhead (fun _ => 0) RegFile.zero).ticks 5 = some c ∧
      ¬ c.view.ServedByOwn 3
        ((boot slowFetch jumpAhead (fun _ => 0) RegFile.zero).fetching 5) := by
  obtain ⟨c, hc, hv⟩ := Option.map_eq_some_iff.mp (by decide +kernel :
    ((boot slowFetch jumpAhead (fun _ => 0) RegFile.zero).ticks 5).map
      (fun c => (c.halted, (IMemory.ready c.iport c.fetch.pc false).1, c.fetch.pc,
        (c.view.asking
          ((boot slowFetch jumpAhead (fun _ => 0) RegFile.zero).fetching 5)).start)) =
      some (false, true, 16, 4))
  simp only [Prod.mk.injEq] at hv
  obtain ⟨hrun, hr, hpc, hstart⟩ := hv
  refine ⟨c, hc, fun h => ?_⟩
  obtain ⟨hown, -⟩ := h hrun hr
  have hpc' : c.view.pc = 16 := hpc
  rw [hstart, hpc'] at hown
  exact absurd hown (by decide)

end Core

end CpuSim
