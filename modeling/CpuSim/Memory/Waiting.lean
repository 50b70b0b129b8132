import CpuSim.Memory.Installs

/-!
# How long a caller waits

Every port has a rank that falls on each cycle on which its caller is not served: the cycles of
the phases that are still ahead. It does not depend on what is asked, so a caller that changes
its mind about the address, or a prefetch that takes the backing in between, gains nothing and
loses nothing.
-/

namespace CpuSim

namespace FlatMem

/-- The timer of a memory of this latency. -/
structure Timing (latency : Nat) (m : FlatMem) : Prop where
  ok : LatencyOk latency
  eq : m.latency = latency
  timer : m.serving = true → 0 ≤ m.remaining ∧ m.remaining < latency

/-- The cycles left before the one that serves. -/
def rank (m : FlatMem) : Nat := if m.serving then m.remaining.toNat else m.latency - 1

variable {m : FlatMem} {latency : Nat}

theorem Timing.ready (h : m.Timing latency) (a : Word) (w : Bool) :
    (m.ready a w).2.Timing latency ∧ (m.ready a w).2.serving = true ∧
      (m.ready a w).2.rank = m.rank := by
  have hpos := h.ok.1
  have heq := h.eq
  unfold FlatMem.ready rank
  dsimp only
  cases hs : m.serving with
  | true =>
    rw [if_pos rfl, hs]
    exact ⟨h, rfl, rfl⟩
  | false =>
    have htimer : toInt32 m.latency = m.latency := toInt32_of_latencyOk (heq ▸ h.ok)
    rw [if_neg (by decide), if_pos rfl]
    refine ⟨⟨h.ok, heq, fun _ => ?_⟩, rfl, ?_⟩ <;> dsimp only <;> rw [htimer]
    · omega
    · rw [if_neg (by decide)]
      omega

theorem Timing.tick (h : m.Timing latency) : m.tick.Timing latency := by
  unfold FlatMem.tick
  split
  · exact h
  · rename_i hs
    have htimer := h.timer (by simpa using hs)
    split
    · exact ⟨h.ok, h.eq, fun _ => by dsimp only; omega⟩
    · exact ⟨h.ok, h.eq, (nomatch ·)⟩

/-- A request waits one cycle at a time, and the cycle that serves it releases it. -/
theorem Timing.rank_poll (h : m.Timing latency) (a : Word) (w : Bool) :
    ((m.ready a w).1 = false → m.rank = (m.ready a w).2.tick.rank + 1) ∧
      ((m.ready a w).1 = true → m.rank = 0 ∧ (m.ready a w).2.tick.rank = latency - 1) := by
  obtain ⟨ht, hs, hrank⟩ := h.ready a w
  have htimer := ht.timer hs
  have hserved : (m.ready a w).1 = ((m.ready a w).2.remaining == 0) := rfl
  have heq : (m.ready a w).2.rank = (m.ready a w).2.remaining.toNat := if_pos hs
  rw [← hrank, hserved]
  generalize (m.ready a w).2 = d at ht hs heq htimer
  constructor
  · intro hr
    have hk : d.remaining ≠ 0 := by simpa using hr
    have htick : d.tick = { d with remaining := d.remaining - 1 } := by
      unfold FlatMem.tick
      rw [hs, if_neg (by decide), if_pos (by omega)]
    have hnext : d.tick.rank = (d.remaining - 1).toNat := by
      rw [htick]
      exact if_pos hs
    omega
  · intro hr
    have hk : d.remaining = 0 := by simpa using hr
    have htick : d.tick = { d with serving := false } := by
      unfold FlatMem.tick
      rw [hs, if_neg (by decide), if_neg (by omega)]
    refine ⟨by omega, ?_⟩
    rw [htick, ← ht.eq]
    rfl

theorem ranked (latency : Nat) :
    (IMemory.port FlatMem).Ranked (Timing latency) rank (latency - 1) where
  ready r h := (h.ready r.1 r.2).1
  tick h := h.tick
  le := by
    intro m h
    have hpos := h.ok.1
    have heq := h.eq
    unfold rank
    split
    · have htimer := h.timer ‹_›
      omega
    · omega
  waits := by
    intro m r h hr
    have hrank : m.rank = (m.ready r.1 r.2).2.tick.rank + 1 := (h.rank_poll r.1 r.2).1 hr
    change (m.ready r.1 r.2).2.tick.rank < m.rank
    omega

end FlatMem

namespace Cache

variable {M : Type} {c : Cache M}

/-- Where the hit timer stands, over a backing that keeps `Ok`. -/
structure Timing (Ok : M → Prop) (hit : Nat) (c : Cache M) : Prop where
  ok : LatencyOk hit
  eq : c.hitLatency = hit
  backing : Ok c.backing
  timer : c.phase = .hitWait → 0 ≤ c.hitRemaining ∧ c.hitRemaining < hit

/-- The cycles left before the one that serves, when a request of the backing waits at most
    `bound` cycles and `r` of them are left on the current one. An idle cache counts a flush, a
    fetch and the hit time. -/
def rank (r : M → Nat) (bound : Nat) (c : Cache M) : Nat :=
  match c.phase with
  | .idle => c.hitLatency + bound + 1 + bound
  | .hitWait => c.hitRemaining.toNat
  | .writeBack => c.hitLatency + bound + 1 + r c.backing
  | .missFetch | .prefetchWait => c.hitLatency + r c.backing

section Phases

variable (r : M → Nat) (bound : Nat)

theorem rank_idle (hp : c.phase = .idle) : c.rank r bound = c.hitLatency + bound + 1 + bound := by
  unfold rank
  rw [hp]

theorem rank_hitWait (hp : c.phase = .hitWait) : c.rank r bound = c.hitRemaining.toNat := by
  unfold rank
  rw [hp]

theorem rank_writeBack (hp : c.phase = .writeBack) :
    c.rank r bound = c.hitLatency + bound + 1 + r c.backing := by
  unfold rank
  rw [hp]

theorem rank_fetch (hp : c.phase = .missFetch ∨ c.phase = .prefetchWait) :
    c.rank r bound = c.hitLatency + r c.backing := by
  unfold rank
  rcases hp with hp | hp <;> rw [hp]

end Phases

/-- An accepted request runs its hit timer or waits for the backing. -/
theorem accept_timer (c : Cache M) (a : Word) (w : Bool) :
    (c.accept a w).hitLatency = c.hitLatency ∧
      ((c.accept a w).phase = .hitWait ∧
          (c.accept a w).hitRemaining = toInt32 c.hitLatency - 1 ∨
        (c.accept a w).phase = .writeBack ∨ (c.accept a w).phase = .missFetch ∨
        (c.accept a w).phase = .prefetchWait) := by
  obtain ⟨act, addr, way, n, hn⟩ := c.noted_frame a w
  have hlat : (c.noted a w).hitLatency = c.hitLatency := by
    rw [hn]
    rfl
  rw [accept_eq]
  rcases c.findWay a with _ | way
  · dsimp only
    split
    · exact ⟨hlat, .inr (.inr (.inr rfl))⟩
    · rw [acceptMiss_eq]
      refine ⟨hlat, .inr ?_⟩
      dsimp only
      split
      · exact .inl rfl
      · exact .inr (.inl rfl)
  · dsimp only
    rw [acceptHit_eq]
    refine ⟨hlat, .inl ⟨rfl, ?_⟩⟩
    dsimp only
    rw [hlat]

variable {Ok : M → Prop} {r : M → Nat} {hit bound : Nat}

theorem Timing.accept (h : c.Timing Ok hit) (a : Word) (w : Bool) :
    (c.accept a w).Timing Ok hit := by
  have hpos := h.ok.1
  obtain ⟨hlat, hphase⟩ := c.accept_timer a w
  refine ⟨h.ok, hlat.trans h.eq, ?_, ?_⟩
  · rw [accept_backing]
    exact h.backing
  · intro hp
    rcases hphase with ⟨-, hk⟩ | hp' | hp' | hp'
    · have htimer : toInt32 c.hitLatency = hit := by
        rw [h.eq, toInt32_of_latencyOk h.ok]
      rw [hk, htimer]
      omega
    all_goals
      rw [hp] at hp'
      cases hp'

theorem Timing.ready (h : c.Timing Ok hit) (a : Word) (w : Bool) :
    (c.ready a w).2.Timing Ok hit := by
  by_cases hp : c.phase = .idle
  · rw [ready_of_idle hp]
    exact h.accept a w
  · rw [ready_of_busy hp]
    exact h

theorem Timing.countDown (h : c.Timing Ok hit) : c.countDown.Timing Ok hit := by
  unfold Cache.countDown
  split
  · refine ⟨h.ok, h.eq, h.backing, fun hp => ?_⟩
    have htimer := h.timer hp
    dsimp only
    omega
  · exact ⟨h.ok, h.eq, h.backing, (nomatch ·)⟩

/-- What a demand fill does to the access in progress, merged or not. -/
structure StartsHit (g : Cache M → Cache M) : Prop where
  backing : ∀ d, (g d).backing = d.backing
  hitLatency : ∀ d, (g d).hitLatency = d.hitLatency
  phase : ∀ d, (g d).phase = .hitWait
  hitRemaining : ∀ d, (g d).hitRemaining = toInt32 d.hitLatency - 1

theorem startsHit_fill : StartsHit (fill : Cache M → Cache M) := by
  have hframe : ∀ d : Cache M, ∃ l rp st, d.fill =
      { d with
        lines := l, repl := rp, stats := st
        phase := .hitWait
        hitRemaining := toInt32 d.hitLatency - 1 } := by
    intro d
    unfold fill
    rw [installLine_eq]
    exact ⟨_, _, _, rfl⟩
  refine ⟨?_, ?_, fun _ => rfl, ?_⟩ <;> intro d <;> obtain ⟨l, rp, st, hd⟩ := hframe d <;> rw [hd]

theorem startsHit_merged : StartsHit (merged : Cache M → Cache M) :=
  ⟨startsHit_fill.backing, startsHit_fill.hitLatency, startsHit_fill.phase,
    startsHit_fill.hitRemaining⟩

variable [IMemory M]

theorem drive_backing {g : Cache M → Cache M} (hg : ∀ d, (g d).backing = d.backing)
    (c : Cache M) (a : Word) (w : Bool) :
    (c.drive g a w).backing = (IMemory.port M).poll c.backing (a, w) := by
  rw [drive_eq]
  split
  · change IMemory.tick (g _).backing = _
    rw [hg]
    rfl
  · rfl

section Ranked

variable (hr : (IMemory.port M).Ranked Ok r bound)
include hr

/-- A cycle of the background engine leaves the demand access where it was. -/
theorem Timing.servicePrefetch (h : c.Timing Ok hit) : c.servicePrefetch.Timing Ok hit ∧
    c.servicePrefetch.phase = c.phase ∧ c.servicePrefetch.hitRemaining = c.hitRemaining := by
  have hb : Ok c.servicePrefetch.backing := by
    rw [servicePrefetch_eq]
    split
    · exact h.backing
    · rw [drive_backing completePrefetch_backing]
      exact hr.poll _ h.backing
  obtain ⟨b, l, rp, st, act, addr, way, n, hframe⟩ := c.servicePrefetch_frame
  rw [hframe] at hb ⊢
  exact ⟨⟨h.ok, h.eq, hb, h.timer⟩, rfl, rfl⟩

/-- A cycle of a demand fetch starts the hit timer, or lowers the rank of the backing. -/
theorem Timing.drive_fetch {g : Cache M → Cache M} (hg : StartsHit g) (h : c.Timing Ok hit)
    (hp : c.phase = .missFetch ∨ c.phase = .prefetchWait) :
    (c.drive g c.curAddr false).Timing Ok hit ∧
      (c.drive g c.curAddr false).rank r bound < c.rank r bound := by
  have hok : Ok (c.drive g c.curAddr false).backing := by
    rw [drive_backing hg.backing]
    exact hr.poll _ h.backing
  have hpos := h.ok.1
  have heq := h.eq
  rw [rank_fetch r bound hp]
  rw [drive_eq] at hok ⊢
  cases hserved : ((IMemory.port M).ready c.backing (c.curAddr, false)).1 with
  | true =>
    rw [hserved, if_pos rfl] at hok
    rw [if_pos rfl]
    generalize hd : ({ c with backing := _ } : Cache M) = d at hok ⊢
    have hlat : d.hitLatency = hit := by rw [← hd]; exact heq
    have htimer : toInt32 d.hitLatency = hit := by rw [hlat, toInt32_of_latencyOk h.ok]
    have hphase : (g d).backingTick.phase = .hitWait := hg.phase d
    have hleft : (g d).backingTick.hitRemaining = hit - 1 := by
      rw [← htimer]
      exact hg.hitRemaining d
    refine ⟨⟨h.ok, (hg.hitLatency d).trans hlat, hok, fun _ => ?_⟩, ?_⟩
    · omega
    · rw [rank_hitWait r bound hphase, hleft]
      omega
  | false =>
    rw [hserved, if_neg (by decide)] at hok
    rw [if_neg (by decide)]
    have hlt := hr.waits (c.curAddr, false) h.backing hserved
    refine ⟨⟨h.ok, heq, hok, h.timer⟩, ?_⟩
    rw [rank_fetch r bound]
    · exact Nat.add_lt_add_left hlt _
    · exact hp

/-- A cycle of a flush moves on to the fetch, or lowers the rank of the backing. -/
theorem Timing.drive_flush (h : c.Timing Ok hit) (hp : c.phase = .writeBack) :
    (c.drive (fun d => { d with phase := .missFetch }) c.wbAddr true).Timing Ok hit ∧
      (c.drive (fun d => { d with phase := .missFetch }) c.wbAddr true).rank r bound <
        c.rank r bound := by
  have hok := hr.poll (c.wbAddr, true) h.backing
  have hle := hr.le hok
  rw [rank_writeBack r bound hp, drive_eq]
  cases hserved : ((IMemory.port M).ready c.backing (c.wbAddr, true)).1 with
  | true =>
    rw [if_pos rfl]
    refine ⟨⟨h.ok, h.eq, hok, (nomatch ·)⟩, ?_⟩
    rw [rank_fetch r bound (.inl rfl)]
    change c.hitLatency + r ((IMemory.port M).poll c.backing (c.wbAddr, true)) < _
    omega
  | false =>
    rw [if_neg (by decide)]
    have hlt := hr.waits (c.wbAddr, true) h.backing hserved
    refine ⟨⟨h.ok, h.eq, hok, h.timer⟩, ?_⟩
    rw [rank_writeBack r bound]
    · exact Nat.add_lt_add_left hlt _
    · exact hp

theorem Timing.tick (h : c.Timing Ok hit) : c.tick.Timing Ok hit := by
  rw [tick_eq]
  cases hp : c.phase with
  | idle => exact (h.servicePrefetch hr).1
  | hitWait => exact (h.countDown.servicePrefetch hr).1
  | writeBack => exact (h.drive_flush hr hp).1
  | missFetch => exact (h.drive_fetch hr startsHit_fill (.inl hp)).1
  | prefetchWait => exact (h.drive_fetch hr startsHit_merged (.inr hp)).1

/-- An outstanding access that is not served on this cycle gets nearer to it. -/
theorem Timing.rank_tick (h : c.Timing Ok hit) (hp : c.phase ≠ .idle)
    (hk : (c.phase == .hitWait && c.hitRemaining == 0) = false) :
    c.tick.rank r bound < c.rank r bound := by
  rw [tick_eq]
  cases hphase : c.phase with
  | idle => exact absurd hphase hp
  | hitWait =>
    have htimer := h.timer hphase
    have hne : c.hitRemaining ≠ 0 := by
      intro h0
      rw [hphase, h0] at hk
      cases hk
    have hcount : c.countDown = { c with hitRemaining := c.hitRemaining - 1 } := by
      unfold Cache.countDown
      rw [if_pos (by omega)]
    obtain ⟨-, hp', hk'⟩ := h.countDown.servicePrefetch hr
    have hleft : c.countDown.servicePrefetch.rank r bound = (c.hitRemaining - 1).toNat := by
      rw [rank_hitWait r bound (by rw [hp', hcount]; exact hphase), hk', hcount]
    have hrank := rank_hitWait r bound hphase
    dsimp only
    omega
  | writeBack => exact (h.drive_flush hr hphase).2
  | missFetch => exact (h.drive_fetch hr startsHit_fill (.inl hphase)).2
  | prefetchWait => exact (h.drive_fetch hr startsHit_merged (.inr hphase)).2

theorem Timing.rank_le (h : c.Timing Ok hit) : c.rank r bound ≤ hit + bound + 1 + bound := by
  have hle := hr.le h.backing
  have heq := h.eq
  unfold rank
  cases hp : c.phase with
  | hitWait =>
    have htimer := h.timer hp
    dsimp only
    omega
  | idle | writeBack | missFetch | prefetchWait => dsimp only; omega

/-- Accepting a request does not raise the rank of an idle cache. -/
theorem Timing.rank_accept (h : c.Timing Ok hit) (hp : c.phase = .idle) (a : Word) (w : Bool) :
    (c.accept a w).rank r bound ≤ c.rank r bound := by
  rw [rank_idle r bound hp, h.eq]
  exact (h.accept a w).rank_le hr

/-- A cache over a ranked backing is ranked, whatever its prefetch engine does. -/
theorem ranked (hit : Nat) : (IMemory.port (Cache M)).Ranked (Timing Ok hit) (rank r bound)
    (hit + bound + 1 + bound) where
  ready q h := h.ready q.1 q.2
  tick h := h.tick hr
  le h := h.rank_le hr
  waits := by
    intro c q h hwait
    change (c.ready q.1 q.2).1 = false at hwait
    change (c.ready q.1 q.2).2.tick.rank r bound < c.rank r bound
    by_cases hp : c.phase = .idle
    · have hbusy := c.accept_phase q.1 q.2
      have hserved : (c.ready q.1 q.2).1 = ((c.accept q.1 q.2).phase == .hitWait &&
          (c.accept q.1 q.2).hitRemaining == 0) := by
        unfold Cache.ready
        rw [if_pos hp]
      rw [hserved] at hwait
      rw [ready_of_idle hp]
      exact lt_of_lt_of_le ((h.accept q.1 q.2).rank_tick hr hbusy hwait)
        (h.rank_accept hr hp q.1 q.2)
    · rw [ready_of_busy hp] at hwait ⊢
      exact h.rank_tick hr hp hwait

end Ranked

end Cache

end CpuSim
