import CpuSim.Memory.Level

/-!
# The demand path of a cache

A `Cache` without its prefetch engine against the atomic cache. `Demand` says where the one
outstanding access stands, in particular that the request a miss has open at the backing will
be served. From an idle cache an access then takes exactly the cycles the atomic cache
charges, over any backing that does the same (`implements`).
-/

namespace CpuSim

open Atomic

namespace Cache

variable {M : Type} {c : Cache M} {Idle : M → Prop}

/-! ## Accepting a request -/

theorem accept_hit (hn : c.pfPolicy = none) {a : Word} {way : Nat}
    (h : c.findWay a = some way) (w : Bool) :
    c.accept a w =
      ({ c with curAddr := a, curIsWrite := w, lastHit := true } : Cache M).acceptHit
        (c.indexOf a) way w := by
  have hfind : ({ c with curAddr := a, curIsWrite := w } : Cache M).findWay a = some way := h
  unfold accept maybeStartPrefetch
  simp only [hfind]
  rw [hn]
  rfl

/-- An accepted miss on a clean or invalid victim. -/
def fetching (c : Cache M) (a : Word) (w : Bool) : Cache M :=
  { c with
    curAddr := a
    curIsWrite := w
    lastHit := false
    victimWay := c.chooseVictim (c.indexOf a)
    phase := .missFetch }

/-- An accepted miss on a dirty victim. -/
def flushing (c : Cache M) (a : Word) (w : Bool) : Cache M :=
  { c.fetching a w with
    wbAddr := c.addrOf (c.indexOf a)
      (c.lineAt (c.indexOf a) (c.chooseVictim (c.indexOf a))).tag
    phase := .writeBack }

theorem accept_miss (hn : c.pfPolicy = none) (ha : c.pfActive = false) {a : Word}
    (h : c.findWay a = none) (w : Bool) :
    c.accept a w =
      if c.dirtyAt (c.indexOf a) (c.chooseVictim (c.indexOf a)) then c.flushing a w
      else c.fetching a w := by
  have hfind : ({ c with curAddr := a, curIsWrite := w } : Cache M).findWay a = none := h
  unfold flushing fetching accept maybeStartPrefetch acceptMiss
  simp only [hfind]
  rw [hn]
  simp only [ha, Bool.false_and]
  rfl

/-! ## Ticks -/

theorem fill_backing (c : Cache M) (b : M) :
    ({ c with backing := b } : Cache M).fill = { c.fill with backing := b } := by
  unfold fill
  dsimp only
  rw [installLine_eq, installLine_eq]
  rfl

variable [IMemory M]

theorem servicePrefetch_of_inactive (h : c.pfActive = false) : c.servicePrefetch = c := by
  unfold servicePrefetch
  rw [h]
  rfl

theorem tick_idle (hp : c.phase = .idle) (ha : c.pfActive = false) : c.tick = c := by
  rw [tick_eq, hp]
  exact servicePrefetch_of_inactive ha

theorem tick_hitWait (hp : c.phase = .hitWait) (ha : c.pfActive = false) :
    c.tick = c.countDown := by
  have hcount : c.countDown.pfActive = false := by
    unfold countDown
    split <;> exact ha
  rw [tick_eq, hp]
  exact servicePrefetch_of_inactive hcount

/-- A tick of a flush asks the backing for the write-back once and ticks it. -/
theorem tick_writeBack (hp : c.phase = .writeBack) :
    c.tick =
      if ((IMemory.port M).ready c.backing (c.wbAddr, true)).1 then
        { c with backing := (IMemory.port M).poll c.backing (c.wbAddr, true), phase := .missFetch }
      else { c with backing := (IMemory.port M).poll c.backing (c.wbAddr, true) } := by
  have htick : c.tick = c.drive (fun d => { d with phase := .missFetch }) c.wbAddr true := by
    rw [tick_eq, hp]
  rw [htick, drive_eq]
  rfl

/-- A tick of a fetch asks the backing for the line once and ticks it. -/
theorem tick_missFetch (hp : c.phase = .missFetch) :
    c.tick =
      if ((IMemory.port M).ready c.backing (c.curAddr, false)).1 then
        ({ c with backing := (IMemory.port M).poll c.backing (c.curAddr, false) } : Cache M).fill
      else { c with backing := (IMemory.port M).poll c.backing (c.curAddr, false) } := by
  have htick : c.tick = c.drive fill c.curAddr false := by
    rw [tick_eq, hp]
  rw [htick, drive_eq, fill_backing, fill_backing c ((IMemory.port M).poll c.backing _)]
  rfl

/-! ## The invariant -/

/-- Where the outstanding access stands, over a backing whose rest states are `Idle`. -/
def Standing (Idle : M → Prop) (c : Cache M) : Prop :=
  match c.phase with
  | .idle => Idle c.backing
  | .hitWait => Idle c.backing ∧ 0 ≤ c.hitRemaining
  | .writeBack => c.victimWay < c.ways ∧
      ∃ n m, (IMemory.port M).Drives (c.wbAddr, true) c.backing n m ∧ Idle m
  | .missFetch => c.victimWay < c.ways ∧
      ∃ n m, (IMemory.port M).Drives (c.curAddr, false) c.backing n m ∧ Idle m
  | .prefetchWait => False

/-- The invariant of a cache without a prefetch engine. -/
structure Demand (Idle : M → Prop) (c : Cache M) : Prop where
  shape : c.WellFormed
  latency : LatencyOk c.hitLatency
  noPolicy : c.pfPolicy = none
  inactive : c.pfActive = false
  standing : c.Standing Idle

theorem demand_new {m : M} (hm : Idle m) {lineBytes sets ways hitLatency : Nat}
    (hs : CacheShape lineBytes sets ways) (hl : LatencyOk hitLatency) (degree : Nat)
    (stats : Option SimStats) :
    (new m lineBytes sets hitLatency ways false degree stats).Demand Idle := by
  refine ⟨wellFormed_new m hs hitLatency false degree stats, ?_, rfl, rfl, hm⟩
  have hpos : hitLatency ≠ 0 := by have := hl.1; omega
  change LatencyOk (if hitLatency = 0 then 1 else hitLatency)
  rwa [if_neg hpos]

/-- The timing fields may move freely, as long as the access still stands. -/
theorem Demand.advance (h : c.Demand Idle) {b : M} {p : Phase} {a wb : Word} {w l : Bool}
    {v : Nat} {k : Int}
    (hs : Standing Idle
      { c with backing := b, phase := p, curAddr := a, curIsWrite := w, victimWay := v
               wbAddr := wb, hitRemaining := k, lastHit := l }) :
    Demand Idle
      { c with backing := b, phase := p, curAddr := a, curIsWrite := w, victimWay := v
               wbAddr := wb, hitRemaining := k, lastHit := l } :=
  ⟨h.shape.frame rfl, h.latency, h.noPolicy, h.inactive, hs⟩

theorem Demand.timer (h : c.Demand Idle) : 0 ≤ toInt32 c.hitLatency - 1 := by
  rw [toInt32_of_latencyOk h.latency]
  have := h.latency.1
  omega

theorem Demand.acceptHit (h : c.Demand Idle) (hm : Idle c.backing) (set : Word) (way : Nat)
    (w : Bool) : (c.acceptHit set way w).Demand Idle := by
  have hshape := h.shape.acceptHit set way w
  rw [acceptHit_eq] at hshape ⊢
  exact ⟨hshape, h.latency, h.noPolicy, h.inactive, hm, h.timer⟩

theorem Demand.fill (h : c.Demand Idle) {b : M} (hm : Idle b) :
    ({ c with backing := b } : Cache M).fill.Demand Idle := by
  have hshape := h.shape.installLine (c.indexOf c.curAddr) c.victimWay c.curAddr c.curIsWrite false
  rw [fill_backing]
  unfold Cache.fill
  rw [installLine_eq] at hshape ⊢
  exact ⟨hshape.frame rfl, h.latency, h.noPolicy, h.inactive, hm, h.timer⟩

section Law

variable (hserve : ∀ {m : M} (r : Word × Bool), Idle m →
  ∃ n t, (IMemory.port M).Drives r m n t ∧ Idle t)

include hserve

theorem Demand.accept (h : c.Demand Idle) (hp : c.phase = .idle) (a : Word) (w : Bool) :
    (c.accept a w).Demand Idle := by
  have hm : Idle c.backing := by
    have hs := h.standing
    simpa only [Standing, hp] using hs
  rcases hw : c.findWay a with _ | way
  · have hv := chooseVictim_lt h.shape (c.indexOf a)
    rw [accept_miss h.noPolicy h.inactive hw]
    split
    · exact h.advance ⟨hv, hserve _ hm⟩
    · exact h.advance ⟨hv, hserve _ hm⟩
  · rw [accept_hit h.noPolicy hw]
    have hidle : Standing Idle
        ({ c with curAddr := a, curIsWrite := w, lastHit := true } : Cache M) := by
      simpa only [Standing, hp] using hm
    exact (h.advance hidle).acceptHit hm _ way w

theorem Demand.ready (h : c.Demand Idle) (a : Word) (w : Bool) :
    (c.ready a w).2.Demand Idle := by
  by_cases hp : c.phase = .idle
  · rw [ready_of_idle hp]
    exact h.accept hserve hp a w
  · rw [ready_of_busy hp]
    exact h

theorem Demand.tick (h : c.Demand Idle) : c.tick.Demand Idle := by
  have hst := h.standing
  cases hp : c.phase with
  | idle =>
    rw [tick_idle hp h.inactive]
    exact h
  | hitWait =>
    simp only [Standing, hp] at hst
    obtain ⟨hm, hk⟩ := hst
    rw [tick_hitWait hp h.inactive]
    unfold countDown
    split
    · apply h.advance
      simp only [Standing, hp]
      exact ⟨hm, by omega⟩
    · exact h.advance hm
  | writeBack =>
    simp only [Standing, hp] at hst
    obtain ⟨hv, n, m, hd, hm⟩ := hst
    rw [tick_writeBack hp]
    cases hd with
    | served hr =>
      rw [if_pos hr]
      exact h.advance ⟨hv, hserve _ hm⟩
    | waits hr hd =>
      rw [if_neg (by rw [hr]; exact Bool.false_ne_true)]
      apply h.advance
      simp only [Standing, hp]
      exact ⟨hv, _, m, hd, hm⟩
  | missFetch =>
    simp only [Standing, hp] at hst
    obtain ⟨hv, n, m, hd, hm⟩ := hst
    rw [tick_missFetch hp]
    cases hd with
    | served hr =>
      rw [if_pos hr]
      exact h.fill hm
    | waits hr hd =>
      rw [if_neg (by rw [hr]; exact Bool.false_ne_true)]
      apply h.advance
      simp only [Standing, hp]
      exact ⟨hv, _, m, hd, hm⟩
  | prefetchWait =>
    simp only [Standing, hp] at hst

end Law

/-! ## Driving an access -/

/-- A busy cache takes no notice of the caller; each cycle is one tick. -/
theorem poll_of_busy (hp : c.phase ≠ .idle) (r : Word × Bool) :
    (IMemory.port (Cache M)).poll c r = c.tick := by
  change (c.ready r.1 r.2).2.tick = _
  rw [ready_of_busy hp]

theorem waits_of_busy {r : Word × Bool} {n : Nat} {t : Cache M} (hp : c.phase ≠ .idle)
    (hr : c.phase = .hitWait → c.hitRemaining ≠ 0)
    (h : (IMemory.port (Cache M)).Drives r c.tick n t) :
    (IMemory.port (Cache M)).Drives r c (n + 1) t := by
  refine .waits ?_ ?_
  · change (c.ready r.1 r.2).1 = false
    rw [ready_of_busy hp]
    by_cases hh : c.phase = .hitWait
    · simp [hr hh]
    · simp [hh]
  · rw [poll_of_busy hp]
    exact h

/-- The state in which the hit timer releases a request. -/
def released (c : Cache M) : Cache M := { c with phase := .idle, hitRemaining := 0 }

/-- The hit timer serves after the cycles left on it, and one more. -/
theorem drives_hitWait (ha : c.pfActive = false) (r : Word × Bool) {k : Nat}
    (hp : c.phase = .hitWait) (hk : c.hitRemaining = k) :
    (IMemory.port (Cache M)).Drives r c (k + 1) c.released := by
  have hbusy : c.phase ≠ .idle := by rw [hp]; decide
  induction k generalizing c with
  | zero =>
    have htick : (IMemory.port (Cache M)).poll c r = c.released := by
      rw [poll_of_busy hbusy, tick_hitWait hp ha, countDown, if_neg (by omega)]
      unfold released
      rw [← Int.natCast_zero, ← hk]
    rw [← htick]
    apply Blocking.Drives.served
    change (c.ready r.1 r.2).1 = true
    rw [ready_of_busy hbusy, hp, hk]
    rfl
  | succ k ih =>
    apply waits_of_busy hbusy (fun _ => by omega)
    rw [tick_hitWait hp ha, countDown, if_pos (by omega)]
    exact ih (c := { c with hitRemaining := c.hitRemaining - 1 }) ha hp (by dsimp only; omega)
      hbusy

/-- While the backing is driven for the line, the cache waits; then it fills. -/
theorem drives_missFetch {r : Word × Bool} {a : Word} {n k : Nat} {m b : M} {t : Cache M}
    (hd : (IMemory.port M).Drives (a, false) m n b) (hm : c.backing = m) (ha : c.curAddr = a)
    (hp : c.phase = .missFetch)
    (hk : (IMemory.port (Cache M)).Drives r ({ c with backing := b } : Cache M).fill k t) :
    (IMemory.port (Cache M)).Drives r c (n + k) t := by
  have hbusy : c.phase ≠ .idle := by rw [hp]; decide
  have hwait : c.phase = .hitWait → c.hitRemaining ≠ 0 := by rw [hp]; exact (nomatch ·)
  induction hd generalizing c with
  | served hr =>
    subst hm ha
    rw [Nat.add_comm]
    apply waits_of_busy hbusy hwait
    rw [tick_missFetch hp, if_pos hr]
    exact hk
  | @waits m b n hr hd ih =>
    subst hm ha
    rw [Nat.succ_add]
    apply waits_of_busy hbusy hwait
    rw [tick_missFetch hp, if_neg (by rw [hr]; exact Bool.false_ne_true)]
    exact ih (c := { c with backing := (IMemory.port M).poll c.backing (c.curAddr, false) })
      rfl rfl hp hk hbusy hwait

/-- While the backing is driven for the write-back, the cache waits; then it fetches. -/
theorem drives_writeBack {r : Word × Bool} {a : Word} {n k : Nat} {m b : M} {t : Cache M}
    (hd : (IMemory.port M).Drives (a, true) m n b) (hm : c.backing = m) (ha : c.wbAddr = a)
    (hp : c.phase = .writeBack)
    (hk : (IMemory.port (Cache M)).Drives r { c with backing := b, phase := .missFetch } k t) :
    (IMemory.port (Cache M)).Drives r c (n + k) t := by
  have hbusy : c.phase ≠ .idle := by rw [hp]; decide
  have hwait : c.phase = .hitWait → c.hitRemaining ≠ 0 := by rw [hp]; exact (nomatch ·)
  induction hd generalizing c with
  | served hr =>
    subst hm ha
    rw [Nat.add_comm]
    apply waits_of_busy hbusy hwait
    rw [tick_writeBack hp, if_pos hr]
    exact hk
  | @waits m b n hr hd ih =>
    subst hm ha
    rw [Nat.succ_add]
    apply waits_of_busy hbusy hwait
    rw [tick_writeBack hp, if_neg (by rw [hr]; exact Bool.false_ne_true)]
    exact ih (c := { c with backing := (IMemory.port M).poll c.backing (c.wbAddr, true) })
      rfl rfl hp hk hbusy hwait

/-- A request to an idle cache is served when the accepted one is. -/
theorem drives_accept {r : Word × Bool} {n : Nat} {t : Cache M} (hp : c.phase = .idle)
    (hb : (c.accept r.1 r.2).phase ≠ .idle)
    (h : (IMemory.port (Cache M)).Drives r (c.accept r.1 r.2) n t) :
    (IMemory.port (Cache M)).Drives r c n t := by
  have hr : ((IMemory.port (Cache M)).ready c r).2 = c.accept r.1 r.2 := ready_of_idle hp _ _
  apply Blocking.Drives.of_ready
  · rw [hr]
    change (c.accept r.1 r.2).ready r.1 r.2 = c.ready r.1 r.2
    rw [ready_of_busy hb]
    unfold ready
    rw [if_pos hp]
  · rw [hr]
    exact h

/-! ## The law -/

section Refinement

variable {β : Type} {below : β → Nat → Bool → Nat × β} {abs : M → β}

/-- The final stretch of a miss: the fetch, the fill and the hit timer. -/
theorem Demand.fetch (hb : (IMemory.port M).Implements Idle abs fun b r => below b r.1.toNat r.2)
    (h : c.Demand Idle) (hp : c.phase = .missFetch) (hm : Idle c.backing)
    (hv : c.victimWay < c.ways) (r : Word × Bool) :
    ∃ t, (IMemory.port (Cache M)).Drives r c
        ((below (abs c.backing) c.curAddr.toNat false).1 + c.hitLatency) t ∧
      (t.Demand Idle ∧ t.phase = .idle) ∧
      t.level = c.level.put (c.indexOf c.curAddr).toNat c.victimWay
        ⟨(c.tagOf c.curAddr).toNat, c.curIsWrite⟩ ∧
      abs t.backing = (below (abs c.backing) c.curAddr.toNat false).2 := by
  obtain ⟨b, hd, hbi, hab⟩ := hb.serves (c.curAddr, false) hm
  have hfill := h.fill hbi
  have htimer :
      ({ c with backing := b } : Cache M).fill.hitRemaining = (c.hitLatency - 1 : Nat) := by
    have hl := h.latency
    rw [fill_backing]
    change toInt32 (c.installLine _ _ _ _ _).hitLatency - 1 = _
    rw [installLine_eq]
    change toInt32 c.hitLatency - 1 = _
    rw [toInt32_of_latencyOk hl]
    have := hl.1
    omega
  have hdrives := drives_hitWait hfill.inactive r rfl htimer
  have hlat : c.hitLatency - 1 + 1 = c.hitLatency := by have := h.latency.1; omega
  rw [hlat] at hdrives
  refine ⟨_, drives_missFetch hd rfl rfl hp hdrives, ⟨?_, rfl⟩, ?_, ?_⟩
  · exact hfill.advance hfill.standing.1
  · have hlevel := level_installLine h.shape (indexOf_lt h.shape c.curAddr) hv c.curAddr
      c.curIsWrite false
    rw [fill_backing]
    exact hlevel
  · rw [fill_backing]
    exact hab

theorem Demand.serves_hit
    (h : c.Demand Idle) (hp : c.phase = .idle) {r : Word × Bool} {way : Nat}
    (hw : c.findWay r.1 = some way) :
    ∃ t, (IMemory.port (Cache M)).Drives r c c.hitLatency t ∧ (t.Demand Idle ∧ t.phase = .idle) ∧
      t.level = c.level.hit (c.indexOf r.1).toNat way r.2 ∧ t.backing = c.backing := by
  have hm : Idle c.backing := by
    have hs := h.standing
    simpa only [Standing, hp] using hs
  have hst : Standing Idle
      ({ c with curAddr := r.1, curIsWrite := r.2, lastHit := true } : Cache M) := by
    simpa only [Standing, hp] using hm
  have hlevel := level_acceptHit h.shape (indexOf_lt h.shape r.1) (findWay_lt hw)
    (valid_of_findWay hw) r.2
  have hd := (h.advance hst).acceptHit hm (c.indexOf r.1) way r.2
  rw [← accept_hit h.noPolicy hw] at hd
  have heq := accept_hit h.noPolicy hw r.2
  rw [acceptHit_eq] at heq hlevel
  have hphase : (c.accept r.1 r.2).phase = .hitWait := by rw [heq]
  have htimer : (c.accept r.1 r.2).hitRemaining = (c.hitLatency - 1 : Nat) := by
    have hl := h.latency
    rw [heq]
    change toInt32 c.hitLatency - 1 = _
    rw [toInt32_of_latencyOk hl]
    have := hl.1
    omega
  have hdrives := drives_hitWait hd.inactive r hphase htimer
  have hlat : c.hitLatency - 1 + 1 = c.hitLatency := by have := h.latency.1; omega
  rw [hlat] at hdrives
  refine ⟨_, drives_accept hp (by rw [hphase]; decide) hdrives, ⟨?_, rfl⟩, ?_, ?_⟩
  · apply hd.advance
    rw [heq]
    exact hm
  · rw [heq]
    exact hlevel
  · rw [heq]
    rfl

theorem Demand.serves_miss
    (hb : (IMemory.port M).Implements Idle abs fun b r => below b r.1.toNat r.2)
    (h : c.Demand Idle) (hp : c.phase = .idle) {r : Word × Bool} (hw : c.findWay r.1 = none) :
    ∃ t, (IMemory.port (Cache M)).Drives r c
        (Level.access below (c.level, abs c.backing) r.1.toNat r.2).1 t ∧
      (t.Demand Idle ∧ t.phase = .idle) ∧
      (t.level, abs t.backing) =
        (Level.access below (c.level, abs c.backing) r.1.toNat r.2).2 := by
  have hm : Idle c.backing := by
    have hs := h.standing
    simpa only [Standing, hp] using hs
  have hset := level_setOf h.shape r.1
  have hindex := indexOf_lt h.shape r.1
  have hv := chooseVictim_lt h.shape (c.indexOf r.1)
  have hlookup : c.level.lookup r.1.toNat = none := (level_lookup h.shape r.1).trans hw
  have hvictim : c.level.victim (c.level.setOf r.1.toNat) = c.chooseVictim (c.indexOf r.1) := by
    rw [hset]
    exact level_victim c hindex
  have howes := (congrArg₂ c.level.owes hset hvictim).trans (level_owes h.shape hindex hv)
  have hserve : ∀ {m : M} (r : Word × Bool), Idle m →
      ∃ n t, (IMemory.port M).Drives r m n t ∧ Idle t := by
    intro m r hm
    obtain ⟨t, hd, ht, -⟩ := hb.serves r hm
    exact ⟨_, t, hd, ht⟩
  have haccept := h.accept hserve hp r.1 r.2
  have heq := accept_miss h.noPolicy h.inactive hw r.2
  split at heq
  · -- the victim is dirty: flush it, then fetch
    rename_i hdirty
    rw [if_pos hdirty] at howes
    obtain ⟨b, hd, hbi, hab⟩ := hb.serves (c.addrOf (c.indexOf r.1)
      (c.lineAt (c.indexOf r.1) (c.chooseVictim (c.indexOf r.1))).tag, true) hm
    rw [heq] at haccept
    have hfetch : ({ c.flushing r.1 r.2 with
        backing := b, phase := .missFetch } : Cache M).Demand Idle :=
      haccept.advance ⟨hv, hserve _ hbi⟩
    obtain ⟨t, hdt, hidle, hlevel, habs⟩ := hfetch.fetch hb rfl hbi hv r
    rw [hab] at hdt habs
    refine ⟨t, ?_, hidle, ?_⟩
    · apply drives_accept hp (by rw [heq]; exact (nomatch ·))
      rw [heq, Level.access_of_dirty_miss hlookup howes, Nat.add_assoc]
      exact drives_writeBack hd rfl rfl rfl hdt
    · rw [Level.access_of_dirty_miss hlookup howes, hlevel, habs, hvictim, hset, level_tagOf]
      rfl
  · -- the victim is clean: fetch
    rename_i hclean
    rw [if_neg hclean] at howes
    rw [heq] at haccept
    obtain ⟨t, hdt, hidle, hlevel, habs⟩ := haccept.fetch hb rfl hm hv r
    refine ⟨t, ?_, hidle, ?_⟩
    · apply drives_accept hp (by rw [heq]; exact (nomatch ·))
      rw [heq, Level.access_of_clean_miss hlookup howes]
      exact hdt
    · rw [Level.access_of_clean_miss hlookup howes, hlevel, habs, hvictim, hset, level_tagOf]
      rfl

/-- A cache over a backing that implements an atomic memory implements the atomic cache over
    that memory. -/
theorem implements (hb : (IMemory.port M).Implements Idle abs fun b r => below b r.1.toNat r.2) :
    (IMemory.port (Cache M)).Implements (fun c => c.Demand Idle ∧ c.phase = .idle)
      (fun c => (c.level, abs c.backing))
      (fun s r => Level.access below s r.1.toNat r.2) where
  rest := fun ⟨h, hp⟩ => tick_idle hp h.inactive
  serves := by
    rintro c r ⟨h, hp⟩
    rcases hw : c.findWay r.1 with _ | way
    · exact h.serves_miss hb hp hw
    · have hlookup : c.level.lookup r.1.toNat = some way := (level_lookup h.shape r.1).trans hw
      obtain ⟨t, hd, hidle, hlevel, hback⟩ := h.serves_hit hp hw
      rw [Level.access_of_hit hlookup, level_setOf h.shape]
      refine ⟨t, hd, hidle, ?_⟩
      dsimp only
      rw [hlevel, hback]

end Refinement

end Cache

end CpuSim
