import CpuSim.Memory.Geometry

/-!
# Timing does not see the backing's data

A cache calls its backing only through `ready` and `tick`, so a map between two memories that
respects those two is a map between the caches over them (`maps_mapBacking`). With the map that
forgets the bytes of a `FlatMem` this says that data stores never change a timing.
-/

namespace CpuSim

namespace FlatMem

/-- The timer alone. -/
def blank (m : FlatMem) : FlatMem := { m with mem := [] }

theorem maps_blank : (IMemory.port FlatMem).Maps (IMemory.port FlatMem) blank where
  ready := by
    rintro m ⟨a, w⟩
    change (m.blank.ready a w) = ((m.ready a w).1, (m.ready a w).2.blank)
    unfold ready blank
    dsimp only
    split <;> rfl
  tick := by
    intro m
    change m.blank.tick = m.tick.blank
    unfold tick blank
    dsimp only
    split
    · rfl
    · split <;> rfl

theorem blank_setByte {m m' : FlatMem} {o : Nat} {v : Byte} (h : m.setByte o v = some m') :
    m'.blank = m.blank := by
  unfold setByte at h
  split at h
  · cases h; rfl
  · cases h

theorem blank_of_stores {m m' : FlatMem} (h : IMemory.Stores m m') : m'.blank = m.blank := by
  rcases h with h | h | h
  · obtain ⟨_, -, h⟩ := Option.bind_eq_some_iff.mp h
    obtain ⟨_, h0, h⟩ := Option.bind_eq_some_iff.mp h
    obtain ⟨_, h1, h⟩ := Option.bind_eq_some_iff.mp h
    obtain ⟨_, h2, h⟩ := Option.bind_eq_some_iff.mp h
    exact (blank_setByte h).trans
      ((blank_setByte h2).trans ((blank_setByte h1).trans (blank_setByte h0)))
  · obtain ⟨_, -, h⟩ := Option.bind_eq_some_iff.mp h
    obtain ⟨_, h0, h⟩ := Option.bind_eq_some_iff.mp h
    exact (blank_setByte h).trans (blank_setByte h0)
  · obtain ⟨_, -, h⟩ := Option.bind_eq_some_iff.mp h
    exact blank_setByte h

end FlatMem

namespace Cache

variable {M N : Type} (f : M → N)

/-- The same cache over another backing. -/
def mapBacking (c : Cache M) : Cache N :=
  { backing := f c.backing, offsetBits := c.offsetBits, indexBits := c.indexBits
    indexMask := c.indexMask, hitLatency := c.hitLatency, ways := c.ways, lines := c.lines
    repl := c.repl, phase := c.phase, curAddr := c.curAddr, curIsWrite := c.curIsWrite
    victimWay := c.victimWay, wbAddr := c.wbAddr, hitRemaining := c.hitRemaining
    lastHit := c.lastHit, pfPolicy := c.pfPolicy, pfDegree := c.pfDegree, pfActive := c.pfActive
    pfAddr := c.pfAddr, pfWay := c.pfWay, pfChain := c.pfChain, stats := c.stats }

theorem mapBacking_installLine (c : Cache M) (set : Word) (way : Nat) (a : Word) (w pf : Bool) :
    (c.mapBacking f).installLine set way a w pf = (c.installLine set way a w pf).mapBacking f := by
  rw [installLine_eq, installLine_eq]
  rfl

theorem mapBacking_reservePrefetch (c : Cache M) (target : Word) (chain : Nat) :
    (c.mapBacking f).reservePrefetch target chain =
      (c.reservePrefetch target chain).mapBacking f := by
  unfold reservePrefetch
  dsimp only
  rw [apply_ite (mapBacking f), apply_ite (mapBacking f)]
  rfl

theorem mapBacking_maybeStartPrefetch (c : Cache M) (a : Word) :
    (c.mapBacking f).maybeStartPrefetch a = (c.maybeStartPrefetch a).mapBacking f := by
  have hpolicy : (c.mapBacking f).pfPolicy = c.pfPolicy := rfl
  unfold maybeStartPrefetch
  rw [hpolicy]
  cases c.pfPolicy with
  | none => rfl
  | some policy =>
    dsimp only
    rw [apply_ite (mapBacking f), ← mapBacking_reservePrefetch]
    rfl

theorem mapBacking_completePrefetch (c : Cache M) :
    (c.mapBacking f).completePrefetch = c.completePrefetch.mapBacking f := by
  have hpolicy : (c.mapBacking f).pfPolicy = c.pfPolicy := rfl
  have hinstall : (c.mapBacking f).prefetchInstalled = c.prefetchInstalled.mapBacking f := by
    unfold prefetchInstalled
    rw [mapBacking_installLine]
    rfl
  rw [completePrefetch_eq, completePrefetch_eq, hpolicy, hinstall]
  cases c.pfPolicy with
  | none => rfl
  | some policy =>
    dsimp only
    rw [apply_ite (mapBacking f), ← mapBacking_reservePrefetch]
    rfl

theorem mapBacking_acceptHit (c : Cache M) (set : Word) (way : Nat) (w : Bool) :
    (c.mapBacking f).acceptHit set way w = (c.acceptHit set way w).mapBacking f := by
  rw [acceptHit_eq, acceptHit_eq]
  rfl

theorem mapBacking_acceptMiss (c : Cache M) (set : Word) :
    (c.mapBacking f).acceptMiss set = (c.acceptMiss set).mapBacking f := by
  rw [acceptMiss_eq, acceptMiss_eq]
  rfl

theorem mapBacking_accept (c : Cache M) (a : Word) (w : Bool) :
    (c.mapBacking f).accept a w = (c.accept a w).mapBacking f := by
  have hnoted : (c.mapBacking f).noted a w = (c.noted a w).mapBacking f :=
    mapBacking_maybeStartPrefetch f
      { c with curAddr := a, curIsWrite := w, lastHit := (c.findWay a).isSome } a
  have hfind : (c.mapBacking f).findWay a = c.findWay a := rfl
  have hindex : (c.mapBacking f).indexOf a = c.indexOf a := rfl
  rw [accept_eq, accept_eq, hnoted, hfind, hindex]
  cases c.findWay a with
  | some way => exact mapBacking_acceptHit f _ _ _ _
  | none =>
    dsimp only
    rw [apply_ite (mapBacking f), ← mapBacking_acceptMiss]
    rfl

theorem mapBacking_fill (c : Cache M) : (c.mapBacking f).fill = c.fill.mapBacking f := by
  unfold fill
  dsimp only
  rw [mapBacking_installLine]
  rfl

variable [IMemory M] [IMemory N] {f}

theorem mapBacking_drive (h : (IMemory.port M).Maps (IMemory.port N) f) {g : Cache M → Cache M}
    {g' : Cache N → Cache N} (hg : ∀ c, g' (c.mapBacking f) = (g c).mapBacking f) (c : Cache M)
    (a : Word) (w : Bool) :
    (c.mapBacking f).drive g' a w = (c.drive g a w).mapBacking f := by
  have hr := h.ready c.backing (a, w)
  have hready : (c.mapBacking f).backingReady a w =
      ((c.backingReady a w).1, (c.backingReady a w).2.mapBacking f) := by
    change (((IMemory.port N).ready (f c.backing) (a, w)).1,
      { c.mapBacking f with backing := ((IMemory.port N).ready (f c.backing) (a, w)).2 }) = _
    rw [hr]
    rfl
  have htick : ∀ d : Cache M, (d.mapBacking f).backingTick = d.backingTick.mapBacking f := by
    intro d
    change { d.mapBacking f with backing := (IMemory.port N).tick (f d.backing) } = _
    rw [h.tick]
    rfl
  unfold drive
  rw [hready]
  dsimp only
  rw [← htick, apply_ite (mapBacking f), hg]

theorem mapBacking_servicePrefetch (h : (IMemory.port M).Maps (IMemory.port N) f) (c : Cache M) :
    (c.mapBacking f).servicePrefetch = c.servicePrefetch.mapBacking f := by
  rw [servicePrefetch_eq, servicePrefetch_eq, apply_ite (mapBacking f),
    ← mapBacking_drive h (mapBacking_completePrefetch f)]
  rfl

/-- A map between memories is a map between the caches over them. -/
theorem maps_mapBacking (h : (IMemory.port M).Maps (IMemory.port N) f) :
    (IMemory.port (Cache M)).Maps (IMemory.port (Cache N)) (mapBacking f) where
  ready := by
    rintro c ⟨a, w⟩
    change (c.mapBacking f).ready a w = ((c.ready a w).1, (c.ready a w).2.mapBacking f)
    by_cases hp : c.phase = .idle
    · have hp' : (c.mapBacking f).phase = .idle := hp
      unfold ready
      rw [if_pos hp, if_pos hp', mapBacking_accept]
      rfl
    · have hp' : (c.mapBacking f).phase ≠ .idle := hp
      rw [ready_of_busy hp, ready_of_busy hp']
      rfl
  tick := by
    intro c
    change (c.mapBacking f).tick = c.tick.mapBacking f
    have hphase : (c.mapBacking f).phase = c.phase := rfl
    have hcount : (c.mapBacking f).countDown = c.countDown.mapBacking f := by
      unfold countDown
      rw [apply_ite (mapBacking f)]
      rfl
    have hmerged : ∀ d : Cache M, (d.mapBacking f).merged = d.merged.mapBacking f := by
      intro d
      unfold merged
      rw [mapBacking_fill]
      rfl
    rw [tick_eq, tick_eq, hphase]
    cases c.phase with
    | idle => exact mapBacking_servicePrefetch h c
    | hitWait =>
      dsimp only
      rw [hcount]
      exact mapBacking_servicePrefetch h _
    | writeBack => exact mapBacking_drive h (fun _ => rfl) c _ _
    | missFetch => exact mapBacking_drive h (mapBacking_fill f) c _ _
    | prefetchWait => exact mapBacking_drive h hmerged c _ _

/-- A store to a cache is a store to its backing. -/
theorem stores_backing {c c' : Cache M} (h : IMemory.Stores c c') :
    ∃ b, c' = { c with backing := b } ∧ IMemory.Stores c.backing b := by
  rcases h with h | h | h
  · obtain ⟨b, hb, rfl⟩ := Option.map_eq_some_iff.mp h
    exact ⟨b, rfl, .word hb⟩
  · obtain ⟨b, hb, rfl⟩ := Option.map_eq_some_iff.mp h
    exact ⟨b, rfl, .half hb⟩
  · obtain ⟨b, hb, rfl⟩ := Option.map_eq_some_iff.mp h
    exact ⟨b, rfl, .byte hb⟩

end Cache

end CpuSim
