import CpuSim.Memory.Cache

/-!
# The operations of a cache in normal form

Each step of `memory/cache.cpp` as one record update or one case distinction, so that proofs
about a step see at once which fields it leaves alone.
-/

namespace CpuSim

namespace Cache

variable {M : Type}

/-! ## Lines -/

/-- The line in `(set, way)` has to be written back before it is replaced. -/
def dirtyAt (c : Cache M) (set : Word) (way : Nat) : Bool :=
  (c.lineAt set way).valid && (c.lineAt set way).dirty

/-- What an install changes: one line, the policy and the prefetch probe. -/
theorem installLine_eq (c : Cache M) (set : Word) (way : Nat) (a : Word) (isWrite pf : Bool) :
    c.installLine set way a isWrite pf =
      { c with
        lines := c.lines.set (c.slot set way)
          { valid := true, dirty := isWrite, prefetched := pf, tag := c.tagOf a }
        repl := c.repl.touch set way
        stats := if (c.lineAt set way).valid && (c.lineAt set way).prefetched then
            c.stats.map SimStats.countUseless else c.stats } := by
  unfold installLine
  dsimp only
  split <;> rfl

/-! ## Prefetch -/

/-- The cache behind a completed prefetch, before any chaining. -/
def prefetchInstalled (c : Cache M) : Cache M :=
  { c.installLine (c.indexOf c.pfAddr) c.pfWay c.pfAddr false true with pfActive := false }

/-- A completed prefetch installs its line and may reserve the next one. -/
theorem completePrefetch_eq (c : Cache M) :
    c.completePrefetch =
      match c.pfPolicy with
      | none => c.prefetchInstalled
      | some policy =>
        if c.pfChain < c.pfDegree then
          c.prefetchInstalled.reservePrefetch (policy.next c.pfAddr) (c.pfChain + 1)
        else c.prefetchInstalled := by
  unfold completePrefetch prefetchInstalled
  rw [installLine_eq]
  dsimp only
  cases c.pfPolicy with
  | none => exact ite_self _
  | some policy => rfl

/-! ## Ready -/

/-- What a hit changes: one line, the policy, the timer and the prefetch probe. -/
theorem acceptHit_eq (c : Cache M) (set : Word) (way : Nat) (isWrite : Bool) :
    c.acceptHit set way isWrite =
      { c with
        lines := c.lines.set (c.slot set way)
          { c.lineAt set way with
            dirty := (c.lineAt set way).dirty || isWrite
            prefetched := false }
        repl := c.repl.touch set way
        phase := .hitWait
        hitRemaining := toInt32 c.hitLatency - 1
        stats := if (c.lineAt set way).prefetched then c.stats.map SimStats.countUseful
          else c.stats } := by
  unfold acceptHit
  generalize c.lineAt set way = l
  rcases l with ⟨valid, dirty, prefetched, tag⟩
  cases isWrite <;> cases prefetched <;> simp [setLine, countUseful]

/-- A miss in `set` takes the way a queued prefetch has reserved. -/
def clash (c : Cache M) (set : Word) (way : Nat) : Bool :=
  c.indexOf c.pfAddr == set && c.pfWay == way

/-- What a miss changes: the victim, a clashing prefetch, and the phase. -/
theorem acceptMiss_eq (c : Cache M) (set : Word) :
    c.acceptMiss set =
      { c with
        victimWay := c.chooseVictim set
        pfActive := c.pfActive && !c.clash set (c.chooseVictim set)
        wbAddr := if c.dirtyAt set (c.chooseVictim set) then
            c.addrOf set (c.lineAt set (c.chooseVictim set)).tag else c.wbAddr
        phase := if c.dirtyAt set (c.chooseVictim set) then .writeBack else .missFetch } := by
  have hdrop : (if c.pfActive && c.indexOf c.pfAddr == set && c.pfWay == c.chooseVictim set then
        { c with victimWay := c.chooseVictim set, pfActive := false }
      else { c with victimWay := c.chooseVictim set } : Cache M) =
      { c with
        victimWay := c.chooseVictim set
        pfActive := c.pfActive && !c.clash set (c.chooseVictim set) } := by
    rw [Bool.and_assoc]
    change (if c.pfActive && c.clash set (c.chooseVictim set) then _ else _) = _
    cases hc : c.clash set (c.chooseVictim set) with
    | false => simp
    | true => cases ha : c.pfActive <;> simp
  have hflush : c.acceptMiss set = (fun d : Cache M =>
      if d.dirtyAt set d.victimWay then
        { d with wbAddr := d.addrOf set (d.lineAt set d.victimWay).tag, phase := .writeBack }
      else { d with phase := .missFetch })
      (if c.pfActive && c.indexOf c.pfAddr == set && c.pfWay == c.chooseVictim set then
        { c with victimWay := c.chooseVictim set, pfActive := false }
      else { c with victimWay := c.chooseVictim set }) := rfl
  rw [hflush, hdrop]
  change (if c.dirtyAt set (c.chooseVictim set) then _ else _) = _
  split <;> rfl

/-- The cache when `ready` has noted the request and fed the prefetch engine. -/
def noted (c : Cache M) (a : Word) (w : Bool) : Cache M :=
  ({ c with curAddr := a, curIsWrite := w, lastHit := (c.findWay a).isSome } :
    Cache M).maybeStartPrefetch a

theorem accept_eq (c : Cache M) (a : Word) (w : Bool) :
    c.accept a w =
      match c.findWay a with
      | some way => (c.noted a w).acceptHit (c.indexOf a) way w
      | none =>
        if (c.noted a w).pfActive && (c.noted a w).lineAddrOf a == (c.noted a w).pfAddr then
          { c.noted a w with victimWay := (c.noted a w).pfWay, phase := .prefetchWait }
        else (c.noted a w).acceptMiss (c.indexOf a) := rfl

theorem ready_of_idle {c : Cache M} (hp : c.phase = .idle) (a : Word) (w : Bool) :
    (c.ready a w).2 = c.accept a w := by
  unfold ready
  rw [if_pos hp]

theorem ready_of_busy {c : Cache M} (hp : c.phase ≠ .idle) (a : Word) (w : Bool) :
    c.ready a w = (c.phase == .hitWait && c.hitRemaining == 0, c) := by
  unfold ready
  rw [if_neg hp]

/-- An accepted access is outstanding. -/
theorem accept_phase (c : Cache M) (a : Word) (w : Bool) : (c.accept a w).phase ≠ .idle := by
  rw [accept_eq]
  rcases c.findWay a with _ | way
  · dsimp only
    split
    · exact (nomatch ·)
    · rw [acceptMiss_eq]
      dsimp only
      split <;> exact (nomatch ·)
  · dsimp only
    rw [acceptHit_eq]
    exact (nomatch ·)

theorem ready_ready (c : Cache M) (a : Word) (w : Bool) :
    (c.ready a w).2.ready a w = c.ready a w := by
  by_cases hp : c.phase = .idle
  · have hbusy := ready_of_busy (c.accept_phase a w) a w
    have hready : c.ready a w = (c.accept a w).ready a w := by
      rw [hbusy]
      unfold ready
      rw [if_pos hp]
    rw [ready_of_idle hp, hready]
  · rw [ready_of_busy hp]
    exact ready_of_busy hp a w

/-- The prefetch engine in another state. -/
def withEngine (c : Cache M) (act : Bool) (addr : Word) (way n : Nat) : Cache M :=
  { c with pfActive := act, pfAddr := addr, pfWay := way, pfChain := n }

/-- A reservation touches the prefetch engine only. -/
theorem reservePrefetch_frame (c : Cache M) (target : Word) (chain : Nat) :
    ∃ act addr way n, c.reservePrefetch target chain = c.withEngine act addr way n := by
  unfold reservePrefetch
  dsimp only
  split
  · exact ⟨c.pfActive, c.pfAddr, c.pfWay, c.pfChain, rfl⟩
  · split
    · exact ⟨c.pfActive, c.pfAddr, c.pfWay, c.pfChain, rfl⟩
    · exact ⟨_, _, _, _, rfl⟩

/-- Noting a request touches the request registers and the prefetch engine only. -/
theorem noted_frame (c : Cache M) (a : Word) (w : Bool) :
    ∃ act addr way n, c.noted a w =
      ({ c with curAddr := a, curIsWrite := w, lastHit := (c.findWay a).isSome } :
        Cache M).withEngine act addr way n := by
  unfold noted maybeStartPrefetch
  split
  · exact ⟨c.pfActive, c.pfAddr, c.pfWay, c.pfChain, rfl⟩
  · split
    · exact ⟨c.pfActive, c.pfAddr, c.pfWay, c.pfChain, rfl⟩
    · exact reservePrefetch_frame _ _ 1

/-- The background engine leaves the demand access alone. -/
theorem completePrefetch_frame (c : Cache M) :
    ∃ l r st act addr way n, c.completePrefetch =
      ({ c with lines := l, repl := r, stats := st } : Cache M).withEngine act addr way n := by
  have hinstalled : ∃ l r st, c.prefetchInstalled =
      ({ c with lines := l, repl := r, stats := st } : Cache M).withEngine false c.pfAddr c.pfWay
        c.pfChain := by
    unfold prefetchInstalled
    rw [installLine_eq]
    exact ⟨_, _, _, rfl⟩
  obtain ⟨l, r, st, hc⟩ := hinstalled
  refine ⟨l, r, st, ?_⟩
  rw [completePrefetch_eq]
  split
  · exact ⟨_, _, _, _, hc⟩
  · split
    · obtain ⟨act, addr, way, n, hr⟩ := reservePrefetch_frame c.prefetchInstalled _ _
      rw [hr, hc]
      exact ⟨act, addr, way, n, rfl⟩
    · exact ⟨_, _, _, _, hc⟩

/-! ## The backing -/

@[simp] theorem installLine_backing (c : Cache M) (set : Word) (way : Nat) (addr : Word)
    (w pf : Bool) : (c.installLine set way addr w pf).backing = c.backing := by
  unfold installLine setLine countUseless
  dsimp only
  split <;> rfl

@[simp] theorem reservePrefetch_backing (c : Cache M) (target : Word) (chain : Nat) :
    (c.reservePrefetch target chain).backing = c.backing := by
  unfold reservePrefetch
  dsimp only
  split
  · rfl
  · split <;> rfl

@[simp] theorem maybeStartPrefetch_backing (c : Cache M) (addr : Word) :
    (c.maybeStartPrefetch addr).backing = c.backing := by
  unfold maybeStartPrefetch
  split
  · rfl
  · split
    · rfl
    · simp

@[simp] theorem completePrefetch_backing (c : Cache M) :
    c.completePrefetch.backing = c.backing := by
  unfold completePrefetch
  dsimp only
  split
  · split <;> simp
  · simp

@[simp] theorem acceptHit_backing (c : Cache M) (set : Word) (way : Nat) (w : Bool) :
    (c.acceptHit set way w).backing = c.backing := by
  unfold acceptHit setLine countUseful
  dsimp only
  repeat' split
  all_goals rfl

@[simp] theorem acceptMiss_backing (c : Cache M) (set : Word) :
    (c.acceptMiss set).backing = c.backing := by
  unfold acceptMiss
  dsimp only
  repeat' split
  all_goals rfl

@[simp] theorem accept_backing (c : Cache M) (addr : Word) (w : Bool) :
    (c.accept addr w).backing = c.backing := by
  unfold accept
  dsimp only
  split
  · simp
  · split <;> simp

/-- `ready` only reads and writes the cache's own state. -/
@[simp] theorem ready_backing (c : Cache M) (addr : Word) (w : Bool) :
    (c.ready addr w).2.backing = c.backing := by
  unfold ready
  dsimp only
  split <;> simp

/-! ## Tick -/

/-- The end of a demand fetch that took over a prefetch. -/
def merged (c : Cache M) : Cache M := { c.fill.countUseful with pfActive := false }

/-- The hit timer counts down, or releases the request. -/
def countDown (c : Cache M) : Cache M :=
  if c.hitRemaining > 0 then { c with hitRemaining := c.hitRemaining - 1 }
  else { c with phase := .idle }

theorem countDown_frame (c : Cache M) :
    ∃ p k, c.countDown = { c with phase := p, hitRemaining := k } := by
  unfold countDown
  split
  · exact ⟨c.phase, _, rfl⟩
  · exact ⟨_, c.hitRemaining, rfl⟩

variable [IMemory M]

/-- Ask the backing for `a`, do `g` when it is served, and tick it. -/
def drive (g : Cache M → Cache M) (c : Cache M) (a : Word) (w : Bool) : Cache M :=
  let r := c.backingReady a w
  (if r.1 then g r.2 else r.2).backingTick

theorem servicePrefetch_eq (c : Cache M) :
    c.servicePrefetch = if !c.pfActive then c else c.drive completePrefetch c.pfAddr false := rfl

theorem tick_eq (c : Cache M) :
    c.tick =
      match c.phase with
      | .idle => c.servicePrefetch
      | .hitWait => c.countDown.servicePrefetch
      | .writeBack => c.drive (fun d => { d with phase := .missFetch }) c.wbAddr true
      | .missFetch => c.drive fill c.curAddr false
      | .prefetchWait => c.drive merged c.curAddr false := rfl

/-- What driving the backing comes to. -/
theorem drive_eq (g : Cache M → Cache M) (c : Cache M) (a : Word) (w : Bool) :
    c.drive g a w =
      if ((IMemory.port M).ready c.backing (a, w)).1 then
        (g { c with backing := ((IMemory.port M).ready c.backing (a, w)).2 }).backingTick
      else { c with backing := (IMemory.port M).poll c.backing (a, w) } := by
  unfold drive
  dsimp only
  change (if ((IMemory.port M).ready c.backing (a, w)).1 then _ else _ : Cache M).backingTick = _
  split <;> rfl

/-- Nothing of the demand access moves while the background engine has the backing. -/
theorem servicePrefetch_frame (c : Cache M) :
    ∃ b l r st act addr way n, c.servicePrefetch =
      ({ c with backing := b, lines := l, repl := r, stats := st } : Cache M).withEngine
        act addr way n := by
  have hsame : ∀ b, ∃ b' l r st act addr way n, ({ c with backing := b } : Cache M) =
      ({ c with backing := b', lines := l, repl := r, stats := st } : Cache M).withEngine
        act addr way n := fun b =>
    ⟨b, c.lines, c.repl, c.stats, c.pfActive, c.pfAddr, c.pfWay, c.pfChain, rfl⟩
  rw [servicePrefetch_eq]
  split
  · exact hsame c.backing
  · rw [drive_eq]
    split
    · obtain ⟨l, r, st, act, addr, way, n, hc⟩ := completePrefetch_frame
        { c with backing := ((IMemory.port M).ready c.backing (c.pfAddr, false)).2 }
      rw [hc]
      exact ⟨_, l, r, st, act, addr, way, n, rfl⟩
    · exact hsame _

/-- What the backing's own `ready` and `tick` leave alone, a cache tick leaves alone. -/
theorem tick_backing_invariant {β : Type} {g : M → β}
    (hr : ∀ m addr w, g (IMemory.ready m addr w).2 = g m) (ht : ∀ m, g (IMemory.tick m) = g m)
    (c : Cache M) : g c.tick.backing = g c.backing := by
  have hpf : ∀ c : Cache M, g c.servicePrefetch.backing = g c.backing := by
    intro c
    unfold servicePrefetch backingTick backingReady
    dsimp only
    split
    · rfl
    · split <;> simp [ht, hr]
  unfold tick fill backingTick backingReady countUseful
  dsimp only
  split
  · exact hpf c
  · split <;> exact hpf _
  · split <;> simp [ht, hr]
  · split <;> simp [ht, hr]
  · split <;> simp [ht, hr]

end Cache

end CpuSim
