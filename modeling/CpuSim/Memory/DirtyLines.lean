import CpuSim.Memory.Installs

/-!
# Dirty lines and the prefetcher

The way a prefetch goes to is tested for dirtiness when it is reserved, not when the line
arrives. `Guard` is the invariant that would make this safe: a reserved way stays clean, and a
demand miss only has a dirty victim after its write-back. Every call keeps it but one, a store
that hits the reserved way (`storesIntoReserved`); after such a store the prefetch drops a dirty
line.
-/

namespace CpuSim

namespace Cache

variable {M : Type}

/-- A request that hits, as a store, the way a prefetch has reserved, be it for this very
    request. -/
def storesIntoReserved (c : Cache M) : Blocking.Call (Word × Bool) → Bool
  | .ready (a, w) =>
    let d := c.noted a w
    c.phase == .idle && w && d.pfActive && d.indexOf d.pfAddr == d.indexOf a &&
      c.findWay a == some d.pfWay
  | .tick => false

variable {c : Cache M}

/-! ## What changes the dirty bits -/

theorem dirtyAt_setLine (h : c.WellFormed) {set : Word} (set' : Word) {way way' : Nat} (l : Line)
    (hs : set.toNat < 2 ^ c.indexBits) (hw : way < c.ways) (hw' : way' < c.ways) :
    (c.setLine set way l).dirtyAt set' way' =
      if set' = set ∧ way' = way then l.valid && l.dirty else c.dirtyAt set' way' := by
  unfold dirtyAt
  rw [lineAt_setLine h set' l hs hw hw']
  split <;> rfl

/-- A hit dirties no other way, and its own only when it stores. -/
theorem dirtyAt_acceptHit (h : c.WellFormed) {set : Word} (set' : Word) {way way' : Nat} {w : Bool}
    (hs : set.toNat < 2 ^ c.indexBits) (hw : way < c.ways) (hw' : way' < c.ways)
    (hok : w = true → ¬ (set' = set ∧ way' = way)) :
    (c.acceptHit set way w).dirtyAt set' way' = c.dirtyAt set' way' := by
  rw [acceptHit_eq]
  have hl := dirtyAt_setLine h set' { c.lineAt set way with
    dirty := (c.lineAt set way).dirty || w, prefetched := false } hs hw hw'
  refine hl.trans ?_
  by_cases he : set' = set ∧ way' = way
  · rw [if_pos he]
    obtain ⟨rfl, rfl⟩ := he
    cases w with
    | false => unfold dirtyAt; rw [Bool.or_false]
    | true => exact absurd ⟨rfl, rfl⟩ (hok rfl)
  · rw [if_neg he]

/-- A store that hits leaves its line dirty. -/
theorem dirtyAt_acceptHit_store (h : c.WellFormed) {set : Word} {way : Nat}
    (hs : set.toNat < 2 ^ c.indexBits) (hw : way < c.ways)
    (hv : (c.lineAt set way).valid = true) : (c.acceptHit set way true).dirtyAt set way = true := by
  rw [acceptHit_eq]
  have hl := dirtyAt_setLine h set { c.lineAt set way with
    dirty := (c.lineAt set way).dirty || true, prefetched := false } hs hw hw
  rw [if_pos ⟨rfl, rfl⟩] at hl
  refine hl.trans ?_
  dsimp only
  rw [hv, Bool.or_true]
  rfl

/-! ## The invariant -/

/-- The base address of the line in the victim way. -/
def victimBase (c : Cache M) : Word :=
  c.addrOf (c.indexOf c.curAddr) (c.lineAt (c.indexOf c.curAddr) c.victimWay).tag

/-- The way a prefetch has reserved is in range and clean. -/
def ReservedClean (c : Cache M) : Prop :=
  c.pfActive = true → c.pfWay < c.ways ∧ c.dirtyAt (c.indexOf c.pfAddr) c.pfWay = false

/-- The demand miss and the prefetch are not after the same way. -/
def Apart (c : Cache M) : Prop :=
  c.victimWay < c.ways ∧
    (c.pfActive = true → ¬ (c.indexOf c.pfAddr = c.indexOf c.curAddr ∧ c.pfWay = c.victimWay))

/-- What stands between each phase and its install, when `Flushed` says of an address that its
    write-back has just completed. -/
def Covered (Flushed : Word → Prop) (c : Cache M) : Prop :=
  match c.phase with
  | .idle | .hitWait => True
  | .writeBack => c.Apart ∧ c.wbAddr = c.victimBase
  | .missFetch => c.Apart ∧
      (c.dirtyAt (c.indexOf c.curAddr) c.victimWay = true → Flushed c.victimBase)
  | .prefetchWait =>
    c.pfActive = true ∧ c.victimWay = c.pfWay ∧ c.indexOf c.curAddr = c.indexOf c.pfAddr

theorem covered_quiet {F : Word → Prop} (hp : c.phase = .idle ∨ c.phase = .hitWait) :
    c.Covered F := by
  unfold Covered
  rcases hp with hp | hp <;> rw [hp] <;> trivial

theorem covered_writeBack {F : Word → Prop} (hp : c.phase = .writeBack) :
    c.Covered F ↔ c.Apart ∧ c.wbAddr = c.victimBase := by
  unfold Covered
  rw [hp]

theorem covered_missFetch {F : Word → Prop} (hp : c.phase = .missFetch) :
    c.Covered F ↔ c.Apart ∧
      (c.dirtyAt (c.indexOf c.curAddr) c.victimWay = true → F c.victimBase) := by
  unfold Covered
  rw [hp]

theorem covered_prefetchWait {F : Word → Prop} (hp : c.phase = .prefetchWait) :
    c.Covered F ↔
      c.pfActive = true ∧ c.victimWay = c.pfWay ∧ c.indexOf c.curAddr = c.indexOf c.pfAddr := by
  unfold Covered
  rw [hp]

/-- No line is dropped dirty, as long as no store hits a reserved way. -/
structure Guard (Flushed : Word → Prop) (c : Cache M) : Prop where
  shape : c.WellFormed
  reserved : c.ReservedClean
  covered : c.Covered Flushed

/-! ## Reservations -/

/-- A reservation is of a clean way. -/
theorem ReservedClean.reservePrefetch (h : c.WellFormed) (hr : c.ReservedClean) (target : Word)
    (chain : Nat) : (c.reservePrefetch target chain).ReservedClean := by
  unfold Cache.reservePrefetch
  dsimp only
  split
  · exact hr
  · split
    · exact hr
    · rename_i hclean
      intro _
      exact ⟨chooseVictim_lt h _, Bool.eq_false_iff.mpr hclean⟩

theorem ReservedClean.noted (h : c.WellFormed) (hr : c.ReservedClean) (a : Word) (w : Bool) :
    (c.noted a w).ReservedClean := by
  have hshape : ({ c with curAddr := a, curIsWrite := w, lastHit := (c.findWay a).isSome } :
      Cache M).WellFormed := h.frame rfl
  unfold Cache.noted maybeStartPrefetch
  split
  · exact hr
  · split
    · exact hr
    · exact ReservedClean.reservePrefetch hshape hr _ 1

/-! ## Requests -/

variable {Flushed Flushed' : Word → Prop}

theorem ReservedClean.acceptHit (h : c.WellFormed) (hr : c.ReservedClean) {set : Word}
    {way : Nat} {w : Bool} (hs : set.toNat < 2 ^ c.indexBits) (hw : way < c.ways)
    (hok : w = true → c.pfActive = true → ¬ (c.indexOf c.pfAddr = set ∧ c.pfWay = way)) :
    (c.acceptHit set way w).ReservedClean := by
  intro hact
  have hact' : c.pfActive = true := by rwa [acceptHit_eq] at hact
  obtain ⟨hlt, hclean⟩ := hr hact'
  have hd := dirtyAt_acceptHit h (c.indexOf c.pfAddr) hs hw hlt fun hw => hok hw hact'
  have hfields : (c.acceptHit set way w).indexOf (c.acceptHit set way w).pfAddr =
      c.indexOf c.pfAddr ∧ (c.acceptHit set way w).pfWay = c.pfWay ∧
        (c.acceptHit set way w).ways = c.ways := by
    rw [acceptHit_eq]
    exact ⟨rfl, rfl, rfl⟩
  rw [hfields.1, hfields.2.1, hfields.2.2, hd]
  exact ⟨hlt, hclean⟩

/-- A miss takes its victim's way from the prefetcher, and starts with the write-back of a dirty
    victim. -/
theorem Guard.acceptMiss (h : c.WellFormed) (hr : c.ReservedClean) :
    (c.acceptMiss (c.indexOf c.curAddr)).Guard Flushed := by
  have hv := chooseVictim_lt h (c.indexOf c.curAddr)
  rw [acceptMiss_eq]
  refine ⟨h.frame rfl, ?_, ?_⟩
  · intro hact
    rw [Bool.and_eq_true] at hact
    exact hr hact.1
  · have hapart : (c.pfActive &&
          !c.clash (c.indexOf c.curAddr) (c.chooseVictim (c.indexOf c.curAddr))) = true →
        ¬ (c.indexOf c.pfAddr = c.indexOf c.curAddr ∧
          c.pfWay = c.chooseVictim (c.indexOf c.curAddr)) := by
      rintro hact ⟨hset, hway⟩
      simp [clash, hset, hway] at hact
    unfold Covered
    cases hd : c.dirtyAt (c.indexOf c.curAddr) (c.chooseVictim (c.indexOf c.curAddr)) with
    | true => exact ⟨⟨hv, hapart⟩, rfl⟩
    | false => exact ⟨⟨hv, hapart⟩, fun hdirty => absurd (hd.symm.trans hdirty) (by decide)⟩

theorem Guard.accept (h : c.Guard Flushed) {a : Word} {w : Bool} (hp : c.phase = .idle)
    (hok : c.storesIntoReserved (.ready (a, w)) = false) : (c.accept a w).Guard Flushed' := by
  have hr := h.reserved.noted h.shape a w
  obtain ⟨act, addr, way, n, hframe⟩ := noted_frame c a w
  have hshape := h.shape.noted a w
  have hindex : c.indexOf a = (c.noted a w).indexOf a := by rw [hframe]; rfl
  have hcur : (c.noted a w).curAddr = a := by rw [hframe]; rfl
  rw [accept_eq]
  rcases hfind : c.findWay a with _ | hit
  · dsimp only
    split
    · -- the demand merges with the prefetch of its line
      rename_i hmerge
      rw [Bool.and_eq_true, beq_iff_eq] at hmerge
      refine ⟨hshape.frame rfl, hr, hmerge.1, rfl, ?_⟩
      change (c.noted a w).indexOf (c.noted a w).curAddr =
        (c.noted a w).indexOf (c.noted a w).pfAddr
      rw [hcur, ← hmerge.2, indexOf_lineAddrOf hshape]
    · have hmiss : ((c.noted a w).acceptMiss ((c.noted a w).indexOf (c.noted a w).curAddr)).Guard
          Flushed' := Guard.acceptMiss hshape hr
      rw [hcur, ← hindex] at hmiss
      exact hmiss
  · have hway : hit < (c.noted a w).ways := by
      rw [hframe]
      exact findWay_lt hfind
    have hset : (c.indexOf a).toNat < 2 ^ (c.noted a w).indexBits := by
      rw [hindex]
      exact indexOf_lt hshape a
    have hfree : w = true → (c.noted a w).pfActive = true →
        ¬ ((c.noted a w).indexOf (c.noted a w).pfAddr = c.indexOf a ∧
          (c.noted a w).pfWay = hit) := by
      rintro rfl hact ⟨hs, hy⟩
      have hbad : c.storesIntoReserved (.ready (a, true)) = true := by
        simp only [storesIntoReserved, hp, hact, hfind, hy, hs.trans hindex, beq_self_eq_true,
          Bool.and_self]
      rw [hok] at hbad
      cases hbad
    dsimp only
    refine ⟨hshape.acceptHit _ _ _, hr.acceptHit hshape hset hway hfree, ?_⟩
    rw [acceptHit_eq]
    trivial

theorem Guard.ready (h : c.Guard Flushed) {a : Word} {w : Bool}
    (hok : c.storesIntoReserved (.ready (a, w)) = false)
    (hkeep : c.phase = .missFetch → ∀ x, Flushed x → Flushed' x) :
    (c.ready a w).2.Guard Flushed' := by
  by_cases hp : c.phase = .idle
  · rw [ready_of_idle hp]
    exact h.accept hp hok
  · rw [ready_of_busy hp]
    refine ⟨h.shape, h.reserved, ?_⟩
    have hc := h.covered
    cases hph : c.phase with
    | idle => exact covered_quiet (.inl hph)
    | hitWait => exact covered_quiet (.inr hph)
    | writeBack => exact (covered_writeBack hph).mpr ((covered_writeBack hph).mp hc)
    | missFetch =>
      obtain ⟨hapart, hflushed⟩ := (covered_missFetch hph).mp hc
      exact (covered_missFetch hph).mpr ⟨hapart, fun hd => hkeep hph _ (hflushed hd)⟩
    | prefetchWait => exact (covered_prefetchWait hph).mpr ((covered_prefetchWait hph).mp hc)

/-! ## Ticks -/

theorem Guard.countDown (h : c.Guard Flushed) (hp : c.phase = .hitWait) :
    c.countDown.Guard Flushed ∧ (c.countDown.phase = .idle ∨ c.countDown.phase = .hitWait) := by
  unfold Cache.countDown
  split
  · exact ⟨⟨h.shape.frame rfl, h.reserved, covered_quiet (.inr hp)⟩, .inr hp⟩
  · exact ⟨⟨h.shape.frame rfl, h.reserved, trivial⟩, .inl rfl⟩

/-- What is open at the backing is no concern of the invariant. -/
theorem Guard.backing (h : c.Guard Flushed) (b : M) :
    ({ c with backing := b } : Cache M).Guard Flushed :=
  ⟨h.shape.frame rfl, h.reserved, h.covered⟩

theorem Guard.completePrefetch (h : c.Guard Flushed) (hp : c.phase = .idle ∨ c.phase = .hitWait) :
    c.completePrefetch.Guard Flushed' := by
  have hshape : c.prefetchInstalled.WellFormed := by
    have hi := h.shape.installLine (c.indexOf c.pfAddr) c.pfWay c.pfAddr false true
    exact hi.frame rfl
  have hres : c.prefetchInstalled.ReservedClean := fun hact => by cases hact
  have hphase : c.prefetchInstalled.phase = c.phase := by
    unfold prefetchInstalled
    rw [installLine_eq]
  have hcov : ∀ d : Cache M, d.phase = c.phase → d.Covered Flushed' := by
    intro d hd
    exact covered_quiet (hd ▸ hp)
  rw [completePrefetch_eq]
  split
  · exact ⟨hshape, hres, hcov _ hphase⟩
  · split
    · obtain ⟨act, addr, way, n, hframe⟩ := reservePrefetch_frame c.prefetchInstalled _ _
      refine ⟨?_, hres.reservePrefetch hshape _ _, hcov _ ?_⟩
      · rw [hframe]
        exact hshape.frame rfl
      · rw [hframe]
        exact hphase
    · exact ⟨hshape, hres, hcov _ hphase⟩

/-- A demand fill leaves a reserved way elsewhere alone. -/
theorem Guard.fill (h : c.Guard Flushed) (hv : c.victimWay < c.ways)
    (hapart : c.pfActive = true →
      ¬ (c.indexOf c.pfAddr = c.indexOf c.curAddr ∧ c.pfWay = c.victimWay)) :
    c.fill.Guard Flushed' := by
  have hi := h.shape.installLine (c.indexOf c.curAddr) c.victimWay c.curAddr c.curIsWrite false
  have heq := installLine_eq c (c.indexOf c.curAddr) c.victimWay c.curAddr c.curIsWrite false
  refine ⟨hi.frame rfl, ?_, trivial⟩
  intro hact
  have hact' : c.pfActive = true := by
    unfold Cache.fill at hact
    rwa [heq] at hact
  obtain ⟨hlt, hclean⟩ := h.reserved hact'
  have hline := lineAt_installLine h.shape c.curAddr c.curIsWrite false
    (indexOf_lt h.shape c.curAddr) hv hlt (hapart hact')
  have hfields : c.fill.indexOf c.fill.pfAddr = c.indexOf c.pfAddr ∧ c.fill.pfWay = c.pfWay ∧
      c.fill.ways = c.ways := by
    unfold Cache.fill
    rw [heq]
    exact ⟨rfl, rfl, rfl⟩
  rw [hfields.1, hfields.2.1, hfields.2.2]
  refine ⟨hlt, ?_⟩
  unfold dirtyAt at hclean ⊢
  rw [← hline] at hclean
  exact hclean

/-- The fill of a merged prefetch leaves nothing reserved. -/
theorem Guard.merged (h : c.Guard Flushed) : c.merged.Guard Flushed' := by
  have hi := h.shape.installLine (c.indexOf c.curAddr) c.victimWay c.curAddr c.curIsWrite false
  have hidle : c.merged.pfActive = false := rfl
  refine ⟨hi.frame rfl, ?_, trivial⟩
  intro hact
  rw [hidle] at hact
  cases hact

variable [IMemory M]

theorem Guard.backingTick (h : c.Guard Flushed) : c.backingTick.Guard Flushed := h.backing _

theorem Guard.servicePrefetch (h : c.Guard Flushed) (hp : c.phase = .idle ∨ c.phase = .hitWait) :
    c.servicePrefetch.Guard Flushed' := by
  have hfree : ∀ {d : Cache M}, d.Guard Flushed → d.phase = c.phase → d.Guard Flushed' := by
    intro d hd hdp
    exact ⟨hd.shape, hd.reserved, covered_quiet (hdp ▸ hp)⟩
  rw [servicePrefetch_eq]
  split
  · exact hfree h rfl
  · rw [drive_eq]
    split
    · exact Guard.backingTick (Guard.completePrefetch (h.backing _) hp)
    · exact hfree (h.backing _) rfl

/-- A tick keeps the invariant: `Flushed'` takes over what stays in the fetch of a miss, and
    holds of a write-back this very tick completes. -/
theorem Guard.tick (h : c.Guard Flushed)
    (hkeep : c.phase = .missFetch → c.tick.phase = .missFetch → ∀ x, Flushed x → Flushed' x)
    (hdone : c.phase = .writeBack → c.tick.phase = .missFetch → Flushed' c.wbAddr) :
    c.tick.Guard Flushed' := by
  have hc := h.covered
  cases hp : c.phase with
  | idle =>
    rw [tick_eq, hp]
    exact h.servicePrefetch (.inl hp)
  | hitWait =>
    obtain ⟨hcount, hphase⟩ := h.countDown hp
    rw [tick_eq, hp]
    exact hcount.servicePrefetch hphase
  | writeBack =>
    have htick : c.tick = c.drive (fun d => { d with phase := .missFetch }) c.wbAddr true := by
      rw [tick_eq, hp]
    obtain ⟨hapart, hwb⟩ := (covered_writeBack hp).mp hc
    rw [htick, drive_eq] at hdone ⊢
    split
    · rename_i hr
      rw [if_pos hr] at hdone
      have hflushed := hdone hp rfl
      rw [hwb] at hflushed
      exact ⟨h.shape.frame rfl, h.reserved, hapart, fun _ => hflushed⟩
    · exact ⟨(h.backing _).shape, h.reserved, (covered_writeBack hp).mpr ⟨hapart, hwb⟩⟩
  | missFetch =>
    have htick : c.tick = c.drive Cache.fill c.curAddr false := by rw [tick_eq, hp]
    obtain ⟨hapart, hflushed⟩ := (covered_missFetch hp).mp hc
    rw [htick, drive_eq] at hkeep ⊢
    split
    · exact Guard.backingTick (Guard.fill (h.backing _) hapart.1 hapart.2)
    · rename_i hr
      rw [if_neg hr] at hkeep
      exact ⟨(h.backing _).shape, h.reserved,
        (covered_missFetch hp).mpr ⟨hapart, fun hd => hkeep hp hp _ (hflushed hd)⟩⟩
  | prefetchWait =>
    have htick : c.tick = c.drive Cache.merged c.curAddr false := by rw [tick_eq, hp]
    rw [htick, drive_eq]
    split
    · exact Guard.backingTick (Guard.merged (h.backing _))
    · exact ⟨(h.backing _).shape, h.reserved,
        (covered_prefetchWait hp).mpr ((covered_prefetchWait hp).mp hc)⟩

/-! ## Runs -/

/-- Of the calls before the `i`-th, one was a tick that completed the write-back of `addr`, and
    since then the cache has been fetching. -/
def FlushedBy (c₀ : Cache M) (cs : List (Blocking.Call (Word × Bool))) (i : Nat) (addr : Word) :
    Prop :=
  ∃ j < i, cs[j]? = some .tick ∧
    (c₀.atCall cs j).phase = .writeBack ∧ (c₀.atCall cs j).wbAddr = addr ∧
    ((IMemory.port M).ready (c₀.atCall cs j).backing (addr, true)).1 = true ∧
    ∀ k, j < k → k ≤ i → (c₀.atCall cs k).phase = .missFetch

/-- Every install over a valid dirty line ends a demand miss that has just written that very
    line back. -/
def KeepsDirtyLines (c₀ : Cache M) (cs : List (Blocking.Call (Word × Bool))) : Prop :=
  ∀ i, cs[i]? = some .tick → ∀ set way,
    (c₀.atCall cs i).installs = some (set, way) → (c₀.atCall cs i).dirtyAt set way = true →
    (c₀.atCall cs i).phase = .missFetch ∧
      ∃ addr, c₀.FlushedBy cs i addr ∧ (c₀.atCall cs i).indexOf addr = set ∧
        (c₀.atCall cs i).tagOf addr = ((c₀.atCall cs i).lineAt set way).tag ∧
        (c₀.atCall cs i).lineAddrOf addr = addr

/-- A fetch that goes on does not forget the write-back before it. -/
theorem FlushedBy.succ {c₀ : Cache M} {cs : List (Blocking.Call (Word × Bool))} {i : Nat}
    {addr : Word} (h : c₀.FlushedBy cs i addr)
    (hp : (c₀.atCall cs (i + 1)).phase = .missFetch) : c₀.FlushedBy cs (i + 1) addr := by
  obtain ⟨j, hj, hcall, hphase, haddr, hready, hsince⟩ := h
  refine ⟨j, by omega, hcall, hphase, haddr, hready, ?_⟩
  intro k hjk hki
  rcases Nat.lt_or_ge i k with hik | hik
  · obtain rfl : k = i + 1 := by omega
    exact hp
  · exact hsince k hjk hik

/-- The write-back a tick completes. -/
theorem FlushedBy.of_tick {c₀ : Cache M} {cs : List (Blocking.Call (Word × Bool))} {i : Nat}
    (hi : i < cs.length) (hcall : cs[i] = .tick) (hp : (c₀.atCall cs i).phase = .writeBack)
    (ht : (c₀.atCall cs (i + 1)).phase = .missFetch) :
    c₀.FlushedBy cs (i + 1) (c₀.atCall cs i).wbAddr := by
  have hnext : c₀.atCall cs (i + 1) = (c₀.atCall cs i).tick := by
    rw [atCall, Blocking.stateAt_succ c₀ hi, hcall]
    rfl
  refine ⟨i, by omega, List.getElem?_eq_some_iff.mpr ⟨hi, hcall⟩, hp, rfl, ?_, ?_⟩
  · rw [hnext, tick_eq, hp, drive_eq] at ht
    by_contra hr
    rw [if_neg hr] at ht
    exact absurd (hp.symm.trans ht) (by decide)
  · intro k hik hki
    obtain rfl : k = i + 1 := by omega
    exact ht

/-- The invariant along a run that never stores into a reserved way. -/
theorem guard_of_calls {c₀ : Cache M} {cs : List (Blocking.Call (Word × Bool))}
    (h : c₀.Guard (c₀.FlushedBy cs 0))
    (hok : ∀ i (hi : i < cs.length), (c₀.atCall cs i).storesIntoReserved cs[i] = false) :
    ∀ i ≤ cs.length, (c₀.atCall cs i).Guard (c₀.FlushedBy cs i) := by
  apply Blocking.stateAt_invariant (P := fun i (c : Cache M) => c.Guard (c₀.FlushedBy cs i)) h
  intro i hi hg
  have hsucc : c₀.atCall cs (i + 1) = (IMemory.port (Cache M)).call (c₀.atCall cs i) cs[i] :=
    Blocking.stateAt_succ c₀ hi
  have hfine := hok i hi
  cases hcall : cs[i] with
  | ready r =>
    rw [hcall] at hsucc hfine
    apply Guard.ready hg hfine
    intro hp x hx
    apply hx.succ
    rw [hsucc]
    change ((c₀.atCall cs i).ready r.1 r.2).2.phase = _
    rw [ready_of_busy (by rw [hp]; decide)]
    exact hp
  | tick =>
    rw [hcall] at hsucc
    have hphase : (c₀.atCall cs (i + 1)).phase = (c₀.atCall cs i).tick.phase :=
      congrArg phase hsucc
    apply Guard.tick hg
    · intro _ hp x hx
      exact hx.succ (hphase.trans hp)
    · intro hp ht
      exact FlushedBy.of_tick hi hcall hp (hphase.trans ht)

/-- Under the invariant an install over a dirty line is that of a flushed miss. -/
theorem Guard.installs {F : Word → Prop} (h : c.Guard F) {set : Word} {way : Nat}
    (hi : c.installs = some (set, way)) (hd : c.dirtyAt set way = true) :
    c.phase = .missFetch ∧ ∃ addr, F addr ∧ c.indexOf addr = set ∧
      c.tagOf addr = (c.lineAt set way).tag ∧ c.lineAddrOf addr = addr := by
  have hc := h.covered
  have hreserved : c.pfActive = true → ¬ (set = c.indexOf c.pfAddr ∧ way = c.pfWay) := by
    rintro hact ⟨rfl, rfl⟩
    rw [(h.reserved hact).2] at hd
    cases hd
  cases hp : c.phase with
  | idle | hitWait =>
    rw [installs_quiet (by rw [hp]; simp)] at hi
    split at hi
    · rename_i hact
      rw [Bool.and_eq_true] at hact
      cases hi
      exact absurd ⟨rfl, rfl⟩ (hreserved hact.1)
    · cases hi
  | writeBack =>
    rw [installs_flushing hp] at hi
    cases hi
  | missFetch =>
    rw [installs_demand (.inl hp)] at hi
    obtain ⟨-, hflushed⟩ := (covered_missFetch hp).mp hc
    split at hi
    · cases hi
      have hset := indexOf_lt h.shape c.curAddr
      have htag := tag_lineAt_lt h.shape (c.indexOf c.curAddr) c.victimWay
      exact ⟨rfl, c.victimBase, hflushed hd, indexOf_addrOf h.shape hset htag,
        tagOf_addrOf h.shape hset htag, lineAddrOf_addrOf h.shape hset htag⟩
    · cases hi
  | prefetchWait =>
    rw [installs_demand (.inr hp)] at hi
    obtain ⟨hact, hway, hindex⟩ := (covered_prefetchWait hp).mp hc
    split at hi
    · cases hi
      exact absurd ⟨hindex, hway⟩ (hreserved hact)
    · cases hi

omit [IMemory M] in
theorem guard_new (m : M) {lineBytes sets ways : Nat} (hs : CacheShape lineBytes sets ways)
    (hitLatency : Nat) (pf : Bool) (degree : Nat) (stats : Option SimStats) (F : Word → Prop) :
    (new m lineBytes sets hitLatency ways pf degree stats).Guard F :=
  ⟨wellFormed_new m hs hitLatency pf degree stats, fun hact => (nomatch hact), trivial⟩

/-- A cache whose callers never store into a way that a prefetch has reserved drops no dirty
    line. -/
theorem keeps_dirty_lines (m : M) {lineBytes sets ways : Nat}
    (hs : CacheShape lineBytes sets ways) (hitLatency : Nat) (pf : Bool) (degree : Nat)
    (stats : Option SimStats) {cs : List (Blocking.Call (Word × Bool))}
    (hok : ∀ i (hi : i < cs.length),
      ((new m lineBytes sets hitLatency ways pf degree stats).atCall cs i).storesIntoReserved
        cs[i] = false) :
    (new m lineBytes sets hitLatency ways pf degree stats).KeepsDirtyLines cs := by
  intro i hi set way hinst hd
  obtain ⟨hlt, -⟩ := List.getElem?_eq_some_iff.mp hi
  have hg := guard_of_calls (guard_new m hs hitLatency pf degree stats _) hok i (by omega)
  exact hg.installs hinst hd

/-- A dirty line of a 2-set prefetching cache is evicted by the third access, after its
    write-back. -/
def evictDirty : List (Blocking.Call (Word × Bool)) :=
  [.ready (0, true), .tick, .ready (0, true), .tick, .ready (8, false), .tick, .tick,
    .ready (8, false), .tick]

theorem keeps_dirty_lines_evictDirty :
    (new (FlatMem.new 0 16 1) 4 2 1 1 true 1 none).KeepsDirtyLines evictDirty :=
  keeps_dirty_lines (FlatMem.new 0 16 1) ⟨⟨2, rfl⟩, ⟨1, rfl⟩, ⟨0, rfl⟩, by decide⟩ 1 true 1 none
    (by decide)

/-- One set of one 4-byte line, prefetching the next line. -/
def oneLine : Cache FlatMem := new (FlatMem.new 0 16 1) 4 1 1 1 true 1 none

/-- Load the line, then store to it. -/
def loadThenStore : List (Blocking.Call (Word × Bool)) :=
  [.ready (0, false), .tick, .ready (0, false), .tick, .ready (0, true), .tick]

/-- The store reserves the only way for the next line, dirties it, and the prefetch installs
    over it without a write-back. -/
theorem oneLine_drops_dirty_line : ¬ oneLine.KeepsDirtyLines loadThenStore := by
  intro h
  obtain ⟨hp, -⟩ := h 5 rfl 0 0 (by decide) (by decide)
  exact absurd hp (by decide)

/-! ## The condition is sharp -/

/-- A prefetch is on its way to a dirty line, and no demand miss is under way. -/
structure Doomed (c : Cache M) : Prop where
  quiet : c.phase = .idle ∨ c.phase = .hitWait
  active : c.pfActive = true
  dirty : c.dirtyAt (c.indexOf c.pfAddr) c.pfWay = true

omit [IMemory M] in
theorem doomed_of_storesIntoReserved (h : c.WellFormed) {a : Word} {w : Bool}
    (hbad : c.storesIntoReserved (.ready (a, w)) = true) : (c.ready a w).2.Doomed := by
  obtain ⟨act, addr, way, n, hframe⟩ := noted_frame c a w
  have hshape := h.noted a w
  simp only [storesIntoReserved, Bool.and_eq_true, beq_iff_eq] at hbad
  obtain ⟨⟨⟨⟨hp, rfl⟩, hact⟩, hset⟩, hfind⟩ := hbad
  have hindex : c.indexOf a = (c.noted a true).indexOf a := by rw [hframe]; rfl
  have hlt : (c.noted a true).pfWay < (c.noted a true).ways := by
    have hlt := findWay_lt hfind
    rw [hframe] at hlt ⊢
    exact hlt
  have hvalid : ((c.noted a true).lineAt (c.indexOf a) (c.noted a true).pfWay).valid = true := by
    have hv := valid_of_findWay hfind
    rw [hframe] at hv ⊢
    exact hv
  have haccept : (c.ready a true).2 =
      (c.noted a true).acceptHit (c.indexOf a) (c.noted a true).pfWay true := by
    rw [ready_of_idle hp, accept_eq, hfind]
  have hdirty := dirtyAt_acceptHit_store hshape (by rw [hindex]; exact indexOf_lt hshape a) hlt
    hvalid
  rw [haccept]
  have hfields : ((c.noted a true).acceptHit (c.indexOf a) (c.noted a true).pfWay true).indexOf
      ((c.noted a true).acceptHit (c.indexOf a) (c.noted a true).pfWay true).pfAddr =
        c.indexOf a := by
    rw [acceptHit_eq, hindex]
    exact hset
  refine ⟨?_, ?_, ?_⟩
  · rw [acceptHit_eq]
    exact .inr rfl
  · rw [acceptHit_eq]
    exact hact
  · rw [hfields]
    rw [acceptHit_eq] at hdirty ⊢
    exact hdirty

/-- Ticks alone bring the install over the dirty line. -/
theorem Doomed.drops (h : c.Doomed) {x : Word} {n : Nat} {m b : M} (hx : c.pfAddr = x)
    (hm : c.backing = m) (hd : (IMemory.port M).Drives (x, false) m n b) :
    ∃ k set way, (Cache.tick^[k] c).installs = some (set, way) ∧
      (Cache.tick^[k] c).dirtyAt set way = true ∧ (Cache.tick^[k] c).phase ≠ .missFetch := by
  obtain ⟨k, m', p, r, hp, hk, hinstalls, -⟩ := Underway.lands ⟨h.quiet, h.active⟩ hx hm hd
  refine ⟨k, _, _, hinstalls, ?_, ?_⟩
  · rw [hk]
    exact h.dirty
  · rw [hk]
    rcases hp with rfl | rfl <;> exact (nomatch ·)

/-- A store into a reserved way loses the dirty line: if the backing serves the prefetch, ticks
    alone bring a state whose next tick installs over it with no miss under way. -/
theorem drops_dirty_line (h : c.WellFormed) {a : Word} {w : Bool}
    (hbad : c.storesIntoReserved (.ready (a, w)) = true) {n : Nat} {b : M}
    (hd : (IMemory.port M).Drives ((c.ready a w).2.pfAddr, false) (c.ready a w).2.backing n b) :
    ∃ k set way, (Cache.tick^[k] (c.ready a w).2).installs = some (set, way) ∧
      (Cache.tick^[k] (c.ready a w).2).dirtyAt set way = true ∧
      (Cache.tick^[k] (c.ready a w).2).phase ≠ .missFetch :=
  (doomed_of_storesIntoReserved h hbad).drops rfl rfl hd

end Cache

end CpuSim
