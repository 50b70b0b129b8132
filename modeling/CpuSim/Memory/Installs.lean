import CpuSim.Memory.Geometry

/-!
# Installs

Lines are installed by ticks alone, one line at most on each (`tick_lines`): the demand fill of
a miss, the fill of a merged prefetch, or a prefetched line. `installs` names the way.
-/

namespace CpuSim

namespace Cache

variable {M : Type}

/-- The way a tick of this cache calls `install_line` on. -/
def installs [IMemory M] (c : Cache M) : Option (Word × Nat) :=
  match c.phase with
  | .idle | .hitWait =>
    if c.pfActive && ((IMemory.port M).ready c.backing (c.pfAddr, false)).1 then
      some (c.indexOf c.pfAddr, c.pfWay) else none
  | .writeBack => none
  | .missFetch | .prefetchWait =>
    if ((IMemory.port M).ready c.backing (c.curAddr, false)).1 then
      some (c.indexOf c.curAddr, c.victimWay) else none

variable {c : Cache M}

section Phases

variable [IMemory M]

theorem installs_quiet (hp : c.phase = .idle ∨ c.phase = .hitWait) :
    c.installs =
      if c.pfActive && ((IMemory.port M).ready c.backing (c.pfAddr, false)).1 then
        some (c.indexOf c.pfAddr, c.pfWay) else none := by
  unfold installs
  rcases hp with hp | hp <;> rw [hp]

/-- No line is filled while the victim is written back. -/
theorem installs_flushing (hp : c.phase = .writeBack) : c.installs = none := by
  unfold installs
  rw [hp]

theorem installs_demand (hp : c.phase = .missFetch ∨ c.phase = .prefetchWait) :
    c.installs =
      if ((IMemory.port M).ready c.backing (c.curAddr, false)).1 then
        some (c.indexOf c.curAddr, c.victimWay) else none := by
  unfold installs
  rcases hp with hp | hp <;> rw [hp]

end Phases

theorem lineAt_installLine (h : c.WellFormed) {set set' : Word} {way way' : Nat} (a : Word)
    (w pf : Bool) (hs : set.toNat < 2 ^ c.indexBits) (hw : way < c.ways) (hw' : way' < c.ways)
    (hne : ¬ (set' = set ∧ way' = way)) :
    (c.installLine set way a w pf).lineAt set' way' = c.lineAt set' way' := by
  rw [installLine_eq]
  have hl := lineAt_setLine h set' ⟨true, w, pf, c.tagOf a⟩ hs hw hw'
  rw [if_neg hne] at hl
  exact hl

theorem completePrefetch_lines (c : Cache M) :
    c.completePrefetch.lines = c.prefetchInstalled.lines := by
  rw [completePrefetch_eq]
  split
  · rfl
  · split
    · obtain ⟨act, addr, way, n, hframe⟩ := reservePrefetch_frame c.prefetchInstalled _ _
      rw [hframe]
      rfl
    · rfl

variable [IMemory M]

/-- Where a completed request installs its line, and that nothing else is installed. -/
theorem drive_lines {g : Cache M → Cache M} {set : Word} {way : Nat} {l : Line} (c : Cache M)
    (a : Word) (w : Bool) (hg : ∀ b, (g { c with backing := b }).lines =
      c.lines.set (c.slot set way) l) :
    (c.drive g a w).lines =
      if ((IMemory.port M).ready c.backing (a, w)).1 then c.lines.set (c.slot set way) l
      else c.lines := by
  rw [drive_eq]
  split
  · exact hg _
  · rfl

theorem servicePrefetch_lines (c : Cache M) :
    ∃ l, c.servicePrefetch.lines =
      if c.pfActive && ((IMemory.port M).ready c.backing (c.pfAddr, false)).1 then
        c.lines.set (c.slot (c.indexOf c.pfAddr) c.pfWay) l
      else c.lines := by
  refine ⟨⟨true, false, true, c.tagOf c.pfAddr⟩, ?_⟩
  rw [servicePrefetch_eq]
  by_cases hact : c.pfActive = true
  · rw [hact, Bool.true_and, if_neg (by decide)]
    apply drive_lines
    intro b
    rw [completePrefetch_lines, prefetchInstalled, installLine_eq]
    rfl
  · rw [Bool.eq_false_iff.mpr hact]
    rfl

/-- A tick installs a line where `installs` says, and leaves every other line alone. -/
theorem tick_lines (c : Cache M) :
    (c.installs = none ∧ c.tick.lines = c.lines) ∨
      ∃ set way l, c.installs = some (set, way) ∧
        c.tick.lines = c.lines.set (c.slot set way) l := by
  have hcases : ∀ {p : Bool} {set : Word} {way : Nat} {l : Line},
      c.installs = (if p then some (set, way) else none) →
      c.tick.lines = (if p then c.lines.set (c.slot set way) l else c.lines) →
      (c.installs = none ∧ c.tick.lines = c.lines) ∨
        ∃ set way l, c.installs = some (set, way) ∧
          c.tick.lines = c.lines.set (c.slot set way) l := by
    intro p set way l hi ht
    cases p with
    | false => exact .inl ⟨hi, ht⟩
    | true => exact .inr ⟨set, way, l, hi, ht⟩
  have hfill : ∀ b, ({ c with backing := b } : Cache M).fill.lines =
      c.lines.set (c.slot (c.indexOf c.curAddr) c.victimWay)
        ⟨true, c.curIsWrite, false, c.tagOf c.curAddr⟩ := by
    intro b
    rw [fill, installLine_eq]
    rfl
  cases hp : c.phase with
  | idle =>
    obtain ⟨l, hl⟩ := servicePrefetch_lines c
    exact hcases (by rw [installs, hp]) (by rw [tick_eq, hp]; exact hl)
  | hitWait =>
    obtain ⟨l, hl⟩ := servicePrefetch_lines c.countDown
    have hcount : c.countDown.servicePrefetch.lines =
        if c.pfActive && ((IMemory.port M).ready c.backing (c.pfAddr, false)).1 then
          c.lines.set (c.slot (c.indexOf c.pfAddr) c.pfWay) l else c.lines := by
      unfold countDown at hl ⊢
      split at hl
      · rename_i hk
        rw [if_pos hk]
        exact hl
      · rename_i hk
        rw [if_neg hk]
        exact hl
    exact hcases (by rw [installs, hp]) (by rw [tick_eq, hp]; exact hcount)
  | writeBack =>
    refine .inl ⟨by rw [installs, hp], ?_⟩
    rw [tick_eq, hp]
    dsimp only
    rw [drive_eq]
    split <;> rfl
  | missFetch =>
    exact hcases (by rw [installs, hp])
      (by rw [tick_eq, hp]; exact drive_lines c c.curAddr false hfill)
  | prefetchWait =>
    exact hcases (by rw [installs, hp])
      (by rw [tick_eq, hp]; exact drive_lines c c.curAddr false hfill)

/-! ## Prefetches that nothing stops -/

/-- A prefetch is on its way, and the demand leaves it the backing. -/
structure Underway (c : Cache M) : Prop where
  quiet : c.phase = .idle ∨ c.phase = .hitWait
  active : c.pfActive = true

/-- Until the backing serves the prefetch, a tick moves the hit timer only. -/
theorem Underway.tick (h : c.Underway)
    (hr : ((IMemory.port M).ready c.backing (c.pfAddr, false)).1 = false) :
    ∃ p k, (p = .idle ∨ p = .hitWait) ∧ c.tick =
      { c with
        backing := (IMemory.port M).poll c.backing (c.pfAddr, false)
        phase := p
        hitRemaining := k } := by
  have hwait : ∀ d : Cache M, d.pfActive = true →
      ((IMemory.port M).ready d.backing (d.pfAddr, false)).1 = false →
      d.servicePrefetch =
        { d with backing := (IMemory.port M).poll d.backing (d.pfAddr, false) } := by
    intro d hact hrd
    rw [servicePrefetch_eq, if_neg (by rw [hact]; decide), drive_eq,
      if_neg (by rw [hrd]; exact Bool.false_ne_true)]
  rw [tick_eq]
  rcases h.quiet with hp | hp
  · refine ⟨c.phase, c.hitRemaining, .inl hp, ?_⟩
    rw [hp]
    dsimp only
    rw [hwait c h.active hr, hp]
  · rw [hp]
    dsimp only
    unfold countDown
    split
    · exact ⟨c.phase, c.hitRemaining - 1, .inr hp,
        hwait { c with hitRemaining := c.hitRemaining - 1 } h.active hr⟩
    · exact ⟨.idle, c.hitRemaining, .inl rfl, hwait { c with phase := .idle } h.active hr⟩

/-- If the backing serves the prefetch, ticks alone bring its install, with every line still as
    it was. -/
theorem Underway.lands (h : c.Underway) {x : Word} {n : Nat} {m b : M} (hx : c.pfAddr = x)
    (hm : c.backing = m) (hd : (IMemory.port M).Drives (x, false) m n b) :
    ∃ k m' p r, (p = .idle ∨ p = .hitWait) ∧
      Cache.tick^[k] c = { c with backing := m', phase := p, hitRemaining := r } ∧
      (Cache.tick^[k] c).installs = some (c.indexOf c.pfAddr, c.pfWay) ∧
      ∀ j < k, (Cache.tick^[j] c).installs = none := by
  induction hd generalizing c with
  | served hr =>
    subst hx hm
    refine ⟨0, c.backing, c.phase, c.hitRemaining, h.quiet, rfl, ?_, fun j hj => by omega⟩
    rw [Function.iterate_zero_apply, installs_quiet h.quiet, h.active, hr]
    rfl
  | waits hr _ ih =>
    subst hx hm
    obtain ⟨p, r, hp, htick⟩ := h.tick hr
    have hnext : c.tick.Underway := by
      rw [htick]
      exact ⟨hp, h.active⟩
    obtain ⟨k, m', p', r', hp', hk, hinstalls, hnone⟩ := ih hnext (by rw [htick]) (by rw [htick])
    refine ⟨k + 1, m', p', r', hp', ?_, ?_, ?_⟩
    · rw [Function.iterate_succ_apply, hk, htick]
    · rw [Function.iterate_succ_apply, hinstalls, htick]
      rfl
    · rintro (_ | j) hj
      · rw [Function.iterate_zero_apply, installs_quiet h.quiet, h.active, hr]
        rfl
      · rw [Function.iterate_succ_apply]
        exact hnone j (by omega)

/-- The cache after the first `i` calls of a list. -/
abbrev atCall (c₀ : Cache M) (cs : List (Blocking.Call (Word × Bool))) (i : Nat) : Cache M :=
  (IMemory.port (Cache M)).stateAt cs c₀ i

end Cache

end CpuSim
