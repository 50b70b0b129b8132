import CpuSim.Memory.Waiting

/-!
# How long a read takes

A session of reads, each driven until it is served, with idle ticks in between. The caches of
such sessions stay `Clean`, so an accepted read never flushes: it waits for the backing once,
whatever the prefetch engine has begun there, and then for the hit timer, which no access
avoids.
-/

namespace CpuSim

namespace Cache

variable {M : Type} {c : Cache M}

/-! ## Clean caches -/

/-- Nothing has been stored through the cache. -/
structure Clean (c : Cache M) : Prop where
  lines : ∀ l ∈ c.lines, l.dirty = false
  request : c.curIsWrite = false
  phase : c.phase ≠ .writeBack

theorem Clean.lineAt (h : c.Clean) (set : Word) (way : Nat) :
    (c.lineAt set way).dirty = false := by
  rcases c.lineAt_cases set way with hl | hl
  · rw [hl]
  · exact h.lines _ hl

/-- A clean line written into clean lines. -/
theorem Clean.set (h : c.Clean) (k : Nat) {l : Line} (hl : l.dirty = false) :
    ∀ x ∈ c.lines.set k l, x.dirty = false := by
  intro x hx
  rcases List.mem_or_eq_of_mem_set hx with hx | rfl
  · exact h.lines x hx
  · exact hl

theorem clean_new (m : M) (lineBytes sets hitLatency ways : Nat) (pf : Bool) (degree : Nat)
    (stats : Option SimStats) :
    (new m lineBytes sets hitLatency ways pf degree stats).Clean := by
  refine ⟨fun l hl => ?_, rfl, (nomatch ·)⟩
  rw [List.eq_of_mem_replicate hl]

theorem Clean.accept (h : c.Clean) (a : Word) : (c.accept a false).Clean := by
  obtain ⟨act, addr, way, n, hn⟩ := c.noted_frame a false
  have hnoted : (c.noted a false).Clean := by
    rw [hn]
    exact ⟨h.lines, rfl, h.phase⟩
  rw [accept_eq]
  rcases c.findWay a with _ | way
  · dsimp only
    split
    · exact ⟨hnoted.lines, hnoted.request, (nomatch ·)⟩
    · have hvictim : (c.noted a false).dirtyAt (c.indexOf a)
          ((c.noted a false).chooseVictim (c.indexOf a)) = false := by
        unfold dirtyAt
        rw [hnoted.lineAt, Bool.and_false]
      rw [acceptMiss_eq, hvictim]
      exact ⟨hnoted.lines, hnoted.request, (nomatch ·)⟩
  · dsimp only
    rw [acceptHit_eq]
    refine ⟨hnoted.set _ ?_, hnoted.request, (nomatch ·)⟩
    dsimp only
    rw [hnoted.lineAt, Bool.or_false]

theorem Clean.ready (h : c.Clean) (a : Word) : (c.ready a false).2.Clean := by
  by_cases hp : c.phase = .idle
  · rw [ready_of_idle hp]
    exact h.accept a
  · rw [ready_of_busy hp]
    exact h

theorem Clean.completePrefetch (h : c.Clean) : c.completePrefetch.Clean := by
  obtain ⟨l, r, st, act, addr, way, n, hc⟩ := completePrefetch_frame c
  have hlines : ∀ x ∈ c.completePrefetch.lines, x.dirty = false := by
    rw [completePrefetch_lines, prefetchInstalled, installLine_eq]
    exact h.set _ rfl
  rw [hc] at hlines ⊢
  exact ⟨hlines, h.request, h.phase⟩

theorem Clean.fill (h : c.Clean) : c.fill.Clean := by
  have hlines : ∀ x ∈ c.fill.lines, x.dirty = false := by
    rw [Cache.fill, installLine_eq]
    exact h.set _ h.request
  have hphase : c.fill.phase = .hitWait := rfl
  refine ⟨hlines, ?_, by simp [hphase]⟩
  rw [Cache.fill, installLine_eq]
  exact h.request

variable [IMemory M]

theorem Clean.drive (h : c.Clean) {g : Cache M → Cache M}
    (hg : ∀ {d : Cache M}, d.Clean → (g d).Clean) (a : Word) (w : Bool) :
    (c.drive g a w).Clean := by
  have hb : ∀ {d : Cache M}, d.Clean → ∀ b, ({ d with backing := b } : Cache M).Clean :=
    fun hd _ => ⟨hd.lines, hd.request, hd.phase⟩
  rw [drive_eq]
  split
  · exact hb (hg (hb h _)) _
  · exact hb h _

theorem Clean.servicePrefetch (h : c.Clean) : c.servicePrefetch.Clean := by
  rw [servicePrefetch_eq]
  split
  · exact h
  · exact h.drive Clean.completePrefetch _ _

theorem Clean.tick (h : c.Clean) : c.tick.Clean := by
  rw [tick_eq]
  cases hp : c.phase with
  | idle => exact h.servicePrefetch
  | hitWait =>
    have hcount : c.countDown.Clean := by
      unfold countDown
      split
      · exact ⟨h.lines, h.request, h.phase⟩
      · exact ⟨h.lines, h.request, (nomatch ·)⟩
    exact hcount.servicePrefetch
  | writeBack => exact absurd hp h.phase
  | missFetch => exact h.drive Clean.fill _ _
  | prefetchWait =>
    have hmerged : ∀ {d : Cache M}, d.Clean → d.merged.Clean :=
      fun hd => ⟨hd.fill.lines, hd.fill.request, hd.fill.phase⟩
    exact h.drive hmerged _ _

/-! ## The hit timer -/

/-- The cycles that an access has to wait whatever the backing does. -/
def left (c : Cache M) : Nat :=
  match c.phase with
  | .idle => c.hitLatency - 1
  | .hitWait => c.hitRemaining.toNat
  | .writeBack | .missFetch | .prefetchWait => c.hitLatency

variable {Ok : M → Prop} {r : M → Nat} {hit bound : Nat}

omit [IMemory M] in
theorem Timing.left_accept (h : c.Timing Ok hit) (hp : c.phase = .idle) (a : Word) (w : Bool) :
    c.left ≤ (c.accept a w).left := by
  obtain ⟨hlat, hphase⟩ := c.accept_timer a w
  have heq := h.eq
  have htimer : toInt32 c.hitLatency = c.hitLatency := toInt32_of_latencyOk (heq ▸ h.ok)
  unfold left
  rw [hp]
  rcases hphase with ⟨hp', hk⟩ | hp' | hp' | hp' <;> rw [hp'] <;> dsimp only <;> omega

/-- A fetch that is served goes on to the full hit time. -/
theorem Timing.left_drive (h : c.Timing Ok hit) {g : Cache M → Cache M} (hg : StartsHit g)
    (hp : c.phase = .missFetch ∨ c.phase = .prefetchWait) (a : Word) (w : Bool) :
    c.left ≤ (c.drive g a w).left + 1 := by
  have hleft : c.left = c.hitLatency := by
    unfold left
    rcases hp with hp | hp <;> rw [hp]
  have htimer : toInt32 c.hitLatency = c.hitLatency := toInt32_of_latencyOk (h.eq ▸ h.ok)
  rw [drive_eq, hleft]
  split
  · generalize hd : ({ c with backing := _ } : Cache M) = d
    have hlat : d.hitLatency = c.hitLatency := by rw [← hd]
    have hphase : (g d).backingTick.phase = .hitWait := hg.phase d
    have hk : (g d).backingTick.hitRemaining = c.hitLatency - 1 := by
      rw [← htimer, ← hlat]
      exact hg.hitRemaining d
    unfold left
    rw [hphase]
    dsimp only
    omega
  · have hwait : ({ c with backing := (IMemory.port M).poll c.backing (a, w) } : Cache M).left =
        c.left := rfl
    omega

section Ranked

variable (hr : (IMemory.port M).Ranked Ok r bound)
include hr

omit [IMemory M] hr in
theorem served_iff {a : Word} {w : Bool} :
    (c.ready a w).1 = true ↔
      (c.ready a w).2.phase = .hitWait ∧ (c.ready a w).2.hitRemaining = 0 := by
  change ((c.ready a w).2.phase == .hitWait && (c.ready a w).2.hitRemaining == 0) = true ↔ _
  rw [Bool.and_eq_true, beq_iff_eq, beq_iff_eq]

/-- Every tick takes one cycle off the wait at most. -/
theorem Timing.left_tick (h : c.Timing Ok hit) (hp : c.phase ≠ .idle) :
    c.left ≤ c.tick.left + 1 := by
  rw [tick_eq]
  cases hphase : c.phase with
  | idle => exact absurd hphase hp
  | hitWait =>
    have hleft : c.left = c.hitRemaining.toNat := by
      unfold left
      rw [hphase]
    obtain ⟨-, hp', hk'⟩ := h.countDown.servicePrefetch hr
    dsimp only
    rw [hleft]
    by_cases hk : c.hitRemaining > 0
    · have hcount : c.countDown = { c with hitRemaining := c.hitRemaining - 1 } := if_pos hk
      unfold left
      rw [hp', hk', hcount]
      dsimp only
      rw [hphase]
      dsimp only
      omega
    · omega
  | writeBack =>
    have hleft : c.left = c.hitLatency := by
      unfold left
      rw [hphase]
    dsimp only
    rw [drive_eq, hleft]
    split
    · exact Nat.le_succ _
    · have hwait : ({ c with backing := (IMemory.port M).poll c.backing (c.wbAddr, true) } :
          Cache M).left = c.left := rfl
      omega
  | missFetch => exact h.left_drive startsHit_fill (.inl hphase) _ _
  | prefetchWait => exact h.left_drive startsHit_merged (.inr hphase) _ _

/-- The cycle after the one that serves, the cache is at rest. -/
theorem Timing.tick_released (h : c.Timing Ok hit) (hp : c.phase = .hitWait)
    (hk : c.hitRemaining = 0) : c.tick.phase = .idle := by
  have hcount : c.countDown = { c with phase := .idle } := if_neg (by omega)
  rw [tick_eq, hp]
  exact (h.countDown.servicePrefetch hr).2.1.trans (by rw [hcount])

/-- No access is served before the hit time is over, hit or miss. -/
theorem Timing.le_of_drives (h : c.Timing Ok hit) (hp : c.phase = .idle) {q : Word × Bool} {n : Nat}
    {t : Cache M} (hd : (IMemory.port (Cache M)).Drives q c n t) : hit ≤ n := by
  have hready : ∀ d : Cache M, d.Timing Ok hit → d.left ≤ (d.ready q.1 q.2).2.left ∧
      (d.ready q.1 q.2).2.Timing Ok hit ∧ (d.ready q.1 q.2).2.phase ≠ .idle := by
    intro d hd
    by_cases hp : d.phase = .idle
    · rw [ready_of_idle hp]
      exact ⟨hd.left_accept hp q.1 q.2, hd.accept q.1 q.2, d.accept_phase q.1 q.2⟩
    · rw [ready_of_busy hp]
      exact ⟨le_refl _, hd, hp⟩
  have hleft : c.left = hit - 1 := by
    unfold left
    rw [hp, h.eq]
  have hserved : ∀ d : Cache M, d.Timing Ok hit → (d.ready q.1 q.2).1 = true → d.left = 0 := by
    intro d hd hserved
    obtain ⟨hphase, hk⟩ := served_iff.mp hserved
    have hzero : (d.ready q.1 q.2).2.left = 0 := by
      unfold left
      rw [hphase, hk]
      rfl
    have hle := (hready d hd).1
    omega
  have hwaits : ∀ d : Cache M, d.Timing Ok hit → (d.ready q.1 q.2).1 = false →
      d.left ≤ (d.ready q.1 q.2).2.tick.left + 1 := by
    intro d hd _
    obtain ⟨hle, htiming, hbusy⟩ := hready d hd
    exact hle.trans (htiming.left_tick hr hbusy)
  have hle := hd.le (Timing Ok hit) left (fun d h => (h.ready q.1 q.2).tick hr) hserved hwaits h
  omega

/-! ## Reads -/

/-- A clean cache at rest. -/
structure AtRest (Ok : M → Prop) (hit : Nat) (c : Cache M) : Prop where
  timing : c.Timing Ok hit
  clean : c.Clean
  idle : c.phase = .idle

theorem AtRest.tick (h : c.AtRest Ok hit) : c.tick.AtRest Ok hit := by
  have hidle : c.tick.phase = .idle := by
    rw [tick_eq, h.idle]
    exact (h.timing.servicePrefetch hr).2.1.trans h.idle
  exact ⟨h.timing.tick hr, h.clean.tick, hidle⟩

/-- A read waits for the backing once and for the hit timer, and leaves the cache at rest. -/
theorem AtRest.drives (h : c.AtRest Ok hit) (a : Word) :
    ∃ n t, (IMemory.port (Cache M)).Drives (a, false) c n t ∧ t.AtRest Ok hit ∧
      n ≤ hit + bound + 1 := by
  have htiming := h.timing.ready a false
  have hclean := h.clean.ready a
  have hrank : (c.ready a false).2.rank r bound ≤ hit + bound := by
    have hle := hr.le htiming.backing
    have heq := htiming.eq
    rw [ready_of_idle h.idle] at htiming hclean hle heq ⊢
    cases hp : (c.accept a false).phase with
    | idle => exact absurd hp (c.accept_phase a false)
    | writeBack => exact absurd hp hclean.phase
    | hitWait =>
      have htimer := htiming.timer hp
      rw [rank_hitWait r bound hp]
      omega
    | missFetch =>
      rw [rank_fetch r bound (.inl hp)]
      omega
    | prefetchWait =>
      rw [rank_fetch r bound (.inr hp)]
      omega
  obtain ⟨n, t, hd, hn⟩ := (ranked hr hit).drives (a, false) htiming
  refine ⟨n, t, hd.of_ready (c.ready_ready a false), ?_, by omega⟩
  have hpoll : ∀ d : Cache M, d.Timing Ok hit ∧ d.Clean →
      (d.ready a false).2.tick.Timing Ok hit ∧ (d.ready a false).2.tick.Clean :=
    fun d hd => ⟨(hd.1.ready a false).tick hr, (hd.2.ready a).tick⟩
  obtain ⟨u, ⟨hu, huclean⟩, hserved, rfl⟩ := hd.last hpoll ⟨htiming, hclean⟩
  obtain ⟨hphase, hk⟩ := served_iff.mp hserved
  exact ⟨(hpoll u ⟨hu, huclean⟩).1, (hpoll u ⟨hu, huclean⟩).2,
    (hu.ready a false).tick_released hr hphase hk⟩

end Ranked

/-! ## Sessions -/

/-- A prefetch never delays a read beyond a cold miss. -/
theorem prefetch_delay_bounded {latency hit : Nat} {m : FlatMem} (hm : m.Timing latency)
    (hl : LatencyOk hit) (lineBytes sets ways degree : Nat) (stats : Option SimStats)
    (reads : List (Nat × Word)) :
    let c := new m lineBytes sets hit ways true degree stats
    let requests := reads.map fun x => (x.1, x.2, false)
    (∃ ns t, (IMemory.port (Cache FlatMem)).Session requests c ns t) ∧
      ∀ ns t, (IMemory.port (Cache FlatMem)).Session requests c ns t →
        ∀ n ∈ ns, hit ≤ n ∧ n ≤ latency + hit := by
  intro c requests
  have hpos := hm.ok.1
  have hranked := FlatMem.ranked latency
  have hrest : c.AtRest (FlatMem.Timing latency) hit := by
    refine ⟨⟨hl, if_neg ?_, hm, (nomatch ·)⟩, clean_new .., rfl⟩
    have := hl.1
    omega
  have htick : ∀ d : Cache FlatMem, d.AtRest (FlatMem.Timing latency) hit →
      d.tick.AtRest (FlatMem.Timing latency) hit := fun d hd => hd.tick hranked
  have hread : ∀ x ∈ requests, x.2.2 = false := by
    intro x hx
    obtain ⟨y, -, rfl⟩ := List.mem_map.mp hx
    rfl
  constructor
  · refine Blocking.exists_session (Q := fun q : Word × Bool => q.2 = false) htick ?_ _ hrest hread
    rintro d ⟨a, w⟩ hd rfl
    obtain ⟨n, t, hn, ht, -⟩ := hd.drives hranked a
    exact ⟨n, t, hn, ht⟩
  · intro ns t hs
    refine hs.forall_mem (Q := fun q : Word × Bool => q.2 = false) htick ?_ hrest hread
    rintro d ⟨a, w⟩ n t hd rfl hn
    obtain ⟨n', t', hn', ht', hle⟩ := hd.drives hranked a
    obtain ⟨rfl, rfl⟩ := hn.unique hn'
    exact ⟨ht', hd.timing.le_of_drives hranked hd.idle hn, by omega⟩

/-- A cold miss, a load of the line that is being prefetched behind it, and a load that finds the
    backing serving the prefetch after that. -/
theorem prefetch_delay_bounded_merge :
    ∃ ns t, (IMemory.port (Cache FlatMem)).Session
        [(0, 0, false), (1, 4, false), (2, 40, false)]
        (new (FlatMem.new 0 64 5) 4 2 1 1 true 1 none) ns t ∧
      ∀ n ∈ ns, 1 ≤ n ∧ n ≤ 6 := by
  have hm : (FlatMem.new 0 64 5).Timing 5 := ⟨⟨by decide, by decide⟩, rfl, (nomatch ·)⟩
  obtain ⟨⟨ns, t, hs⟩, hall⟩ := prefetch_delay_bounded hm (show LatencyOk 1 from
    ⟨by decide, by decide⟩) 4 2 1 1 none [(0, 0), (1, 4), (2, 40)]
  exact ⟨ns, t, hs, hall ns t hs⟩

end Cache

end CpuSim
