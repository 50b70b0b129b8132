import CpuSim.Memory.Lines

/-!
# Resident lines along a run

The invariants of the residency in every state that calls of the port can reach: no line is
resident twice, a line is replaced only in a full set, and, as long as no request hits a reserved
way, never the line of its set that was touched last. A request that does hit a reserved way is
enough to lose that line (`replaces_recent_line`).
-/

namespace CpuSim

namespace Cache

variable {M : Type} {c : Cache M} {recent : Word → Option Nat} {careful : Prop} [IMemory M]

/-! ## Runs -/

/-- The way of each set that the first `i` calls touched last. -/
def lastTouched (c₀ : Cache M) (cs : List (Blocking.Call (Word × Bool))) :
    Nat → Word → Option Nat
  | 0 => fun _ => none
  | i + 1 => usedLast (lastTouched c₀ cs i) (cs[i]?.bind (c₀.atCall cs i).touched)

/-- The invariant along a run. -/
structure Resident (careful : Prop) (c : Cache M) (recent : Word → Option Nat) : Prop where
  placed : c.Placed recent
  sound : (c.residency recent).Sound (Set.Iio c.ways)
  spares : careful → (c.residency recent).Spares

omit [IMemory M] in
theorem Resident.moves {c' : Cache M} {recent' : Word → Option Nat} (h : Resident careful c recent)
    (hm : Moves careful c recent c' recent') : Resident careful c' recent' := by
  obtain ⟨es, hes⟩ := hm.events
  refine ⟨hm.placed, ?_, fun hcare => (h.spares hcare).run h.sound hes hcare⟩
  rw [hm.ways]
  exact h.sound.run hes

omit [IMemory M] in
theorem lineAt_new (m : M) (lineBytes sets ways hitLatency : Nat) (pf : Bool) (degree : Nat)
    (stats : Option SimStats) (set : Word) (way : Nat) :
    (new m lineBytes sets hitLatency ways pf degree stats).lineAt set way = {} := by
  rcases lineAt_cases (new m lineBytes sets hitLatency ways pf degree stats) set way with hl | hl
  · exact hl
  · exact List.eq_of_mem_replicate hl

omit [IMemory M] in
theorem resident_new (careful : Prop) (m : M) {lineBytes sets ways : Nat}
    (hs : CacheShape lineBytes sets ways) (hitLatency : Nat) (pf : Bool) (degree : Nat)
    (stats : Option SimStats) :
    Resident careful (new m lineBytes sets hitLatency ways pf degree stats) fun _ => none := by
  have hshape := wellFormed_new m hs hitLatency pf degree stats
  obtain ⟨⟨o, rfl⟩, ⟨i, rfl⟩, ⟨n, rfl⟩, hfits⟩ := hs
  refine ⟨⟨hshape, ?_, fun hx => (nomatch hx), fun hx => (nomatch hx), ⟨n, ?_⟩, ?_⟩,
    ⟨?_, ?_, ?_, ?_⟩, fun _ => ⟨fun r hr => (nomatch hr), fun p hp => (nomatch hp)⟩⟩
  · intro p hp
    simp only [new] at hp
    split at hp
    · cases hp
      simp only [new, log2Exact_two_pow]
    · cases hp
  · simp only [new, log2Exact_two_pow]
    exact TreePlru.shape_new _ _
  · intro _ set _ way hr
    cases hr
  · intro set way way' tag hheld
    change (if _ then _ else _) = _ at hheld
    split at hheld
    · rename_i hv
      rw [lineAt_new] at hv
      cases hv.2
    · cases hheld
  · exact fun r hr => (nomatch hr)
  · exact fun p hp => (nomatch hp)
  · exact fun r p hr => (nomatch hr)

/-- The invariant along every run; the last clause along a run without requests that hit a
    reserved way. -/
theorem resident_of_calls {c₀ : Cache M} {cs : List (Blocking.Call (Word × Bool))}
    (h : Resident careful c₀ fun _ => none)
    (hok : careful → 2 ≤ c₀.ways ∧
      ∀ i (hi : i < cs.length), (c₀.atCall cs i).hitsReserved cs[i] = false) :
    ∀ i ≤ cs.length, (c₀.atCall cs i).ways = c₀.ways ∧
      Resident careful (c₀.atCall cs i) (c₀.lastTouched cs i) := by
  apply Blocking.stateAt_invariant
    (P := fun i (c : Cache M) => c.ways = c₀.ways ∧ Resident careful c (c₀.lastTouched cs i))
    ⟨rfl, h⟩
  rintro i hi ⟨hways, hr⟩
  have htouched : c₀.lastTouched cs (i + 1) =
      usedLast (c₀.lastTouched cs i) ((c₀.atCall cs i).touched cs[i]) := by
    rw [lastTouched, List.getElem?_eq_getElem hi]
    rfl
  have hmoves := moves_call hr.placed hr.sound cs[i] fun hcare =>
    ⟨hways.ge.trans' (hok hcare).1, (hok hcare).2 i hi⟩
  rw [htouched]
  exact ⟨hmoves.ways.trans hways, hr.moves hmoves⟩

/-! ## No line twice -/

/-- No line is resident twice, and the line of an active prefetch is not resident. -/
structure NoDuplicates (c : Cache M) : Prop where
  tags : ∀ set : Word, set.toNat < 2 ^ c.indexBits → ∀ way < c.ways, ∀ way' < c.ways,
    (c.lineAt set way).valid = true → (c.lineAt set way').valid = true →
    (c.lineAt set way).tag = (c.lineAt set way').tag → way = way'
  lines : ∀ set set' : Word, set.toNat < 2 ^ c.indexBits → set'.toNat < 2 ^ c.indexBits →
    ∀ way < c.ways, ∀ way' < c.ways,
    (c.lineAt set way).valid = true → (c.lineAt set' way').valid = true →
    c.addrOf set (c.lineAt set way).tag = c.addrOf set' (c.lineAt set' way').tag →
    set = set' ∧ way = way'
  prefetch : c.pfActive = true → ∀ set : Word, set.toNat < 2 ^ c.indexBits → ∀ way < c.ways,
    (c.lineAt set way).valid = true → c.addrOf set (c.lineAt set way).tag ≠ c.lineAddrOf c.pfAddr

omit [IMemory M] in
theorem holds_of_valid (recent : Word → Option Nat) {set : Word} {way : Nat} (hw : way < c.ways)
    (hv : (c.lineAt set way).valid = true) :
    (c.residency recent).holds set way = some (c.lineAt set way).tag := if_pos ⟨hw, hv⟩

omit [IMemory M] in
theorem Resident.noDuplicates (h : Resident careful c recent) : c.NoDuplicates := by
  have hshape := h.placed.shape
  have htags : ∀ set : Word, set.toNat < 2 ^ c.indexBits → ∀ way < c.ways, ∀ way' < c.ways,
      (c.lineAt set way).valid = true → (c.lineAt set way').valid = true →
      (c.lineAt set way).tag = (c.lineAt set way').tag → way = way' := by
    intro set _ way hw way' hw' hv hv' htag
    have hheld := holds_of_valid recent hw hv
    rw [htag] at hheld
    exact h.sound.unique set way way' _ hheld (holds_of_valid recent hw' hv')
  -- The base address of a line tells its set and its tag.
  have hback : ∀ set set' tag tag' : Word, set.toNat < 2 ^ c.indexBits →
      set'.toNat < 2 ^ c.indexBits →
      tag.toNat < 2 ^ (32 - (c.offsetBits + c.indexBits)) →
      tag'.toNat < 2 ^ (32 - (c.offsetBits + c.indexBits)) →
      c.addrOf set tag = c.addrOf set' tag' → set = set' ∧ tag = tag' := by
    intro set set' tag tag' hs hs' ht ht' he
    have hindex := congrArg c.indexOf he
    have htag := congrArg c.tagOf he
    rw [indexOf_addrOf hshape hs ht, indexOf_addrOf hshape hs' ht'] at hindex
    rw [tagOf_addrOf hshape hs ht, tagOf_addrOf hshape hs' ht'] at htag
    exact ⟨hindex, htag⟩
  refine ⟨htags, ?_, ?_⟩
  · intro set set' hs hs' way hw way' hw' hv hv' he
    obtain ⟨rfl, htag⟩ := hback set set' _ _ hs hs' (tag_lineAt_lt hshape _ _)
      (tag_lineAt_lt hshape _ _) he
    exact ⟨rfl, htags set hs way hw way' hw' hv hv' htag⟩
  · intro hact set hs way hw hv he
    rw [lineAddrOf_eq_addrOf hshape] at he
    obtain ⟨rfl, htag⟩ := hback set _ _ _ hs (indexOf_lt hshape _) (tag_lineAt_lt hshape _ _)
      (tagOf_lt hshape _) he
    have hopen := h.sound.ahead ⟨c.indexOf c.pfAddr, c.tagOf c.pfAddr, c.pfWay⟩ (by
      simp only [residency, hact, if_true])
    exact hopen.absent way ((holds_of_valid recent hw hv).trans (congrArg some htag))

/-- In no state a cache can reach is a line resident twice. -/
theorem no_duplicates (m : M) {lineBytes sets ways : Nat} (hs : CacheShape lineBytes sets ways)
    (hitLatency : Nat) (pf : Bool) (degree : Nat) (stats : Option SimStats)
    (cs : List (Blocking.Call (Word × Bool))) {i : Nat} (hi : i ≤ cs.length) :
    ((new m lineBytes sets hitLatency ways pf degree stats).atCall cs i).NoDuplicates :=
  (resident_of_calls (resident_new False m hs hitLatency pf degree stats)
    (fun hf => hf.elim) i hi).2.noDuplicates

/-- A miss, and a store that merges with the prefetch it started, while the caller asks for
    another line. -/
def missThenMerge : List (Blocking.Call (Word × Bool)) :=
  [.ready (0, false), .tick, .tick, .tick, .tick, .ready (4, true), .ready (0, false), .tick,
    .tick, .tick]

theorem no_duplicates_missThenMerge :
    ((new (FlatMem.new 0 16 3) 4 2 1 2 true 2 none).atCall missThenMerge 10).NoDuplicates :=
  no_duplicates (FlatMem.new 0 16 3) ⟨⟨2, rfl⟩, ⟨1, rfl⟩, ⟨1, rfl⟩, by decide⟩ 1 true 2 none
    missThenMerge (by decide)

/-! ## The line touched last -/

/-- A tick that installs over a valid line does so in a full set. -/
def FillsInvalidFirst (c₀ : Cache M) (cs : List (Blocking.Call (Word × Bool))) : Prop :=
  ∀ i, cs[i]? = some .tick → ∀ set way, (c₀.atCall cs i).installs = some (set, way) →
    ((c₀.atCall cs i).lineAt set way).valid = true →
    ∀ way' < (c₀.atCall cs i).ways, ((c₀.atCall cs i).lineAt set way').valid = true

/-- A tick that installs over a valid line leaves the line of the set touched last. -/
def SparesRecentLines (c₀ : Cache M) (cs : List (Blocking.Call (Word × Bool))) : Prop :=
  ∀ i, cs[i]? = some .tick → ∀ set way, (c₀.atCall cs i).installs = some (set, way) →
    ((c₀.atCall cs i).lineAt set way).valid = true → c₀.lastTouched cs i set ≠ some way

/-- The way that a tick installs to is reserved. -/
theorem reserved_of_installs (h : c.Placed recent) {set : Word} {way : Nat}
    (hi : c.installs = some (set, way)) :
    ∃ r : Reservation Word Word Nat, r.set = set ∧ r.way = way ∧
      ((c.residency recent).demand = some r ∨ (c.residency recent).ahead = some r) := by
  cases hp : c.phase with
  | idle | hitWait =>
    rw [installs_quiet (by rw [hp]; simp)] at hi
    split at hi
    · rename_i hact
      rw [Bool.and_eq_true] at hact
      cases hi
      exact ⟨_, rfl, rfl, .inr (if_pos hact.1)⟩
    · cases hi
  | writeBack =>
    rw [installs_flushing hp] at hi
    cases hi
  | missFetch =>
    rw [installs_demand (.inl hp)] at hi
    split at hi
    · cases hi
      refine ⟨⟨c.indexOf c.curAddr, c.tagOf c.curAddr, c.victimWay⟩, rfl, rfl, .inl ?_⟩
      simp only [residency, hp]
    · cases hi
  | prefetchWait =>
    rw [installs_demand (.inr hp)] at hi
    obtain ⟨hact, hway, hline⟩ := h.merging hp
    have hsame := (lineAddrOf_eq_iff h.shape c.curAddr c.pfAddr).mp
      (hline.trans (h.aligned hact).symm)
    split at hi
    · cases hi
      exact ⟨⟨_, c.tagOf c.pfAddr, _⟩, hsame.1.symm, hway.symm, .inr (if_pos hact)⟩
    · cases hi

/-- An install over a valid line is in a full set, and spares the line touched last. -/
theorem Resident.installs (h : Resident careful c recent) {set : Word} {way : Nat}
    (hi : c.installs = some (set, way)) (hv : (c.lineAt set way).valid = true) :
    (∀ way' < c.ways, (c.lineAt set way').valid = true) ∧
      (careful → recent set ≠ some way) := by
  obtain ⟨r, rfl, rfl, hr⟩ := reserved_of_installs h.placed hi
  have hopen : (c.residency recent).Open (Set.Iio c.ways) r := hr.elim (h.sound.demand r)
    (h.sound.ahead r)
  have hheld : (c.residency recent).holds r.set r.way ≠ none := by
    rw [holds_of_valid recent hopen.inside hv]
    exact Option.some_ne_none _
  refine ⟨fun way' hw' => ?_, fun hcare => ?_⟩
  · by_contra hinvalid
    exact hopen.full hheld hw' (if_neg fun hvalid => hinvalid hvalid.2)
  · have hspares := h.spares hcare
    exact (hr.elim (hspares.demand r) (hspares.ahead r)) hheld

/-- A cache replaces lines of full sets only, and if no request of its callers hits a way that a
    prefetch has reserved, never the line of a set that was touched last. -/
theorem spares_recent_lines (m : M) {lineBytes sets ways : Nat}
    (hs : CacheShape lineBytes sets ways) (hways : 2 ≤ ways) (hitLatency : Nat) (pf : Bool)
    (degree : Nat) (stats : Option SimStats) (cs : List (Blocking.Call (Word × Bool))) :
    (new m lineBytes sets hitLatency ways pf degree stats).FillsInvalidFirst cs ∧
    ((∀ i (hi : i < cs.length),
      ((new m lineBytes sets hitLatency ways pf degree stats).atCall cs i).hitsReserved cs[i] =
        false) →
      (new m lineBytes sets hitLatency ways pf degree stats).SparesRecentLines cs) := by
  constructor
  · intro i hi set way hinst hv
    obtain ⟨hlt, -⟩ := List.getElem?_eq_some_iff.mp hi
    obtain ⟨-, hr⟩ := resident_of_calls (resident_new False m hs hitLatency pf degree stats)
      (fun hf => hf.elim) i hlt.le
    exact (hr.installs hinst hv).1
  · intro hok i hi set way hinst hv
    obtain ⟨hlt, -⟩ := List.getElem?_eq_some_iff.mp hi
    obtain ⟨-, hr⟩ := resident_of_calls (resident_new True m hs hitLatency pf degree stats)
      (fun _ => ⟨hways, hok⟩) i hlt.le
    exact (hr.installs hinst hv).2 trivial

/-- Two ways: the third line replaces the one of the first two that was not touched last. -/
def evictOther : List (Blocking.Call (Word × Bool)) :=
  [.ready (0, false), .tick, .tick, .ready (8, false), .tick, .tick, .ready (4, false), .tick]

theorem spares_recent_lines_evictOther :
    (new (FlatMem.new 0 16 1) 4 1 1 2 true 1 none).SparesRecentLines evictOther :=
  (spares_recent_lines (FlatMem.new 0 16 1) ⟨⟨2, rfl⟩, ⟨0, rfl⟩, ⟨1, rfl⟩, by decide⟩ (by decide) 1
    true 1 none evictOther).2 (by decide)

/-- One set of two 4-byte lines, prefetching the next line. -/
def twoWays : Cache FlatMem := new (FlatMem.new 0 16 1) 4 1 1 2 true 1 none

/-- Fill both ways, use line 0, then line 4. -/
def fillThenUse : List (Blocking.Call (Word × Bool)) :=
  [.ready (0, false), .tick, .tick, .ready (0, false), .tick, .ready (0, false), .tick,
    .ready (4, false), .tick]

/-- The use of line 4 reserves the way of line 4 itself for line 8, and the tick after it puts
    line 8 there. -/
theorem twoWays_replaces_recent_line : ¬ twoWays.SparesRecentLines fillThenUse := by
  intro h
  exact h 8 rfl 0 1 (by decide) (by decide) (by decide)

/-! ## The condition is sharp -/

/-- After a hit of a reserved way, if the backing serves the prefetch, ticks alone bring an
    install over the line just hit, with no other touch in between. -/
theorem replaces_recent_line (h : c.WellFormed) {a : Word} {w : Bool}
    (hbad : c.hitsReserved (.ready (a, w)) = true) {n : Nat} {b : M}
    (hd : (IMemory.port M).Drives ((c.ready a w).2.pfAddr, false) (c.ready a w).2.backing n b) :
    ∃ k set way, c.hitWay a = some (set, way) ∧
      (Cache.tick^[k] (c.ready a w).2).installs = some (set, way) ∧
      ((Cache.tick^[k] (c.ready a w).2).lineAt set way).valid = true ∧
      ∀ j < k, (Cache.tick^[j] (c.ready a w).2).installs = none := by
  obtain ⟨act, addr, way, m, hframe⟩ := noted_frame c a w
  have hshape := h.noted a w
  simp only [hitsReserved, Bool.and_eq_true, beq_iff_eq] at hbad
  obtain ⟨⟨⟨hp, hact⟩, hset⟩, hfind⟩ := hbad
  have hindex : c.indexOf a = (c.noted a w).indexOf a := by rw [hframe]; rfl
  have hrange : (c.indexOf a).toNat < 2 ^ (c.noted a w).indexBits := by
    rw [hindex]
    exact indexOf_lt hshape a
  have hlt : (c.noted a w).pfWay < (c.noted a w).ways := by
    have hlt := findWay_lt hfind
    rw [hframe] at hlt ⊢
    exact hlt
  have hvalid : ((c.noted a w).lineAt (c.indexOf a) (c.noted a w).pfWay).valid = true := by
    have hv := valid_of_findWay hfind
    rw [hframe] at hv ⊢
    exact hv
  have haccept : (c.ready a w).2 =
      (c.noted a w).acceptHit (c.indexOf a) (c.noted a w).pfWay w := by
    rw [ready_of_idle hp, accept_eq, hfind]
  have hfields : (c.ready a w).2.phase = .hitWait ∧ (c.ready a w).2.pfActive = true ∧
      (c.ready a w).2.indexOf (c.ready a w).2.pfAddr = c.indexOf a ∧
      (c.ready a w).2.pfWay = (c.noted a w).pfWay := by
    rw [haccept, acceptHit_eq, hindex]
    exact ⟨rfl, hact, hset, rfl⟩
  obtain ⟨k, m', p, r, -, hk, hinstalls, hnone⟩ :=
    Underway.lands ⟨.inr hfields.1, hfields.2.1⟩ rfl rfl hd
  rw [hfields.2.2.1, hfields.2.2.2] at hinstalls
  refine ⟨k, c.indexOf a, (c.noted a w).pfWay, ?_, hinstalls, ?_, hnone⟩
  · rw [hitWay, hfind]
    rfl
  · rw [hk]
    have hline := (lineAt_acceptHit hshape hrange hlt (c.indexOf a) hlt w).1
    rw [← haccept] at hline
    exact hline.trans hvalid

end Cache

end CpuSim
