import CpuSim.Base.Ledger
import CpuSim.Memory.Recency
import Mathlib.Data.List.GetD
import Mathlib.Data.Nat.Count

/-!
# What becomes of prefetched lines

Every call of the port as events of the tag array's slots (`slotEvents`): a hit uses its slot, an
install takes it, a prefetch is placed in it, and a merge is used on arrival. The flags of the
lines and the two prefetch counters of the probe are the tally of these events (`Probed`), so
each completed prefetch is counted once at most, as useful or as useless.
-/

namespace CpuSim

/-- A prefetched line that no demand has touched. -/
def Line.unused (l : Line) : Bool := l.valid && l.prefetched

/-! ## Flags and counters -/

/-- The tally has the lines still flagged and the counts of the probe. -/
structure Probed (lines : List Line) (stats : Option SimStats) (t : Tally Nat) : Prop where
  slots : ∀ k, k ∈ t.slots ↔ (lines.getD k {}).unused = true
  probe : ∃ s, stats = some s ∧ s.icachePrefetchUseful = t.used ∧
    s.icachePrefetchUseless = t.wasted

theorem getD_set {α : Type*} {l : List α} {k : Nat} (hk : k < l.length) (x d : α) (j : Nat) :
    (l.set k x).getD j d = if j = k then x else l.getD j d := by
  rw [List.getD_eq_getElem?_getD, List.getD_eq_getElem?_getD, List.getElem?_set]
  by_cases hj : j = k
  · subst hj
    rw [if_pos rfl, if_pos hk, if_pos rfl]
    rfl
  · rw [if_neg (Ne.symm hj), if_neg hj]

namespace Probed

variable {lines : List Line} {stats : Option SimStats} {t : Tally Nat} {k : Nat} {l : Line}

theorem inSlot (h : Probed lines stats t) (k : Nat) :
    t.inSlot k = if (lines.getD k {}).unused then 1 else 0 := by
  unfold Tally.inSlot
  by_cases hk : k ∈ t.slots
  · rw [if_pos hk, if_pos ((h.slots k).mp hk)]
  · rw [if_neg hk, if_neg fun hu => hk ((h.slots k).mpr hu)]

/-- The flags after one line is written. -/
theorem slots_erase (h : Probed lines stats t) (hk : k < lines.length) (hl : l.unused = false)
    (j : Nat) : j ∈ t.slots.erase k ↔ ((lines.set k l).getD j {}).unused = true := by
  rw [getD_set hk, Finset.mem_erase, h.slots j]
  by_cases hj : j = k
  · simp [hj, hl]
  · simp [hj]

theorem slots_insert (h : Probed lines stats t) (hk : k < lines.length) (hl : l.unused = true)
    (j : Nat) : j ∈ insert k t.slots ↔ ((lines.set k l).getD j {}).unused = true := by
  rw [getD_set hk, Finset.mem_insert, h.slots j]
  by_cases hj : j = k
  · simp [hj, hl]
  · simp [hj]

/-- A demand touches the line and clears its flag. -/
theorem use (h : Probed lines stats t) (hk : k < lines.length) (hl : l.unused = false) :
    Probed (lines.set k l)
      (if (lines.getD k {}).unused then stats.map SimStats.countUseful else stats)
      (t.step (.use k)) := by
  refine ⟨h.slots_erase hk hl, ?_⟩
  obtain ⟨s, rfl, huseful, huseless⟩ := h.probe
  change ∃ s', _ ∧ _ = t.used + t.inSlot k ∧ _ = t.wasted
  rw [h.inSlot]
  split
  · exact ⟨s.countUseful, rfl, congrArg (· + 1) huseful, huseless⟩
  · exact ⟨s, rfl, huseful, huseless⟩

/-- The probe counts the line that an install replaces. -/
theorem replaced (h : Probed lines stats t) (k : Nat) :
    ∃ s, (if (lines.getD k {}).unused then stats.map SimStats.countUseless else stats) = some s ∧
      s.icachePrefetchUseful = t.used ∧ s.icachePrefetchUseless = t.wasted + t.inSlot k := by
  obtain ⟨s, rfl, huseful, huseless⟩ := h.probe
  rw [h.inSlot]
  split
  · exact ⟨s.countUseless, rfl, huseful, congrArg (· + 1) huseless⟩
  · exact ⟨s, rfl, huseful, huseless⟩

/-- An install replaces the line, by a flagged one when it is a prefetch. -/
theorem install (h : Probed lines stats t) (hk : k < lines.length) :
    Probed (lines.set k l)
      (if (lines.getD k {}).unused then stats.map SimStats.countUseless else stats)
      (t.step (if l.unused then .place k else .take k)) := by
  cases hl : l.unused with
  | false => exact ⟨h.slots_erase hk hl, h.replaced k⟩
  | true => exact ⟨h.slots_insert hk hl, h.replaced k⟩

/-- A prefetch that a demand waits for is useful without ever being flagged. -/
theorem pass (h : Probed lines stats t) :
    Probed lines (stats.map SimStats.countUseful) (t.step .pass) := by
  obtain ⟨s, rfl, huseful, huseless⟩ := h.probe
  exact ⟨h.slots, s.countUseful, rfl, congrArg (· + 1) huseful, huseless⟩

theorem card_slots (h : Probed lines stats t) : t.slots.card = lines.countP Line.unused := by
  have hslots : t.slots =
      (Finset.range lines.length).filter fun k => (lines.getD k {}).unused = true := by
    ext k
    rw [Finset.mem_filter, Finset.mem_range, h.slots k]
    constructor
    · intro hu
      refine ⟨?_, hu⟩
      by_contra hk
      rw [List.getD_eq_getElem?_getD, List.getElem?_eq_none (by omega)] at hu
      cases hu
    · exact And.right
  have hlines : lines = (List.range lines.length).map fun k => lines.getD k {} := by
    apply List.ext_getElem
    · simp
    · intro k hk _
      simp [hk]
  rw [hslots, ← Nat.count_eq_card_filter_range]
  conv_rhs => rw [hlines, List.countP_map]
  unfold Nat.count
  exact List.countP_congr fun k _ => by simp

end Probed

namespace Cache

variable {M : Type} {c : Cache M} {t : Tally Nat}

/-! ## Requests -/

/-- Noting a request and accepting it moves no flag unless it hits. -/
theorem probed_accept (h : c.WellFormed) (hp : Probed c.lines c.stats t) (a : Word) (w : Bool) :
    Probed (c.accept a w).lines (c.accept a w).stats
      ((match c.hitWay a with
        | some (set, way) => [SlotEvent.use (c.slot set way)]
        | none => []).foldl Tally.step t) := by
  obtain ⟨act, addr, pfWay, n, hframe⟩ := noted_frame c a w
  rw [accept_eq, hframe, hitWay]
  cases hfind : c.findWay a with
  | none =>
    dsimp only
    split
    · exact hp
    · rw [acceptMiss_eq]
      exact hp
  | some way =>
    have hvalid := valid_of_findWay hfind
    have hslot := slot_lt h (indexOf_lt h a) (findWay_lt hfind)
    have hflag : (c.lines.getD (c.slot (c.indexOf a) way) {}).unused =
        (c.lineAt (c.indexOf a) way).prefetched := by
      change ((c.lineAt (c.indexOf a) way).valid && _) = _
      rw [hvalid, Bool.true_and]
      rfl
    dsimp only [Option.map_some, List.foldl_cons, List.foldl_nil]
    rw [acceptHit_eq]
    have huse := hp.use hslot (l := { c.lineAt (c.indexOf a) way with
      dirty := (c.lineAt (c.indexOf a) way).dirty || w, prefetched := false }) (Bool.and_false _)
    rw [hflag] at huse
    exact huse

/-! ## Installs -/

theorem probed_installLine (hp : Probed c.lines c.stats t) {set : Word} {way : Nat}
    (hk : c.slot set way < c.lines.length) (a : Word) (w pf : Bool) :
    Probed (c.installLine set way a w pf).lines (c.installLine set way a w pf).stats
      (t.step (if pf then .place (c.slot set way) else .take (c.slot set way))) := by
  rw [installLine_eq]
  exact hp.install hk (l := ⟨true, w, pf, c.tagOf a⟩)

theorem probed_completePrefetch (hp : Probed c.lines c.stats t)
    (hk : c.slot (c.indexOf c.pfAddr) c.pfWay < c.lines.length) :
    Probed c.completePrefetch.lines c.completePrefetch.stats
      (t.step (.place (c.slot (c.indexOf c.pfAddr) c.pfWay))) := by
  have hinstalled : Probed c.prefetchInstalled.lines c.prefetchInstalled.stats
      (t.step (.place (c.slot (c.indexOf c.pfAddr) c.pfWay))) :=
    probed_installLine hp hk c.pfAddr false true
  rw [completePrefetch_eq]
  split
  · exact hinstalled
  · split
    · obtain ⟨act, addr, way, n, hframe⟩ := reservePrefetch_frame c.prefetchInstalled _ _
      rw [hframe]
      exact hinstalled
    · exact hinstalled

theorem probed_fill (hp : Probed c.lines c.stats t)
    (hk : c.slot (c.indexOf c.curAddr) c.victimWay < c.lines.length) :
    Probed c.fill.lines c.fill.stats
      (t.step (.take (c.slot (c.indexOf c.curAddr) c.victimWay))) :=
  probed_installLine hp hk c.curAddr c.curIsWrite false

/-! ## Calls -/

variable [IMemory M]

/-- What a call does to the slots of the tag array, as far as prefetches go. -/
def slotEvents (c : Cache M) : Blocking.Call (Word × Bool) → List (SlotEvent Nat)
  | .ready (a, _) =>
    if c.phase = .idle then
      match c.hitWay a with
      | some (set, way) => [.use (c.slot set way)]
      | none => []
    else []
  | .tick =>
    match c.installs with
    | none => []
    | some (set, way) =>
      match c.phase with
      | .idle | .hitWait => [.place (c.slot set way)]
      | .prefetchWait => [.take (c.slot set way), .pass]
      | .writeBack | .missFetch => [.take (c.slot set way)]

theorem slotEvents_quiet (hp : c.phase = .idle ∨ c.phase = .hitWait) :
    c.slotEvents .tick =
      if c.pfActive && ((IMemory.port M).ready c.backing (c.pfAddr, false)).1 then
        [.place (c.slot (c.indexOf c.pfAddr) c.pfWay)] else [] := by
  unfold slotEvents
  rw [installs_quiet hp]
  cases c.pfActive && ((IMemory.port M).ready c.backing (c.pfAddr, false)).1 with
  | false => rfl
  | true => rcases hp with hp | hp <;> rw [hp] <;> rfl

theorem slotEvents_flushing (hp : c.phase = .writeBack) : c.slotEvents .tick = [] := by
  unfold slotEvents
  rw [installs_flushing hp]

theorem slotEvents_missFetch (hp : c.phase = .missFetch) :
    c.slotEvents .tick =
      if ((IMemory.port M).ready c.backing (c.curAddr, false)).1 then
        [.take (c.slot (c.indexOf c.curAddr) c.victimWay)] else [] := by
  unfold slotEvents
  rw [installs_demand (.inl hp), hp]
  cases ((IMemory.port M).ready c.backing (c.curAddr, false)).1 <;> rfl

theorem slotEvents_prefetchWait (hp : c.phase = .prefetchWait) :
    c.slotEvents .tick =
      if ((IMemory.port M).ready c.backing (c.curAddr, false)).1 then
        [.take (c.slot (c.indexOf c.curAddr) c.victimWay), .pass] else [] := by
  unfold slotEvents
  rw [installs_demand (.inr hp), hp]
  cases ((IMemory.port M).ready c.backing (c.curAddr, false)).1 <;> rfl

/-- A request driven to the backing: nothing until it is served, and `g` on that cycle. -/
theorem probed_drive {g : Cache M → Cache M} {es : List (SlotEvent Nat)}
    (hp : Probed c.lines c.stats t) (a : Word) (w : Bool)
    (hg : ∀ b, Probed (g { c with backing := b }).lines (g { c with backing := b }).stats
      (es.foldl Tally.step t)) :
    Probed (c.drive g a w).lines (c.drive g a w).stats
      ((if ((IMemory.port M).ready c.backing (a, w)).1 then es else []).foldl Tally.step t) := by
  rw [drive_eq]
  split
  · exact hg _
  · exact hp

theorem probed_servicePrefetch (hp : Probed c.lines c.stats t)
    (hk : c.pfActive = true → c.slot (c.indexOf c.pfAddr) c.pfWay < c.lines.length) :
    Probed c.servicePrefetch.lines c.servicePrefetch.stats
      ((if c.pfActive && ((IMemory.port M).ready c.backing (c.pfAddr, false)).1 then
        [SlotEvent.place (c.slot (c.indexOf c.pfAddr) c.pfWay)] else []).foldl Tally.step t) := by
  rw [servicePrefetch_eq]
  cases hact : c.pfActive with
  | false => exact hp
  | true =>
    rw [Bool.true_and]
    refine probed_drive hp c.pfAddr false fun b => ?_
    exact probed_completePrefetch (c := { c with backing := b }) hp (hk hact)

omit [IMemory M] in
/-- A reserved way has a slot. -/
theorem Resident.slot_lt {recent : Word → Option Nat} (h : Resident False c recent) {a tag : Word}
    {way : Nat} (hr : (c.residency recent).demand = some ⟨c.indexOf a, tag, way⟩ ∨
      (c.residency recent).ahead = some ⟨c.indexOf a, tag, way⟩) :
    c.slot (c.indexOf a) way < c.lines.length := by
  have hopen := hr.elim (h.sound.demand _) (h.sound.ahead _)
  exact Cache.slot_lt h.placed.shape (indexOf_lt h.placed.shape a) hopen.inside

/-- Every tick moves the flags and the counters as its events say. -/
theorem probed_tick {recent : Word → Option Nat} (h : Resident False c recent)
    (hp : Probed c.lines c.stats t) :
    Probed c.tick.lines c.tick.stats ((c.slotEvents .tick).foldl Tally.step t) := by
  have hahead : c.pfActive = true → c.slot (c.indexOf c.pfAddr) c.pfWay < c.lines.length :=
    fun hact => h.slot_lt (.inr (if_pos hact))
  rw [tick_eq]
  cases hphase : c.phase with
  | idle =>
    rw [slotEvents_quiet (.inl hphase)]
    exact probed_servicePrefetch hp hahead
  | hitWait =>
    -- The hit timer changes nothing that the engine looks at.
    dsimp only
    rw [slotEvents_quiet (.inr hphase)]
    unfold countDown
    split
    · exact probed_servicePrefetch (c := { c with hitRemaining := c.hitRemaining - 1 }) hp hahead
    · exact probed_servicePrefetch (c := { c with phase := .idle }) hp hahead
  | writeBack =>
    rw [slotEvents_flushing hphase]
    dsimp only
    rw [drive_eq]
    split <;> exact hp
  | missFetch =>
    have hvictim : c.slot (c.indexOf c.curAddr) c.victimWay < c.lines.length :=
      h.slot_lt (.inl (show (c.residency recent).demand =
        some ⟨c.indexOf c.curAddr, c.tagOf c.curAddr, c.victimWay⟩ by
          simp only [residency, hphase]))
    rw [slotEvents_missFetch hphase]
    refine probed_drive hp c.curAddr false fun b => ?_
    exact probed_fill (c := { c with backing := b }) hp hvictim
  | prefetchWait =>
    obtain ⟨hact, hway, hline⟩ := h.placed.merging hphase
    have hset := ((lineAddrOf_eq_iff h.placed.shape c.curAddr c.pfAddr).mp
      (hline.trans (h.placed.aligned hact).symm)).1
    have hvictim := hahead hact
    rw [← hset, ← hway] at hvictim
    rw [slotEvents_prefetchWait hphase]
    refine probed_drive hp c.curAddr false fun b => ?_
    exact (probed_fill (c := { c with backing := b }) hp hvictim).pass

theorem probed_call {recent : Word → Option Nat} (h : Resident False c recent)
    (hp : Probed c.lines c.stats t) (call : Blocking.Call (Word × Bool)) :
    Probed ((IMemory.port (Cache M)).call c call).lines
      ((IMemory.port (Cache M)).call c call).stats
      ((c.slotEvents call).foldl Tally.step t) := by
  cases call with
  | tick => exact probed_tick h hp
  | ready r =>
    change Probed (c.ready r.1 r.2).2.lines (c.ready r.1 r.2).2.stats
      ((if c.phase = .idle then _ else []).foldl Tally.step t)
    by_cases hphase : c.phase = .idle
    · rw [ready_of_idle hphase, if_pos hphase]
      exact probed_accept h.placed.shape hp r.1 r.2
    · rw [ready_of_busy hphase, if_neg hphase]
      exact hp

/-! ## Runs -/

/-- The events of a run. -/
def slotTrace (c₀ : Cache M) (cs : List (Blocking.Call (Word × Bool))) :
    List (SlotEvent Nat) := (IMemory.port (Cache M)).outputs slotEvents cs c₀

/-- How many lines the prefetch engine installs on a run. -/
def prefetchInstalls (c₀ : Cache M) (cs : List (Blocking.Call (Word × Bool))) : Nat :=
  (c₀.slotTrace cs).countP SlotEvent.isPlace

/-- How many demand accesses that merged with a prefetch are filled on a run. -/
def mergesCompleted (c₀ : Cache M) (cs : List (Blocking.Call (Word × Bool))) : Nat :=
  (c₀.slotTrace cs).count .pass

omit [IMemory M] in
theorem probed_new (m : M) (lineBytes sets hitLatency ways : Nat) (pf : Bool) (degree : Nat) :
    Probed (new m lineBytes sets hitLatency ways pf degree (some {})).lines (some {}) {} := by
  refine ⟨fun k => ?_, {}, rfl, rfl, rfl⟩
  change k ∈ (∅ : Finset Nat) ↔ Line.unused ((List.replicate (sets * ways) {}).getD k {}) = true
  rw [List.getD_eq_getElem?_getD, List.getElem?_getD_replicate_default_eq]
  simp [Line.unused]

/-- Every completed prefetch is numbered; the numbers filed as used and as wasted are those the
    probe has counted, each of them once, and what they leave of all prefetches is still flagged. -/
theorem prefetches_accounted (m : M) {lineBytes sets ways : Nat}
    (hs : CacheShape lineBytes sets ways) (hitLatency degree : Nat)
    (cs : List (Blocking.Call (Word × Bool))) :
    let c₀ := new m lineBytes sets hitLatency ways true degree (some {})
    let c := cs.foldl (IMemory.port (Cache M)).call c₀
    let g := Ledger.ofEvents (c₀.slotTrace cs)
    ∃ s, c.stats = some s ∧
      s.icachePrefetchUseful + s.icachePrefetchUseless + c.lines.countP Line.unused =
        c₀.prefetchInstalls cs + c₀.mergesCompleted cs ∧
      g.used.card = s.icachePrefetchUseful ∧ g.wasted.card = s.icachePrefetchUseless ∧
      g.placed = c₀.prefetchInstalls cs + c₀.mergesCompleted cs ∧
      (g.used + g.wasted).Nodup ∧ ∀ i ∈ g.used + g.wasted, i < g.placed := by
  intro c₀ c g
  have hrun : (∃ recent, Resident False c recent) ∧
      Probed c.lines c.stats ((c₀.slotTrace cs).foldl Tally.step {}) := by
    refine Blocking.foldl_outputs (R := fun (c : Cache M) t =>
      (∃ recent, Resident False c recent) ∧ Probed c.lines c.stats t) ?_ cs
      ⟨⟨_, resident_new False m hs hitLatency true degree (some {})⟩,
        probed_new m lineBytes sets hitLatency ways true degree⟩
    rintro c call t ⟨⟨recent, hr⟩, hp⟩
    have hmoves := moves_call hr.placed hr.sound call fun hf : False => hf.elim
    exact ⟨⟨_, hr.moves hmoves⟩, probed_call hr hp call⟩
  obtain ⟨s, hstats, huseful, huseless⟩ := hrun.2.probe
  have htallies := Ledger.tallies_ofEvents (c₀.slotTrace cs)
  have hnew := SlotEvent.countP_isNew (c₀.slotTrace cs)
  refine ⟨s, hstats, ?_, ?_, ?_, ?_, Ledger.nodup_ofEvents _, fun i => Ledger.lt_placed_of_mem⟩
  · rw [huseful, huseless, ← hrun.2.card_slots, Ledger.conserved]
    exact hnew
  · rw [huseful, htallies.used]
  · rw [huseless, htallies.wasted]
  · rw [Ledger.placed_ofEvents]
    exact hnew

/-- A load merges with the prefetch of its line, and the line prefetched after that is replaced
    before its use. -/
def mergeThenReplace : List (Blocking.Call (Word × Bool)) :=
  [.ready (0, false), .tick, .tick, .tick, .ready (4, false), .tick, .tick, .tick,
    .ready (4, false), .tick, .tick, .tick, .tick, .ready (0, false), .tick, .tick]

theorem prefetches_accounted_mergeThenReplace :
    let c := mergeThenReplace.foldl (IMemory.port (Cache FlatMem)).call
      (new (FlatMem.new 0 64 2) 4 2 1 1 true 1 (some {}))
    ∃ s, c.stats = some s ∧ s.icachePrefetchUseful = 1 ∧ s.icachePrefetchUseless = 1 ∧
      s.icachePrefetchUseful + s.icachePrefetchUseless + c.lines.countP Line.unused = 2 := by
  obtain ⟨s, hs, hsum, -⟩ := prefetches_accounted (FlatMem.new 0 64 2)
    ⟨⟨2, rfl⟩, ⟨1, rfl⟩, ⟨0, rfl⟩, by decide⟩ 1 1 mergeThenReplace
  refine ⟨s, hs, ?_, ?_, hsum⟩
  · cases hs
    rfl
  · cases hs
    rfl

end Cache

end CpuSim
