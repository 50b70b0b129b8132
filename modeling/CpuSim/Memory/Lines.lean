import CpuSim.Base.Residency
import CpuSim.Memory.Installs

/-!
# The lines of a cache

A cache seen as sets of ways with reservations (`residency`): the victim way of a miss is the
reservation of the demand, the way of an active prefetch the other one. A demand that merges with
a prefetch reserves nothing of its own. Every call of the port is a few events of the residency
(`Moves`), so a line is never resident twice and never replaced while its set has an invalid way.
The most recently used line is spared as long as no request hits a way that a prefetch has
reserved: the hit makes the line the most recently used one, and the prefetch replaces it all the
same.
-/

namespace CpuSim

namespace Cache

variable {M : Type}

/-- The tags that the ways hold, and the ways reserved. -/
def residency (c : Cache M) (recent : Word → Option Nat) : Residency Word Word Nat where
  holds set way :=
    if way < c.ways ∧ (c.lineAt set way).valid = true then some (c.lineAt set way).tag else none
  demand := match c.phase with
    | .writeBack | .missFetch => some ⟨c.indexOf c.curAddr, c.tagOf c.curAddr, c.victimWay⟩
    | _ => none
  ahead := if c.pfActive then some ⟨c.indexOf c.pfAddr, c.tagOf c.pfAddr, c.pfWay⟩ else none
  recent := recent

/-- What the residency of a cache rests on. `recent` names the way of each set used last. -/
structure Placed (c : Cache M) (recent : Word → Option Nat) : Prop where
  shape : c.WellFormed
  policy : ∀ p, c.pfPolicy = some p → p.lineBytes = 2 ^ c.offsetBits
  aligned : c.pfActive = true → c.lineAddrOf c.pfAddr = c.pfAddr
  merging : c.phase = .prefetchWait →
    c.pfActive = true ∧ c.victimWay = c.pfWay ∧ c.lineAddrOf c.curAddr = c.pfAddr
  plru : ∃ n, c.repl.Shape (2 ^ c.indexBits) n
  steered : 2 ≤ c.ways → ∀ set : Word, set.toNat < 2 ^ c.indexBits → ∀ way,
    recent set = some way → c.repl.victim set ≠ way

variable {c : Cache M} {recent : Word → Option Nat}

/-- A cache with the same geometry and policy is placed as far as its prefetch is. -/
theorem Placed.frame {d : Cache M} (h : c.Placed recent) (hg : d.geometry = c.geometry)
    (hp : d.pfPolicy = c.pfPolicy)
    (ha : d.pfActive = true → d.lineAddrOf d.pfAddr = d.pfAddr)
    (hm : d.phase = .prefetchWait →
      d.pfActive = true ∧ d.victimWay = d.pfWay ∧ d.lineAddrOf d.curAddr = d.pfAddr) :
    d.Placed recent := by
  obtain ⟨ho, hi, -, hw, -, hr⟩ := geometry_eq_iff.mp hg
  refine ⟨h.shape.frame hg, ?_, ha, hm, ?_, ?_⟩
  · rw [hp, ho]
    exact h.policy
  · rw [hi, hr]
    exact h.plru
  · rw [hw, hi, hr]
    exact h.steered

/-! ## Reservations -/

/-- A line is resident nowhere exactly when `find_way` does not find it. -/
theorem absent_iff (a : Word) :
    (c.residency recent).Absent (c.indexOf a) (c.tagOf a) ↔ c.findWay a = none := by
  unfold findWay Residency.Absent
  rw [List.find?_eq_none]
  constructor
  · intro h w hw hfound
    rw [Bool.and_eq_true, beq_iff_eq] at hfound
    apply h w
    change (if _ then _ else _) = _
    rw [if_pos ⟨List.mem_range.mp hw, hfound.1⟩, hfound.2]
  · intro h w hheld
    change (if _ then _ else _) = _ at hheld
    split at hheld
    · rename_i hv
      apply h w (List.mem_range.mpr hv.1)
      rw [Bool.and_eq_true, beq_iff_eq]
      exact ⟨hv.2, Option.some.inj hheld⟩
    · cases hheld

theorem mem_vacant (set : Word) (way : Nat) :
    way ∈ (c.residency recent).vacant (Set.Iio c.ways) set ↔
      way < c.ways ∧ (c.lineAt set way).valid = false := by
  change (way ∈ Set.Iio c.ways ∧ (if _ then _ else _) = none) ↔ _
  rw [Set.mem_Iio]
  constructor
  · rintro ⟨hlt, hnone⟩
    refine ⟨hlt, Bool.eq_false_iff.mpr fun hv => ?_⟩
    rw [if_pos ⟨hlt, hv⟩] at hnone
    cases hnone
  · rintro ⟨hlt, hv⟩
    refine ⟨hlt, if_neg ?_⟩
    rintro ⟨-, hv'⟩
    rw [hv] at hv'
    cases hv'

/-- `choose_victim` takes the least invalid way, and asks the policy in a full set only. -/
theorem chooseVictim_cases (c : Cache M) (recent : Word → Option Nat) (set : Word) :
    IsLeast ((c.residency recent).vacant (Set.Iio c.ways) set) (c.chooseVictim set) ∨
      ((c.residency recent).vacant (Set.Iio c.ways) set = ∅ ∧
        c.chooseVictim set = c.repl.victim set) := by
  unfold chooseVictim
  split
  · rename_i w hw
    left
    obtain ⟨hinvalid, hbefore⟩ := List.find?_range_eq_some.mp hw
    refine ⟨(mem_vacant set w).mpr ⟨List.mem_range.mp hbefore.1, ?_⟩, fun v hv => ?_⟩
    · simpa using hinvalid
    · obtain ⟨_, hv⟩ := (mem_vacant set v).mp hv
      by_contra hlt
      have := hbefore.2 v (by omega)
      rw [hv] at this
      cases this
  · rename_i hnone
    right
    refine ⟨Set.eq_empty_iff_forall_notMem.mpr fun w hw => ?_, rfl⟩
    obtain ⟨hlt, hinvalid⟩ := (mem_vacant set w).mp hw
    have := List.find?_eq_none.mp hnone w (List.mem_range.mpr hlt)
    rw [hinvalid] at this
    exact this rfl

/-- A victim for an absent line is a proper reservation. -/
theorem open_chooseVictim (h : c.WellFormed) {a : Word} (ha : c.findWay a = none) :
    (c.residency recent).Open (Set.Iio c.ways)
      ⟨c.indexOf a, c.tagOf a, c.chooseVictim (c.indexOf a)⟩ where
  inside := chooseVictim_lt h _
  absent := (absent_iff a).mpr ha
  least := (chooseVictim_cases c recent (c.indexOf a)).imp_right And.left

/-- The policy's choice is not the way used last. -/
theorem fresh_chooseVictim (h : c.Placed recent) (hways : 2 ≤ c.ways) (a tag : Word) :
    (c.residency recent).Fresh ⟨c.indexOf a, tag, c.chooseVictim (c.indexOf a)⟩ := by
  intro hheld hrecent
  rcases chooseVictim_cases c recent (c.indexOf a) with hleast | ⟨-, hvictim⟩
  · exact hheld hleast.1.2
  · exact h.steered hways _ (indexOf_lt h.shape a) _ hrecent hvictim.symm

/-! ## Moves -/

/-- From one cache to another in a few events of the residency. -/
structure Moves (careful : Prop) (c : Cache M) (recent : Word → Option Nat) (c' : Cache M)
    (recent' : Word → Option Nat) : Prop where
  events : ∃ es, Residency.Run (Set.Iio c.ways) careful (c.residency recent) es
    (c'.residency recent')
  ways : c'.ways = c.ways
  placed : c'.Placed recent'

variable {careful : Prop}

theorem Moves.trans {c' c'' : Cache M} {recent' recent'' : Word → Option Nat}
    (h : Moves careful c recent c' recent') (h' : Moves careful c' recent' c'' recent'') :
    Moves careful c recent c'' recent'' := by
  obtain ⟨es, hes⟩ := h.events
  obtain ⟨es', hes'⟩ := h'.events
  rw [h.ways] at hes'
  exact ⟨⟨es ++ es', hes.append hes'⟩, h'.ways.trans h.ways, h'.placed⟩

/-- No event at all. -/
theorem Moves.still {c' : Cache M} (hr : c'.residency recent = c.residency recent)
    (hw : c'.ways = c.ways) (hp : c'.Placed recent) : Moves careful c recent c' recent :=
  ⟨⟨[], hr ▸ .nil _⟩, hw, hp⟩

/-- A single event. -/
theorem Moves.single {c' : Cache M} {recent' : Word → Option Nat}
    (e : Residency.Event Word Word Nat)
    (he : (c.residency recent).Enabled (Set.Iio c.ways) e)
    (hc : careful → (c.residency recent).Careful e)
    (hr : c'.residency recent' = (c.residency recent).apply e) (hw : c'.ways = c.ways)
    (hp : c'.Placed recent') : Moves careful c recent c' recent' :=
  ⟨⟨[e], hr ▸ .single he hc⟩, hw, hp⟩

/-- Between requests nothing is reserved for the demand. -/
theorem demand_none (recent : Word → Option Nat)
    (hp : c.phase = .idle ∨ c.phase = .hitWait ∨ c.phase = .prefetchWait) :
    (c.residency recent).demand = none := by
  rcases hp with hp | hp | hp <;> simp only [residency, hp]

/-- A prefetch reserves a way, if it starts. -/
theorem moves_reservePrefetch (h : c.Placed recent) (hp : c.phase = .idle ∨ c.phase = .hitWait)
    (hact : c.pfActive = false) {target : Word} (ht : c.lineAddrOf target = target) (chain : Nat)
    (hways : careful → 2 ≤ c.ways) :
    Moves careful c recent (c.reservePrefetch target chain) recent := by
  unfold reservePrefetch
  dsimp only
  split
  · exact .still rfl rfl h
  · rename_i hfind
    have habsent : c.findWay target = none := by simpa using hfind
    split
    · exact .still rfl rfl h
    · refine .single (.prepare ⟨c.indexOf target, c.tagOf target,
        c.chooseVictim (c.indexOf target)⟩) ⟨?_, ?_, open_chooseVictim h.shape habsent⟩
        (fun hc => fresh_chooseVictim h (hways hc) target _) rfl rfl ?_
      · exact demand_none recent (hp.imp_right .inl)
      · simp only [residency, hact]
        rfl
      · refine h.frame rfl rfl (fun _ => ht) ?_
        intro hw
        rcases hp with hp | hp <;> exact absurd (hp.symm.trans hw) (by decide)

/-- Noting a request starts at most a prefetch of the next line. -/
theorem moves_noted (h : c.Placed recent) (hp : c.phase = .idle) (a : Word) (w : Bool)
    (hways : careful → 2 ≤ c.ways) : Moves careful c recent (c.noted a w) recent := by
  have hnoted : ({ c with curAddr := a, curIsWrite := w, lastHit := (c.findWay a).isSome } :
      Cache M).Placed recent :=
    h.frame rfl rfl h.aligned fun hw => absurd (hp.symm.trans hw) (by decide)
  have hstart : Moves careful c recent
      { c with curAddr := a, curIsWrite := w, lastHit := (c.findWay a).isSome } recent := by
    refine .still ?_ rfl hnoted
    simp only [residency, hp]
    rfl
  unfold noted maybeStartPrefetch
  split
  · exact hstart
  · rename_i p hpolicy
    split
    · exact hstart
    · rename_i hact
      refine hstart.trans (moves_reservePrefetch hnoted (.inl hp) (Bool.eq_false_iff.mpr hact) ?_ 1
        hways)
      rw [SequentialPrefetch.next, h.policy p hpolicy]
      exact lineAddrOf_next h.shape (lineAddrOf_lineAddrOf h.shape a)

/-! ## Hits and misses -/

/-- A touch of the policy goes with a use of the way. -/
theorem steered_touch (h : c.Placed recent) {set : Word} (hs : set.toNat < 2 ^ c.indexBits)
    {way : Nat} (hw : way < c.ways) (hways : 2 ≤ c.ways) (set' : Word)
    (hs' : set'.toNat < 2 ^ c.indexBits) (way' : Nat)
    (hr : Function.update recent set (some way) set' = some way') :
    (c.repl.touch set way).victim set' ≠ way' := by
  obtain ⟨n, hplru⟩ := h.plru
  have hrepl := h.shape.plruWays
  by_cases he : set' = set
  · subst he
    rw [Function.update_self] at hr
    obtain rfl := Option.some.inj hr
    exact TreePlru.victim_touch_ne hplru (by omega) hs (by omega)
  · rw [Function.update_of_ne he] at hr
    rw [TreePlru.victim_touch_of_ne hplru (Ne.symm he) (by omega)]
    exact h.steered hways set' hs' way' hr

/-- A hit leaves every line where it is. -/
theorem lineAt_acceptHit (h : c.WellFormed) {set : Word} {way : Nat}
    (hs : set.toNat < 2 ^ c.indexBits) (hw : way < c.ways) (set' : Word) {way' : Nat}
    (hw' : way' < c.ways) (w : Bool) :
    ((c.acceptHit set way w).lineAt set' way').valid = (c.lineAt set' way').valid ∧
      ((c.acceptHit set way w).lineAt set' way').tag = (c.lineAt set' way').tag := by
  rw [acceptHit_eq]
  have hl := lineAt_setLine h set' { c.lineAt set way with
    dirty := (c.lineAt set way).dirty || w, prefetched := false } hs hw hw'
  by_cases he : set' = set ∧ way' = way
  · rw [if_pos he] at hl
    obtain ⟨rfl, rfl⟩ := he
    have hvalid := congrArg Line.valid hl
    have htag := congrArg Line.tag hl
    exact ⟨hvalid, htag⟩
  · rw [if_neg he] at hl
    exact ⟨congrArg Line.valid hl, congrArg Line.tag hl⟩

/-- A hit uses its way. -/
theorem moves_acceptHit (h : c.Placed recent) (hp : c.phase = .idle) {set : Word} {way : Nat}
    (hs : set.toNat < 2 ^ c.indexBits) (hw : way < c.ways) (w : Bool)
    (hok : careful → ∀ p, (c.residency recent).ahead = some p → ¬ (p.set = set ∧ p.way = way)) :
    Moves careful c recent (c.acceptHit set way w)
      (Function.update recent set (some way)) := by
  have hways : (c.acceptHit set way w).ways = c.ways := by rw [acceptHit_eq]
  have hholds : ((c.acceptHit set way w).residency recent).holds = (c.residency recent).holds := by
    funext set' way'
    change (if _ then _ else _) = if _ then _ else _
    rw [hways]
    by_cases hw' : way' < c.ways
    · obtain ⟨hvalid, htag⟩ := lineAt_acceptHit h.shape hs hw set' hw' w
      rw [hvalid, htag]
    · rw [if_neg fun hv => hw' hv.1, if_neg fun hv => hw' hv.1]
  refine .single (.use set way) (demand_none recent (.inl hp)) hok ?_ hways ?_
  · apply Residency.ext
    · exact hholds
    · refine Eq.trans ?_ (demand_none recent (.inl hp)).symm
      rw [acceptHit_eq]
      rfl
    · rw [acceptHit_eq]
      rfl
    · rfl
  · have hshape := h.shape.acceptHit set way w
    obtain ⟨n, hplru⟩ := h.plru
    rw [acceptHit_eq] at hshape ⊢
    exact ⟨hshape, h.policy, h.aligned, fun hx => (nomatch hx), ⟨n, hplru.touch set way⟩,
      fun hge set' hs' way' hr => steered_touch h hs hw hge set' hs' way' hr⟩

/-- The clash test of a miss is that for the same way of the same set. -/
theorem ahead_filter (c : Cache M) (set : Word) (way : Nat) :
    (if (c.pfActive && !c.clash set way) = true then
        some (⟨c.indexOf c.pfAddr, c.tagOf c.pfAddr, c.pfWay⟩ : Reservation Word Word Nat)
      else none) =
      (c.residency recent).ahead.filter fun p => ¬ (p.set = set ∧ p.way = way) := by
  have hclash : c.clash set way = true ↔ c.indexOf c.pfAddr = set ∧ c.pfWay = way := by
    rw [clash, Bool.and_eq_true, beq_iff_eq, beq_iff_eq]
  simp only [residency]
  cases c.pfActive with
  | false => rfl
  | true =>
    by_cases hc : c.indexOf c.pfAddr = set ∧ c.pfWay = way
    · simp only [hclash.mpr hc, Bool.not_true, Bool.and_false, Bool.false_eq_true, if_false,
        if_true, Option.filter_some, hc, and_self, not_true, decide_false]
    · simp only [Bool.eq_false_iff.mpr fun h => hc (hclash.mp h), Bool.not_false, Bool.and_self,
        if_true, Option.filter_some, hc, not_false_eq_true, decide_true]

/-- A miss reserves its victim's way. -/
theorem moves_acceptMiss (h : c.Placed recent) (hp : c.phase = .idle)
    (hfind : c.findWay c.curAddr = none)
    (hother : c.pfActive = true → c.lineAddrOf c.curAddr ≠ c.pfAddr)
    (hways : careful → 2 ≤ c.ways) :
    Moves careful c recent (c.acceptMiss (c.indexOf c.curAddr)) recent := by
  refine .single (.request ⟨c.indexOf c.curAddr, c.tagOf c.curAddr,
    c.chooseVictim (c.indexOf c.curAddr)⟩)
    ⟨demand_none recent (.inl hp), open_chooseVictim h.shape hfind, ?_⟩
    (fun hc => fresh_chooseVictim h (hways hc) _ _) ?_ (by rw [acceptMiss_eq]) ?_
  · -- The prefetch is after another line: its address is the base of its line.
    rintro p hp' ⟨hset, htag⟩
    simp only [residency] at hp'
    split at hp'
    · rename_i hact
      cases hp'
      apply hother hact
      rw [← h.aligned hact]
      exact (lineAddrOf_eq_iff h.shape _ _).mpr ⟨hset.symm, htag.symm⟩
    · cases hp'
  · rw [acceptMiss_eq]
    apply Residency.ext
    · rfl
    · simp only [residency, Residency.apply]
      cases c.dirtyAt (c.indexOf c.curAddr) (c.chooseVictim (c.indexOf c.curAddr)) <;> rfl
    · exact ahead_filter c _ _
    · rfl
  · rw [acceptMiss_eq]
    refine h.frame rfl rfl (fun hact => ?_) fun hx => ?_
    · rw [Bool.and_eq_true] at hact
      exact h.aligned hact.1
    · dsimp only at hx
      split at hx <;> cases hx

/-! ## Requests -/

/-- A request that hits the way a prefetch has reserved, be it for this very request. -/
def hitsReserved (c : Cache M) : Blocking.Call (Word × Bool) → Bool
  | .ready (a, w) =>
    let d := c.noted a w
    c.phase == .idle && d.pfActive && d.indexOf d.pfAddr == d.indexOf a &&
      c.findWay a == some d.pfWay
  | .tick => false

/-- The way a request hits. -/
def hitWay (c : Cache M) (a : Word) : Option (Word × Nat) :=
  (c.findWay a).map fun way => (c.indexOf a, way)

/-- The ways used last, after one more use or none. -/
def usedLast (recent : Word → Option Nat) : Option (Word × Nat) → Word → Option Nat
  | none => recent
  | some (set, way) => Function.update recent set (some way)

theorem moves_accept (h : c.Placed recent) (hp : c.phase = .idle) (a : Word) (w : Bool)
    (hc : careful → 2 ≤ c.ways ∧ c.hitsReserved (.ready (a, w)) = false) :
    Moves careful c recent (c.accept a w) (usedLast recent (c.hitWay a)) := by
  have hnoted := moves_noted h hp a w fun hcare => (hc hcare).1
  have hd := hnoted.placed
  obtain ⟨act, addr, way, n, hframe⟩ := noted_frame c a w
  have hphase : (c.noted a w).phase = .idle := by rw [hframe]; exact hp
  have hcur : (c.noted a w).curAddr = a := by rw [hframe]; rfl
  have hindex : c.indexOf a = (c.noted a w).indexOf a := by rw [hframe]; rfl
  have hsame : (c.noted a w).findWay a = c.findWay a := by rw [hframe]; rfl
  rw [accept_eq]
  unfold hitWay
  rcases hfind : c.findWay a with _ | hit
  · dsimp only
    split
    · -- The demand takes over the prefetch of its line.
      rename_i hmerge
      rw [Bool.and_eq_true, beq_iff_eq] at hmerge
      refine hnoted.trans (.still ?_ rfl ?_)
      · apply Residency.ext
        · rfl
        · exact (demand_none recent (.inl hphase)).symm
        · rfl
        · rfl
      · exact hd.frame rfl rfl hd.aligned
          fun _ => ⟨hmerge.1, rfl, (congrArg _ hcur).trans hmerge.2⟩
    · rename_i hapart
      have hmiss := moves_acceptMiss hd hphase (by rw [hcur, hsame, hfind]) (fun hact he => by
        rw [hcur] at he
        rw [hact, he] at hapart
        simp at hapart) fun hcare => hnoted.ways ▸ (hc hcare).1
      rw [hcur, ← hindex] at hmiss
      exact hnoted.trans hmiss
  · have hway : hit < (c.noted a w).ways := by
      rw [hframe]
      exact findWay_lt hfind
    have hset : (c.indexOf a).toNat < 2 ^ (c.noted a w).indexBits := by
      rw [hindex]
      exact indexOf_lt hd.shape a
    refine hnoted.trans (moves_acceptHit hd hphase hset hway w ?_)
    rintro hcare p hp' ⟨hs, hw⟩
    simp only [residency] at hp'
    split at hp'
    · rename_i hact
      cases hp'
      have hset' : (c.noted a w).indexOf (c.noted a w).pfAddr = (c.noted a w).indexOf a :=
        hs.trans hindex
      have hbad : c.hitsReserved (.ready (a, w)) = true := by
        simp only [hitsReserved, hp, hact, hfind, ← hw, hset', beq_self_eq_true, Bool.and_self]
      rw [(hc hcare).2] at hbad
      cases hbad
    · cases hp'

/-! ## Installs -/

theorem Placed.backing (h : c.Placed recent) (b : M) :
    ({ c with backing := b } : Cache M).Placed recent := h.frame rfl rfl h.aligned h.merging

/-- An install touches the way it fills. -/
theorem Placed.installLine (h : c.Placed recent) (a : Word) {way : Nat} (hw : way < c.ways)
    (w pf : Bool) :
    (c.installLine (c.indexOf a) way a w pf).Placed
      (Function.update recent (c.indexOf a) (some way)) := by
  have hshape := h.shape.installLine (c.indexOf a) way a w pf
  obtain ⟨n, hplru⟩ := h.plru
  rw [installLine_eq] at hshape ⊢
  exact ⟨hshape, h.policy, h.aligned, h.merging, ⟨n, hplru.touch _ _⟩,
    fun hge set' hs' way' hr => steered_touch h (indexOf_lt h.shape a) hw hge set' hs' way' hr⟩

/-- What the ways hold after an install. -/
theorem holds_installLine (h : c.WellFormed) (recent : Word → Option Nat) (a : Word) {way : Nat}
    (hw : way < c.ways)
    (w pf : Bool) :
    ((c.installLine (c.indexOf a) way a w pf).residency recent).holds =
      ((c.residency recent).install ⟨c.indexOf a, c.tagOf a, way⟩).holds := by
  funext set' way'
  rw [Residency.holds_install]
  have hways : (c.installLine (c.indexOf a) way a w pf).ways = c.ways := by rw [installLine_eq]
  have hline := fun hw' : way' < c.ways =>
    lineAt_setLine h set' ⟨true, w, pf, c.tagOf a⟩ (indexOf_lt h a) hw hw'
  have hsame : (c.installLine (c.indexOf a) way a w pf).lineAt set' way' =
      (c.setLine (c.indexOf a) way ⟨true, w, pf, c.tagOf a⟩).lineAt set' way' := by
    rw [installLine_eq]
    rfl
  change (if _ then _ else _) = if _ then _ else if _ then _ else _
  rw [hways, hsame]
  by_cases hw' : way' < c.ways
  · rw [hline hw']
    by_cases he : set' = c.indexOf a ∧ way' = way
    · rw [if_pos he, if_pos he, if_pos ⟨hw', rfl⟩]
    · rw [if_neg he, if_neg he]
  · have hne : ¬ (set' = c.indexOf a ∧ way' = way) := fun he => hw' (he.2.trans_lt hw)
    rw [if_neg hne, if_neg fun hv => hw' hv.1, if_neg fun hv => hw' hv.1]

/-- The fill of a miss installs the line requested. -/
theorem moves_fill (h : c.Placed recent) (hp : c.phase = .missFetch) (hw : c.victimWay < c.ways) :
    Moves careful c recent c.fill
      (Function.update recent (c.indexOf c.curAddr) (some c.victimWay)) := by
  have hholds := holds_installLine h.shape recent c.curAddr hw c.curIsWrite false
  have heq := installLine_eq c (c.indexOf c.curAddr) c.victimWay c.curAddr c.curIsWrite false
  have hdemand : (c.residency recent).demand =
      some ⟨c.indexOf c.curAddr, c.tagOf c.curAddr, c.victimWay⟩ := by
    simp only [residency, hp]
  refine .single .fill trivial (fun _ => trivial) ?_ (by unfold fill; rw [heq]) ?_
  · unfold Residency.apply
    rw [hdemand]
    apply Residency.ext
    · exact hholds
    · rfl
    · unfold fill
      rw [heq]
      rfl
    · rfl
  · have hfilled := h.installLine c.curAddr hw c.curIsWrite false
    exact hfilled.frame rfl rfl hfilled.aligned fun hx => (nomatch hx)

/-- A merged fill installs the line of the prefetch, where the prefetch would have. -/
theorem moves_merged (h : c.Placed recent) (hp : c.phase = .prefetchWait)
    (hw : c.victimWay < c.ways) :
    Moves careful c recent c.merged
      (Function.update recent (c.indexOf c.curAddr) (some c.victimWay)) := by
  obtain ⟨hact, hway, hline⟩ := h.merging hp
  have hholds := holds_installLine h.shape recent c.curAddr hw c.curIsWrite false
  have heq := installLine_eq c (c.indexOf c.curAddr) c.victimWay c.curAddr c.curIsWrite false
  have hahead : (c.residency recent).ahead =
      some ⟨c.indexOf c.curAddr, c.tagOf c.curAddr, c.victimWay⟩ := by
    have hsame := (lineAddrOf_eq_iff h.shape c.curAddr c.pfAddr).mp
      (hline.trans (h.aligned hact).symm)
    simp only [residency, hact, if_true, hway, hsame.1, hsame.2]
  refine .single .land (demand_none recent (.inr (.inr hp))) (fun _ => trivial) ?_
    (by unfold merged fill countUseful; rw [heq]) ?_
  · unfold Residency.apply
    rw [hahead]
    apply Residency.ext
    · exact hholds
    · exact (demand_none recent (.inr (.inr hp))).symm
    · rfl
    · rfl
  · have hfilled := h.installLine c.curAddr hw c.curIsWrite false
    exact hfilled.frame rfl rfl (fun hx => (nomatch hx)) fun hx => (nomatch hx)

/-- A completed prefetch installs its line and may reserve a way for the next. -/
theorem moves_completePrefetch (h : c.Placed recent) (hp : c.phase = .idle ∨ c.phase = .hitWait)
    (hact : c.pfActive = true) (hw : c.pfWay < c.ways) (hways : careful → 2 ≤ c.ways) :
    Moves careful c recent c.completePrefetch
      (Function.update recent (c.indexOf c.pfAddr) (some c.pfWay)) := by
  have hholds := holds_installLine h.shape recent c.pfAddr hw false true
  have heq := installLine_eq c (c.indexOf c.pfAddr) c.pfWay c.pfAddr false true
  have hfields : c.prefetchInstalled.phase = c.phase ∧ c.prefetchInstalled.ways = c.ways := by
    unfold prefetchInstalled
    rw [heq]
    exact ⟨rfl, rfl⟩
  have hahead : (c.residency recent).ahead =
      some ⟨c.indexOf c.pfAddr, c.tagOf c.pfAddr, c.pfWay⟩ := by
    simp only [residency, hact, if_true]
  have hinstalled : Moves careful c recent c.prefetchInstalled
      (Function.update recent (c.indexOf c.pfAddr) (some c.pfWay)) := by
    refine .single .land (demand_none recent (hp.imp_right .inl)) (fun _ => trivial) ?_
      hfields.2 ?_
    · unfold Residency.apply
      rw [hahead]
      apply Residency.ext
      · exact hholds
      · refine (demand_none _ ?_).trans (demand_none recent (hp.imp_right .inl)).symm
        rw [hfields.1]
        exact hp.imp_right .inl
      · rfl
      · rfl
    · refine (h.installLine c.pfAddr hw false true).frame rfl rfl (fun hx => (nomatch hx))
        fun hx => ?_
      rw [hfields.1] at hx
      rcases hp with hp | hp <;> exact absurd (hp.symm.trans hx) (by decide)
  rw [completePrefetch_eq]
  split
  · exact hinstalled
  · rename_i p hpolicy
    split
    · refine hinstalled.trans (moves_reservePrefetch hinstalled.placed ?_ rfl ?_ _ ?_)
      · rw [hfields.1]
        exact hp
      · have hnext := lineAddrOf_next h.shape (h.aligned hact)
        rw [SequentialPrefetch.next, h.policy p hpolicy]
        unfold prefetchInstalled
        rw [heq]
        exact hnext
      · rw [hfields.2]
        exact hways
    · exact hinstalled

/-! ## Calls -/

variable [IMemory M]

/-- The way that a call touches: a request that hits, or a tick that installs. -/
def touched (c : Cache M) : Blocking.Call (Word × Bool) → Option (Word × Nat)
  | .ready (a, _) => if c.phase = .idle then c.hitWay a else none
  | .tick => c.installs

/-- The engine installs what `installs` says. -/
theorem moves_servicePrefetch (h : c.Placed recent)
    (hs : (c.residency recent).Sound (Set.Iio c.ways))
    (hp : c.phase = .idle ∨ c.phase = .hitWait) (hways : careful → 2 ≤ c.ways) :
    Moves careful c recent c.servicePrefetch (usedLast recent c.installs) := by
  rw [installs_quiet hp, servicePrefetch_eq]
  cases hact : c.pfActive with
  | false => exact .still rfl rfl h
  | true =>
    have hlt : c.pfWay < c.ways := by
      have hopen := hs.ahead ⟨c.indexOf c.pfAddr, c.tagOf c.pfAddr, c.pfWay⟩ (by
        simp only [residency, hact, if_true])
      exact hopen.inside
    rw [drive_eq, Bool.true_and]
    split
    · rename_i hfalse
      cases hfalse
    · cases hr : ((IMemory.port M).ready c.backing (c.pfAddr, false)).1 with
      | false => exact .still rfl rfl (h.backing _)
      | true =>
        have hstart : Moves careful c recent
            { c with backing := ((IMemory.port M).ready c.backing (c.pfAddr, false)).2 } recent :=
          .still rfl rfl (h.backing _)
        have hdone : Moves careful _ recent _ _ := moves_completePrefetch hstart.placed hp hact hlt
          hways
        exact (hstart.trans hdone).trans (.still rfl rfl (hdone.placed.backing _))

omit [IMemory M] in
/-- The hit timer moves nothing. -/
theorem moves_countDown (h : c.Placed recent) (hp : c.phase = .hitWait) :
    Moves careful c recent c.countDown recent ∧
      (c.countDown.phase = .idle ∨ c.countDown.phase = .hitWait) := by
  unfold countDown
  split
  · exact ⟨.still rfl rfl (h.frame rfl rfl h.aligned h.merging), .inr hp⟩
  · refine ⟨.still ?_ rfl (h.frame rfl rfl h.aligned fun hx => (nomatch hx)), .inl rfl⟩
    simp only [residency, hp]
    rfl

/-- A fill that is served when `served` says so, and a tick of the backing in any case. -/
theorem moves_drive {g : Cache M → Cache M} {a : Word} {w : Bool} {x : Word × Nat}
    (h : c.Placed recent)
    (hg : ∀ b, Moves careful { c with backing := b } recent (g { c with backing := b })
      (usedLast recent (some x))) :
    Moves careful c recent (c.drive g a w) (usedLast recent
      (if ((IMemory.port M).ready c.backing (a, w)).1 then some x else none)) := by
  rw [drive_eq]
  cases hr : ((IMemory.port M).ready c.backing (a, w)).1 with
  | false => exact .still rfl rfl (h.backing _)
  | true =>
    have hstart : Moves careful c recent
        { c with backing := ((IMemory.port M).ready c.backing (a, w)).2 } recent :=
      .still rfl rfl (h.backing _)
    have hdone := hg ((IMemory.port M).ready c.backing (a, w)).2
    exact (hstart.trans hdone).trans (.still rfl rfl (hdone.placed.backing _))

theorem moves_tick (h : c.Placed recent) (hs : (c.residency recent).Sound (Set.Iio c.ways))
    (hways : careful → 2 ≤ c.ways) :
    Moves careful c recent c.tick (usedLast recent c.installs) := by
  rw [tick_eq]
  cases hp : c.phase with
  | idle => exact moves_servicePrefetch h hs (.inl hp) hways
  | hitWait =>
    obtain ⟨hcount, hphase⟩ : Moves careful c recent c.countDown recent ∧ _ := moves_countDown h hp
    obtain ⟨p, k, hframe⟩ := countDown_frame c
    have hinstalls : c.countDown.installs = c.installs := by
      rw [installs_quiet hphase, installs_quiet (.inr hp), hframe]
      rfl
    have hresidency : c.countDown.residency recent = c.residency recent := by
      apply Residency.ext
      · rw [hframe]
        rfl
      · rw [demand_none recent (hphase.imp_right .inl), demand_none recent (.inr (.inl hp))]
      · rw [hframe]
        rfl
      · rfl
    have hservice : Moves careful _ recent _ _ := moves_servicePrefetch hcount.placed
      (by rw [hresidency, hcount.ways]; exact hs) hphase (by rw [hcount.ways]; exact hways)
    rw [hinstalls] at hservice
    exact hcount.trans hservice
  | writeBack =>
    rw [installs_flushing hp]
    dsimp only
    rw [drive_eq]
    split
    · refine .still ?_ rfl (h.frame rfl rfl h.aligned fun hx => (nomatch hx))
      simp only [residency, hp]
      rfl
    · exact .still rfl rfl (h.backing _)
  | missFetch =>
    have hopen := hs.demand ⟨c.indexOf c.curAddr, c.tagOf c.curAddr, c.victimWay⟩ (by
      simp only [residency, hp])
    rw [installs_demand (.inl hp)]
    exact moves_drive h fun b => moves_fill (h.backing b) hp hopen.inside
  | prefetchWait =>
    obtain ⟨hact, hway, -⟩ := h.merging hp
    have hopen := hs.ahead ⟨c.indexOf c.pfAddr, c.tagOf c.pfAddr, c.pfWay⟩ (by
      simp only [residency, hact, if_true])
    rw [installs_demand (.inr hp)]
    exact moves_drive h fun b => moves_merged (h.backing b) hp (hway ▸ hopen.inside)

/-- Every call is a few events of the residency. -/
theorem moves_call (h : c.Placed recent) (hs : (c.residency recent).Sound (Set.Iio c.ways))
    (call : Blocking.Call (Word × Bool))
    (hc : careful → 2 ≤ c.ways ∧ c.hitsReserved call = false) :
    Moves careful c recent ((IMemory.port (Cache M)).call c call)
      (usedLast recent (c.touched call)) := by
  cases call with
  | ready r =>
    change Moves careful c recent (c.ready r.1 r.2).2
      (usedLast recent (if c.phase = .idle then c.hitWay r.1 else none))
    by_cases hp : c.phase = .idle
    · rw [ready_of_idle hp, if_pos hp]
      exact moves_accept h hp r.1 r.2 hc
    · rw [ready_of_busy hp, if_neg hp]
      exact .still rfl rfl h
  | tick => exact moves_tick h hs fun hcare => (hc hcare).1

end Cache

end CpuSim
