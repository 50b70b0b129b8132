import CpuSim.Memory.PrefetchLedger

/-!
# Where resident lines come from

A cache is asked for addresses, one each time it accepts a request. Every line it holds is the line
of such an address, unless it is a prefetch that nothing has used yet; that is one of the next
lines behind such an address, and not further ahead than the prefetch degree (`Sourced`). Each
address pays for one demand fill at most, and for as many prefetches as the degree has
(`Pays`).
-/

namespace CpuSim

namespace Cache

variable {M : Type} {c : Cache M} {deg : Nat} {asked : List Word}

/-! ## Sources -/

/-- `a` is the line `k` lines behind that of an address asked for. -/
def Ahead (c : Cache M) (asked : List Word) (k : Nat) (a : Word) : Prop :=
  ∃ d ∈ asked, a = c.lineAddrOf d + BitVec.ofNat 32 (k * 2 ^ c.offsetBits)

/-- Why the line at `a` is held: it was asked for, or prefetched `k` lines ahead. -/
def Origin (c : Cache M) (deg : Nat) (asked : List Word) (a : Word) (prefetched : Bool) : Prop :=
  ∃ k, (if prefetched then 1 ≤ k ∧ k ≤ deg else k = 0) ∧ c.Ahead asked k a

theorem Ahead.mono {asked' : List Word} {k : Nat} {a : Word} (h : c.Ahead asked k a)
    (hsub : asked ⊆ asked') : c.Ahead asked' k a := by
  rcases h with ⟨d, hd, ha⟩
  exact ⟨d, hsub hd, ha⟩

theorem Origin.mono {asked' : List Word} {a : Word} {pf : Bool} (h : c.Origin deg asked a pf)
    (hsub : asked ⊆ asked') : c.Origin deg asked' a pf := by
  rcases h with ⟨k, hk, ha⟩
  exact ⟨k, hk, ha.mono hsub⟩

/-- The line of an address that was asked for. -/
theorem origin_asked {a : Word} (ha : a ∈ asked) : c.Origin deg asked (c.lineAddrOf a) false :=
  ⟨0, rfl, a, ha, by simp⟩

/-- The line behind a line that is `k` lines ahead. -/
theorem Ahead.next {k : Nat} {a : Word} (h : c.Ahead asked k a) :
    c.Ahead asked (k + 1) (a + BitVec.ofNat 32 (2 ^ c.offsetBits)) := by
  rcases h with ⟨d, hd, rfl⟩
  refine ⟨d, hd, ?_⟩
  rw [BitVec.add_assoc, ← BitVec.ofNat_add, Nat.succ_mul]

theorem Ahead.of_offsetBits {c' : Cache M} {k : Nat} {a : Word} (h : c.Ahead asked k a)
    (hbits : c'.offsetBits = c.offsetBits) : c'.Ahead asked k a := by
  unfold Ahead lineAddrOf at h ⊢
  rw [hbits]
  exact h

/-- Every line, the engine and the request in progress can be traced to an address asked for. -/
structure Sourced (deg : Nat) (asked : List Word) (c : Cache M) : Prop where
  degree : c.pfDegree = deg
  resident : ∀ set way, set.toNat < 2 ^ c.indexBits → way < c.ways →
    (c.lineAt set way).valid = true →
    c.Origin deg asked (c.addrOf set (c.lineAt set way).tag) (c.lineAt set way).prefetched
  engine : c.pfActive = true → 1 ≤ c.pfChain ∧ c.pfChain ≤ deg ∧ c.Ahead asked c.pfChain c.pfAddr
  request : c.phase ≠ .idle → c.curAddr ∈ asked

theorem Sourced.mono {asked' : List Word} (h : c.Sourced deg asked) (hsub : asked ⊆ asked') :
    c.Sourced deg asked' := by
  refine ⟨h.degree, ?_, ?_, fun hp => hsub (h.request hp)⟩
  · intro set way hs hw hv
    exact (h.resident set way hs hw hv).mono hsub
  · intro hact
    rcases h.engine hact with ⟨hlo, hhi, hfrom⟩
    exact ⟨hlo, hhi, hfrom.mono hsub⟩

/-- A demand fill that is still to come. -/
def owed (c : Cache M) : Nat :=
  match c.phase with
  | .idle | .hitWait => 0
  | .writeBack | .missFetch | .prefetchWait => 1

/-- The prefetches that the engine may still install without another request. -/
def credit (c : Cache M) : Nat := if c.pfActive then c.pfDegree + 1 - c.pfChain else 0

/-- From `c` to `d`, `n` requests pay for the installs among the events `es`. -/
structure Pays (deg : Nat) (c d : Cache M) (n : Nat) (es : List (SlotEvent Nat)) : Prop where
  prefetches : es.countP SlotEvent.isNew + d.credit ≤ c.credit + deg * n
  fills : es.countP SlotEvent.isTake + d.owed ≤ c.owed + n

theorem Pays.append {d e : Cache M} {n n' : Nat} {es es' : List (SlotEvent Nat)}
    (h : Pays deg c d n es) (h' : Pays deg d e n' es') : Pays deg c e (n + n') (es ++ es') := by
  rcases h with ⟨hp, hf⟩
  rcases h' with ⟨hp', hf'⟩
  constructor
  · rw [List.countP_append, Nat.mul_add]
    omega
  · rw [List.countP_append]
    omega

/-! ## Lines -/

/-- Writing a line that can be traced keeps all lines so. -/
theorem Sourced.set_line (h : c.Sourced deg asked) (hshape : c.WellFormed) {set : Word} {way : Nat}
    {l : Line} (hs : set.toNat < 2 ^ c.indexBits) (hw : way < c.ways)
    (hl : l.valid = true → c.Origin deg asked (c.addrOf set l.tag) l.prefetched) :
    ∀ set' way', set'.toNat < 2 ^ c.indexBits → way' < c.ways →
      ((c.setLine set way l).lineAt set' way').valid = true →
      c.Origin deg asked (c.addrOf set' ((c.setLine set way l).lineAt set' way').tag)
        ((c.setLine set way l).lineAt set' way').prefetched := by
  intro set' way' hs' hw' hv
  rw [lineAt_setLine hshape set' l hs hw hw'] at hv ⊢
  split at hv
  · rename_i hsame
    rw [if_pos hsame, hsame.1]
    exact hl hv
  · rename_i hne
    rw [if_neg hne]
    exact h.resident set' way' hs' hw' hv

/-- The line of `a` is that with its set and tag. -/
theorem origin_line (hshape : c.WellFormed) {a : Word} {pf : Bool}
    (h : c.Origin deg asked (c.lineAddrOf a) pf) :
    c.Origin deg asked (c.addrOf (c.indexOf a) (c.tagOf a)) pf :=
  lineAddrOf_eq_addrOf hshape a ▸ h

/-! ## Requests -/

/-- A reservation fails, or starts the engine on its target. -/
theorem reservePrefetch_cases (c : Cache M) (target : Word) (chain : Nat) :
    c.reservePrefetch target chain = c ∨
      ∃ way, c.reservePrefetch target chain = c.withEngine true target way chain := by
  unfold reservePrefetch
  dsimp only
  split
  · exact .inl rfl
  · split
    · exact .inl rfl
    · exact .inr ⟨_, rfl⟩

/-- Noting a request leaves the engine alone, or starts it on the line behind. -/
theorem noted_cases (c : Cache M) (a : Word) (w : Bool) :
    (∃ hit, c.noted a w = { c with curAddr := a, curIsWrite := w, lastHit := hit }) ∨
      ∃ hit policy way, c.pfActive = false ∧ c.pfPolicy = some policy ∧
        c.noted a w = ({ c with curAddr := a, curIsWrite := w, lastHit := hit } :
          Cache M).withEngine true (policy.next (c.lineAddrOf a)) way 1 := by
  unfold noted maybeStartPrefetch
  split
  · exact .inl ⟨_, rfl⟩
  · rename_i policy hp
    split
    · exact .inl ⟨_, rfl⟩
    · rename_i hact
      rcases reservePrefetch_cases ({ c with
        curAddr := a, curIsWrite := w, lastHit := (c.findWay a).isSome } : Cache M)
        (policy.next (c.lineAddrOf a)) 1 with hr | ⟨way, hr⟩
      · exact .inl ⟨_, hr⟩
      · exact .inr ⟨_, policy, way, Bool.eq_false_iff.mpr hact, hp, hr⟩

/-- The next line of the policy is the one behind in memory. -/
theorem next_eq {policy : SequentialPrefetch} (h : policy.lineBytes = 2 ^ c.offsetBits) (a : Word) :
    policy.next a = a + BitVec.ofNat 32 (2 ^ c.offsetBits) := by
  unfold SequentialPrefetch.next
  rw [h]

theorem Sourced.noted (h : c.Sourced deg asked) (hdeg : 1 ≤ deg)
    (hpolicy : ∀ p, c.pfPolicy = some p → p.lineBytes = 2 ^ c.offsetBits) (a : Word) (w : Bool) :
    (c.noted a w).Sourced deg (a :: asked) ∧ (c.noted a w).credit ≤ c.credit + deg := by
  have hmore := h.mono (List.subset_cons_self a asked)
  rcases c.noted_cases a w with ⟨hit, hn⟩ | ⟨hit, policy, way, hact, hp, hn⟩
  · rw [hn]
    exact ⟨⟨hmore.degree, hmore.resident, hmore.engine, fun _ => List.mem_cons_self⟩,
      Nat.le_add_right _ _⟩
  · rw [hn]
    refine ⟨⟨hmore.degree, hmore.resident, ?_, ?_⟩, ?_⟩
    · intro _
      refine ⟨le_rfl, hdeg, a, List.mem_cons_self, ?_⟩
      change policy.next (c.lineAddrOf a) = c.lineAddrOf a + BitVec.ofNat 32 (1 * 2 ^ c.offsetBits)
      rw [next_eq (hpolicy policy hp), Nat.one_mul]
    · exact fun _ => List.mem_cons_self
    · have hdegree := h.degree
      simp only [credit, withEngine, if_true, hact]
      omega

/-- A hit is the first use of its line, or one more. -/
theorem Sourced.acceptHit (h : c.Sourced deg asked) (hshape : c.WellFormed) {a : Word} {way : Nat}
    (hfind : c.findWay a = some way) (ha : a ∈ asked) (hcur : c.curAddr ∈ asked) (w : Bool) :
    (c.acceptHit (c.indexOf a) way w).Sourced deg asked := by
  have htag : (c.lineAt (c.indexOf a) way).tag = c.tagOf a := by
    have hprop := List.find?_some hfind
    simp only [Bool.and_eq_true, beq_iff_eq] at hprop
    exact hprop.2
  rw [acceptHit_eq]
  refine ⟨h.degree, ?_, h.engine, fun _ => hcur⟩
  have hlines := h.set_line hshape (indexOf_lt hshape a) (findWay_lt hfind)
    (l := { c.lineAt (c.indexOf a) way with
      dirty := (c.lineAt (c.indexOf a) way).dirty || w, prefetched := false })
    (fun _ => by
      dsimp only
      rw [htag]
      exact origin_line hshape (origin_asked ha))
  exact hlines

theorem Sourced.acceptMiss (h : c.Sourced deg asked) (hcur : c.curAddr ∈ asked) (set : Word) :
    (c.acceptMiss set).Sourced deg asked ∧ (c.acceptMiss set).credit ≤ c.credit := by
  rw [acceptMiss_eq]
  refine ⟨⟨h.degree, h.resident, ?_, fun _ => hcur⟩, ?_⟩
  · intro hact
    rw [Bool.and_eq_true] at hact
    exact h.engine hact.1
  · unfold credit
    dsimp only
    cases c.pfActive <;> cases c.clash set (c.chooseVictim set) <;> simp

theorem owed_le (c : Cache M) : c.owed ≤ 1 := by
  unfold owed
  split <;> omega

/-- A request that is accepted pays for its fill and for a whole chain of prefetches. -/
theorem Sourced.accept (h : c.Sourced deg asked) (hshape : c.WellFormed) (hdeg : 1 ≤ deg)
    (hpolicy : ∀ p, c.pfPolicy = some p → p.lineBytes = 2 ^ c.offsetBits) (a : Word) (w : Bool) :
    (c.accept a w).Sourced deg (a :: asked) ∧ (c.accept a w).credit ≤ c.credit + deg := by
  rcases h.noted hdeg hpolicy a w with ⟨hn, hcredit⟩
  have hnshape := hshape.noted a w
  rcases c.noted_frame a w with ⟨act, addr, way, n, hframe⟩
  have hcur : (c.noted a w).curAddr ∈ a :: asked := by
    rw [hframe]
    exact List.mem_cons_self
  rw [accept_eq]
  cases hfind : c.findWay a with
  | none =>
    dsimp only
    split
    · exact ⟨⟨hn.degree, hn.resident, hn.engine, fun _ => hcur⟩, hcredit⟩
    · rcases hn.acceptMiss hcur (c.indexOf a) with ⟨hs, hle⟩
      exact ⟨hs, hle.trans hcredit⟩
  | some hitWay =>
    dsimp only
    have hsame : (c.noted a w).findWay a = some hitWay ∧
        (c.noted a w).indexOf a = c.indexOf a := by
      rw [hframe]
      exact ⟨hfind, rfl⟩
    have hhit := hn.acceptHit hnshape hsame.1 List.mem_cons_self hcur w
    rw [hsame.2] at hhit
    refine ⟨hhit, ?_⟩
    rw [acceptHit_eq]
    exact hcredit

/-! ## Installs -/

theorem Sourced.completePrefetch (h : c.Sourced deg asked) (hshape : c.WellFormed)
    (hpolicy : ∀ p, c.pfPolicy = some p → p.lineBytes = 2 ^ c.offsetBits)
    (hact : c.pfActive = true) (haligned : c.lineAddrOf c.pfAddr = c.pfAddr)
    (hway : c.pfWay < c.ways) :
    c.completePrefetch.Sourced deg asked ∧ c.completePrefetch.credit + 1 ≤ c.credit := by
  rcases h.engine hact with ⟨hlo, hhi, hfrom⟩
  have hdegree := h.degree
  have hinstalled : c.prefetchInstalled.Sourced deg asked := by
    have hlines := h.set_line hshape (indexOf_lt hshape c.pfAddr) hway
      (l := ⟨true, false, true, c.tagOf c.pfAddr⟩)
      (fun _ => origin_line hshape ⟨c.pfChain, ⟨hlo, hhi⟩, by rw [haligned]; exact hfrom⟩)
    unfold prefetchInstalled
    rw [installLine_eq]
    exact ⟨h.degree, hlines, (nomatch ·), h.request⟩
  have hcredit : c.credit = deg + 1 - c.pfChain := by
    unfold credit
    rw [if_pos hact, hdegree]
  have hquiet : c.prefetchInstalled.credit + 1 ≤ c.credit := by
    change 0 + 1 ≤ c.credit
    omega
  have hkeeps : c.prefetchInstalled.pfDegree = deg ∧
      c.prefetchInstalled.offsetBits = c.offsetBits := by
    unfold prefetchInstalled
    rw [installLine_eq]
    exact ⟨hdegree, rfl⟩
  rw [completePrefetch_eq]
  split
  · exact ⟨hinstalled, hquiet⟩
  · rename_i policy hp
    split
    · rename_i hchain
      rcases reservePrefetch_cases c.prefetchInstalled (policy.next c.pfAddr) (c.pfChain + 1) with
        hr | ⟨way, hr⟩
      · rw [hr]
        exact ⟨hinstalled, hquiet⟩
      · rw [hr]
        refine ⟨⟨hinstalled.degree, hinstalled.resident, fun _ => ⟨by simp [withEngine], ?_, ?_⟩,
          hinstalled.request⟩, ?_⟩
        · change c.pfChain + 1 ≤ deg
          omega
        · refine Ahead.of_offsetBits (c := c) ?_ hkeeps.2
          change c.Ahead asked (c.pfChain + 1) (policy.next c.pfAddr)
          rw [next_eq (hpolicy policy hp)]
          exact hfrom.next
        · simp only [credit, withEngine, if_true, hkeeps.1, hact, hdegree]
          omega
    · exact ⟨hinstalled, hquiet⟩

theorem Sourced.fill (h : c.Sourced deg asked) (hshape : c.WellFormed) (hcur : c.curAddr ∈ asked)
    (hway : c.victimWay < c.ways) : c.fill.Sourced deg asked ∧ c.fill.credit = c.credit := by
  have hlines := h.set_line hshape (indexOf_lt hshape c.curAddr) hway
    (l := ⟨true, c.curIsWrite, false, c.tagOf c.curAddr⟩)
    (fun _ => origin_line hshape (origin_asked hcur))
  unfold Cache.fill
  rw [installLine_eq]
  exact ⟨⟨h.degree, hlines, h.engine, fun _ => hcur⟩, rfl⟩

/-- A demand fetch that took over the prefetch leaves the engine idle. -/
theorem Sourced.merged (h : c.Sourced deg asked) (hshape : c.WellFormed)
    (hcur : c.curAddr ∈ asked) (hway : c.victimWay < c.ways) : c.merged.Sourced deg asked := by
  rcases h.fill hshape hcur hway with ⟨hfill, -⟩
  exact ⟨hfill.degree, hfill.resident, (nomatch ·), hfill.request⟩

/-! ## Calls -/

/-- The address that a call asks for, if it is accepted. -/
def asks (c : Cache M) : Blocking.Call (Word × Bool) → List Word
  | .ready (a, _) => if c.phase = .idle then [a] else []
  | .tick => []

theorem Sourced.with_backing (h : c.Sourced deg asked) (b : M) :
    ({ c with backing := b } : Cache M).Sourced deg asked :=
  ⟨h.degree, h.resident, h.engine, h.request⟩

theorem Pays.refl (deg : Nat) (c : Cache M) : Pays deg c c 0 [] := by
  constructor <;> simp

variable [IMemory M]

/-- A request driven to the backing: nothing is installed until it is served. -/
theorem Sourced.drive {g : Cache M → Cache M} {l : List (SlotEvent Nat)}
    (h : c.Sourced deg asked) (a : Word) (w : Bool)
    (hg : ∀ b, (g { c with backing := b }).Sourced deg asked ∧
      Pays deg c (g { c with backing := b }) 0 l) :
    (c.drive g a w).Sourced deg asked ∧
      Pays deg c (c.drive g a w) 0
        (if ((IMemory.port M).ready c.backing (a, w)).1 then l else []) := by
  rw [drive_eq]
  split
  · rcases hg ((IMemory.port M).ready c.backing (a, w)).2 with ⟨hs, hpays⟩
    exact ⟨hs.with_backing _, hpays.prefetches, hpays.fills⟩
  · have hrefl := Pays.refl deg c
    exact ⟨h.with_backing _, hrefl.prefetches, hrefl.fills⟩

theorem Sourced.servicePrefetch (h : c.Sourced deg asked) (hshape : c.WellFormed)
    (hpolicy : ∀ p, c.pfPolicy = some p → p.lineBytes = 2 ^ c.offsetBits)
    (haligned : c.pfActive = true → c.lineAddrOf c.pfAddr = c.pfAddr)
    (hway : c.pfActive = true → c.pfWay < c.ways) (hq : c.phase = .idle ∨ c.phase = .hitWait) :
    c.servicePrefetch.Sourced deg asked ∧ Pays deg c c.servicePrefetch 0
      (if c.pfActive && ((IMemory.port M).ready c.backing (c.pfAddr, false)).1 then
        [.place (c.slot (c.indexOf c.pfAddr) c.pfWay)] else []) := by
  rw [servicePrefetch_eq]
  cases hact : c.pfActive with
  | false => exact ⟨h, Pays.refl deg c⟩
  | true =>
    rw [Bool.true_and]
    refine h.drive c.pfAddr false fun b => ?_
    rcases (h.with_backing b).completePrefetch (hshape.frame rfl) hpolicy hact (haligned hact)
      (hway hact) with ⟨hs, hcredit⟩
    refine ⟨hs, ?_, ?_⟩
    · change 1 + _ ≤ _
      change _ ≤ c.credit at hcredit
      omega
    · rcases completePrefetch_frame { c with backing := b } with
        ⟨l, r, st, act, addr, way, n, hframe⟩
      rw [hframe]
      rcases hq with hq | hq <;> simp [SlotEvent.isTake, owed, withEngine, hq]

/-- Every tick keeps the sources, and what it installs was paid for. -/
theorem Sourced.tick {recent : Word → Option Nat} (h : c.Sourced deg asked)
    (hr : Resident False c recent) :
    c.tick.Sourced deg asked ∧ Pays deg c c.tick 0 (c.slotEvents .tick) := by
  have hshape := hr.placed.shape
  have hpolicy := hr.placed.policy
  have haligned := hr.placed.aligned
  have hway : c.pfActive = true → c.pfWay < c.ways := fun hact =>
    (hr.sound.ahead ⟨c.indexOf c.pfAddr, c.tagOf c.pfAddr, c.pfWay⟩ (if_pos hact)).inside
  rw [tick_eq]
  cases hphase : c.phase with
  | idle =>
    rw [slotEvents_quiet (.inl hphase)]
    exact h.servicePrefetch hshape hpolicy haligned hway (.inl hphase)
  | hitWait =>
    rw [slotEvents_quiet (.inr hphase)]
    unfold countDown
    dsimp only
    split
    · have hwait := Sourced.servicePrefetch (c := { c with hitRemaining := c.hitRemaining - 1 })
        ⟨h.degree, h.resident, h.engine, h.request⟩ (hshape.frame rfl) hpolicy haligned hway
        (.inr hphase)
      exact ⟨hwait.1, hwait.2.prefetches, hwait.2.fills⟩
    · have hidle := Sourced.servicePrefetch (c := { c with phase := .idle })
        ⟨h.degree, h.resident, h.engine, fun hn => (hn rfl).elim⟩ (hshape.frame rfl) hpolicy
        haligned hway (.inl rfl)
      refine ⟨hidle.1, hidle.2.prefetches, hidle.2.fills.trans ?_⟩
      exact Nat.zero_le _
  | writeBack =>
    have hcur := h.request (by rw [hphase]; simp)
    rw [slotEvents_flushing hphase]
    dsimp only
    have hdrive := h.drive (g := fun d => { d with phase := .missFetch }) (l := []) c.wbAddr true
      fun b => ⟨⟨h.degree, h.resident, h.engine, fun _ => hcur⟩, by simp [credit], by
        simp [owed, hphase]⟩
    rw [ite_self] at hdrive
    exact hdrive
  | missFetch =>
    have hcur := h.request (by rw [hphase]; simp)
    have hvictim : c.victimWay < c.ways :=
      (hr.sound.demand ⟨c.indexOf c.curAddr, c.tagOf c.curAddr, c.victimWay⟩ (by
        simp only [residency, hphase])).inside
    rw [slotEvents_missFetch hphase]
    refine h.drive c.curAddr false fun b => ?_
    rcases (h.with_backing b).fill (hshape.frame rfl) hcur hvictim with ⟨hs, hcredit⟩
    refine ⟨hs, ?_, ?_⟩
    · rw [hcredit]
      simp [SlotEvent.isNew, SlotEvent.isPlace, credit]
    · unfold Cache.fill
      simp [SlotEvent.isTake, owed, hphase]
  | prefetchWait =>
    have hcur := h.request (by rw [hphase]; simp)
    rcases hr.placed.merging hphase with ⟨hact, hvictim, -⟩
    rcases h.engine hact with ⟨-, hchain, -⟩
    have hdegree := h.degree
    rw [slotEvents_prefetchWait hphase]
    refine h.drive c.curAddr false fun b => ?_
    refine ⟨(h.with_backing b).merged (hshape.frame rfl) hcur (hvictim ▸ hway hact), ?_, ?_⟩
    · -- The merged prefetch was the engine's, which gives up the rest of its chain.
      change 1 + 0 ≤ _
      unfold credit
      rw [if_pos hact]
      omega
    · unfold owed
      rw [hphase]
      exact le_rfl

theorem Sourced.call {recent : Word → Option Nat} (h : c.Sourced deg asked) (hdeg : 1 ≤ deg)
    (hr : Resident False c recent) (call : Blocking.Call (Word × Bool)) :
    ((IMemory.port (Cache M)).call c call).Sourced deg (c.asks call ++ asked) ∧
      Pays deg c ((IMemory.port (Cache M)).call c call) (c.asks call).length
        (c.slotEvents call) := by
  cases call with
  | tick => exact h.tick hr
  | ready r =>
    change (c.ready r.1 r.2).2.Sourced deg ((if c.phase = .idle then [r.1] else []) ++ asked) ∧
      Pays deg c (c.ready r.1 r.2).2 (if c.phase = .idle then [r.1] else []).length
        (if c.phase = .idle then _ else [])
    by_cases hphase : c.phase = .idle
    · rw [ready_of_idle hphase, if_pos hphase, if_pos hphase]
      rcases h.accept hr.placed.shape hdeg hr.placed.policy r.1 r.2 with ⟨hs, hcredit⟩
      have howed := (c.accept r.1 r.2).owed_le
      refine ⟨hs, ?_, ?_⟩
      · cases c.hitWay r.1 <;> simp [SlotEvent.isNew, SlotEvent.isPlace] <;> omega
      · cases c.hitWay r.1 <;> simp [SlotEvent.isTake] <;> omega
    · rw [ready_of_busy hphase, if_neg hphase, if_neg hphase]
      exact ⟨h, Pays.refl deg c⟩

/-! ## Runs -/

/-- The addresses accepted on a run. -/
def accepted (c₀ : Cache M) (cs : List (Blocking.Call (Word × Bool))) : List Word :=
  (IMemory.port (Cache M)).outputs asks cs c₀

/-- How many lines are fetched because they were asked for. -/
def demandFills (c₀ : Cache M) (cs : List (Blocking.Call (Word × Bool))) : Nat :=
  (c₀.slotTrace cs).countP SlotEvent.isTake

/-- What holds over any calls. -/
theorem Sourced.run {recent : Word → Option Nat} (h : c.Sourced deg asked) (hdeg : 1 ≤ deg)
    (hr : Resident False c recent) (cs : List (Blocking.Call (Word × Bool))) :
    (cs.foldl (IMemory.port (Cache M)).call c).Sourced deg (asked ++ c.accepted cs) ∧
      Pays deg c (cs.foldl (IMemory.port (Cache M)).call c) (c.accepted cs).length
        (c.slotTrace cs) := by
  induction cs generalizing c asked recent with
  | nil => exact ⟨h.mono (List.subset_append_left _ _), Pays.refl deg c⟩
  | cons call cs ih =>
    rcases h.call hdeg hr call with ⟨hs, hpays⟩
    have hmoves := moves_call hr.placed hr.sound call fun hf : False => hf.elim
    rcases ih hs (hr.moves hmoves) with ⟨hs', hpays'⟩
    have hasked : c.accepted (call :: cs) =
        c.asks call ++ ((IMemory.port (Cache M)).call c call).accepted cs := rfl
    refine ⟨hs'.mono ?_, ?_⟩
    · intro a ha
      rw [hasked]
      simp only [List.mem_append] at ha ⊢
      tauto
    · rw [hasked, List.length_append]
      exact hpays.append hpays'

omit [IMemory M] in
theorem sourced_new (m : M) (lineBytes sets hitLatency ways : Nat) (pf : Bool) (degree : Nat)
    (stats : Option SimStats) :
    (new m lineBytes sets hitLatency ways pf degree stats).Sourced
      (if degree = 0 then 1 else degree) [] := by
  refine ⟨rfl, ?_, (nomatch ·), fun hp => (hp rfl).elim⟩
  intro set way _ _ hv
  rw [lineAt_new] at hv
  cases hv

/-- Whatever a caller does, a new cache holds only lines of addresses it accepted, and unused
    prefetches of at most `degree` lines behind one. Every accepted address costs at most one
    demand fill and, in prefetches installed or merged with, the degree. -/
theorem prefetch_provenance (m : M) {lineBytes sets ways : Nat}
    (hs : CacheShape lineBytes sets ways) (hitLatency degree : Nat) (pf : Bool)
    (stats : Option SimStats) (cs : List (Blocking.Call (Word × Bool))) :
    let c₀ := new m lineBytes sets hitLatency ways pf degree stats
    let c := cs.foldl (IMemory.port (Cache M)).call c₀
    (∀ set way, set.toNat < 2 ^ c.indexBits → way < c.ways → (c.lineAt set way).valid = true →
      c.Origin (max 1 degree) (c₀.accepted cs) (c.addrOf set (c.lineAt set way).tag)
        (c.lineAt set way).prefetched) ∧
    c₀.prefetchInstalls cs + c₀.mergesCompleted cs ≤ max 1 degree * (c₀.accepted cs).length ∧
    c₀.demandFills cs ≤ (c₀.accepted cs).length := by
  intro c₀ c
  have hdeg : (if degree = 0 then 1 else degree) = max 1 degree := by
    split <;> omega
  have hnew : c₀.Sourced (max 1 degree) [] :=
    hdeg ▸ sourced_new m lineBytes sets hitLatency ways pf degree stats
  rcases hnew.run (by omega) (resident_new False m hs hitLatency pf degree stats) cs with
    ⟨hsourced, hpays⟩
  have hcount := SlotEvent.countP_isNew (c₀.slotTrace cs)
  have hprefetches : (c₀.slotTrace cs).countP SlotEvent.isNew + c.credit ≤
      c₀.credit + max 1 degree * (c₀.accepted cs).length := hpays.prefetches
  have hfills : c₀.demandFills cs + c.owed ≤ c₀.owed + (c₀.accepted cs).length := hpays.fills
  have hcredit : c₀.credit = 0 := rfl
  have howed : c₀.owed = 0 := rfl
  refine ⟨hsourced.resident, ?_, ?_⟩
  · change (c₀.slotTrace cs).countP SlotEvent.isPlace + (c₀.slotTrace cs).count .pass ≤ _
    omega
  · omega

theorem prefetch_provenance_mergeThenReplace :
    let c₀ := new (FlatMem.new 0 64 2) 4 2 1 1 true 1 (some {})
    c₀.accepted mergeThenReplace = [0, 4, 4, 0] ∧
      c₀.prefetchInstalls mergeThenReplace + c₀.mergesCompleted mergeThenReplace ≤ 4 ∧
      c₀.demandFills mergeThenReplace ≤ 4 := by
  intro c₀
  have hasked : c₀.accepted mergeThenReplace = [0, 4, 4, 0] := by decide +kernel
  have hshape : CacheShape 4 2 1 := ⟨⟨2, rfl⟩, ⟨1, rfl⟩, ⟨0, rfl⟩, by decide⟩
  rcases prefetch_provenance (FlatMem.new 0 64 2) hshape 1 1 true (some {}) mergeThenReplace with
    ⟨-, hprefetches, hfills⟩
  refine ⟨hasked, ?_, ?_⟩
  · rw [hasked] at hprefetches
    exact hprefetches
  · rw [hasked] at hfills
    exact hfills

end Cache

end CpuSim
