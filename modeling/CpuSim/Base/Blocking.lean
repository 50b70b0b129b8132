import Mathlib.Logic.Function.Iterate

/-!
# Components that serve one request at a time

A component is asked `ready` about a request every cycle and advanced by `tick`. `Drives` is
one request asked about until it is served, with the tick that releases it. A component
implements an atomic one when driving any request from an idle state takes the cycles the
atomic component charges and ends in an idle state that stands for its next state.
-/

/-- A blocking component with states `σ` and requests `ρ`. -/
structure Blocking (σ ρ : Type*) where
  ready : σ → ρ → Bool × σ
  tick : σ → σ

namespace Blocking

variable {σ τ ρ α : Type*} (p : Blocking σ ρ) (q : Blocking τ ρ)

/-- One cycle of a caller that asks about `r`. -/
def poll (s : σ) (r : ρ) : σ := p.tick (p.ready s r).2

/-- Asking about `r` from `s` on, the request is served on the `n`-th cycle, and that cycle
    ends in `t`. -/
inductive Drives (r : ρ) : σ → Nat → σ → Prop
  | served {s : σ} (h : (p.ready s r).1 = true) : Drives r s 1 (p.poll s r)
  | waits {s t : σ} {n : Nat} (h : (p.ready s r).1 = false) (hd : Drives r (p.poll s r) n t) :
      Drives r s (n + 1) t

/-- The requests of a list, each driven as soon as the one before it is released. -/
inductive DrivesAll : List ρ → σ → List Nat → σ → Prop
  | nil (s : σ) : DrivesAll [] s [] s
  | cons {r : ρ} {rs : List ρ} {s t u : σ} {n : Nat} {ns : List Nat} (h : p.Drives r s n t)
      (hs : DrivesAll rs t ns u) : DrivesAll (r :: rs) s (n :: ns) u

/-- Requests driven one after another, each after some ticks without a caller. -/
inductive Session : List (Nat × ρ) → σ → List Nat → σ → Prop
  | nil (s : σ) : Session [] s [] s
  | cons {k : Nat} {r : ρ} {rs : List (Nat × ρ)} {s t u : σ} {n : Nat} {ns : List Nat}
      (h : p.Drives r (p.tick^[k] s) n t) (hs : Session rs t ns u) :
      Session ((k, r) :: rs) s (n :: ns) u

variable {p q}

theorem Drives.pos {r : ρ} {s t : σ} {n : Nat} (h : p.Drives r s n t) : 0 < n := by
  cases h <;> omega

theorem DrivesAll.append {rs rs' : List ρ} {s t u : σ} {ns ns' : List Nat}
    (h : p.DrivesAll rs s ns t) (h' : p.DrivesAll rs' t ns' u) :
    p.DrivesAll (rs ++ rs') s (ns ++ ns') u := by
  induction h with
  | nil s => exact h'
  | cons hd _ ih => exact .cons hd (ih h')

/-- A first question that only starts the request costs nothing by itself. -/
theorem Drives.of_ready {r : ρ} {s t : σ} {n : Nat}
    (hs : p.ready (p.ready s r).2 r = p.ready s r) (h : p.Drives r (p.ready s r).2 n t) :
    p.Drives r s n t := by
  have hp : p.poll (p.ready s r).2 r = p.poll s r := by unfold poll; rw [hs]
  cases h with
  | served hr => rw [hp]; exact .served (by rwa [hs] at hr)
  | waits hr hd => rw [hp] at hd; exact .waits (by rwa [hs] at hr) hd

/-- The cycle that serves, and what holds in it. -/
theorem Drives.last {P : σ → Prop} {r : ρ} {s t : σ} {n : Nat} (h : p.Drives r s n t)
    (hpoll : ∀ s, P s → P (p.poll s r)) (hs : P s) :
    ∃ u, P u ∧ (p.ready u r).1 = true ∧ t = p.poll u r := by
  induction h with
  | served hr => exact ⟨_, hs, hr, rfl⟩
  | waits _ _ ih => exact ih (hpoll _ hs)

section Sessions

variable {Rest : σ → Prop} {Q : ρ → Prop} {P : Nat → Prop}

theorem tick_iterate (htick : ∀ s, Rest s → Rest (p.tick s)) {s : σ} (hs : Rest s) (k : Nat) :
    Rest (p.tick^[k] s) := by
  induction k generalizing s with
  | zero => exact hs
  | succ k ih => exact ih (htick s hs)

/-- What every request takes that is driven from a state of rest to another. -/
theorem Session.forall_mem {rs : List (Nat × ρ)} {s t : σ} {ns : List Nat}
    (h : p.Session rs s ns t) (htick : ∀ s, Rest s → Rest (p.tick s))
    (hdrive : ∀ {s r n t}, Rest s → Q r → p.Drives r s n t → Rest t ∧ P n)
    (hs : Rest s) (hrs : ∀ x ∈ rs, Q x.2) : ∀ n ∈ ns, P n := by
  induction h with
  | nil => intro n hn; cases hn
  | cons hd _ ih =>
    obtain ⟨ht, hn⟩ := hdrive (tick_iterate htick hs _) (hrs _ List.mem_cons_self) hd
    have hrest := ih ht fun x hx => hrs x (List.mem_cons_of_mem _ hx)
    intro i hi
    rcases List.mem_cons.mp hi with rfl | hi
    · exact hn
    · exact hrest i hi

/-- A session goes through when every request of it can be driven. -/
theorem exists_session (htick : ∀ s, Rest s → Rest (p.tick s))
    (hdrive : ∀ {s r}, Rest s → Q r → ∃ n t, p.Drives r s n t ∧ Rest t)
    (rs : List (Nat × ρ)) {s : σ} (hs : Rest s) (hrs : ∀ x ∈ rs, Q x.2) :
    ∃ ns t, p.Session rs s ns t := by
  induction rs generalizing s with
  | nil => exact ⟨[], s, .nil s⟩
  | cons x rs ih =>
    obtain ⟨n, t, hd, ht⟩ := hdrive (tick_iterate htick hs x.1) (hrs x List.mem_cons_self)
    obtain ⟨ns, u, hu⟩ := ih ht fun y hy => hrs y (List.mem_cons_of_mem x hy)
    exact ⟨n :: ns, u, .cons hd hu⟩

end Sessions

/-! ## Calls -/

/-- A call of the protocol, from any caller. -/
inductive Call (ρ : Type*) where
  | ready (r : ρ)
  | tick
  deriving DecidableEq, Repr

variable (p) in
def call (s : σ) : Call ρ → σ
  | .ready r => (p.ready s r).2
  | .tick => p.tick s

variable (p) in
/-- The state after the first `i` calls of a list. -/
def stateAt (cs : List (Call ρ)) (s : σ) (i : Nat) : σ := (cs.take i).foldl p.call s

@[simp] theorem stateAt_zero (cs : List (Call ρ)) (s : σ) : p.stateAt cs s 0 = s := rfl

theorem stateAt_succ {cs : List (Call ρ)} (s : σ) {i : Nat} (hi : i < cs.length) :
    p.stateAt cs s (i + 1) = p.call (p.stateAt cs s i) cs[i] := by
  unfold stateAt
  rw [List.take_succ_eq_append_getElem hi, List.foldl_append]
  rfl

/-- What holds at first and is kept by every call of a list holds all along. -/
theorem stateAt_invariant {P : Nat → σ → Prop} {cs : List (Call ρ)} {s : σ} (hs : P 0 s)
    (hcall : ∀ i (hi : i < cs.length), P i (p.stateAt cs s i) →
      P (i + 1) (p.call (p.stateAt cs s i) cs[i])) :
    ∀ i ≤ cs.length, P i (p.stateAt cs s i) := by
  intro i
  induction i with
  | zero => exact fun _ => hs
  | succ i ih =>
    intro hi
    rw [stateAt_succ s hi]
    exact hcall i hi (ih (by omega))

variable (p) in
/-- What the calls of a list put out, each from the state it finds. -/
def outputs {β : Type*} (f : σ → Call ρ → List β) : List (Call ρ) → σ → List β
  | [], _ => []
  | c :: cs, s => f s c ++ outputs f cs (p.call s c)

/-- A machine that is fed the outputs follows the calls if it follows each. -/
theorem foldl_outputs {β : Type*} {f : σ → Call ρ → List β} {step : α → β → α}
    {R : σ → α → Prop} (hcall : ∀ s c a, R s a → R (p.call s c) ((f s c).foldl step a))
    (cs : List (Call ρ)) {s : σ} {a : α} (h : R s a) :
    R (cs.foldl p.call s) ((p.outputs f cs s).foldl step a) := by
  induction cs generalizing s a with
  | nil => exact h
  | cons c cs ih =>
    rw [outputs, List.foldl_append]
    exact ih (hcall s c a h)

/-! ## Maps between components -/

/-- `f` carries the one component to the other. -/
structure Maps (p : Blocking σ ρ) (q : Blocking τ ρ) (f : σ → τ) : Prop where
  ready : ∀ s r, q.ready (f s) r = ((p.ready s r).1, f (p.ready s r).2)
  tick : ∀ s, q.tick (f s) = f (p.tick s)

namespace Maps

variable {f : σ → τ}

theorem poll (h : Maps p q f) (s : σ) (r : ρ) : q.poll (f s) r = f (p.poll s r) := by
  unfold Blocking.poll
  rw [h.ready]
  exact h.tick _

theorem drives (h : Maps p q f) {r : ρ} {s t : σ} {n : Nat} (hd : p.Drives r s n t) :
    q.Drives r (f s) n (f t) := by
  induction hd with
  | served hr => rw [← h.poll]; exact .served (by rw [h.ready, hr])
  | waits hr _ ih => exact .waits (by rw [h.ready, hr]) (by rwa [h.poll])

theorem drivesAll (h : Maps p q f) {rs : List ρ} {s t : σ} {ns : List Nat}
    (hd : p.DrivesAll rs s ns t) : q.DrivesAll rs (f s) ns (f t) := by
  induction hd with
  | nil s => exact .nil _
  | cons hr _ ih => exact .cons (h.drives hr) ih

theorem drives_lift (h : Maps p q f) {r : ρ} {s : σ} {u : τ} {n : Nat}
    (hd : q.Drives r (f s) n u) : ∃ t, p.Drives r s n t ∧ f t = u := by
  generalize hfs : f s = v at hd
  induction hd generalizing s with
  | served hr =>
    subst hfs
    rw [h.ready] at hr
    exact ⟨_, .served hr, (h.poll s r).symm⟩
  | waits hr _ ih =>
    subst hfs
    rw [h.ready] at hr
    obtain ⟨t, ht, hu⟩ := ih (h.poll s r).symm
    exact ⟨t, .waits hr ht, hu⟩

theorem drivesAll_lift (h : Maps p q f) {rs : List ρ} {s : σ} {u : τ} {ns : List Nat}
    (hd : q.DrivesAll rs (f s) ns u) : ∃ t, p.DrivesAll rs s ns t ∧ f t = u := by
  generalize hfs : f s = v at hd
  induction hd generalizing s with
  | nil v => exact ⟨s, .nil s, hfs⟩
  | cons hr _ ih =>
    subst hfs
    obtain ⟨t, ht, hft⟩ := h.drives_lift hr
    obtain ⟨u, hu, hfu⟩ := ih hft
    exact ⟨u, .cons ht hu, hfu⟩

end Maps

/-! ## Ranks -/

/-- On the states `Ok` a caller that is not served lowers `rank`, whatever it asks about from
    cycle to cycle. -/
structure Ranked (p : Blocking σ ρ) (Ok : σ → Prop) (rank : σ → Nat) (bound : Nat) : Prop where
  ready : ∀ {s} (r : ρ), Ok s → Ok (p.ready s r).2
  tick : ∀ {s}, Ok s → Ok (p.tick s)
  le : ∀ {s}, Ok s → rank s ≤ bound
  waits : ∀ {s} (r : ρ), Ok s → (p.ready s r).1 = false → rank (p.poll s r) < rank s

theorem Ranked.poll {Ok : σ → Prop} {rank : σ → Nat} {bound : Nat}
    (h : p.Ranked Ok rank bound) {s : σ} (r : ρ) (hs : Ok s) : Ok (p.poll s r) :=
  h.tick (h.ready r hs)

/-- A request is served when the rank is used up, at the latest. -/
theorem Ranked.drives {Ok : σ → Prop} {rank : σ → Nat} {bound : Nat}
    (h : p.Ranked Ok rank bound) (r : ρ) {s : σ} (hs : Ok s) :
    ∃ n t, p.Drives r s n t ∧ n ≤ rank s + 1 := by
  induction hk : rank s using Nat.strongRecOn generalizing s with
  | ind k ih =>
    cases hr : (p.ready s r).1 with
    | true => exact ⟨1, _, .served hr, by omega⟩
    | false =>
      have hlt := h.waits r hs hr
      obtain ⟨n, t, hd, hn⟩ := ih _ (hk ▸ hlt) (h.poll r hs) rfl
      exact ⟨n + 1, t, .waits hr hd, by omega⟩

theorem Drives.unique {r : ρ} {s t t' : σ} {n n' : Nat} (h : p.Drives r s n t)
    (h' : p.Drives r s n' t') : n = n' ∧ t = t' := by
  induction h generalizing n' with
  | served hr =>
    cases h' with
    | served => exact ⟨rfl, rfl⟩
    | waits hr' _ => rw [hr] at hr'; cases hr'
  | waits hr _ ih =>
    cases h' with
    | served hr' => rw [hr] at hr'; cases hr'
    | waits _ hd =>
      obtain ⟨rfl, rfl⟩ := ih hd
      exact ⟨rfl, rfl⟩

theorem DrivesAll.unique {rs : List ρ} {s t t' : σ} {ns ns' : List Nat}
    (h : p.DrivesAll rs s ns t) (h' : p.DrivesAll rs s ns' t') : ns = ns' ∧ t = t' := by
  induction h generalizing ns' with
  | nil => cases h'; exact ⟨rfl, rfl⟩
  | cons hd _ ih =>
    cases h' with
    | cons hd' hds' =>
      obtain ⟨rfl, rfl⟩ := hd.unique hd'
      obtain ⟨rfl, rfl⟩ := ih hds'
      exact ⟨rfl, rfl⟩

/-- A count that falls by one a cycle at most, and is used up when the request is served, has to
    be waited for. -/
theorem Drives.le {r : ρ} {s t : σ} {n : Nat} (h : p.Drives r s n t) (Ok : σ → Prop)
    (left : σ → Nat) (hpoll : ∀ s, Ok s → Ok (p.poll s r))
    (hserved : ∀ s, Ok s → (p.ready s r).1 = true → left s = 0)
    (hwaits : ∀ s, Ok s → (p.ready s r).1 = false → left s ≤ left (p.poll s r) + 1) (hs : Ok s) :
    left s + 1 ≤ n := by
  induction h with
  | served hr =>
    have hleft := hserved _ hs hr
    omega
  | waits hr _ ih =>
    have hnext := ih (hpoll _ hs)
    have hleft := hwaits _ hs hr
    omega

/-! ## Implementing an atomic component -/

/-- From an idle state every request is served after the cycles `access` charges, and the
    component is idle again in a state that stands for the one `access` gives. An idle
    component rests. -/
structure Implements (p : Blocking σ ρ) (Idle : σ → Prop) (abs : σ → α)
    (access : α → ρ → Nat × α) : Prop where
  rest : ∀ {s}, Idle s → p.tick s = s
  serves : ∀ {s} (r : ρ), Idle s →
    ∃ t, p.Drives r s (access (abs s) r).1 t ∧ Idle t ∧ abs t = (access (abs s) r).2

/-- The charges of a list of requests, and the state after them. -/
def accessAll (access : α → ρ → Nat × α) : List ρ → α → List Nat × α
  | [], a => ([], a)
  | r :: rs, a =>
    ((access a r).1 :: (accessAll access rs (access a r).2).1,
      (accessAll access rs (access a r).2).2)

namespace Implements

variable {Idle : σ → Prop} {abs : σ → α} {access : α → ρ → Nat × α}

theorem rests (h : p.Implements Idle abs access) {s : σ} (hs : Idle s) (k : Nat) :
    p.tick^[k] s = s := Function.iterate_fixed (h.rest hs) k

/-- What maps to an implementation, and rests where that is idle, implements the same. -/
theorem comap {q : Blocking τ ρ} {f : σ → τ} {Idle : τ → Prop} {abs : τ → α}
    (h : q.Implements Idle abs access) (hf : Maps p q f)
    (hrest : ∀ s, Idle (f s) → p.tick s = s) :
    p.Implements (fun s => Idle (f s)) (fun s => abs (f s)) access where
  rest := fun hs => hrest _ hs
  serves := by
    intro s r hs
    obtain ⟨u, hd, hu, ha⟩ := h.serves r hs
    obtain ⟨t, ht, rfl⟩ := hf.drives_lift hd
    exact ⟨t, ht, hu, ha⟩

/-- A list of requests is charged what the atomic component charges. -/
theorem serves_all (h : p.Implements Idle abs access) (rs : List ρ) {s : σ} (hs : Idle s) :
    ∃ t, p.DrivesAll rs s (accessAll access rs (abs s)).1 t ∧ Idle t ∧
      abs t = (accessAll access rs (abs s)).2 := by
  induction rs generalizing s with
  | nil => exact ⟨s, .nil s, hs, rfl⟩
  | cons r rs ih =>
    obtain ⟨t, hd, ht, ha⟩ := h.serves r hs
    obtain ⟨u, hds, hu, hau⟩ := ih ht
    rw [ha] at hds hau
    exact ⟨u, .cons hd hds, hu, hau⟩

end Implements

end Blocking
