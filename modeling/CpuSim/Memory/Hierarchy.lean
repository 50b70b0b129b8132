import CpuSim.Memory.Demand
import CpuSim.Memory.Overlay

/-!
# Hierarchies of caches

Caches without prefetching, stacked to any depth over a `FlatMem`, against the atomic cache
iterated to the same depth. Whatever calls and data stores led to an idle stack, an access
costs what the atomic hierarchy charges and leaves its tags, dirty bits and PLRU bits at every
level (`access_exact`).
-/

namespace CpuSim

open Atomic

namespace FlatMem

/-- The state in which the timer releases a request. -/
def released (m : FlatMem) : FlatMem := { m with serving := false, remaining := 0 }

theorem ready_of_serving {m : FlatMem} (hs : m.serving = true) (a : Word) (w : Bool) :
    m.ready a w = (m.remaining == 0, m) := by
  unfold ready
  rw [if_pos hs]

theorem poll_of_serving {m : FlatMem} (hs : m.serving = true) (r : Word × Bool) :
    (IMemory.port FlatMem).poll m r = m.tick := by
  change (m.ready r.1 r.2).2.tick = _
  rw [ready_of_serving hs]

/-- The timer serves after the cycles left on it, and one more. -/
theorem drives_serving (r : Word × Bool) {m : FlatMem} {k : Nat} (hs : m.serving = true)
    (hk : m.remaining = k) : (IMemory.port FlatMem).Drives r m (k + 1) m.released := by
  induction k generalizing m with
  | zero =>
    have hready : ((IMemory.port FlatMem).ready m r).1 = (m.remaining == 0) :=
      congrArg Prod.fst (ready_of_serving hs r.1 r.2)
    have htick : m.tick = m.released := by
      unfold tick released
      rw [hs, if_neg (by decide), if_neg (by omega), ← Int.natCast_zero, ← hk]
    rw [← htick, ← poll_of_serving hs r]
    apply Blocking.Drives.served
    rw [hready, hk]
    rfl
  | succ k ih =>
    have hready : ((IMemory.port FlatMem).ready m r).1 = (m.remaining == 0) :=
      congrArg Prod.fst (ready_of_serving hs r.1 r.2)
    have htick : m.tick = { m with remaining := m.remaining - 1 } := by
      unfold tick
      rw [hs, if_neg (by decide), if_pos (by omega)]
    refine .waits (by rw [hready, hk]; simp; omega) ?_
    rw [poll_of_serving hs, htick]
    exact ih (m := { m with remaining := m.remaining - 1 }) hs (by dsimp only; omega)

/-- The timer of an idle memory, once it is asked. -/
def started (m : FlatMem) : FlatMem :=
  { m with serving := true, remaining := toInt32 m.latency - 1 }

theorem ready_of_idle {m : FlatMem} (hs : m.serving = false) (a : Word) (w : Bool) :
    m.ready a w = (m.started.remaining == 0, m.started) := by
  unfold ready started
  rw [hs]
  rfl

/-- An idle flat memory serves any request after its latency. -/
theorem drives_idle (r : Word × Bool) {m : FlatMem} (hs : m.serving = false)
    (hl : LatencyOk m.latency) :
    (IMemory.port FlatMem).Drives r m m.latency m.released := by
  have hready : (IMemory.port FlatMem).ready m r = (m.started.remaining == 0, m.started) :=
    ready_of_idle hs r.1 r.2
  have htimer : m.started.remaining = (m.latency - 1 : Nat) := by
    have hpos := hl.1
    change toInt32 m.latency - 1 = _
    rw [toInt32_of_latencyOk hl]
    omega
  have hlat : m.latency - 1 + 1 = m.latency := by have := hl.1; omega
  have hdrives := drives_serving r (m := m.started) rfl htimer
  rw [hlat] at hdrives
  apply Blocking.Drives.of_ready
  · rw [hready]
    exact ready_of_serving rfl r.1 r.2
  · rw [hready]
    exact hdrives

end FlatMem

/-- The constructor arguments of a cache that does not prefetch. -/
structure CacheConfig where
  lineBytes : Nat
  sets : Nat
  hitLatency : Nat
  ways : Nat
  deriving DecidableEq, Repr

/-- The arguments the constructor is meant for. -/
structure CacheConfig.Valid (g : CacheConfig) : Prop where
  shape : CacheShape g.lineBytes g.sets g.ways
  latency : LatencyOk g.hitLatency

/-- `n` caches over a flat memory. -/
def Stack : Nat → Type
  | 0 => FlatMem
  | n + 1 => Cache (Stack n)

/-- `n` atomic levels over a memory of fixed latency. -/
def Hierarchy : Nat → Type
  | 0 => Nat
  | n + 1 => Level TreePlru × Hierarchy n

/-- An access to an atomic hierarchy: its cost, and what it leaves at every level. -/
def Hierarchy.access : (n : Nat) → Hierarchy n → Nat → Bool → Nat × Hierarchy n
  | 0, latency, _, _ => (latency, latency)
  | n + 1, h, a, isWrite => Level.access (Hierarchy.access n) h a isWrite

namespace Stack

instance instIMemory : (n : Nat) → IMemory (Stack n)
  | 0 => inferInstanceAs (IMemory FlatMem)
  | n + 1 => @Cache.instIMemory (Stack n) (instIMemory n)

/-- The caches of a list, the first on top, over `m`. -/
def new (m : FlatMem) : (gs : List CacheConfig) → Stack gs.length
  | [] => m
  | g :: gs => Cache.new (new m gs) g.lineBytes g.sets g.hitLatency g.ways false 1 none

/-- The stack as an atomic hierarchy. -/
def levels : (n : Nat) → Stack n → Hierarchy n
  | 0, m => FlatMem.latency m
  | n + 1, c => (Cache.level c, levels n (Cache.backing c))

/-- No request is outstanding at any level. -/
def Idle : (n : Nat) → Stack n → Prop
  | 0, m => FlatMem.serving m = false ∧ LatencyOk (FlatMem.latency m)
  | n + 1, c => Cache.Demand (Idle n) c ∧ Cache.phase c = .idle

/-- Every stack implements the atomic hierarchy of its depth. -/
theorem implements : (n : Nat) → (IMemory.port (Stack n)).Implements (Idle n) (levels n)
    fun h r => Hierarchy.access n h r.1.toNat r.2
  | 0 =>
    { rest := by
        rintro m ⟨hs, -⟩
        change FlatMem.tick m = m
        unfold FlatMem.tick
        rw [hs]
        rfl
      serves := fun {m} r ⟨hs, hl⟩ =>
        ⟨FlatMem.released m, FlatMem.drives_idle r hs hl, ⟨rfl, hl⟩, rfl⟩ }
  | n + 1 => Cache.implements (implements n)

theorem idle_new {m : FlatMem} (hs : m.serving = false) (hl : LatencyOk m.latency)
    {gs : List CacheConfig} (hg : ∀ g ∈ gs, g.Valid) : Idle gs.length (new m gs) := by
  induction gs with
  | nil => exact ⟨hs, hl⟩
  | cons g gs ih =>
    have hv := hg g List.mem_cons_self
    have hbelow := ih fun g hg' => hg g (List.mem_cons_of_mem _ hg')
    exact ⟨Cache.demand_new hbelow hv.shape hv.latency 1 none, rfl⟩

/-! ## Reachable states -/

/-- The stack without the bytes at its bottom. -/
def blank : (n : Nat) → Stack n → Stack n
  | 0 => FlatMem.blank
  | n + 1 => Cache.mapBacking (blank n)

theorem maps_blank : (n : Nat) →
    (IMemory.port (Stack n)).Maps (IMemory.port (Stack n)) (blank n)
  | 0 => FlatMem.maps_blank
  | n + 1 => Cache.maps_mapBacking (maps_blank n)

theorem blank_of_stores : (n : Nat) → {s t : Stack n} → IMemory.Stores s t →
    blank n t = blank n s
  | 0, _, _, h => FlatMem.blank_of_stores h
  | n + 1, s, t, h => by
    obtain ⟨b, rfl, hb⟩ := Cache.stores_backing h
    change { Cache.mapBacking (blank n) s with backing := blank n b } = _
    rw [blank_of_stores n hb]
    rfl

theorem blank_new (m : FlatMem) : (gs : List CacheConfig) →
    blank gs.length (new m gs) = new m.blank gs
  | [] => rfl
  | g :: gs => by
    change { new m.blank (g :: gs) with backing := blank gs.length (new m gs) } = _
    rw [blank_new m gs]
    rfl

@[simp] theorem levels_blank : (n : Nat) → (s : Stack n) → levels n (blank n s) = levels n s
  | 0, _ => rfl
  | n + 1, s => Prod.ext rfl (levels_blank n (Cache.backing s))

/-- The invariant of a stack of one or more caches: it is indifferent to the bytes. -/
def Sound (n : Nat) (s : Stack (n + 1)) : Prop := Cache.Demand (Idle n) (blank (n + 1) s)

theorem sound_ready {n : Nat} {s : Stack (n + 1)} (h : Sound n s) (a : Word) (w : Bool) :
    Sound n (IMemory.ready s a w).2 := by
  have hmap := congrArg Prod.snd ((maps_blank (n + 1)).ready s (a, w))
  have hd : Cache.Demand (Idle n) (IMemory.ready (blank (n + 1) s) a w).2 :=
    Cache.Demand.ready (fun r ht => by
      obtain ⟨u, hd, hu, -⟩ := (implements n).serves r ht
      exact ⟨_, u, hd, hu⟩) h a w
  exact (congrArg (Cache.Demand (Idle n)) hmap).mp hd

theorem sound_tick {n : Nat} {s : Stack (n + 1)} (h : Sound n s) : Sound n (IMemory.tick s) := by
  have hmap := (maps_blank (n + 1)).tick s
  have hd : Cache.Demand (Idle n) (IMemory.tick (blank (n + 1) s)) :=
    Cache.Demand.tick (fun r ht => by
      obtain ⟨u, hd, hu, -⟩ := (implements n).serves r ht
      exact ⟨_, u, hd, hu⟩) h
  exact (congrArg (Cache.Demand (Idle n)) hmap).mp hd

/-- Along any calls, an outstanding access stands where the invariant says. -/
theorem sound_of_reached {m : FlatMem} (hs : m.serving = false) (hl : LatencyOk m.latency)
    {g : CacheConfig} {gs : List CacheConfig} (hg : ∀ x ∈ g :: gs, x.Valid)
    {s : Stack (gs.length + 1)} (h : IMemory.Reached (new m (g :: gs)) s) :
    Sound gs.length s := by
  induction h with
  | start =>
    have hd : Cache.Demand (Idle gs.length) (new m.blank (g :: gs)) :=
      (idle_new (m := m.blank) hs hl hg).1
    exact (congrArg (Cache.Demand (Idle gs.length)) (blank_new m (g :: gs))).mpr hd
  | ready _ a w ih => exact sound_ready ih a w
  | tick _ ih => exact sound_tick ih
  | store _ hst ih =>
    unfold Sound
    rw [blank_of_stores _ hst]
    exact ih

/-- A sound stack implements the atomic hierarchy, bytes and all. -/
theorem sound_implements (n : Nat) :
    (IMemory.port (Stack (n + 1))).Implements (fun s => Idle (n + 1) (blank (n + 1) s))
      (fun s => levels (n + 1) (blank (n + 1) s)) fun h r => Hierarchy.access _ h r.1.toNat r.2 :=
  (implements (n + 1)).comap (maps_blank (n + 1)) fun _ hs =>
    Cache.tick_idle hs.2 hs.1.inactive

/-- The stack as it stands before its first call. -/
theorem idle_of_reached {base : Word} {size latency : Nat} (hl : LatencyOk latency)
    {g : CacheConfig} {gs : List CacheConfig} (hg : ∀ x ∈ g :: gs, x.Valid)
    {s : Stack (gs.length + 1)}
    (hs : IMemory.Reached (new (FlatMem.new base size latency) (g :: gs)) s)
    (hp : Cache.phase s = .idle) : Idle (gs.length + 1) (blank (gs.length + 1) s) := by
  have hlat : LatencyOk (FlatMem.new base size latency).latency := by
    change LatencyOk (if latency = 0 then 1 else latency)
    rwa [if_neg (by have := hl.1; omega)]
  exact ⟨sound_of_reached rfl hlat hg hs, hp⟩

/-- From any reachable state of a stack of one or more caches with no request outstanding, and
    after any number of idle ticks, an access is served after exactly the cycles that the
    atomic hierarchy charges, and the stack is then idle again with the tags, dirty bits and
    PLRU bits of the atomic hierarchy at every level. -/
theorem access_exact {base : Word} {size latency : Nat} (hl : LatencyOk latency)
    {g : CacheConfig} {gs : List CacheConfig} (hg : ∀ x ∈ g :: gs, x.Valid)
    {s : Stack (gs.length + 1)}
    (hs : IMemory.Reached (new (FlatMem.new base size latency) (g :: gs)) s)
    (hp : Cache.phase s = .idle) (k : Nat) (addr : Word) (isWrite : Bool) :
    ∃ t, (IMemory.port (Stack (gs.length + 1))).Drives (addr, isWrite)
        ((IMemory.port (Stack (gs.length + 1))).tick^[k] s)
        (Hierarchy.access _ (levels _ s) addr.toNat isWrite).1 t ∧
      Cache.phase t = .idle ∧
      levels _ t = (Hierarchy.access _ (levels _ s) addr.toNat isWrite).2 := by
  have hidle := idle_of_reached hl hg hs hp
  have himpl := sound_implements gs.length
  obtain ⟨t, hd, ht, hlevels⟩ := himpl.serves (addr, isWrite) hidle
  simp only [levels_blank] at hd hlevels
  rw [himpl.rests hidle k]
  exact ⟨t, hd, ht.2, hlevels⟩

/-- A 4-byte-line 2-way level over an 8-byte-line one over a memory of latency 3. -/
def twoLevel : List CacheConfig := [⟨4, 2, 1, 2⟩, ⟨8, 2, 2, 1⟩]

theorem twoLevel_valid : ∀ g ∈ twoLevel, g.Valid := by
  intro g hg
  simp only [twoLevel, List.mem_cons, List.not_mem_nil, or_false] at hg
  rcases hg with rfl | rfl
  · exact ⟨⟨⟨2, rfl⟩, ⟨1, rfl⟩, ⟨1, rfl⟩, by decide⟩, by decide, by decide⟩
  · exact ⟨⟨⟨3, rfl⟩, ⟨1, rfl⟩, ⟨0, rfl⟩, by decide⟩, by decide, by decide⟩

/-- A cold store pays the memory and both hit latencies. -/
theorem access_exact_twoLevel :
    ∃ t, (IMemory.port (Stack 2)).Drives (0, true)
        ((IMemory.port (Stack 2)).tick^[2] (new (FlatMem.new 0 64 3) twoLevel)) 6 t ∧
      Cache.phase t = .idle ∧
      levels 2 t = (Hierarchy.access 2 (levels 2 (new (FlatMem.new 0 64 3) twoLevel)) 0 true).2 :=
  access_exact ⟨by decide, by decide⟩ twoLevel_valid .start rfl 2 0 true

/-- The same for any sequence of accesses from such a state. -/
theorem accesses_exact {base : Word} {size latency : Nat} (hl : LatencyOk latency)
    {g : CacheConfig} {gs : List CacheConfig} (hg : ∀ x ∈ g :: gs, x.Valid)
    {s : Stack (gs.length + 1)}
    (hs : IMemory.Reached (new (FlatMem.new base size latency) (g :: gs)) s)
    (hp : Cache.phase s = .idle) (rs : List (Word × Bool)) :
    ∃ t, (IMemory.port (Stack (gs.length + 1))).DrivesAll rs s
        (Blocking.accessAll (fun h r => Hierarchy.access _ h r.1.toNat r.2) rs (levels _ s)).1 t ∧
      Cache.phase t = .idle ∧
      levels _ t =
        (Blocking.accessAll (fun h r => Hierarchy.access _ h r.1.toNat r.2) rs (levels _ s)).2 := by
  obtain ⟨t, hd, ht, hlevels⟩ :=
    (sound_implements gs.length).serves_all rs (idle_of_reached hl hg hs hp)
  simp only [levels_blank] at hd hlevels
  exact ⟨t, hd, ht.2, hlevels⟩

end Stack

end CpuSim
