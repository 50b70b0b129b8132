import CpuSim.Memory.Compulsory
import CpuSim.Rtl.Separation
import CpuSim.Rtl.Throughput

/-!
# Data stalls in closed form

What a data side adds to a run, from its latencies and the accesses of the program alone: without a
D-cache every access waits for the memory; with one, as long as the lines of the program fit, only
the first access to each line does.
-/

namespace CpuSim

open Rv32i Machine Atomic

namespace Port

theorem drivesAll_flat {m : FlatMem} (h : Stack.Idle 0 m) (rs : List (Word × Bool)) :
    ∃ u, (IMemory.port Port).DrivesAll rs (flat m)
      (Blocking.accessAll (fun L r => Hierarchy.access 0 L r.1.toNat r.2) rs m.latency).1 u := by
  rcases (Stack.implements 0).serves_all rs h with ⟨t, hd, -, -⟩
  exact ⟨flat t, maps_flat.drivesAll hd⟩

theorem drivesAll_cached {c : Cache FlatMem} (h : Stack.Idle 1 c) (rs : List (Word × Bool)) :
    ∃ u, (IMemory.port Port).DrivesAll rs (cached c)
      (Blocking.accessAll (fun s r => Level.access (fun L _ _ => (L, L)) s r.1.toNat r.2) rs
        (c.level, c.backing.latency)).1 u := by
  rcases (Stack.implements 1).serves_all rs h with ⟨t, hd, -, -⟩
  exact ⟨cached t, maps_cached.drivesAll hd⟩

end Port

/-- Every request takes its first cycle anyway. -/
theorem stallTime_add_length {rs : List (Word × Bool)} {p q : Port} {costs : List Nat}
    (h : (IMemory.port Port).DrivesAll rs p costs q) :
    stallTime costs + rs.length = costs.sum := by
  induction h with
  | nil => rfl
  | cons hd _ ih =>
    have := hd.pos
    simp only [stallTime, List.map_cons, List.sum_cons, List.length_cons] at ih ⊢
    omega

theorem sum_flat (L : Nat) (rs : List (Word × Bool)) :
    (Blocking.accessAll (fun L r => Hierarchy.access 0 L r.1.toNat r.2) rs L).1.sum =
      rs.length * L := by
  induction rs with
  | nil => simp [Blocking.accessAll]
  | cons r rs ih =>
    have hone : Hierarchy.access 0 L r.1.toNat r.2 = (L, L) := rfl
    simp only [Blocking.accessAll, hone, List.sum_cons, List.length_cons]
    rw [ih]
    ring

namespace Cache

/-- A new cache is the empty level of its geometry. -/
theorem level_new (m : FlatMem) {lineBytes sets hitLatency ways : Nat}
    (h : CacheShape lineBytes sets ways) (hl : 0 < hitLatency) (pf : Bool) (degree : Nat)
    (stats : Option SimStats) :
    (new m lineBytes sets hitLatency ways pf degree stats).level.shape =
        (lineBytes, sets, ways, hitLatency) ∧
      (new m lineBytes sets hitLatency ways pf degree stats).level.Keeps ∅ := by
  rcases h with ⟨⟨o, rfl⟩, ⟨i, rfl⟩, ⟨w, rfl⟩, -⟩
  constructor
  · simp only [Level.shape, level, new, log2Exact_two_pow, if_neg (Nat.pos_iff_ne_zero.mp hl)]
  · apply Level.keeps_empty
    intro s v
    rw [level_lines_eq]
    split
    · have hempty : ∀ k, (List.replicate (2 ^ i * 2 ^ w) ({} : Line)).getD k {} = {} := by
        intro k
        rw [List.getD_eq_getElem?_getD, List.getElem?_replicate]
        split <;> rfl
      rw [lineAt]
      change ((List.replicate (2 ^ i * 2 ^ w) ({} : Line)).getD _ {}).block = none
      rw [hempty]
      rfl
    · rfl

end Cache

namespace Core

/-- The lines of the D-cache that some accesses are in. -/
def dataFootprint (cfg : SimConfig) (rs : List (Word × Bool)) : Finset Nat :=
  Level.footprint cfg.dcacheLineBytes (rs.map fun r => r.1.toNat)

/-- No set of the D-cache gets more lines of these accesses than it has ways. -/
def FitsDcache (cfg : SimConfig) (rs : List (Word × Bool)) : Prop :=
  ∀ set < cfg.dcacheSets,
    ((dataFootprint cfg rs).filter fun x => x % cfg.dcacheSets = set).card ≤ cfg.dcacheWays

instance (cfg : SimConfig) (rs : List (Word × Bool)) : Decidable (FitsDcache cfg rs) := by
  unfold FitsDcache
  infer_instance

/-- The stall cycles that these accesses cost a new data side. -/
def dataStalls (cfg : SimConfig) (rs : List (Word × Bool)) : Nat :=
  if cfg.dcacheEnabled then
    rs.length * (cfg.dcacheHitLatencyCycles - 1) +
      (dataFootprint cfg rs).card * cfg.dmemLatencyCycles
  else rs.length * (cfg.dmemLatencyCycles - 1)

theorem stallTime_dport {cfg : SimConfig} (hcfg : cfg.Valid) {rs : List (Word × Bool)}
    (hfits : cfg.dcacheEnabled = true → FitsDcache cfg rs) {bytes : List Byte} {costs : List Nat}
    {q : Port} (hd : (IMemory.port Port).DrivesAll rs ((newDport cfg).load bytes) costs q) :
    stallTime costs = dataStalls cfg rs := by
  have hlen := stallTime_add_length hd
  have hidle := idle_newDport hcfg bytes
  have hmapped := Port.maps_blank.drivesAll hd
  have hlatency : (if cfg.dmemLatencyCycles = 0 then 1 else cfg.dmemLatencyCycles) =
      cfg.dmemLatencyCycles := if_neg (Nat.pos_iff_ne_zero.mp hcfg.dmem.1)
  let m := (FlatMem.new cfg.ramBaseAddr cfg.ramSizeBytes cfg.dmemLatencyCycles).blank
  unfold newDport at hidle hmapped
  unfold dataStalls
  cases hc : cfg.dcacheEnabled with
  | false =>
    rw [hc] at hidle hmapped
    have hidle : Stack.Idle 0 m := hidle
    have hmapped : (IMemory.port Port).DrivesAll rs (.flat m) costs q.blank := hmapped
    rcases Port.drivesAll_flat hidle rs with ⟨u, hu⟩
    have hsum : costs.sum = rs.length * cfg.dmemLatencyCycles := by
      rw [(hmapped.unique hu).1, sum_flat]
      exact congrArg (rs.length * ·) hlatency
    have hpos := hcfg.dmem.1
    rw [if_neg (by decide), Nat.mul_sub_one]
    omega
  | true =>
    rw [hc] at hidle hmapped
    rcases hcfg.dcache hc with ⟨hshape, hhit⟩
    let c := Cache.new m cfg.dcacheLineBytes cfg.dcacheSets cfg.dcacheHitLatencyCycles
      cfg.dcacheWays false 1 none
    have hidle : Stack.Idle 1 c := hidle
    have hmapped : (IMemory.port Port).DrivesAll rs (.cached c) costs q.blank := hmapped
    rcases Port.drivesAll_cached hidle rs with ⟨u, hu⟩
    rcases Cache.level_new m hshape hhit.1 false 1 none with ⟨hfields, hempty⟩
    simp only [Level.shape, Prod.mk.injEq] at hfields
    rcases hfields with ⟨hbytes, hsets, hways, hlat⟩
    have hroom : c.level.Fits (∅ ∪ Level.footprint c.level.lineBytes
        (rs.map fun r => r.1.toNat)) := by
      intro set hset
      rw [hsets] at hset
      rw [Finset.empty_union, hbytes, hsets, hways]
      exact hfits hc set hset
    have hsome : 0 < cfg.dcacheSets := by
      rcases hshape.setsPow2 with ⟨i, hi⟩
      exact hi ▸ Nat.two_pow_pos i
    have hsum := hempty.sum_costs (fun r : Word × Bool => r.1.toNat) Prod.snd
      c.backing.latency rs (by rw [hsets]; exact hsome) hroom
    rw [← (hmapped.unique hu).1, Finset.sdiff_empty, hbytes, hlat] at hsum
    have hbelow : c.backing.latency = cfg.dmemLatencyCycles := hlatency
    have hpos := hhit.1
    rw [hbelow] at hsum
    change costs.sum = _ + (dataFootprint cfg rs).card * _ at hsum
    rw [if_pos rfl, Nat.mul_sub_one]
    have := Nat.le_mul_of_pos_right rs.length hpos
    omega

variable {cfg : SimConfig} {imem dmem : Nat → Byte} {rf : RegFile}

/-- For any instruction side, a run that halts with prompt data after some cycles halts with the
    data side of its own after so many more: without a D-cache the latency but one for each
    access of the program; with a D-cache that the lines of the program fit in, the hit latency
    but one for each access, and the memory latency for each line, once. -/
theorem data_stalls_closed_form (hcfg : cfg.Valid)
    (halign : cfg.bpredEnabled = true → (reference cfg dmem rf).Aligned (imageOf cfg imem))
    {n : Nat} {c : Core} (hc : (boot (promptData cfg) imem dmem rf).ticks n = some c)
    (hh : c.halted = true) :
    let rs := (reference cfg dmem rf).accesses (imageOf cfg imem) c.instructions
    (cfg.dcacheEnabled = true → FitsDcache cfg rs) →
      ∀ t, (boot cfg imem dmem rf).HaltsAt t ↔ t = c.cycles + dataStalls cfg rs := by
  intro rs hfits t
  have hquiet := quiet_boot (promptData cfg) imem dmem rf
  have hcount : c.instructions = _ :=
    (Pipe.instructions_of_ticks (view_of_ticks hquiet hc)).trans (Nat.zero_add _)
  rcases retired_at_halt (valid_promptData hcfg) halign hc hh with ⟨k, -, -, hlen, hlog⟩
  rw [← retired_view hquiet, hlen] at hcount
  rcases haltsAt_of_promptData hcfg hc hh with ⟨costs, dport, hdriven, hhalts⟩
  have hrs : accesses ((boot (promptData cfg) imem dmem rf).retired n) = rs :=
    hlog.trans (by rw [← hcount]; rfl)
  rw [hrs] at hdriven
  rw [stallTime_dport hcfg hfits hdriven] at hhalts
  constructor
  · exact fun ht => ht.unique hhalts
  · rintro rfl
    exact hhalts

/-- `lw x1, 0(x0); lw x2, 0(x0); ebreak`. -/
def loadTwice : Nat → Byte := halfwords [0x2083, 0x0000, 0x2103, 0x0000, 0x0073, 0x0010]

/-- The second load finds the line that the first one has fetched in three cycles. -/
theorem data_stalls_closed_form_loadTwice :
    ∃ c, (boot (promptData slowCached) loadTwice (fun _ => 0) RegFile.zero).ticks 7 = some c ∧
      c.halted = true ∧ (boot slowCached loadTwice (fun _ => 0) RegFile.zero).HaltsAt
        (c.cycles + 3) := by
  obtain ⟨c, hc, hstate⟩ := Option.map_eq_some_iff.mp (by decide +kernel :
    ((boot (promptData slowCached) loadTwice (fun _ => 0) RegFile.zero).ticks 7).map
      (fun c => (c.halted, c.instructions)) = some (true, 3))
  obtain ⟨hh, hcount⟩ := Prod.mk.inj hstate
  have h := data_stalls_closed_form slowCached_valid (nomatch ·) hc hh
  rw [hcount] at h
  have hstalls : dataStalls slowCached (Machine.accesses (imageOf slowCached loadTwice)
      (reference slowCached (fun _ => 0) RegFile.zero) 3) = 3 := by decide +kernel
  exact ⟨c, hc, hh, (h (fun _ => by decide +kernel) _).mpr (by rw [hstalls])⟩

end Core

end CpuSim
