import CpuSim.Memory.Hierarchy
import CpuSim.Sim.Ports

/-!
# The data port as a blocking component

A D-port is a flat memory or one cache over it. Its timing is that of the port without the
bytes (`Port.maps_blank`), so neither the data stored nor the order of stores and questions
matters to what an access costs. From rest it serves every request and rests again
(`Port.exists_drives`), and asking again about an access that was just asked about changes
nothing (`Port.ready_ready`).
-/

namespace CpuSim

namespace FlatMem

theorem ready_ready (m : FlatMem) (a : Word) (w : Bool) :
    (m.ready a w).2.ready a w = m.ready a w := by
  cases hs : m.serving with
  | true =>
    rw [ready_of_serving hs]
    exact ready_of_serving hs a w
  | false =>
    rw [ready_of_idle hs]
    exact ready_of_serving rfl a w

theorem blank_of_rewrites {m m' : FlatMem} {b : ByteMap} (h : m.Rewrites m' b) :
    m'.blank = m.blank := by
  rw [h.frame]
  rfl

end FlatMem

namespace Port

/-- Asking twice in one cycle is asking once. -/
theorem ready_ready (p : Port) (a : Word) (w : Bool) :
    IMemory.ready (IMemory.ready p a w).2 a w = IMemory.ready p a w := by
  cases p with
  | flat m => exact congrArg (Prod.map id flat) (m.ready_ready a w)
  | cached c => exact congrArg (Prod.map id cached) (c.ready_ready a w)

/-! ## Without the bytes -/

/-- The port without the bytes behind it. -/
def blank : Port → Port
  | flat m => flat m.blank
  | cached c => cached (c.mapBacking FlatMem.blank)

theorem maps_flat : (IMemory.port FlatMem).Maps (IMemory.port Port) flat where
  ready _ _ := rfl
  tick _ := rfl

theorem maps_cached : (IMemory.port (Cache FlatMem)).Maps (IMemory.port Port) cached where
  ready _ _ := rfl
  tick _ := rfl

theorem maps_blank : (IMemory.port Port).Maps (IMemory.port Port) blank where
  ready := by
    rintro (m | c) r
    · exact congrArg (Prod.map id flat) (FlatMem.maps_blank.ready m r)
    · exact congrArg (Prod.map id cached) ((Cache.maps_mapBacking FlatMem.maps_blank).ready c r)
  tick := by
    rintro (m | c)
    · exact congrArg flat (FlatMem.maps_blank.tick m)
    · exact congrArg cached ((Cache.maps_mapBacking FlatMem.maps_blank).tick c)

theorem blank_setRam {p : Port} {m : FlatMem} {b : ByteMap} (h : p.ram.Rewrites m b) :
    (p.setRam m).blank = p.blank := by
  have hm := FlatMem.blank_of_rewrites h
  cases p with
  | flat m₀ => exact congrArg flat hm
  | cached c =>
    change cached { c.mapBacking FlatMem.blank with backing := m.blank } = _
    rw [hm]
    rfl

/-! ## At rest -/

/-- No request is outstanding. -/
def Idle : Port → Prop
  | flat m => Stack.Idle 0 m
  | cached c => Stack.Idle 1 c

theorem Idle.rests {p : Port} (h : p.Idle) : IMemory.tick p = p := by
  cases p with
  | flat m => exact congrArg flat ((Stack.implements 0).rest h)
  | cached c => exact congrArg cached ((Stack.implements 1).rest h)

/-- Every request is served, and leaves the port at rest. -/
theorem Idle.exists_drives {p : Port} (h : p.Idle) (r : Word × Bool) :
    ∃ n u, (IMemory.port Port).Drives r p n u ∧ u.Idle := by
  cases p with
  | flat m =>
    obtain ⟨t, hd, ht, -⟩ := (Stack.implements 0).serves r h
    exact ⟨_, flat t, maps_flat.drives hd, ht⟩
  | cached c =>
    obtain ⟨t, hd, ht, -⟩ := (Stack.implements 1).serves r h
    exact ⟨_, cached t, maps_cached.drives hd, ht⟩

end Port

namespace Core

/-- Every data side a configuration selects is at rest before the first tick. -/
theorem idle_newDport {cfg : SimConfig} (h : cfg.Valid) (bytes : List Byte) :
    ((newDport cfg).load bytes).blank.Idle := by
  let m := (FlatMem.new cfg.ramBaseAddr cfg.ramSizeBytes cfg.dmemLatencyCycles).blank
  have hm : Stack.Idle 0 m := by
    refine ⟨rfl, ?_⟩
    change LatencyOk (if cfg.dmemLatencyCycles = 0 then 1 else cfg.dmemLatencyCycles)
    rw [if_neg (by have := h.dmem.1; omega)]
    exact h.dmem
  unfold newDport
  cases hc : cfg.dcacheEnabled with
  | false => exact hm
  | true =>
    obtain ⟨hshape, hhit⟩ := h.dcache hc
    have hd : Cache.Demand (Stack.Idle 0) (Cache.new m cfg.dcacheLineBytes cfg.dcacheSets
        cfg.dcacheHitLatencyCycles cfg.dcacheWays false 1 none) :=
      Cache.demand_new hm hshape hhit 1 none
    exact ⟨hd, rfl⟩

end Core

end CpuSim
