import CpuSim.Isa.Encoding

/-!
# Tree pseudo-LRU

`memory/tree_plru.cpp`. Each set has `ways` bits read as a 1-based heap: node `i` has children
`2 * i` and `2 * i + 1`, leaf `i` is way `i - ways`, and a bit steers 0 = left, 1 = right. The
two loops move one tree level per iteration, so the number of ways bounds them.
-/

namespace CpuSim

/-- `TreePlru`. -/
structure TreePlru where
  ways : Nat
  bits : List Nat
  deriving DecidableEq, Repr

namespace TreePlru

def new (sets ways : Nat) : TreePlru :=
  { ways := ways, bits := List.replicate (sets * ways) 0 }

/-- The loop of `victim`: follow the bits from node `i` to a leaf. -/
def walk (t : TreePlru) (base : Nat) : Nat → Nat → Nat
  | 0, i => i
  | fuel + 1, i => if i < t.ways then t.walk base fuel (2 * i + t.bits.getD (base + i) 0) else i

/-- `TreePlru::victim`. -/
def victim (t : TreePlru) (set : Word) : Nat :=
  t.walk (set.toNat * t.ways) t.ways 1 - t.ways

/-- The loop of `touch`: from leaf `i` up, steer every node away from where it came from. -/
def steer (base : Nat) : Nat → Nat → List Nat → List Nat
  | 0, _, bits => bits
  | fuel + 1, i, bits =>
    if 1 < i then
      let parent := i / 2
      steer base fuel parent (bits.set (base + parent) (if i = 2 * parent then 1 else 0))
    else bits

/-- `TreePlru::touch`. -/
def touch (t : TreePlru) (set : Word) (way : Nat) : TreePlru :=
  { t with bits := steer (set.toNat * t.ways) (way + t.ways) (way + t.ways) t.bits }

end TreePlru

end CpuSim
