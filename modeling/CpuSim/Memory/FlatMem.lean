import CpuSim.Memory.Interface
import CpuSim.Sim.Config

/-!
# Flat memory

`memory/flat_mem.cpp`: a byte vector at `base`, little-endian, with a one-request latency
timer that is independent of the data.
-/

namespace CpuSim

/-- `FlatMem`. -/
structure FlatMem where
  base : Word
  mem : List Byte
  latency : Nat
  serving : Bool := false
  remaining : Int := 0
  deriving DecidableEq, Repr

namespace FlatMem

/-- The constructor. A zero latency is read as one. -/
def new (base : Word) (sizeBytes latency : Nat) : FlatMem :=
  { base := base
    mem := List.replicate sizeBytes 0
    latency := if latency = 0 then 1 else latency }

/-- `FlatMem::offset`: `none` where the assertion fails. Only the first byte is checked. -/
def offset (m : FlatMem) (addr : Word) : Option Nat :=
  if m.base ≤ addr ∧ (addr - m.base).toNat < m.mem.length then
    some (addr - m.base).toNat
  else none

/-- `mem_[o] = val`; indexing past the vector is a fault. -/
def setByte (m : FlatMem) (o : Nat) (val : Byte) : Option FlatMem :=
  if o < m.mem.length then some { m with mem := m.mem.set o val } else none

def loadByte (m : FlatMem) (addr : Word) : Option Byte := do
  m.mem[← m.offset addr]?

def loadHalf (m : FlatMem) (addr : Word) : Option Half := do
  let o ← m.offset addr
  let b0 ← m.mem[o]?
  let b1 ← m.mem[o + 1]?
  some (b0.setWidth 16 ||| b1.setWidth 16 <<< 8)

def loadWord (m : FlatMem) (addr : Word) : Option Word := do
  let o ← m.offset addr
  let b0 ← m.mem[o]?
  let b1 ← m.mem[o + 1]?
  let b2 ← m.mem[o + 2]?
  let b3 ← m.mem[o + 3]?
  some (b0.setWidth 32 ||| b1.setWidth 32 <<< 8 ||| b2.setWidth 32 <<< 16 |||
    b3.setWidth 32 <<< 24)

def storeByte (m : FlatMem) (addr : Word) (val : Byte) : Option FlatMem := do
  m.setByte (← m.offset addr) val

def storeHalf (m : FlatMem) (addr : Word) (val : Half) : Option FlatMem := do
  let o ← m.offset addr
  let m ← m.setByte o ((val &&& 0xff).setWidth 8)
  m.setByte (o + 1) (((val >>> 8) &&& 0xff).setWidth 8)

def storeWord (m : FlatMem) (addr : Word) (val : Word) : Option FlatMem := do
  let o ← m.offset addr
  let m ← m.setByte o ((val &&& 0xff).setWidth 8)
  let m ← m.setByte (o + 1) (((val >>> 8) &&& 0xff).setWidth 8)
  let m ← m.setByte (o + 2) (((val >>> 16) &&& 0xff).setWidth 8)
  m.setByte (o + 3) (((val >>> 24) &&& 0xff).setWidth 8)

/-- `FlatMem::ready`: the first call starts the timer; the address is ignored. -/
def ready (m : FlatMem) (_addr : Word) (_isWrite : Bool) : Bool × FlatMem :=
  let m := if m.serving then m
    else { m with serving := true, remaining := toInt32 m.latency - 1 }
  (m.remaining == 0, m)

/-- `FlatMem::tick`: count down, or release the request that was served last cycle. -/
def tick (m : FlatMem) : FlatMem :=
  if !m.serving then m
  else if m.remaining > 0 then { m with remaining := m.remaining - 1 }
  else { m with serving := false }

instance : IMemory FlatMem where
  loadWord := loadWord
  loadHalf := loadHalf
  loadByte := loadByte
  storeWord := storeWord
  storeHalf := storeHalf
  storeByte := storeByte
  ready := ready
  tick := tick

end FlatMem

end CpuSim
