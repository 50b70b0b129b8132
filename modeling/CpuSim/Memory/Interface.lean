import CpuSim.Base.Blocking
import CpuSim.Isa.Encoding

/-!
# The memory interface

`memory/mem_interface.h`. The data path (`load*`/`store*`) is immediate and answers `none`
where the C++ aborts on the range assertion or indexes past the backing vector. The timing
path is separate: `ready` may start a request and says whether the access is served this
cycle, `tick` advances the model one cycle.
-/

namespace CpuSim

/-- `IMemory`. -/
class IMemory (M : Type) where
  loadWord : M → Word → Option Word
  loadHalf : M → Word → Option Half
  loadByte : M → Word → Option Byte
  storeWord : M → Word → Word → Option M
  storeHalf : M → Word → Half → Option M
  storeByte : M → Word → Byte → Option M
  ready : M → Word → Bool → Bool × M
  tick : M → M

/-- The timing path as a blocking component, a request being an address and its direction. -/
def IMemory.port (M : Type) [IMemory M] : Blocking M (Word × Bool) where
  ready m r := IMemory.ready m r.1 r.2
  tick := IMemory.tick

namespace IMemory

variable {M : Type} [IMemory M]

/-- A store of some width that goes through. -/
inductive Stores (m : M) : M → Prop
  | word {a v : Word} {m' : M} (h : storeWord m a v = some m') : Stores m m'
  | half {a : Word} {v : Half} {m' : M} (h : storeHalf m a v = some m') : Stores m m'
  | byte {a : Word} {v : Byte} {m' : M} (h : storeByte m a v = some m') : Stores m m'

/-- What any sequence of calls can make of a memory. -/
inductive Reached (m₀ : M) : M → Prop
  | start : Reached m₀ m₀
  | ready {m : M} (h : Reached m₀ m) (a : Word) (w : Bool) : Reached m₀ (ready m a w).2
  | tick {m : M} (h : Reached m₀ m) : Reached m₀ (tick m)
  | store {m m' : M} (h : Reached m₀ m) (hs : Stores m m') : Reached m₀ m'

end IMemory

end CpuSim
