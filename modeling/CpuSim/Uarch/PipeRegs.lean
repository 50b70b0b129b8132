import CpuSim.Isa.Decoder

/-!
# Pipeline registers

`uarch/latch.h` and `uarch/pipeline/pipe_regs.h`. The default value of each record is the
bubble.
-/

namespace CpuSim

open Rv32i

/-- `Latch<T>`: the register a downstream stage reads and the shadow an upstream stage
    writes. -/
structure Latch (T : Type) where
  reg : T
  shadow : T
  deriving DecidableEq, Repr

namespace Latch

variable {T : Type}

def write (l : Latch T) (val : T) : Latch T := { l with shadow := val }

/-- The rising clock edge. -/
def latch (l : Latch T) : Latch T := { l with reg := l.shadow }

/-- The register becomes a bubble; the source resets the shadow with it. -/
def flush [Inhabited T] (_ : Latch T) : Latch T := { reg := default, shadow := default }

def bubble [Inhabited T] : Latch T := { reg := default, shadow := default }

@[simp] theorem write_reg (l : Latch T) (val : T) : (l.write val).reg = l.reg := rfl

end Latch

/-- `pipeline::IfId`. -/
structure IfId where
  pc : Word := 0
  raw : Word := 0
  valid : Bool := false
  predictedTaken : Bool := false
  deriving DecidableEq, Repr

instance : Inhabited IfId := ⟨{}⟩

/-- `pipeline::IdEx`. -/
structure IdEx where
  pc : Word := 0
  raw : Word := 0
  op : Op := .illegal
  rd : RegIdx := 0
  rs1 : RegIdx := 0
  rs2 : RegIdx := 0
  imm : Word := 0
  rs1Val : Word := 0
  rs2Val : Word := 0
  valid : Bool := false
  predictedTaken : Bool := false
  deriving DecidableEq, Repr

instance : Inhabited IdEx := ⟨{}⟩

/-- `pipeline::ExMem`. -/
structure ExMem where
  pc : Word := 0
  raw : Word := 0
  op : Op := .illegal
  rd : RegIdx := 0
  aluOut : Word := 0
  rs2Val : Word := 0
  branchTaken : Bool := false
  branchTarget : Word := 0
  valid : Bool := false
  deriving DecidableEq, Repr

instance : Inhabited ExMem := ⟨{}⟩

/-- `pipeline::MemWb`. -/
structure MemWb where
  pc : Word := 0
  raw : Word := 0
  op : Op := .illegal
  rd : RegIdx := 0
  wbVal : Word := 0
  memAddr : Word := 0
  memVal : Word := 0
  isStore : Bool := false
  valid : Bool := false
  deriving DecidableEq, Repr

instance : Inhabited MemWb := ⟨{}⟩

end CpuSim
