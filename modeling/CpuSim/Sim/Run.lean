import CpuSim.Base.Digits
import CpuSim.Sim.Core
import CpuSim.Sim.ElfLoader

/-!
# Setting a core up and running it

The public calls of `Core` besides `tick()`: the backdoor writes before the first tick, the ELF
loader with its entry check, and `run()`. The instruction memory is reached through the fetch
port here: an I-cache passes stores on to it.
-/

namespace CpuSim

open Digits

namespace Core

/-! ## Before the first tick -/

/-- `base_`, which the constructor hands to `imem_` as well. -/
def baseAddr (c : Core) : Word := c.iport.ram.base

/-- The loop of `Core::load_program`, from `addr` on. -/
def storeWords (imem : Port) (addr : Word) : List Word → Option Port
  | [] => some imem
  | w :: words => do
    let imem ← IMemory.storeWord imem addr w
    storeWords imem (addr + 4) words

/-- `Core::load_program`. -/
def loadProgram (c : Core) (words : List Word) : Option Core :=
  (storeWords c.iport c.baseAddr words).map fun imem => { c with iport := imem }

/-- `Core::write_reg`. -/
def writeReg (c : Core) (reg : RegIdx) (val : Word) : Core := { c with rf := c.rf.write reg val }

/-- `Core::store_word`: data memory, not instruction memory. -/
def storeWord (c : Core) (addr val : Word) : Option Core :=
  (IMemory.storeWord c.dport addr val).map fun dmem => { c with dport := dmem }

/-- The exception for an ELF file that is linked to start elsewhere. -/
def entryMismatch (entry base : Word) : String :=
  String.ofList ("load_elf: entry 0x".toList ++ hex 8 entry.toNat ++ " != base 0x".toList ++
    hex 8 base.toNat)

/-- `Core::load_elf`. The segments are written before the entry point is checked. -/
def loadElf (c : Core) (path : String) (file : Option (List Byte)) : Except LoadError Core := do
  let (entry, imem, dmem) ← CpuSim.loadElf path file c.iport c.dport
  if entry ≠ c.baseAddr then .error (.thrown (entryMismatch entry c.baseAddr))
  else .ok { c with iport := imem, dport := dmem }

/-- A call that prepares a core. -/
inductive SetupCall where
  | loadProgram (words : List Word)
  | loadElf (path : String) (file : Option (List Byte))
  | writeReg (reg : RegIdx) (val : Word)
  | storeWord (addr val : Word)

/-- A failed range assertion ends the program. -/
def orAbort {α : Type} : Option α → Except LoadError α
  | some a => .ok a
  | none => .error .aborted

def setup (c : Core) : SetupCall → Except LoadError Core
  | .loadProgram words => orAbort (c.loadProgram words)
  | .loadElf path file => c.loadElf path file
  | .writeReg reg val => .ok (c.writeReg reg val)
  | .storeWord addr val => orAbort (c.storeWord addr val)

/-- A core after some setup calls, none of which threw or aborted. -/
def setupAll (c : Core) (calls : List SetupCall) : Except LoadError Core := calls.foldlM setup c

/-! ## Running -/

/-- The loop of `Core::run`, given how often it may still go round. -/
def runLoop (maxCycles : Nat) : Nat → Core → Option Core
  | 0, c => some c
  | n + 1, c =>
    if !c.halted && decide (c.cycles < maxCycles) then c.tick.bind (runLoop maxCycles n)
    else some c

/-- `Core::run`. Every tick of the loop counts a cycle, so it goes round `maxCycles - cycles`
    times at most. -/
def run (maxCycles : Nat) (c : Core) : Option Core := runLoop maxCycles (maxCycles - c.cycles) c

/-- `~0ULL`, the default of `max_cycles`. -/
def noLimit : Nat := 2 ^ 64 - 1

end Core

end CpuSim
