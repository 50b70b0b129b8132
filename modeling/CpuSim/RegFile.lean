import CpuSim.Isa.Encoding

/-!
# The register file

`regfile.h`. The source keeps x0 at zero by never writing it; here the register file carries
that as a field, so a file with a nonzero x0 cannot be built.
-/

namespace CpuSim

/-- `RegFile`: 32 words, x0 hardwired to zero. -/
@[ext] structure RegFile where
  regs : RegIdx → Word
  x0 : regs 0#5 = 0#32

namespace RegFile

/-- The constructor: every register starts at zero. -/
def zero : RegFile := ⟨fun _ => 0, rfl⟩

def read (rf : RegFile) (idx : RegIdx) : Word := rf.regs idx

/-- A write to x0 is dropped. -/
def write (rf : RegFile) (idx : RegIdx) (value : Word) : RegFile :=
  if h : idx = 0#5 then rf
  else ⟨fun i => if i = idx then value else rf.regs i, by rw [if_neg (Ne.symm h), rf.x0]⟩

@[simp] theorem read_zero (rf : RegFile) : rf.read 0#5 = 0#32 := rf.x0

@[simp] theorem write_zero (rf : RegFile) (value : Word) : rf.write 0#5 value = rf := by
  simp [write]

theorem read_write (rf : RegFile) (idx i : RegIdx) (value : Word) :
    (rf.write idx value).read i = if i = idx ∧ idx ≠ 0#5 then value else rf.read i := by
  by_cases h : idx = 0#5
  · simp [h]
  · simp only [write, h, dite_false, read, ne_eq, not_false_eq_true, and_true]

end RegFile

end CpuSim
