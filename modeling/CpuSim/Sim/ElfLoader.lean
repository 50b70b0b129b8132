import CpuSim.Base.ByteMap
import CpuSim.Memory.Interface

/-!
# The ELF loader

`sim/elf_loader.cpp`: the file header is checked, then every `PT_LOAD` segment of the program
header table is written byte by byte into both memories. All reads go through one `std::ifstream`,
whose failbit is never cleared.
-/

namespace CpuSim

open ByteMap

/-! ## The file stream -/

/-- `std::ifstream` on an open file. Only `read` sets the eofbit, and then the failbit with it, so
    the failbit is the whole error state. -/
structure IFStream where
  bytes : List Byte
  pos : Nat := 0
  fail : Bool := false
  deriving DecidableEq, Repr

namespace IFStream

/-- `seekg`: a failed stream stays where it is, and stays failed. Seeking past the end is fine. -/
def seekg (f : IFStream) (pos : Nat) : IFStream :=
  if f.fail then f else { f with pos := pos }

/-- `read` of `n` bytes into a buffer of zeros. A short read keeps the bytes it got and sets the
    failbit; a failed stream reads nothing. -/
def read (f : IFStream) (n : Nat) : List Byte × IFStream :=
  if f.fail then (List.replicate n 0, f)
  else
    let got := (f.bytes.drop f.pos).take n
    (got ++ List.replicate (n - got.length) 0,
      { f with pos := f.pos + got.length, fail := decide (got.length < n) })

end IFStream

/-! ## Headers -/

/-- The fields of `Elf32Ehdr` the loader uses. -/
structure Elf32Ehdr where
  eIdent : List Byte
  eMachine : Half
  eEntry : Word
  ePhoff : Word
  ePhentsize : Half
  ePhnum : Half
  deriving DecidableEq, Repr

/-- The fields of `Elf32Phdr` the loader uses. -/
structure Elf32Phdr where
  pType : Word
  pOffset : Word
  pVaddr : Word
  pFilesz : Word
  pMemsz : Word
  deriving DecidableEq, Repr

/-- `sizeof(Elf32Ehdr)`. -/
def sizeofEhdr : Nat := 52

/-- `sizeof(Elf32Phdr)`. -/
def sizeofPhdr : Nat := 32

/-- A 16-bit member at an offset of a structure. -/
def fieldHalf (buf : List Byte) (offset : Nat) : Half :=
  BitVec.ofNat 16 (readLE (ofList 0 buf) offset 2)

/-- A 32-bit member at an offset of a structure. -/
def fieldWord (buf : List Byte) (offset : Nat) : Word :=
  BitVec.ofNat 32 (readLE (ofList 0 buf) offset 4)

/-- The bytes of a file header as an `Elf32Ehdr`. -/
def Elf32Ehdr.ofBytes (buf : List Byte) : Elf32Ehdr :=
  { eIdent := buf.take 16
    eMachine := fieldHalf buf 18
    eEntry := fieldWord buf 24
    ePhoff := fieldWord buf 28
    ePhentsize := fieldHalf buf 42
    ePhnum := fieldHalf buf 44 }

/-- The bytes of a program header as an `Elf32Phdr`. -/
def Elf32Phdr.ofBytes (buf : List Byte) : Elf32Phdr :=
  { pType := fieldWord buf 0
    pOffset := fieldWord buf 4
    pVaddr := fieldWord buf 8
    pFilesz := fieldWord buf 16
    pMemsz := fieldWord buf 20 }

/-- `PT_LOAD`. -/
def ptLoad : Word := 1#32

/-- `EM_RISCV`. -/
def emRiscv : Half := 0xF3#16

/-! ## Loading -/

/-- How `load_elf` ends early: with a `std::runtime_error`, or with the range assertion of a
    memory. -/
inductive LoadError where
  | thrown (what : String)
  | aborted
  deriving DecidableEq, Repr

/-- Magic number, class, byte order and machine. -/
def Elf32Ehdr.check (ehdr : Elf32Ehdr) : Except LoadError Unit :=
  if ehdr.eIdent.take 4 ≠ [0x7f#8, 0x45#8, 0x4c#8, 0x46#8] then
    .error (.thrown "elf_loader: not an ELF file")
  else if ehdr.eIdent.getD 4 0 ≠ 1#8 then .error (.thrown "elf_loader: not ELF32")
  else if ehdr.eIdent.getD 5 0 ≠ 1#8 then .error (.thrown "elf_loader: not little-endian ELF")
  else if ehdr.eMachine ≠ emRiscv then .error (.thrown "elf_loader: not a RISC-V ELF")
  else .ok ()

section Load

variable {M N : Type} [IMemory M] [IMemory N]

/-- The loop over the bytes of a segment, from `addr` on: each goes to both memories. -/
def storeData (imem : M) (dmem : N) (addr : Word) : List Byte → Option (M × N)
  | [] => some (imem, dmem)
  | b :: data => do
    let imem ← IMemory.storeByte imem addr b
    let dmem ← IMemory.storeByte dmem addr b
    storeData imem dmem (addr + 1) data

/-- The loop that zeroes `count` bytes of data memory from `addr` on. -/
def zeroFill (dmem : N) (addr : Word) : Nat → Option N
  | 0 => some dmem
  | count + 1 => do
    let dmem ← IMemory.storeByte dmem addr 0
    zeroFill dmem (addr + 1) count

/-- Both loops for one segment. -/
def storeSegment (imem : M) (dmem : N) (phdr : Elf32Phdr) (data : List Byte) : Option (M × N) := do
  let (imem, dmem) ← storeData imem dmem phdr.pVaddr data
  let dmem ← zeroFill dmem (phdr.pVaddr + phdr.pFilesz) (phdr.pMemsz.toNat - phdr.pFilesz.toNat)
  some (imem, dmem)

/-- What the loop over the program headers carries from one to the next. -/
structure LoadState (M N : Type) where
  f : IFStream
  imem : M
  dmem : N

/-- One iteration of the loop over the program headers. A header that cannot be read is skipped
    like one of another type. -/
def loadHeader (ehdr : Elf32Ehdr) (i : Nat) (s : LoadState M N) :
    Except LoadError (LoadState M N) :=
  let h := (s.f.seekg (ehdr.ePhoff.toNat + i * ehdr.ePhentsize.toNat)).read sizeofPhdr
  let phdr := Elf32Phdr.ofBytes h.1
  if h.2.fail || phdr.pType != ptLoad then .ok { s with f := h.2 }
  else
    let d := (h.2.seekg phdr.pOffset.toNat).read phdr.pFilesz.toNat
    if d.2.fail then .error (.thrown ("elf_loader: short read on segment " ++ toString i))
    else
      match storeSegment s.imem s.dmem phdr d.1 with
      | none => .error .aborted
      | some (imem, dmem) => .ok { f := d.2, imem := imem, dmem := dmem }

/-- The first `n` iterations of the loop over the program headers. -/
def loadHeaders (ehdr : Elf32Ehdr) (s : LoadState M N) : Nat → Except LoadError (LoadState M N)
  | 0 => .ok s
  | n + 1 => do
    let s ← loadHeaders ehdr s n
    loadHeader ehdr n s

/-- `load_elf`. The file is `none` where it cannot be opened. -/
def loadElf (path : String) (file : Option (List Byte)) (imem : M) (dmem : N) :
    Except LoadError (Word × M × N) :=
  match file with
  | none => .error (.thrown ("elf_loader: cannot open '" ++ path ++ "'"))
  | some bytes => do
    let h := (IFStream.mk bytes 0 false).read sizeofEhdr
    if h.2.fail then .error (.thrown "elf_loader: failed to read ELF header")
    else
      let ehdr := Elf32Ehdr.ofBytes h.1
      ehdr.check
      let s ← loadHeaders ehdr { f := h.2, imem := imem, dmem := dmem } ehdr.ePhnum.toNat
      .ok (ehdr.eEntry, s.imem, s.dmem)

end Load

end CpuSim
