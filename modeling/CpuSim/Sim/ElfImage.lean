import CpuSim.Sim.ElfLoader
import CpuSim.Sim.Ports

/-!
# What the ELF loader leaves in the memories

Every loop of the loader overwrites a window of 32-bit addresses. Put together, data memory holds
at each address the byte of the last segment that covers it (`loadElf_places`), and the loader
throws on a damaged file exactly when a segment's bytes are the first thing missing
(`throws_iff_shortSegment`).
-/

namespace CpuSim

/-! ## Windows of addresses -/

/-- The byte behind the port at a 32-bit address. -/
def Port.byteAt (p : Port) (a : Word) : Byte := p.bytes a.toNat

/-- `q` is `p` with the bytes of `w` in place of its own. -/
structure Overwrites (p q : Port) (w : Word → Option Byte) : Prop where
  span : q.span = p.span
  byteAt : ∀ a, q.byteAt a = (w a).getD (p.byteAt a)

/-- The bytes of a list laid out from `addr` on, wrapping around the address space. -/
def window (addr : Word) (data : List Byte) : Word → Option Byte :=
  fun a => data[(a - addr).toNat]?

namespace Overwrites

variable {p q r : Port} {w w' : Word → Option Byte}

theorem refl (p : Port) : Overwrites p p fun _ => none := ⟨rfl, fun _ => rfl⟩

theorem trans (h : Overwrites p q w) (h' : Overwrites q r w') :
    Overwrites p r fun a => (w' a).or (w a) := by
  refine ⟨h'.span.trans h.span, ?_⟩
  intro a
  rw [h'.byteAt, h.byteAt]
  cases w' a <;> rfl

theorem congr (h : Overwrites p q w) (hw : ∀ a, w a = w' a) : Overwrites p q w' :=
  ⟨h.span, fun a => by rw [h.byteAt, hw]⟩

end Overwrites

/-- The head of a window is at its address, the rest behind it. -/
theorem window_cons (addr : Word) (b : Byte) {data : List Byte} (hlen : data.length < 2 ^ 32) :
    ∀ a, (window (addr + 1) data a).or (if a = addr then some b else none) =
      window addr (b :: data) a := by
  intro a
  unfold window
  by_cases ha : a = addr
  · subst ha
    have hlast : (a - (a + 1)).toNat = 2 ^ 32 - 1 := by
      have hneg : a - (a + 1) = BitVec.ofNat 32 (2 ^ 32 - 1) := by bv_omega
      rw [hneg]
      rfl
    rw [if_pos rfl, hlast, List.getElem?_eq_none (by omega), BitVec.sub_self]
    rfl
  · have hne : (a - addr).toNat = (a - (addr + 1)).toNat + 1 := by bv_omega
    rw [if_neg ha, hne, List.getElem?_cons_succ, Option.or_none]

/-- A window goes on behind its bytes. -/
theorem window_append (addr : Word) (data rest : List Byte) {n : Word}
    (hn : data.length = n.toNat) (hlen : data.length + rest.length ≤ 2 ^ 32) :
    ∀ a, (window (addr + n) rest a).or (window addr data a) = window addr (data ++ rest) a := by
  intro a
  unfold window
  by_cases ha : (a - addr).toNat < data.length
  · have hwrap : rest.length ≤ (a - (addr + n)).toNat := by bv_omega
    rw [List.getElem?_append_left ha, List.getElem?_eq_none hwrap]
    rfl
  · have hsub : (a - (addr + n)).toNat = (a - addr).toNat - data.length := by bv_omega
    rw [List.getElem?_append_right (by omega), List.getElem?_eq_none (l := data) (by omega), hsub,
      Option.or_none]

/-! ## The store loops -/

/-- Every address of a window lies in the memory behind the port. -/
def WindowIn (p : Port) (addr : Word) (n : Nat) : Prop :=
  ∀ k < n, p.ram.InRange (addr + BitVec.ofNat 32 k) 1

theorem WindowIn.of_span {p q : Port} {addr : Word} {n : Nat} (h : q.span = p.span) :
    WindowIn q addr n ↔ WindowIn p addr n := by
  unfold WindowIn
  simp only [Port.inRange_span h]

theorem windowIn_zero (p : Port) (addr : Word) : WindowIn p addr 0 :=
  fun k hk => absurd hk (Nat.not_lt_zero k)

theorem windowIn_succ {p : Port} {addr : Word} {n : Nat} :
    WindowIn p addr (n + 1) ↔ p.ram.InRange addr 1 ∧ WindowIn p (addr + 1) n := by
  constructor
  · intro h
    refine ⟨by simpa using h 0 (by omega), ?_⟩
    intro k hk
    have hnext := h (k + 1) (by omega)
    have heq : addr + BitVec.ofNat 32 (k + 1) = addr + 1 + BitVec.ofNat 32 k := by bv_omega
    rwa [heq] at hnext
  · rintro ⟨h0, hrest⟩ k hk
    cases k with
    | zero => simpa using h0
    | succ k =>
      have heq : addr + BitVec.ofNat 32 (k + 1) = addr + 1 + BitVec.ofNat 32 k := by bv_omega
      rw [heq]
      exact hrest k (by omega)

theorem overwrites_of_storeByte {p q : Port} {addr : Word} {b : Byte}
    (h : IMemory.storeByte p addr b = some q) :
    p.ram.InRange addr 1 ∧ Overwrites p q fun a => if a = addr then some b else none := by
  rw [Port.storeByte_eq] at h
  obtain ⟨m, hm, rfl⟩ := Option.map_eq_some_iff.mp h
  obtain ⟨hin, hw⟩ := FlatMem.storeByte_eq_some hm
  refine ⟨hin, ?_, ?_⟩
  · simp only [Port.span, Port.setRam_ram, hw.base, hw.size]
  · intro a
    have hbytes : (p.setRam m).bytes a.toNat = m.bytes a.toNat := by
      rw [Port.bytes, Port.setRam_ram]
    rw [Port.byteAt, hbytes, hw.bytes, ByteMap.writeLE_apply]
    by_cases ha : a = addr
    · subst ha
      simp
    · have hne : a.toNat ≠ addr.toNat := fun h => ha (BitVec.eq_of_toNat_eq h)
      rw [if_neg (by omega), if_neg ha]
      rfl

theorem exists_storeByte {p : Port} {addr : Word} (h : p.ram.InRange addr 1) (b : Byte) :
    ∃ q, IMemory.storeByte p addr b = some q := by
  obtain ⟨m, hm⟩ := FlatMem.exists_storeByte h b
  exact ⟨p.setRam m, by rw [Port.storeByte_eq, hm]; rfl⟩

/-- What the copy loop has done when it goes through. -/
theorem storeData_eq_some {data : List Byte} (hlen : data.length ≤ 2 ^ 32)
    {imem dmem q r : Port} {addr : Word} (h : storeData imem dmem addr data = some (q, r)) :
    WindowIn imem addr data.length ∧ WindowIn dmem addr data.length ∧
      Overwrites imem q (window addr data) ∧ Overwrites dmem r (window addr data) := by
  induction data generalizing imem dmem addr with
  | nil =>
    simp only [storeData, Option.some.injEq, Prod.mk.injEq] at h
    obtain ⟨rfl, rfl⟩ := h
    exact ⟨windowIn_zero _ _, windowIn_zero _ _, .refl _, .refl _⟩
  | cons b data ih =>
    simp only [List.length_cons] at hlen ⊢
    simp only [storeData, Option.bind_eq_bind, Option.bind_eq_some_iff] at h
    obtain ⟨imem₁, hi, dmem₁, hd, h⟩ := h
    obtain ⟨hin, hwi⟩ := overwrites_of_storeByte hi
    obtain ⟨hdin, hwd⟩ := overwrites_of_storeByte hd
    obtain ⟨h1, h2, h3, h4⟩ := ih (by omega) h
    refine ⟨windowIn_succ.mpr ⟨hin, (WindowIn.of_span hwi.span).mp h1⟩,
      windowIn_succ.mpr ⟨hdin, (WindowIn.of_span hwd.span).mp h2⟩, ?_, ?_⟩
    · exact (hwi.trans h3).congr (window_cons addr b (by omega))
    · exact (hwd.trans h4).congr (window_cons addr b (by omega))

/-- Where its window lies in both memories, the copy loop goes through. -/
theorem exists_storeData (data : List Byte) {imem dmem : Port} {addr : Word}
    (hi : WindowIn imem addr data.length) (hd : WindowIn dmem addr data.length) :
    ∃ q r, storeData imem dmem addr data = some (q, r) := by
  induction data generalizing imem dmem addr with
  | nil => exact ⟨imem, dmem, rfl⟩
  | cons b data ih =>
    obtain ⟨hin, hirest⟩ := windowIn_succ.mp hi
    obtain ⟨hdin, hdrest⟩ := windowIn_succ.mp hd
    obtain ⟨imem₁, hi₁⟩ := exists_storeByte hin b
    obtain ⟨dmem₁, hd₁⟩ := exists_storeByte hdin b
    obtain ⟨q, r, h⟩ := ih
      ((WindowIn.of_span (overwrites_of_storeByte hi₁).2.span).mpr hirest)
      ((WindowIn.of_span (overwrites_of_storeByte hd₁).2.span).mpr hdrest)
    exact ⟨q, r, by simp only [storeData, hi₁, hd₁, Option.bind_eq_bind, Option.bind_some, h]⟩

/-- What the zeroing loop has done when it goes through. -/
theorem zeroFill_eq_some {count : Nat} (hlen : count ≤ 2 ^ 32) {dmem r : Port} {addr : Word}
    (h : zeroFill dmem addr count = some r) :
    WindowIn dmem addr count ∧ Overwrites dmem r (window addr (List.replicate count 0)) := by
  induction count generalizing dmem addr with
  | zero =>
    simp only [zeroFill, Option.some.injEq] at h
    subst h
    exact ⟨windowIn_zero _ _, .refl _⟩
  | succ count ih =>
    simp only [zeroFill, Option.bind_eq_bind, Option.bind_eq_some_iff] at h
    obtain ⟨dmem₁, hd, h⟩ := h
    obtain ⟨hin, hw⟩ := overwrites_of_storeByte hd
    obtain ⟨h1, h2⟩ := ih (by omega) h
    refine ⟨windowIn_succ.mpr ⟨hin, (WindowIn.of_span hw.span).mp h1⟩, ?_⟩
    exact (hw.trans h2).congr (window_cons addr 0 (by simp; omega))

/-- Where its window lies in data memory, the zeroing loop goes through. -/
theorem exists_zeroFill {count : Nat} {dmem : Port} {addr : Word}
    (hd : WindowIn dmem addr count) : ∃ r, zeroFill dmem addr count = some r := by
  induction count generalizing dmem addr with
  | zero => exact ⟨dmem, rfl⟩
  | succ count ih =>
    obtain ⟨hin, hrest⟩ := windowIn_succ.mp hd
    obtain ⟨dmem₁, hd₁⟩ := exists_storeByte hin 0
    obtain ⟨r, h⟩ := ih ((WindowIn.of_span (overwrites_of_storeByte hd₁).2.span).mpr hrest)
    exact ⟨r, by simp only [zeroFill, hd₁, Option.bind_eq_bind, Option.bind_some, h]⟩

/-! ## One segment -/

namespace Elf32Phdr

variable (ph : Elf32Phdr)

/-- How many bytes of data memory a segment covers. -/
def extent : Nat := max ph.pFilesz.toNat ph.pMemsz.toNat

/-- Every byte a segment is to be loaded to lies in the memories. -/
def Targets (imem dmem : Port) : Prop :=
  WindowIn imem ph.pVaddr ph.pFilesz.toNat ∧ WindowIn dmem ph.pVaddr ph.extent

theorem windowIn_extent (p : Port) :
    WindowIn p ph.pVaddr ph.extent ↔ WindowIn p ph.pVaddr ph.pFilesz.toNat ∧
      WindowIn p (ph.pVaddr + ph.pFilesz) (ph.pMemsz.toNat - ph.pFilesz.toNat) := by
  have hmax : ph.extent = ph.pFilesz.toNat + (ph.pMemsz.toNat - ph.pFilesz.toNat) := by
    unfold extent
    omega
  have haddr : ∀ k, ph.pVaddr + ph.pFilesz + BitVec.ofNat 32 k =
      ph.pVaddr + BitVec.ofNat 32 (ph.pFilesz.toNat + k) := by
    intro k
    rw [BitVec.ofNat_add, BitVec.ofNat_toNat, BitVec.setWidth_eq, BitVec.add_assoc]
  rw [hmax]
  constructor
  · intro h
    refine ⟨fun k hk => h k (by omega), fun k hk => ?_⟩
    rw [haddr]
    exact h _ (by omega)
  · rintro ⟨h1, h2⟩ k hk
    by_cases hlt : k < ph.pFilesz.toNat
    · exact h1 k hlt
    · have heq : k = ph.pFilesz.toNat + (k - ph.pFilesz.toNat) := by omega
      rw [heq, ← haddr]
      exact h2 _ (by omega)

end Elf32Phdr

section Segment

variable {ph : Elf32Phdr} {data : List Byte} {imem dmem q r : Port}

/-- What both loops have done for one segment. -/
theorem storeSegment_eq_some (hlen : data.length = ph.pFilesz.toNat)
    (h : storeSegment imem dmem ph data = some (q, r)) :
    ph.Targets imem dmem ∧ Overwrites imem q (window ph.pVaddr data) ∧
      Overwrites dmem r (window ph.pVaddr
        (data ++ List.replicate (ph.pMemsz.toNat - ph.pFilesz.toNat) 0)) := by
  have hf := ph.pFilesz.isLt
  have hm := ph.pMemsz.isLt
  simp only [storeSegment, Option.bind_eq_bind, Option.bind_eq_some_iff, Option.some.injEq,
    Prod.mk.injEq] at h
  obtain ⟨⟨imem₁, dmem₁⟩, hd, r', hz, rfl, rfl⟩ := h
  obtain ⟨h1, h2, h3, h4⟩ := storeData_eq_some (by omega) hd
  obtain ⟨h5, h6⟩ := zeroFill_eq_some (by omega) hz
  rw [hlen] at h1 h2
  refine ⟨⟨h1, ph.windowIn_extent dmem |>.mpr ⟨h2, (WindowIn.of_span h4.span).mp h5⟩⟩, h3, ?_⟩
  exact (h4.trans h6).congr (window_append ph.pVaddr data _ hlen (by simp; omega))

theorem exists_storeSegment (hlen : data.length = ph.pFilesz.toNat)
    (h : ph.Targets imem dmem) : ∃ q r, storeSegment imem dmem ph data = some (q, r) := by
  obtain ⟨hi, hd⟩ := h
  obtain ⟨hd, hz⟩ := (ph.windowIn_extent dmem).mp hd
  rw [← hlen] at hi hd
  obtain ⟨q, dmem₁, h₁⟩ := exists_storeData data hi hd
  have hf := ph.pFilesz.isLt
  obtain ⟨-, -, -, hover⟩ := storeData_eq_some (by omega) h₁
  obtain ⟨r, h₂⟩ := exists_zeroFill ((WindowIn.of_span hover.span).mpr hz)
  exact ⟨q, r, by simp only [storeSegment, h₁, Option.bind_eq_bind, Option.bind_some, h₂]⟩

end Segment

/-! ## Reading the file -/

namespace IFStream

variable {f : IFStream} {pos n : Nat}

/-- A read inside the file. -/
theorem read_seekg (pos n : Nat) (hf : f.fail = false) (h : n = 0 ∨ pos + n ≤ f.bytes.length) :
    ((f.seekg pos).read n).1 = (f.bytes.drop pos).take n ∧
      ((f.seekg pos).read n).2.fail = false ∧ ((f.seekg pos).read n).2.bytes = f.bytes := by
  have hlen : ((f.bytes.drop pos).take n).length = n := by
    rw [List.length_take, List.length_drop]
    omega
  unfold read seekg
  rw [hf]
  simp only [Bool.false_eq_true, if_false, hlen, Nat.sub_self, List.replicate_zero,
    List.append_nil, Nat.lt_irrefl, decide_false, and_self]

/-- A read that runs past the end of the file leaves the stream failed. -/
theorem read_seekg_short (pos n : Nat) (hf : f.fail = false) (hn : n ≠ 0)
    (h : f.bytes.length < pos + n) :
    ((f.seekg pos).read n).2.fail = true := by
  have hlen : ((f.bytes.drop pos).take n).length < n := by
    rw [List.length_take, List.length_drop]
    omega
  unfold read seekg
  rw [hf]
  simp only [Bool.false_eq_true, if_false, hlen, decide_true]

/-- A failed stream stays as it is. -/
theorem read_seekg_failed (hf : f.fail = true) : ((f.seekg pos).read n).2 = f := by
  unfold read seekg
  rw [if_pos hf, if_pos hf]

end IFStream

/-! ## What a file describes -/

section File

variable (file : List Byte)

/-- The file header. -/
def fileEhdr : Elf32Ehdr := .ofBytes (file.take sizeofEhdr)

/-- Where program header `i` starts. -/
def phdrOffset (i : Nat) : Nat :=
  (fileEhdr file).ePhoff.toNat + i * (fileEhdr file).ePhentsize.toNat

/-- Program header `i`. -/
def filePhdr (i : Nat) : Elf32Phdr := .ofBytes ((file.drop (phdrOffset file i)).take sizeofPhdr)

/-- A complete ELF32 little-endian RISC-V file header. -/
structure ValidHeader : Prop where
  complete : sizeofEhdr ≤ file.length
  magic : file.take 4 = [0x7f#8, 0x45#8, 0x4c#8, 0x46#8]
  elf32 : file[4]? = some 1#8
  littleEndian : file[5]? = some 1#8
  riscv : (fileEhdr file).eMachine = emRiscv

/-- Program header `i` is fully contained in the file. -/
def HeaderIn (i : Nat) : Prop := phdrOffset file i + sizeofPhdr ≤ file.length

/-- The file range of a segment is fully contained in the file. -/
def RangeIn (ph : Elf32Phdr) : Prop :=
  ph.pFilesz.toNat = 0 ∨ ph.pOffset.toNat + ph.pFilesz.toNat ≤ file.length

/-- The bytes of the file range of a segment. -/
def segmentData (ph : Elf32Phdr) : List Byte :=
  (file.drop ph.pOffset.toNat).take ph.pFilesz.toNat

/-- The `PT_LOAD` headers among the first `n`, in order. -/
def segments : Nat → List Elf32Phdr
  | 0 => []
  | n + 1 => segments n ++ if (filePhdr file n).pType = ptLoad then [filePhdr file n] else []

end File

theorem segmentData_length {file : List Byte} {ph : Elf32Phdr} (h : RangeIn file ph) :
    (segmentData file ph).length = ph.pFilesz.toNat := by
  unfold segmentData RangeIn at *
  rw [List.length_take, List.length_drop]
  omega

theorem ValidHeader.check {file : List Byte} (h : ValidHeader file) :
    (fileEhdr file).check = .ok () := by
  have hident : (fileEhdr file).eIdent = file.take 16 := by
    change (file.take 52).take 16 = _
    rw [List.take_take]
    rfl
  have hmagic : (file.take 16).take 4 = [0x7f#8, 0x45#8, 0x4c#8, 0x46#8] := by
    rw [List.take_take]
    exact h.magic
  have h4 : (file.take 16).getD 4 0 = 1#8 := by
    rw [List.getD_eq_getElem?_getD, List.getElem?_take_of_lt (by omega), h.elf32]
    rfl
  have h5 : (file.take 16).getD 5 0 = 1#8 := by
    rw [List.getD_eq_getElem?_getD, List.getElem?_take_of_lt (by omega), h.littleEndian]
    rfl
  unfold Elf32Ehdr.check
  rw [hident, if_neg (by rw [hmagic]; simp), if_neg (by rw [h4]; simp),
    if_neg (by rw [h5]; simp), if_neg (by rw [h.riscv]; simp)]

/-! ## One program header -/

section Header

variable {file : List Byte} {i : Nat} {s t : LoadState Port Port}

/-- A header that is missing is skipped, and the stream stays failed. -/
theorem loadHeader_missing (hf : s.f.fail = false) (hb : s.f.bytes = file)
    (h : ¬ HeaderIn file i) :
    ∃ t, loadHeader (fileEhdr file) i s = .ok t ∧ t.f.fail = true := by
  have hshort := IFStream.read_seekg_short (phdrOffset file i) sizeofPhdr hf
    (by decide) (by unfold HeaderIn at h; rw [hb]; omega)
  unfold phdrOffset at hshort
  unfold loadHeader
  simp only [hshort, Bool.true_or, if_true]
  exact ⟨_, rfl, hshort⟩

/-- Once the stream has failed every header is skipped. -/
theorem loadHeader_failed (ehdr : Elf32Ehdr) (i : Nat) (hf : s.f.fail = true) :
    loadHeader ehdr i s = .ok s := by
  unfold loadHeader
  simp only [IFStream.read_seekg_failed hf, hf, Bool.true_or, if_true]

/-- A header that is there is read from the file. -/
theorem read_header (hf : s.f.fail = false) (hb : s.f.bytes = file) (h : HeaderIn file i) :
    ∃ f : IFStream, f.fail = false ∧ f.bytes = file ∧
      ((s.f.seekg ((fileEhdr file).ePhoff.toNat + i * (fileEhdr file).ePhentsize.toNat)).read
        sizeofPhdr).2 = f ∧
      Elf32Phdr.ofBytes ((s.f.seekg ((fileEhdr file).ePhoff.toNat +
        i * (fileEhdr file).ePhentsize.toNat)).read sizeofPhdr).1 = filePhdr file i := by
  obtain ⟨hdata, hfail, hbytes⟩ := IFStream.read_seekg (phdrOffset file i) sizeofPhdr hf
    (.inr (by unfold HeaderIn at h; rw [hb]; exact h))
  refine ⟨_, hfail, hbytes.trans hb, rfl, ?_⟩
  rw [hb] at hdata
  exact congrArg Elf32Phdr.ofBytes hdata

/-- A header of another type has no effect. -/
theorem loadHeader_other (hf : s.f.fail = false) (hb : s.f.bytes = file) (h : HeaderIn file i)
    (htype : (filePhdr file i).pType ≠ ptLoad) :
    ∃ f : IFStream, f.fail = false ∧ f.bytes = file ∧
      loadHeader (fileEhdr file) i s = .ok { s with f := f } := by
  obtain ⟨f, hfail, hbytes, hread, hph⟩ := read_header hf hb h
  refine ⟨f, hfail, hbytes, ?_⟩
  unfold loadHeader
  simp only [hread, hph, hfail, Bool.false_or, bne_iff_ne.mpr htype, if_true]

/-- A segment whose file range is cut off is reported. -/
theorem loadHeader_short (hf : s.f.fail = false) (hb : s.f.bytes = file) (h : HeaderIn file i)
    (htype : (filePhdr file i).pType = ptLoad) (hrange : ¬ RangeIn file (filePhdr file i)) :
    loadHeader (fileEhdr file) i s =
      .error (.thrown ("elf_loader: short read on segment " ++ toString i)) := by
  obtain ⟨f, hfail, hbytes, hread, hph⟩ := read_header hf hb h
  unfold RangeIn at hrange
  have hshort := IFStream.read_seekg_short (filePhdr file i).pOffset.toNat
    (filePhdr file i).pFilesz.toNat hfail (by omega) (by rw [hbytes]; omega)
  have hload : ((filePhdr file i).pType != ptLoad) = false := by rw [htype]; rfl
  unfold loadHeader
  simp only [hread, hph, hfail, hload, Bool.or_self, Bool.false_eq_true, if_false, hshort, if_true]

/-- A segment that is there is stored, unless a memory aborts. -/
theorem loadHeader_segment (hf : s.f.fail = false) (hb : s.f.bytes = file) (h : HeaderIn file i)
    (htype : (filePhdr file i).pType = ptLoad) (hrange : RangeIn file (filePhdr file i)) :
    ∃ f : IFStream, f.fail = false ∧ f.bytes = file ∧
      (storeSegment s.imem s.dmem (filePhdr file i) (segmentData file (filePhdr file i)) = none →
        loadHeader (fileEhdr file) i s = .error .aborted) ∧
      ∀ q r, storeSegment s.imem s.dmem (filePhdr file i)
          (segmentData file (filePhdr file i)) = some (q, r) →
        loadHeader (fileEhdr file) i s = .ok { f := f, imem := q, dmem := r } := by
  obtain ⟨f, hfail, hbytes, hread, hph⟩ := read_header hf hb h
  obtain ⟨hdata, hfail', hbytes'⟩ := IFStream.read_seekg (filePhdr file i).pOffset.toNat
    (filePhdr file i).pFilesz.toNat hfail (by rw [hbytes]; exact hrange)
  have hload : ((filePhdr file i).pType != ptLoad) = false := by rw [htype]; rfl
  rw [hbytes] at hdata hbytes'
  change _ = segmentData file (filePhdr file i) at hdata
  refine ⟨_, hfail', hbytes', ?_, ?_⟩
  · intro hstore
    unfold loadHeader
    simp only [hread, hph, hfail, hload, Bool.or_self, Bool.false_eq_true, if_false, hfail', hdata,
      hstore]
  · intro q r hstore
    unfold loadHeader
    simp only [hread, hph, hfail, hload, Bool.or_self, Bool.false_eq_true, if_false, hfail', hdata,
      hstore]

end Header

/-! ## The program header table -/

section Table

variable (file : List Byte)

/-- The byte a segment gives instruction memory at an address. -/
def codeByte (ph : Elf32Phdr) (a : Word) : Option Byte :=
  let offset := (a - ph.pVaddr).toNat
  if offset < ph.pFilesz.toNat then some (file.getD (ph.pOffset.toNat + offset) 0) else none

/-- The byte a segment gives data memory at an address: from the file, or zero behind that. -/
def dataByte (ph : Elf32Phdr) (a : Word) : Option Byte :=
  let offset := (a - ph.pVaddr).toNat
  if offset < ph.extent then
    some (if offset < ph.pFilesz.toNat then file.getD (ph.pOffset.toNat + offset) 0 else 0)
  else none

/-- The byte of the last segment that gives one. -/
def lastByte (byte : Elf32Phdr → Word → Option Byte) (segs : List Elf32Phdr) (a : Word) :
    Option Byte :=
  segs.reverse.findSome? fun ph => byte ph a

/-- Program header `i` can be loaded: it is there, and so are the bytes of a segment and the
    addresses they go to. -/
def Loadable (imem dmem : Port) (i : Nat) : Prop :=
  HeaderIn file i ∧ ((filePhdr file i).pType = ptLoad →
    RangeIn file (filePhdr file i) ∧ (filePhdr file i).Targets imem dmem)

/-- Program header `i` is there and describes a segment whose bytes are not. -/
def ShortSegment (i : Nat) : Prop :=
  HeaderIn file i ∧ (filePhdr file i).pType = ptLoad ∧ ¬ RangeIn file (filePhdr file i)

end Table

section Run

variable {file : List Byte} {imem dmem : Port} {i n : Nat} {s t : LoadState Port Port}

theorem getElem?_segmentData {ph : Elf32Phdr} (h : RangeIn file ph) {k : Nat}
    (hk : k < ph.pFilesz.toNat) :
    (segmentData file ph)[k]? = some (file.getD (ph.pOffset.toNat + k) 0) := by
  have hlt : ph.pOffset.toNat + k < file.length := by
    unfold RangeIn at h
    omega
  unfold segmentData
  rw [List.getElem?_take_of_lt hk, List.getElem?_drop, List.getD_eq_getElem?_getD,
    List.getElem?_eq_getElem hlt]
  rfl

theorem window_segmentData {ph : Elf32Phdr} (h : RangeIn file ph) :
    ∀ a, window ph.pVaddr (segmentData file ph) a = codeByte file ph a := by
  intro a
  unfold window codeByte
  by_cases hk : (a - ph.pVaddr).toNat < ph.pFilesz.toNat
  · rw [getElem?_segmentData h hk, if_pos hk]
  · rw [List.getElem?_eq_none (by rw [segmentData_length h]; omega), if_neg hk]

theorem window_segmentData_zeros {ph : Elf32Phdr} (h : RangeIn file ph) :
    ∀ a, window ph.pVaddr (segmentData file ph ++
        List.replicate (ph.pMemsz.toNat - ph.pFilesz.toNat) 0) a = dataByte file ph a := by
  intro a
  have hlen := segmentData_length h
  unfold window dataByte Elf32Phdr.extent
  by_cases hk : (a - ph.pVaddr).toNat < ph.pFilesz.toNat
  · rw [List.getElem?_append_left (by omega), getElem?_segmentData h hk, if_pos (by omega),
      if_pos hk]
  · rw [List.getElem?_append_right (by omega), List.getElem?_replicate, hlen]
    by_cases hz : (a - ph.pVaddr).toNat < max ph.pFilesz.toNat ph.pMemsz.toNat
    · rw [if_pos (by omega), if_pos hz, if_neg hk]
    · rw [if_neg (by omega), if_neg hz]

/-- The bytes of one more segment go before those of the earlier ones. -/
theorem lastByte_append (byte : Elf32Phdr → Word → Option Byte) (segs : List Elf32Phdr)
    (ph : Elf32Phdr) (a : Word) :
    lastByte byte (segs ++ [ph]) a = (byte ph a).or (lastByte byte segs a) := by
  unfold lastByte
  rw [List.reverse_append, List.findSome?_append]
  cases h : byte ph a <;> simp [h]

/-- After `n` headers: the stream is good, and the memories hold the segments so far. -/
structure Filled (file : List Byte) (imem dmem : Port) (n : Nat) (s : LoadState Port Port) :
    Prop where
  good : s.f.fail = false
  bytes : s.f.bytes = file
  imem : Overwrites imem s.imem (lastByte (codeByte file) (segments file n))
  dmem : Overwrites dmem s.dmem (lastByte (dataByte file) (segments file n))

theorem Filled.targets (h : Filled file imem dmem n s) (ph : Elf32Phdr) :
    ph.Targets s.imem s.dmem ↔ ph.Targets imem dmem :=
  and_congr (WindowIn.of_span h.imem.span) (WindowIn.of_span h.dmem.span)

theorem segments_of_load (h : (filePhdr file n).pType = ptLoad) :
    segments file (n + 1) = segments file n ++ [filePhdr file n] := by
  rw [segments, if_pos h]

theorem segments_of_other (h : (filePhdr file n).pType ≠ ptLoad) :
    segments file (n + 1) = segments file n := by
  rw [segments, if_neg h, List.append_nil]

/-- A segment that was stored is the last one so far. -/
theorem Filled.store (h : Filled file imem dmem n s) (htype : (filePhdr file n).pType = ptLoad)
    (hrange : RangeIn file (filePhdr file n)) {f : IFStream} (hf : f.fail = false)
    (hb : f.bytes = file) {q r : Port}
    (hstore : storeSegment s.imem s.dmem (filePhdr file n)
      (segmentData file (filePhdr file n)) = some (q, r)) :
    Filled file imem dmem (n + 1) { f := f, imem := q, dmem := r } := by
  obtain ⟨-, hi, hd⟩ := storeSegment_eq_some (segmentData_length hrange) hstore
  refine ⟨hf, hb, ?_, ?_⟩
  · refine (h.imem.trans hi).congr ?_
    intro a
    rw [segments_of_load htype, lastByte_append, window_segmentData hrange]
  · refine (h.dmem.trans hd).congr ?_
    intro a
    rw [segments_of_load htype, lastByte_append, window_segmentData_zeros hrange]

/-- A loadable header goes through. -/
theorem Filled.load (h : Filled file imem dmem n s) (hl : Loadable file imem dmem n) :
    ∃ t, loadHeader (fileEhdr file) n s = .ok t ∧ Filled file imem dmem (n + 1) t := by
  obtain ⟨hin, hseg⟩ := hl
  by_cases htype : (filePhdr file n).pType = ptLoad
  · obtain ⟨hrange, htargets⟩ := hseg htype
    obtain ⟨f, hf, hb, -, hok⟩ := loadHeader_segment h.good h.bytes hin htype hrange
    obtain ⟨q, r, hstore⟩ := exists_storeSegment (segmentData_length hrange)
      ((h.targets _).mpr htargets)
    exact ⟨_, hok q r hstore, h.store htype hrange hf hb hstore⟩
  · obtain ⟨f, hf, hb, hok⟩ := loadHeader_other h.good h.bytes hin htype
    refine ⟨_, hok, hf, hb, ?_, ?_⟩
    · rw [segments_of_other htype]
      exact h.imem
    · rw [segments_of_other htype]
      exact h.dmem

theorem loadHeaders_succ (ehdr : Elf32Ehdr) (s : LoadState Port Port) (n : Nat) :
    loadHeaders ehdr s (n + 1) = (loadHeaders ehdr s n).bind (loadHeader ehdr n) := rfl

/-- Loadable headers go through one after the other. -/
theorem Filled.run (h : Filled file imem dmem 0 s) (hl : ∀ i < n, Loadable file imem dmem i) :
    ∃ t, loadHeaders (fileEhdr file) s n = .ok t ∧ Filled file imem dmem n t := by
  induction n with
  | zero => exact ⟨s, rfl, h⟩
  | succ n ih =>
    obtain ⟨u, hu, hfu⟩ := ih fun i hi => hl i (by omega)
    obtain ⟨t, ht, hft⟩ := hfu.load (hl n (by omega))
    exact ⟨t, by rw [loadHeaders_succ, hu]; exact ht, hft⟩

/-- Everything an iteration on a good stream can do. -/
theorem Filled.step (h : Filled file imem dmem n s) :
    (Loadable file imem dmem n ∧
      ∃ t, loadHeader (fileEhdr file) n s = .ok t ∧ Filled file imem dmem (n + 1) t) ∨
    (¬ HeaderIn file n ∧
      ∃ t, loadHeader (fileEhdr file) n s = .ok t ∧ t.f.fail = true) ∨
    (ShortSegment file n ∧ loadHeader (fileEhdr file) n s =
      .error (.thrown ("elf_loader: short read on segment " ++ toString n))) ∨
    loadHeader (fileEhdr file) n s = .error .aborted := by
  by_cases hin : HeaderIn file n
  · by_cases htype : (filePhdr file n).pType = ptLoad
    · by_cases hrange : RangeIn file (filePhdr file n)
      · by_cases htargets : (filePhdr file n).Targets imem dmem
        · have hload : Loadable file imem dmem n := ⟨hin, fun _ => ⟨hrange, htargets⟩⟩
          exact .inl ⟨hload, h.load hload⟩
        · obtain ⟨f, -, -, hnone, -⟩ := loadHeader_segment h.good h.bytes hin htype hrange
          refine .inr (.inr (.inr (hnone ?_)))
          rw [Option.eq_none_iff_forall_ne_some]
          intro o hstore
          have hin := (storeSegment_eq_some (segmentData_length hrange) hstore).1
          exact htargets ((h.targets _).mp hin)
      · exact .inr (.inr (.inl ⟨⟨hin, htype, hrange⟩,
          loadHeader_short h.good h.bytes hin htype hrange⟩))
    · have hload : Loadable file imem dmem n := ⟨hin, fun ht => absurd ht htype⟩
      exact .inl ⟨hload, h.load hload⟩
  · exact .inr (.inl ⟨hin, loadHeader_missing h.good h.bytes hin⟩)

/-- A header that leaves a good stream was loadable. -/
theorem Filled.of_load (h : Filled file imem dmem n s)
    (hok : loadHeader (fileEhdr file) n s = .ok t) (ht : t.f.fail = false) :
    Loadable file imem dmem n ∧ Filled file imem dmem (n + 1) t := by
  obtain ⟨hload, u, hu, hfu⟩ | ⟨-, u, hu, hfail⟩ | ⟨-, hthrow⟩ | habort := h.step
  · rw [hu] at hok
    cases hok
    exact ⟨hload, hfu⟩
  · rw [hu] at hok
    cases hok
    rw [hfail] at ht
    cases ht
  · rw [hthrow] at hok
    cases hok
  · rw [habort] at hok
    cases hok

/-- Only a short segment makes an iteration throw. -/
theorem Filled.short_of_throws (h : Filled file imem dmem n s) {what : String}
    (hthrow : loadHeader (fileEhdr file) n s = .error (.thrown what)) : ShortSegment file n := by
  obtain ⟨-, u, hu, -⟩ | ⟨-, u, hu, -⟩ | ⟨hshort, -⟩ | habort := h.step
  · rw [hu] at hthrow
    cases hthrow
  · rw [hu] at hthrow
    cases hthrow
  · exact hshort
  · rw [habort] at hthrow
    cases hthrow

/-- A table that leaves a good stream was loadable. -/
theorem Filled.of_run (h : Filled file imem dmem 0 s)
    (hok : loadHeaders (fileEhdr file) s n = .ok t) (ht : t.f.fail = false) :
    (∀ i < n, Loadable file imem dmem i) ∧ Filled file imem dmem n t := by
  induction n generalizing t with
  | zero =>
    cases hok
    exact ⟨fun i hi => absurd hi (Nat.not_lt_zero i), h⟩
  | succ n ih =>
    rw [loadHeaders_succ] at hok
    cases hu : loadHeaders (fileEhdr file) s n with
    | error e =>
      rw [hu] at hok
      cases hok
    | ok u =>
      rw [hu] at hok
      change loadHeader (fileEhdr file) n u = .ok t at hok
      cases hfu : u.f.fail with
      | true =>
        rw [loadHeader_failed _ _ hfu] at hok
        cases hok
        rw [hfu] at ht
        cases ht
      | false =>
        obtain ⟨hall, hfilled⟩ := ih hu hfu
        obtain ⟨hn, hnext⟩ := hfilled.of_load hok ht
        refine ⟨?_, hnext⟩
        intro i hi
        rcases Nat.lt_succ_iff_lt_or_eq.mp hi with hlt | rfl
        · exact hall i hlt
        · exact hn

/-- An exception ends the loop. -/
theorem loadHeaders_error {ehdr : Elf32Ehdr} {e : LoadError}
    (h : loadHeaders ehdr s n = .error e) (k : Nat) : loadHeaders ehdr s (n + k) = .error e := by
  induction k with
  | zero => exact h
  | succ k ih =>
    rw [← Nat.add_assoc, loadHeaders_succ, ih]
    rfl

/-- The loop throws exactly at a short segment behind loadable headers. -/
theorem loadHeaders_throws_iff (h : Filled file imem dmem 0 s) :
    (∃ what, loadHeaders (fileEhdr file) s n = .error (.thrown what)) ↔
      ∃ j < n, ShortSegment file j ∧ ∀ i < j, Loadable file imem dmem i := by
  constructor
  · intro hthrow
    induction n with
    | zero =>
      obtain ⟨what, hw⟩ := hthrow
      cases hw
    | succ n ih =>
      obtain ⟨what, hw⟩ := hthrow
      rw [loadHeaders_succ] at hw
      cases hu : loadHeaders (fileEhdr file) s n with
      | error e =>
        rw [hu] at hw
        cases hw
        obtain ⟨j, hj, hrest⟩ := ih ⟨what, hu⟩
        exact ⟨j, by omega, hrest⟩
      | ok u =>
        rw [hu] at hw
        change loadHeader (fileEhdr file) n u = _ at hw
        cases hfu : u.f.fail with
        | true =>
          rw [loadHeader_failed _ _ hfu] at hw
          cases hw
        | false =>
          obtain ⟨hall, hfilled⟩ := h.of_run hu hfu
          exact ⟨n, by omega, hfilled.short_of_throws hw, hall⟩
  · rintro ⟨j, hj, ⟨hin, htype, hrange⟩, hall⟩
    obtain ⟨u, hu, hfu⟩ := h.run hall
    have hstep : loadHeaders (fileEhdr file) s (j + 1) =
        .error (.thrown ("elf_loader: short read on segment " ++ toString j)) := by
      rw [loadHeaders_succ, hu]
      exact loadHeader_short hfu.good hfu.bytes hin htype hrange
    obtain ⟨k, rfl⟩ := Nat.exists_eq_add_of_le hj
    exact ⟨_, loadHeaders_error hstep k⟩

end Run

/-! ## Whole files -/

/-- A byte load answers with the byte behind the port, in range. -/
theorem loadByte_eq (p : Port) (a : Word) :
    IMemory.loadByte p a = if p.ram.InRange a 1 then some (p.byteAt a) else none := by
  rw [Port.loadByte_eq]
  by_cases hin : p.ram.InRange a 1
  · obtain ⟨v, hv⟩ := FlatMem.exists_loadByte hin
    rw [if_pos hin, hv, (FlatMem.loadByte_eq_some hv).2, ByteMap.ofNat_readLE_one]
    rfl
  · rw [if_neg hin, Option.eq_none_iff_forall_ne_some]
    intro v hv
    exact hin (FlatMem.loadByte_eq_some hv).1

/-- What a load reads after an overwrite. -/
theorem Overwrites.loadByte {p q : Port} {w : Word → Option Byte} (h : Overwrites p q w)
    (a : Word) : IMemory.loadByte q a = (IMemory.loadByte p a).map fun old => (w a).getD old := by
  rw [loadByte_eq, loadByte_eq]
  by_cases hin : p.ram.InRange a 1
  · rw [if_pos hin, if_pos ((Port.inRange_span h.span a 1).mpr hin), h.byteAt]
    rfl
  · rw [if_neg hin, if_neg fun hq => hin ((Port.inRange_span h.span a 1).mp hq)]
    rfl

section Load

variable {file : List Byte}

/-- With a valid file header, loading is the loop over the program headers. -/
theorem loadElf_eq (h : ValidHeader file) (path : String) (imem dmem : Port) :
    ∃ s, Filled file imem dmem 0 s ∧ loadElf path (some file) imem dmem =
      (loadHeaders (fileEhdr file) s (fileEhdr file).ePhnum.toNat).map
        fun t => ((fileEhdr file).eEntry, t.imem, t.dmem) := by
  obtain ⟨hdata, hfail, hbytes⟩ := IFStream.read_seekg (f := ⟨file, 0, false⟩) 0 sizeofEhdr
    rfl (.inr (by rw [Nat.zero_add]; exact h.complete))
  change ((IFStream.mk file 0 false).read sizeofEhdr).1 = _ at hdata
  change ((IFStream.mk file 0 false).read sizeofEhdr).2.fail = false at hfail
  change ((IFStream.mk file 0 false).read sizeofEhdr).2.bytes = file at hbytes
  rw [List.drop_zero] at hdata
  have hehdr : Elf32Ehdr.ofBytes ((IFStream.mk file 0 false).read sizeofEhdr).1 =
      fileEhdr file := congrArg Elf32Ehdr.ofBytes hdata
  refine ⟨{ f := ((IFStream.mk file 0 false).read sizeofEhdr).2, imem := imem, dmem := dmem },
    ⟨hfail, hbytes, .refl _, .refl _⟩, ?_⟩
  unfold loadElf
  simp only [hfail, Bool.false_eq_true, if_false, hehdr, h.check]
  rfl

/-- A well-formed file is loaded: `load_elf` returns the entry point, data memory holds at each
    address the byte of the last segment that covers it and its old byte elsewhere, and so does
    instruction memory for the file part of the segments. -/
theorem loadElf_places (h : ValidHeader file)
    (hheaders : ∀ i < (fileEhdr file).ePhnum.toNat, HeaderIn file i) {imem dmem : Port}
    (hsegments : ∀ i < (fileEhdr file).ePhnum.toNat, (filePhdr file i).pType = ptLoad →
      RangeIn file (filePhdr file i) ∧ (filePhdr file i).Targets imem dmem) (path : String) :
    ∃ imem' dmem', loadElf path (some file) imem dmem =
        .ok ((fileEhdr file).eEntry, imem', dmem') ∧
      ∀ a,
        IMemory.loadByte dmem' a = (IMemory.loadByte dmem a).map (fun old =>
          (lastByte (dataByte file) (segments file (fileEhdr file).ePhnum.toNat) a).getD old) ∧
        IMemory.loadByte imem' a = (IMemory.loadByte imem a).map (fun old =>
          (lastByte (codeByte file) (segments file (fileEhdr file).ePhnum.toNat) a).getD old) := by
  obtain ⟨s, hs, hload⟩ := loadElf_eq h path imem dmem
  obtain ⟨t, ht, hfilled⟩ := hs.run (n := (fileEhdr file).ePhnum.toNat)
    fun i hi => ⟨hheaders i hi, hsegments i hi⟩
  refine ⟨t.imem, t.dmem, by rw [hload, ht]; rfl, ?_⟩
  intro a
  exact ⟨hfilled.dmem.loadByte a, hfilled.imem.loadByte a⟩

/-- 32-bit words as a file has them. -/
def leWords (l : List Nat) : List Byte :=
  l.flatMap fun w => [BitVec.ofNat 8 w, BitVec.ofNat 8 (w / 2 ^ 8), BitVec.ofNat 8 (w / 2 ^ 16),
    BitVec.ofNat 8 (w / 2 ^ 24)]

/-- Two segments, their headers 40 bytes apart: two bytes and two zeros at 0x80000000, and one byte
    over the first of the zeros. -/
def overlapElf : List Byte := leWords [
  0x464C457F, 0x00010101, 0, 0, 0x00F30002, 1, 0x80000000, 52, 0, 0, 0x00280034, 2, 0,
  1, 124, 0x80000000, 0, 2, 4, 5, 4, 0, 0,
  1, 126, 0x80000002, 0, 1, 1, 6, 4,
  0xDDCCBBAA]

instance (p : Port) (addr : Word) (n : Nat) : Decidable (WindowIn p addr n) :=
  inferInstanceAs (Decidable (∀ k < n, _))

theorem loadElf_places_overlap :
    ∃ imem' dmem', loadElf "overlap" (some overlapElf) (Port.flat (.new 0x80000000#32 4 1))
        (Port.flat (.new 0x80000000#32 4 1)) = .ok (0x80000000#32, imem', dmem') ∧
      IMemory.loadByte dmem' 0x80000002#32 = some 0xCC#8 ∧
      IMemory.loadByte dmem' 0x80000003#32 = some 0#8 := by
  have hvalid : ValidHeader overlapElf :=
    ⟨by decide +kernel, by decide +kernel, by decide +kernel, by decide +kernel, by decide +kernel⟩
  have hheaders : ∀ i < (fileEhdr overlapElf).ePhnum.toNat, HeaderIn overlapElf i := by
    unfold HeaderIn
    decide +kernel
  have hsegments : ∀ i < (fileEhdr overlapElf).ePhnum.toNat,
      (filePhdr overlapElf i).pType = ptLoad → RangeIn overlapElf (filePhdr overlapElf i) ∧
        (filePhdr overlapElf i).Targets (Port.flat (.new 0x80000000#32 4 1))
          (Port.flat (.new 0x80000000#32 4 1)) := by
    unfold RangeIn Elf32Phdr.Targets
    decide +kernel
  obtain ⟨imem', dmem', hload, hbytes⟩ := loadElf_places hvalid hheaders hsegments "overlap"
  refine ⟨imem', dmem', hload, ?_, ?_⟩
  · rw [(hbytes _).1]
    decide +kernel
  · rw [(hbytes _).1]
    decide +kernel

/-- A program header, or the file range of a segment, is not fully contained in the file. -/
def Damaged (file : List Byte) : Prop :=
  ∃ i < (fileEhdr file).ePhnum.toNat, ¬ HeaderIn file i ∨ ShortSegment file i

theorem throws_iff_shortSegment (h : ValidHeader file) (path : String) (imem dmem : Port) :
    (∃ what, loadElf path (some file) imem dmem = .error (.thrown what)) ↔
      ∃ j < (fileEhdr file).ePhnum.toNat, ShortSegment file j ∧
        ∀ i < j, Loadable file imem dmem i := by
  obtain ⟨s, hs, hload⟩ := loadElf_eq h path imem dmem
  rw [← loadHeaders_throws_iff hs, hload]
  cases loadHeaders (fileEhdr file) s (fileEhdr file).ePhnum.toNat with
  | ok t => exact ⟨fun ⟨_, h⟩ => (by cases h), fun ⟨_, h⟩ => (by cases h)⟩
  | error e =>
    constructor
    · rintro ⟨what, hw⟩
      cases hw
      exact ⟨what, rfl⟩
    · rintro ⟨what, hw⟩
      cases hw
      exact ⟨what, rfl⟩

/-- The loader throws on a damaged file exactly when the first header it cannot load is complete
    and describes a segment whose bytes are cut off. A header that is cut off itself fails the
    stream, and everything behind it is skipped without a word. -/
theorem rejects_damaged_iff (h : ValidHeader file) (path : String) (imem dmem : Port) :
    (Damaged file → ∃ what, loadElf path (some file) imem dmem = .error (.thrown what)) ↔
      (¬ Damaged file ∨ ∃ j < (fileEhdr file).ePhnum.toNat, ShortSegment file j ∧
        ∀ i < j, Loadable file imem dmem i) := by
  rw [throws_iff_shortSegment h]
  exact imp_iff_not_or

/-- With the second half of its segment bytes cut off, the file is rejected. -/
theorem rejects_damaged_iff_overlap :
    ∃ what, loadElf "cut" (some (overlapElf.take 125)) (Port.flat (.new 0x80000000#32 4 1))
      (Port.flat (.new 0x80000000#32 4 1)) = .error (.thrown what) := by
  have hvalid : ValidHeader (overlapElf.take 125) :=
    ⟨by decide +kernel, by decide +kernel, by decide +kernel, by decide +kernel, by decide +kernel⟩
  have hshort : ShortSegment (overlapElf.take 125) 0 := by
    unfold ShortSegment HeaderIn RangeIn
    decide +kernel
  exact (rejects_damaged_iff hvalid "cut" _ _).mpr
    (.inr ⟨0, by decide +kernel, hshort, fun i hi => absurd hi (Nat.not_lt_zero i)⟩)
    ⟨0, by decide +kernel, .inr hshort⟩

/-- A file that ends behind its file header announces two program headers, has none, and is
    loaded as an empty program. -/
theorem loads_without_headers :
    ¬ (Damaged (overlapElf.take 52) → ∃ what, loadElf "cut" (some (overlapElf.take 52))
        (Port.flat (.new 0x80000000#32 4 1)) (Port.flat (.new 0x80000000#32 4 1)) =
      .error (.thrown what)) := by
  intro h
  have hdamaged : Damaged (overlapElf.take 52) :=
    ⟨0, by decide +kernel, .inl (by unfold HeaderIn; decide +kernel)⟩
  obtain ⟨what, hw⟩ := h hdamaged
  cases hw

end Load

end CpuSim
