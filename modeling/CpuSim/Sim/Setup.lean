import CpuSim.Rtl.Correct
import CpuSim.Sim.ElfImage
import CpuSim.Sim.Run

/-!
# What the setup calls prepare

Whatever calls prepare a core, in whatever order, they change bytes behind its two ports and its
registers and nothing else, so the core is a booted one (`setup_eq_boot`). `Prepared` says with
which bytes. The loader accepts a file whose program header table is cut off, and then prepares
the segments before the first missing header.
-/

namespace CpuSim

open ByteMap

/-! ## Ports with other bytes -/

/-- `q` is `p` with as many other bytes behind it. -/
structure Refills (p q : Port) : Prop where
  frame : q = p.load q.ram.mem
  size : q.ram.mem.length = p.ram.mem.length

namespace Refills

variable {p q r : Port}

theorem refl (p : Port) : Refills p p := ⟨by cases p <;> rfl, rfl⟩

theorem load_load (p : Port) (bytes bytes' : List Byte) :
    (p.load bytes).load bytes' = p.load bytes' := by cases p <;> rfl

theorem trans (h : Refills p q) (h' : Refills q r) : Refills p r := by
  refine ⟨?_, h'.size.trans h.size⟩
  rw [← load_load p q.ram.mem, ← h.frame]
  exact h'.frame

theorem base (h : Refills p q) : q.ram.base = p.ram.base := by
  rw [h.frame]
  cases p <;> rfl

theorem setRam {m : FlatMem} {b : ByteMap} (h : p.ram.Rewrites m b) : Refills p (p.setRam m) := by
  refine ⟨?_, by rw [Port.setRam_ram]; exact h.size⟩
  rw [Port.setRam_ram, Port.load_eq_setRam]
  exact congrArg p.setRam h.frame

theorem storeByte {a : Word} {b : Byte} (h : IMemory.storeByte p a b = some q) : Refills p q := by
  rw [Port.storeByte_eq] at h
  obtain ⟨m, hm, rfl⟩ := Option.map_eq_some_iff.mp h
  exact setRam (FlatMem.storeByte_eq_some hm).2

end Refills

/-- The memory behind the port ends within the address space. -/
def Port.InSpace (p : Port) : Prop := p.ram.base.toNat + p.ram.mem.length ≤ 2 ^ 32

theorem Refills.inSpace {p q : Port} (h : Refills p q) (hp : p.InSpace) : q.InSpace := by
  unfold Port.InSpace at *
  rw [h.base, h.size]
  exact hp

/-- The bytes of a word, least significant first. -/
def bytesLE (v : Word) : List Byte :=
  (List.range 4).map fun i => BitVec.ofNat 8 (v.toNat / 256 ^ i)

/-- Below the end of the address space a stored word is a window. -/
theorem overwrites_of_storeWord {p q : Port} {addr v : Word} (hp : p.InSpace)
    (h : IMemory.storeWord p addr v = some q) :
    Refills p q ∧ Overwrites p q (window addr (bytesLE v)) := by
  rw [Port.storeWord_eq] at h
  obtain ⟨m, hm, rfl⟩ := Option.map_eq_some_iff.mp h
  obtain ⟨⟨hle, hin⟩, hw⟩ := FlatMem.storeWord_eq_some hm
  have hfill := Refills.setRam hw
  refine ⟨hfill, ?_, ?_⟩
  · simp only [Port.span, Port.setRam_ram, hw.base, hw.size]
  · intro a
    have hbytes : (p.setRam m).bytes a.toNat = m.bytes a.toNat := by
      rw [Port.bytes, Port.setRam_ram]
    have hend : addr.toNat + 4 ≤ 2 ^ 32 := by
      unfold Port.InSpace at hp
      bv_omega
    rw [Port.byteAt, hbytes, hw.bytes, writeLE_apply]
    unfold window bytesLE
    by_cases ha : addr.toNat ≤ a.toNat ∧ a.toNat < addr.toNat + 4
    · have hoff : (a - addr).toNat = a.toNat - addr.toNat := by bv_omega
      rw [if_pos ha, hoff, List.getElem?_map, List.getElem?_range (by omega)]
      rfl
    · have hoff : 4 ≤ (a - addr).toNat := by bv_omega
      rw [if_neg ha, List.getElem?_eq_none (by simpa using hoff)]
      rfl

/-! ## What the loader does to any port -/

section Invariant

variable {M N : Type} [IMemory M] [IMemory N] {P : M → Prop} {Q : N → Prop}

theorem storeData_invariant
    (hP : ∀ m a b m', P m → IMemory.storeByte m a b = some m' → P m')
    (hQ : ∀ n a b n', Q n → IMemory.storeByte n a b = some n' → Q n') {data : List Byte}
    {imem imem' : M} {dmem dmem' : N} {addr : Word}
    (h : storeData imem dmem addr data = some (imem', dmem')) (hi : P imem) (hd : Q dmem) :
    P imem' ∧ Q dmem' := by
  induction data generalizing imem dmem addr with
  | nil =>
    simp only [storeData, Option.some.injEq, Prod.mk.injEq] at h
    obtain ⟨rfl, rfl⟩ := h
    exact ⟨hi, hd⟩
  | cons b data ih =>
    simp only [storeData, Option.bind_eq_bind, Option.bind_eq_some_iff] at h
    obtain ⟨imem₁, h₁, dmem₁, h₂, h⟩ := h
    exact ih h (hP _ _ _ _ hi h₁) (hQ _ _ _ _ hd h₂)

theorem zeroFill_invariant (hQ : ∀ n a b n', Q n → IMemory.storeByte n a b = some n' → Q n')
    {count : Nat} {dmem dmem' : N} {addr : Word} (h : zeroFill dmem addr count = some dmem')
    (hd : Q dmem) : Q dmem' := by
  induction count generalizing dmem addr with
  | zero =>
    simp only [zeroFill, Option.some.injEq] at h
    exact h ▸ hd
  | succ count ih =>
    simp only [zeroFill, Option.bind_eq_bind, Option.bind_eq_some_iff] at h
    obtain ⟨dmem₁, h₁, h⟩ := h
    exact ih h (hQ _ _ _ _ hd h₁)

/-- What every byte store keeps, one program header keeps. -/
theorem loadHeader_invariant
    (hP : ∀ m a b m', P m → IMemory.storeByte m a b = some m' → P m')
    (hQ : ∀ n a b n', Q n → IMemory.storeByte n a b = some n' → Q n') {ehdr : Elf32Ehdr} {i : Nat}
    {s t : LoadState M N} (h : loadHeader ehdr i s = .ok t) (hs : P s.imem ∧ Q s.dmem) :
    P t.imem ∧ Q t.dmem := by
  unfold loadHeader at h
  dsimp only at h
  split at h
  · cases h
    exact hs
  · split at h
    · cases h
    · split at h
      · cases h
      · rename_i imem dmem hstore
        cases h
        simp only [storeSegment, Option.bind_eq_bind, Option.bind_eq_some_iff, Option.some.injEq,
          Prod.mk.injEq] at hstore
        obtain ⟨⟨imem₁, dmem₁⟩, hdata, dmem₂, hzero, rfl, rfl⟩ := hstore
        obtain ⟨hi, hd⟩ := storeData_invariant hP hQ hdata hs.1 hs.2
        exact ⟨hi, zeroFill_invariant hQ hzero hd⟩

theorem loadHeaders_invariant
    (hP : ∀ m a b m', P m → IMemory.storeByte m a b = some m' → P m')
    (hQ : ∀ n a b n', Q n → IMemory.storeByte n a b = some n' → Q n') {ehdr : Elf32Ehdr} {n : Nat}
    {s t : LoadState M N} (h : loadHeaders ehdr s n = .ok t) (hs : P s.imem ∧ Q s.dmem) :
    P t.imem ∧ Q t.dmem := by
  induction n generalizing t with
  | zero =>
    cases h
    exact hs
  | succ n ih =>
    have hbind : (loadHeaders ehdr s n).bind (loadHeader ehdr n) = .ok t := h
    cases hu : loadHeaders ehdr s n with
    | error e =>
      rw [hu] at hbind
      cases hbind
    | ok u =>
      rw [hu] at hbind
      exact loadHeader_invariant hP hQ hbind (ih hu)

end Invariant

/-! ## What the loader leaves of a file -/

section Load

variable {file : List Byte} {imem dmem : Port} {s t : LoadState Port Port} {n : Nat}

instance (file : List Byte) (i : Nat) : Decidable (HeaderIn file i) :=
  inferInstanceAs (Decidable (_ ≤ _))

/-- How many of the first `n` program headers come before the first that the file cuts off. -/
def headersIn (file : List Byte) : Nat → Nat
  | 0 => 0
  | n + 1 => if headersIn file n = n ∧ HeaderIn file n then n + 1 else headersIn file n

/-- A header that is cut off leaves the memories alone. -/
theorem loadHeader_cut {ehdr : Elf32Ehdr} {i : Nat}
    (hf : ((s.f.seekg (ehdr.ePhoff.toNat + i * ehdr.ePhentsize.toNat)).read
      sizeofPhdr).2.fail = true) (h : loadHeader ehdr i s = .ok t) :
    t.imem = s.imem ∧ t.dmem = s.dmem := by
  unfold loadHeader at h
  simp only [hf, Bool.true_or, if_true] at h
  cases h
  exact ⟨rfl, rfl⟩

/-- A loop that ends normally has stored the segments before the first header that is cut off. -/
theorem Filled.ends (h : Filled file imem dmem 0 s)
    (hok : loadHeaders (fileEhdr file) s n = .ok t) :
    (t.f.fail = false ∧ headersIn file n = n ∧ Filled file imem dmem n t) ∨
      (t.f.fail = true ∧ headersIn file n < n ∧
        Overwrites imem t.imem (lastByte (codeByte file) (segments file (headersIn file n))) ∧
        Overwrites dmem t.dmem (lastByte (dataByte file) (segments file (headersIn file n)))) := by
  induction n generalizing t with
  | zero =>
    cases hok
    exact .inl ⟨h.good, rfl, h⟩
  | succ n ih =>
    rw [loadHeaders_succ] at hok
    cases hu : loadHeaders (fileEhdr file) s n with
    | error e =>
      rw [hu] at hok
      cases hok
    | ok u =>
      rw [hu] at hok
      change loadHeader (fileEhdr file) n u = .ok t at hok
      obtain ⟨-, hall, hfilled⟩ | ⟨hfail, hlt, hi, hd⟩ := ih hu
      · cases ht : t.f.fail with
        | false =>
          obtain ⟨⟨hin, -⟩, hnext⟩ := hfilled.of_load hok ht
          refine .inl ⟨rfl, ?_, hnext⟩
          unfold headersIn
          rw [if_pos ⟨hall, hin⟩]
        | true =>
          have hout : ¬ HeaderIn file n := by
            intro hin
            obtain ⟨-, v, hv, hvf⟩ | ⟨hnot, -⟩ | ⟨-, hthrow⟩ | habort := hfilled.step
            · rw [hv] at hok
              cases hok
              rw [hvf.good] at ht
              cases ht
            · exact hnot hin
            · rw [hthrow] at hok
              cases hok
            · rw [habort] at hok
              cases hok
          have hcut := IFStream.read_seekg_short (phdrOffset file n) sizeofPhdr hfilled.good
            (by decide) (by unfold HeaderIn at hout; rw [hfilled.bytes]; omega)
          obtain ⟨hti, htd⟩ := loadHeader_cut hcut hok
          have hsame : headersIn file (n + 1) = n := by
            rw [headersIn, if_neg fun hboth => hout hboth.2, hall]
          rw [hsame, hti, htd]
          exact .inr ⟨rfl, Nat.lt_succ_self n, hfilled.imem, hfilled.dmem⟩
      · rw [loadHeader_failed _ _ hfail] at hok
        cases hok
        have hsame : headersIn file (n + 1) = headersIn file n := by
          rw [headersIn, if_neg fun hboth => by omega]
        rw [hsame]
        exact .inr ⟨hfail, by omega, hi, hd⟩

/-- The segments that loading a file stores. -/
def loadedSegments (file : List Byte) : List Elf32Phdr :=
  segments file (headersIn file (fileEhdr file).ePhnum.toNat)

/-- Whatever file the loader accepts, it stores the segments before the first program header that
    is cut off, and returns the entry point. -/
theorem loadElf_eq_ok {path : String} {file : Option (List Byte)} {e : Word} {imem' dmem' : Port}
    (h : loadElf path file imem dmem = .ok (e, imem', dmem')) :
    ∃ bytes, file = some bytes ∧ e = (fileEhdr bytes).eEntry ∧ Refills imem imem' ∧
      Refills dmem dmem' ∧
      Overwrites imem imem' (lastByte (codeByte bytes) (loadedSegments bytes)) ∧
      Overwrites dmem dmem' (lastByte (dataByte bytes) (loadedSegments bytes)) := by
  cases file with
  | none => cases h
  | some bytes =>
    refine ⟨bytes, rfl, ?_⟩
    have hcomplete : sizeofEhdr ≤ bytes.length := by
      by_contra hshort
      have hfail := IFStream.read_seekg_short (f := ⟨bytes, 0, false⟩) 0 sizeofEhdr rfl
        (by decide) (by dsimp only; omega)
      change ((IFStream.mk bytes 0 false).read sizeofEhdr).2.fail = true at hfail
      unfold loadElf at h
      simp only [hfail, if_true] at h
      cases h
    obtain ⟨hdata, hfail, hbytes⟩ := IFStream.read_seekg (f := ⟨bytes, 0, false⟩) 0 sizeofEhdr
      rfl (.inr (by rw [Nat.zero_add]; exact hcomplete))
    change ((IFStream.mk bytes 0 false).read sizeofEhdr).1 = _ at hdata
    change ((IFStream.mk bytes 0 false).read sizeofEhdr).2.fail = false at hfail
    change ((IFStream.mk bytes 0 false).read sizeofEhdr).2.bytes = bytes at hbytes
    rw [List.drop_zero] at hdata
    have hehdr : Elf32Ehdr.ofBytes ((IFStream.mk bytes 0 false).read sizeofEhdr).1 =
        fileEhdr bytes := congrArg Elf32Ehdr.ofBytes hdata
    unfold loadElf at h
    simp only [hfail, Bool.false_eq_true, if_false, hehdr] at h
    cases hc : (fileEhdr bytes).check with
    | error err =>
      rw [hc] at h
      cases h
    | ok _ =>
      rw [hc] at h
      change (loadHeaders (fileEhdr bytes)
        ⟨((IFStream.mk bytes 0 false).read sizeofEhdr).2, imem, dmem⟩
        (fileEhdr bytes).ePhnum.toNat).bind
          (fun s => .ok ((fileEhdr bytes).eEntry, s.imem, s.dmem)) = _ at h
      cases ht : loadHeaders (fileEhdr bytes)
          ⟨((IFStream.mk bytes 0 false).read sizeofEhdr).2, imem, dmem⟩
          (fileEhdr bytes).ePhnum.toNat with
      | error err =>
        rw [ht] at h
        cases h
      | ok t =>
        rw [ht] at h
        cases h
        have hfilled : Filled bytes imem dmem 0
            ⟨((IFStream.mk bytes 0 false).read sizeofEhdr).2, imem, dmem⟩ :=
          ⟨hfail, hbytes, .refl _, .refl _⟩
        obtain ⟨hi, hd⟩ := loadHeaders_invariant
          (fun m _ _ m' hm hs => Refills.trans (p := imem) hm (.storeByte hs))
          (fun m _ _ m' hm hs => Refills.trans (p := dmem) hm (.storeByte hs)) ht
          ⟨.refl _, .refl _⟩
        obtain ⟨-, hall, hend⟩ | ⟨-, -, hwi, hwd⟩ := hfilled.ends ht
        · refine ⟨rfl, hi, hd, ?_, ?_⟩
          · unfold loadedSegments
            rw [hall]
            exact hend.imem
          · unfold loadedSegments
            rw [hall]
            exact hend.dmem
        · exact ⟨rfl, hi, hd, hwi, hwd⟩

end Load

/-! ## What a list of calls prepares -/

/-- The bytes of a memory with a window over them. -/
def patched (m : Word → Byte) (w : Word → Option Byte) : Word → Byte := fun a => (w a).getD (m a)

/-- The bytes of a memory with words over them, one behind the other. -/
def overWords (m : Word → Byte) (addr : Word) : List Word → Word → Byte
  | [] => m
  | v :: words => overWords (patched m (window addr (bytesLE v))) (addr + 4) words

/-- The contents of both memories and of the registers before the first tick. -/
structure Prepared where
  code : Word → Byte := fun _ => 0
  data : Word → Byte := fun _ => 0
  regs : RegFile := RegFile.zero

namespace Prepared

/-- The effect of one call. A program goes to instruction memory alone, a stored word to data
    memory alone, the segments of a file to both. -/
def after (base : Word) (p : Prepared) : Core.SetupCall → Prepared
  | .loadProgram words => { p with code := overWords p.code base words }
  | .loadElf _ none => p
  | .loadElf _ (some file) =>
    { p with
      code := patched p.code (lastByte (codeByte file) (loadedSegments file))
      data := patched p.data (lastByte (dataByte file) (loadedSegments file)) }
  | .writeReg reg val => { p with regs := p.regs.write reg val }
  | .storeWord addr val => { p with data := patched p.data (window addr (bytesLE val)) }

end Prepared

/-- What the calls prepare, in order, for a RAM at `base`. -/
def prepared (base : Word) (calls : List Core.SetupCall) : Prepared :=
  calls.foldl (Prepared.after base) {}

namespace Core

/-- The image that memory contents give a RAM. -/
def imageFrom (cfg : SimConfig) (m : Word → Byte) : Nat → Byte :=
  fun o => m (cfg.ramBaseAddr + BitVec.ofNat 32 o)

/-- A core that has been prepared and not ticked. -/
structure Holds (cfg : SimConfig) (p : Prepared) (c : Core) : Prop where
  rest : c = { new cfg with iport := c.iport, dport := c.dport, rf := p.regs }
  iport : Refills (newIport cfg) c.iport
  dport : Refills (newDport cfg) c.dport
  code : ∀ a, c.iport.byteAt a = p.code a
  data : ∀ a, c.dport.byteAt a = p.data a

variable {cfg : SimConfig} {p : Prepared} {c d : Core}

theorem newIport_ram (cfg : SimConfig) : (newIport cfg).ram.base = cfg.ramBaseAddr ∧
    (newIport cfg).ram.mem = List.replicate cfg.ramSizeBytes 0 := by
  unfold newIport
  dsimp only
  split <;> exact ⟨rfl, rfl⟩

theorem newDport_ram (cfg : SimConfig) : (newDport cfg).ram.base = cfg.ramBaseAddr ∧
    (newDport cfg).ram.mem = List.replicate cfg.ramSizeBytes 0 := by
  unfold newDport
  dsimp only
  split <;> exact ⟨rfl, rfl⟩

/-- A memory of zeros reads as zero everywhere. -/
theorem byteAt_zeros {q : Port} {n : Nat} (h : q.ram.mem = List.replicate n 0) (a : Word) :
    q.byteAt a = 0 := by
  change ofList q.ram.base.toNat q.ram.mem a.toNat = 0
  rw [h]
  unfold ofList
  split
  · rw [List.getD_eq_getElem?_getD, List.getElem?_replicate]
    split <;> rfl
  · rfl

theorem holds_new (cfg : SimConfig) : Holds cfg {} (new cfg) :=
  ⟨rfl, .refl _, .refl _, byteAt_zeros (newIport_ram cfg).2, byteAt_zeros (newDport_ram cfg).2⟩

/-- A port with the bytes of `m` behind it is loaded with the image of `m`. -/
theorem load_imageFrom {p q : Port} {m : Word → Byte} (h : Refills p q)
    (hbase : p.ram.base = cfg.ramBaseAddr) (hsize : p.ram.mem.length = cfg.ramSizeBytes)
    (hspace : cfg.ramBaseAddr.toNat + cfg.ramSizeBytes ≤ 2 ^ 32) (hm : ∀ a, q.byteAt a = m a) :
    q = p.load (bytesOf cfg.ramSizeBytes (imageFrom cfg m)) := by
  have hbytes : q.ram.mem = bytesOf cfg.ramSizeBytes (imageFrom cfg m) := by
    apply List.ext_getElem
    · unfold bytesOf
      rw [h.size, hsize, List.length_map, List.length_range]
    · intro i hi hi'
      have hlt : i < cfg.ramSizeBytes := by rw [h.size, hsize] at hi; exact hi
      have haddr : (cfg.ramBaseAddr + BitVec.ofNat 32 i).toNat = cfg.ramBaseAddr.toNat + i := by
        bv_omega
      have hat : (bytesOf cfg.ramSizeBytes (imageFrom cfg m))[i] =
          m (cfg.ramBaseAddr + BitVec.ofNat 32 i) := by
        simp only [bytesOf, List.getElem_map, List.getElem_range, imageFrom]
      rw [hat, ← hm, Port.byteAt, haddr, ← hbase, ← h.base, Port.bytes, FlatMem.bytes_at,
        List.getD_eq_getElem?_getD, List.getElem?_eq_getElem hi]
      rfl
  rw [← hbytes]
  exact h.frame

theorem Holds.eq_boot (h : Holds cfg p c)
    (hspace : cfg.ramBaseAddr.toNat + cfg.ramSizeBytes ≤ 2 ^ 32) :
    c = boot cfg (imageFrom cfg p.code) (imageFrom cfg p.data) p.regs := by
  obtain ⟨hib, him⟩ := newIport_ram cfg
  obtain ⟨hdb, hdm⟩ := newDport_ram cfg
  have hi := load_imageFrom h.iport hib (by rw [him, List.length_replicate]) hspace h.code
  have hd := load_imageFrom h.dport hdb (by rw [hdm, List.length_replicate]) hspace h.data
  rw [h.rest, hi, hd]
  rfl

theorem inSpace_iport (h : Holds cfg p c)
    (hspace : cfg.ramBaseAddr.toNat + cfg.ramSizeBytes ≤ 2 ^ 32) : c.iport.InSpace := by
  refine h.iport.inSpace ?_
  unfold Port.InSpace
  rw [(newIport_ram cfg).1, (newIport_ram cfg).2, List.length_replicate]
  exact hspace

theorem inSpace_dport (h : Holds cfg p c)
    (hspace : cfg.ramBaseAddr.toNat + cfg.ramSizeBytes ≤ 2 ^ 32) : c.dport.InSpace := by
  refine h.dport.inSpace ?_
  unfold Port.InSpace
  rw [(newDport_ram cfg).1, (newDport_ram cfg).2, List.length_replicate]
  exact hspace

theorem storeWords_eq_some {words : List Word} {p q : Port} {addr : Word} {m : Word → Byte}
    (hp : p.InSpace) (hm : ∀ a, p.byteAt a = m a) (h : storeWords p addr words = some q) :
    Refills p q ∧ ∀ a, q.byteAt a = overWords m addr words a := by
  induction words generalizing p addr m with
  | nil =>
    simp only [storeWords, Option.some.injEq] at h
    subst h
    exact ⟨.refl _, hm⟩
  | cons v words ih =>
    simp only [storeWords, Option.bind_eq_bind, Option.bind_eq_some_iff] at h
    obtain ⟨r, hr, h⟩ := h
    obtain ⟨hfill, hover⟩ := overwrites_of_storeWord hp hr
    obtain ⟨hrest, hbytes⟩ := ih (m := patched m (window addr (bytesLE v))) (hfill.inSpace hp)
      (fun a => by rw [hover.byteAt, hm]; rfl) h
    exact ⟨hfill.trans hrest, hbytes⟩

/-- One call that goes through. -/
theorem Holds.setup (h : Holds cfg p c)
    (hspace : cfg.ramBaseAddr.toNat + cfg.ramSizeBytes ≤ 2 ^ 32) {call : SetupCall}
    (hd : setup c call = .ok d) : Holds cfg (p.after cfg.ramBaseAddr call) d := by
  have hbase : c.baseAddr = cfg.ramBaseAddr := h.iport.base.trans (newIport_ram cfg).1
  cases call with
  | loadProgram words =>
    have hstore : (c.loadProgram words) = some d := by
      change orAbort (c.loadProgram words) = .ok d at hd
      cases hp : c.loadProgram words with
      | none => rw [hp] at hd; cases hd
      | some e => rw [hp] at hd; cases hd; rfl
    obtain ⟨q, hq, rfl⟩ := Option.map_eq_some_iff.mp hstore
    rw [hbase] at hq
    obtain ⟨hfill, hbytes⟩ := storeWords_eq_some (inSpace_iport h hspace) h.code hq
    exact ⟨by rw [h.rest]; rfl, h.iport.trans hfill, h.dport, hbytes, h.data⟩
  | loadElf path file =>
    change (CpuSim.loadElf path file c.iport c.dport).bind (fun r =>
      if r.1 ≠ c.baseAddr then .error (LoadError.thrown (entryMismatch r.1 c.baseAddr))
      else .ok { c with iport := r.2.1, dport := r.2.2 }) = Except.ok d at hd
    cases hl : CpuSim.loadElf path file c.iport c.dport with
    | error e => rw [hl] at hd; cases hd
    | ok r =>
      obtain ⟨e, imem, dmem⟩ := r
      rw [hl] at hd
      change (if e ≠ c.baseAddr then Except.error (LoadError.thrown (entryMismatch e c.baseAddr))
        else Except.ok { c with iport := imem, dport := dmem }) = .ok d at hd
      split at hd
      · cases hd
      · cases hd
        obtain ⟨bytes, rfl, -, hi, hdm, hoi, hod⟩ := loadElf_eq_ok hl
        refine ⟨by rw [h.rest]; rfl, h.iport.trans hi, h.dport.trans hdm, fun a => ?_, fun a => ?_⟩
        · exact (hoi.byteAt a).trans (by rw [h.code]; rfl)
        · exact (hod.byteAt a).trans (by rw [h.data]; rfl)
  | writeReg reg val =>
    change Except.ok (c.writeReg reg val) = .ok d at hd
    cases hd
    have hrf : c.rf = p.regs := by rw [h.rest]
    refine ⟨?_, h.iport, h.dport, h.code, h.data⟩
    change { c with rf := c.rf.write reg val } = _
    rw [hrf, h.rest]
    rfl
  | storeWord addr val =>
    have hstore : c.storeWord addr val = some d := by
      change orAbort (c.storeWord addr val) = .ok d at hd
      cases hp : c.storeWord addr val with
      | none => rw [hp] at hd; cases hd
      | some e => rw [hp] at hd; cases hd; rfl
    obtain ⟨q, hq, rfl⟩ := Option.map_eq_some_iff.mp hstore
    obtain ⟨hfill, hover⟩ := overwrites_of_storeWord (inSpace_dport h hspace) hq
    refine ⟨by rw [h.rest]; rfl, h.iport, h.dport.trans hfill, h.code, fun a => ?_⟩
    exact (hover.byteAt a).trans (by rw [h.data]; rfl)

/-- All calls, from a new core on. -/
theorem holds_setupAll {calls : List SetupCall}
    (hspace : cfg.ramBaseAddr.toNat + cfg.ramSizeBytes ≤ 2 ^ 32)
    (hc : setupAll (new cfg) calls = .ok c) : Holds cfg (prepared cfg.ramBaseAddr calls) c := by
  have hall : ∀ (calls : List SetupCall) (p : Prepared) (c d : Core), Holds cfg p c →
      setupAll c calls = .ok d → Holds cfg (calls.foldl (Prepared.after cfg.ramBaseAddr) p) d := by
    intro calls
    induction calls with
    | nil =>
      intro p c d h hd
      cases hd
      exact h
    | cons call calls ih =>
      intro p c d h hd
      change (setup c call).bind (fun c => setupAll c calls) = .ok d at hd
      cases hu : setup c call with
      | error e => rw [hu] at hd; cases hd
      | ok u =>
        rw [hu] at hd
        exact ih _ u d (h.setup hspace hu) hd
  exact hall calls {} _ c (holds_new cfg) hc

/-- Whatever calls prepare a new core, if none of them throws or aborts it is a booted core: both
    memories hold, at every address, what the last call that wrote there has left, and the
    registers what `write_reg` has. So that is what the sequential machine starts from. -/
theorem setup_eq_boot (cfg : SimConfig)
    (hspace : cfg.ramBaseAddr.toNat + cfg.ramSizeBytes ≤ 2 ^ 32) (calls : List SetupCall)
    (c : Core) (hc : setupAll (new cfg) calls = .ok c) :
    let p := prepared cfg.ramBaseAddr calls
    c = boot cfg (imageFrom cfg p.code) (imageFrom cfg p.data) p.regs ∧
      ∀ a : Word, imageOf cfg (imageFrom cfg p.code) a.toNat = p.code a ∧
        (reference cfg (imageFrom cfg p.data) p.regs).mem a.toNat = p.data a := by
  intro p
  have hholds : Holds cfg p c := holds_setupAll hspace hc
  have hboot := hholds.eq_boot hspace
  refine ⟨hboot, fun a => ⟨?_, ?_⟩⟩
  · rw [← hholds.code a, hboot]
    exact (congrFun (newIport_load_bytes cfg _) a.toNat).symm
  · rw [← hholds.data a, hboot]
    exact (congrFun (newDport_load_bytes cfg _) a.toNat).symm

/-- A program of two words, a register and a word of data. -/
theorem setup_eq_boot_addiEbreak :
    ∃ c, setupAll (new predicting) [.loadProgram [0x00500093, 0x00100073], .writeReg 2 7,
        .storeWord 8 9] = .ok c ∧ c.rf.read 2 = 7 ∧
      imageOf predicting (imageFrom predicting (prepared 0 [.loadProgram [0x00500093, 0x00100073],
        .writeReg 2 7, .storeWord 8 9]).code) 4 = 0x73 := by
  obtain ⟨c, hc⟩ : ∃ c, setupAll (new predicting) [.loadProgram [0x00500093, 0x00100073],
      .writeReg 2 7, .storeWord 8 9] = .ok c := by
    have hok : (setupAll (new predicting) [.loadProgram [0x00500093, 0x00100073],
      .writeReg 2 7, .storeWord 8 9]).toOption.isSome = true := by decide +kernel
    obtain ⟨c, hc⟩ := Option.isSome_iff_exists.mp hok
    refine ⟨c, ?_⟩
    cases h : setupAll (new predicting) [.loadProgram [0x00500093, 0x00100073], .writeReg 2 7,
      .storeWord 8 9] with
    | error e =>
      rw [h] at hc
      cases hc
    | ok d =>
      rw [h] at hc
      cases hc
      rfl
  obtain ⟨hboot, hmem⟩ := setup_eq_boot predicting (by decide) _ c hc
  refine ⟨c, hc, ?_, ?_⟩
  · rw [hboot]
    decide +kernel
  · exact (hmem 4).1.trans (by decide +kernel)

end Core

end CpuSim
