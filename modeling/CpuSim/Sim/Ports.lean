import CpuSim.Isa.Reference
import CpuSim.Memory.Data
import CpuSim.Memory.Operations
import CpuSim.Sim.Core

/-!
# The data behind a port

A cache is a timing overlay: whatever a port is bound to, loads and stores go to its `FlatMem`,
and neither `ready` nor `tick` changes a byte. So MEM computes its MEM/WB entry and its store
from the contents of that memory alone (`accessData_eq_some`).
-/

namespace CpuSim

open Rv32i ByteMap

namespace Port

/-- The port over another memory. -/
def setRam : Port → FlatMem → Port
  | flat _, m => flat m
  | cached c, m => cached { c with backing := m }

@[simp] theorem setRam_ram (p : Port) (m : FlatMem) : (p.setRam m).ram = m := by cases p <;> rfl

theorem load_eq_setRam (p : Port) (bytes : List Byte) :
    p.load bytes = p.setRam { p.ram with mem := bytes } := by cases p <;> rfl

/-- The contents of the memory behind the port. -/
def contents (p : Port) : Word × List Byte := p.ram.contents

/-- The bytes behind the port, by address. -/
def bytes (p : Port) : ByteMap := p.ram.bytes

@[simp] theorem contents_ready (p : Port) (addr : Word) (w : Bool) :
    (IMemory.ready p addr w).2.contents = p.contents := by
  cases p with
  | flat m => exact m.contents_ready addr w
  | cached c => exact congrArg FlatMem.contents (c.ready_backing addr w)

@[simp] theorem contents_tick (p : Port) : (IMemory.tick p).contents = p.contents := by
  cases p with
  | flat m => exact m.contents_tick
  | cached c => exact c.tick_backing_invariant FlatMem.contents_ready FlatMem.contents_tick

theorem bytes_congr {p q : Port} (h : p.contents = q.contents) : p.bytes = q.bytes :=
  FlatMem.bytes_congr h

@[simp] theorem bytes_ready (p : Port) (addr : Word) (w : Bool) :
    (IMemory.ready p addr w).2.bytes = p.bytes := bytes_congr (p.contents_ready addr w)

@[simp] theorem bytes_tick (p : Port) : (IMemory.tick p).bytes = p.bytes :=
  bytes_congr p.contents_tick

/-- Where the memory behind the port lies. -/
def span (p : Port) : Word × Nat := (p.ram.base, p.ram.mem.length)

theorem span_congr {p q : Port} (h : p.contents = q.contents) : p.span = q.span := by
  simp only [contents, FlatMem.contents, Prod.mk.injEq] at h
  simp only [span, h]

theorem inRange_span {p q : Port} (h : q.span = p.span) (a : Word) (n : Nat) :
    q.ram.InRange a n ↔ p.ram.InRange a n := by
  simp only [span, Prod.mk.injEq] at h
  simp only [FlatMem.InRange, h]

theorem loadWord_eq (p : Port) (addr : Word) : IMemory.loadWord p addr = p.ram.loadWord addr := by
  cases p <;> rfl

theorem loadHalf_eq (p : Port) (addr : Word) : IMemory.loadHalf p addr = p.ram.loadHalf addr := by
  cases p <;> rfl

theorem loadByte_eq (p : Port) (addr : Word) : IMemory.loadByte p addr = p.ram.loadByte addr := by
  cases p <;> rfl

theorem storeWord_eq (p : Port) (addr : Word) (v : Word) :
    IMemory.storeWord p addr v = (p.ram.storeWord addr v).map p.setRam := by
  cases p with
  | flat m => rfl
  | cached c => exact Option.map_map _ _ _

theorem storeHalf_eq (p : Port) (addr : Word) (v : Half) :
    IMemory.storeHalf p addr v = (p.ram.storeHalf addr v).map p.setRam := by
  cases p with
  | flat m => rfl
  | cached c => exact Option.map_map _ _ _

theorem storeByte_eq (p : Port) (addr : Word) (v : Byte) :
    IMemory.storeByte p addr v = (p.ram.storeByte addr v).map p.setRam := by
  cases p with
  | flat m => rfl
  | cached c => exact Option.map_map _ _ _

end Port

/-! ## The switch of MEM -/

/-- The store MEM makes for an EX/MEM entry. -/
def ExMem.store (ex : ExMem) : Option StoreEffect :=
  match ex.op with
  | .sb => some ⟨ex.aluOut, 1, ex.rs2Val &&& 0xFF⟩
  | .sh => some ⟨ex.aluOut, 2, ex.rs2Val &&& 0xFFFF⟩
  | .sw => some ⟨ex.aluOut, 4, ex.rs2Val⟩
  | _ => none

/-- The value MEM hands to WB. -/
def ExMem.wbVal (ex : ExMem) (mem : ByteMap) : Word :=
  let bytesAt := readLE mem ex.aluOut.toNat
  match ex.op with
  | .lw => BitVec.ofNat 32 (bytesAt 4)
  | .lh => (BitVec.ofNat 16 (bytesAt 2)).signExtend 32
  | .lhu => (BitVec.ofNat 16 (bytesAt 2)).setWidth 32
  | .lb => (BitVec.ofNat 8 (bytesAt 1)).signExtend 32
  | .lbu => (BitVec.ofNat 8 (bytesAt 1)).setWidth 32
  | .sb | .sh | .sw => 0
  | _ => ex.aluOut

/-- The MEM/WB entry MEM makes from an EX/MEM entry. -/
def ExMem.memWb (ex : ExMem) (mem : ByteMap) : MemWb :=
  { pc := ex.pc, raw := ex.raw, op := ex.op, rd := ex.rd, valid := true
    wbVal := ex.wbVal mem
    memAddr := if isMemOp ex.op then ex.aluOut else 0
    isStore := isStore ex.op
    memVal := match ex.store with
      | some st => st.val
      | none => 0 }

/-- The access of an EX/MEM entry lies in the memory behind the port. -/
def Port.Serves (p : Port) (ex : ExMem) : Prop :=
  isMemOp ex.op = true → p.ram.InRange ex.aluOut (accessWidth ex.op)

theorem setWidth_and_ff (v : Word) : ((v &&& 0xFF).setWidth 8).toNat = (v &&& 0xFF).toNat := by
  rw [BitVec.toNat_setWidth, BitVec.toNat_and]
  exact Nat.mod_eq_of_lt (lt_of_le_of_lt Nat.and_le_right (by decide))

theorem setWidth_and_ffff (v : Word) :
    ((v &&& 0xFFFF).setWidth 16).toNat = (v &&& 0xFFFF).toNat := by
  rw [BitVec.toNat_setWidth, BitVec.toNat_and]
  exact Nat.mod_eq_of_lt (lt_of_le_of_lt Nat.and_le_right (by decide))

/-- MEM's switch only goes through in range, and then its entry and its store are functions
    of the bytes behind the port. -/
theorem accessData_eq_some {p p' : Port} {ex : ExMem} {wb : MemWb}
    (h : accessData p ex = some (p', wb)) :
    p.Serves ex ∧ wb = ex.memWb p.bytes ∧
      ∃ m, p' = p.setRam m ∧ p.ram.Rewrites m (applyStore p.bytes ex.store) := by
  have hload : ∀ {v : MemWb}, some (p, v) = some (p', wb) →
      p' = p.setRam p.ram ∧ wb = v := by
    intro v hv
    simp only [Option.some.injEq, Prod.mk.injEq] at hv
    refine ⟨?_, hv.2.symm⟩
    rw [← hv.1]
    cases p <;> rfl
  have hsame : p.ram.Rewrites p.ram p.bytes := ⟨rfl, rfl, rfl⟩
  cases hop : ex.op
  case lw =>
    simp only [accessData, hop, Port.loadWord_eq, Option.bind_eq_bind,
      Option.bind_eq_some_iff] at h
    obtain ⟨v, hv, h⟩ := h
    obtain ⟨hr, rfl⟩ := FlatMem.loadWord_eq_some hv
    obtain ⟨hp, hwb⟩ := hload h
    refine ⟨fun _ => by simpa [hop, accessWidth] using hr, ?_, _, hp, ?_⟩
    · simp [hwb, ExMem.memWb, ExMem.wbVal, ExMem.store, hop, isMemOp, isStore, Port.bytes]
    · simpa [ExMem.store, hop, applyStore] using hsame
  case lh | lhu =>
    simp only [accessData, hop, Port.loadHalf_eq, Option.bind_eq_bind,
      Option.bind_eq_some_iff] at h
    obtain ⟨v, hv, h⟩ := h
    obtain ⟨hr, rfl⟩ := FlatMem.loadHalf_eq_some hv
    obtain ⟨hp, hwb⟩ := hload h
    refine ⟨fun _ => by simpa [hop, accessWidth] using hr, ?_, _, hp, ?_⟩
    · simp [hwb, ExMem.memWb, ExMem.wbVal, ExMem.store, hop, isMemOp, isStore, Port.bytes]
    · simpa [ExMem.store, hop, applyStore] using hsame
  case lb | lbu =>
    simp only [accessData, hop, Port.loadByte_eq, Option.bind_eq_bind,
      Option.bind_eq_some_iff] at h
    obtain ⟨v, hv, h⟩ := h
    obtain ⟨hr, rfl⟩ := FlatMem.loadByte_eq_some hv
    obtain ⟨hp, hwb⟩ := hload h
    refine ⟨fun _ => by simpa [hop, accessWidth] using hr, ?_, _, hp, ?_⟩
    · simp [hwb, ExMem.memWb, ExMem.wbVal, ExMem.store, hop, isMemOp, isStore, Port.bytes]
    · simpa [ExMem.store, hop, applyStore] using hsame
  case sw =>
    simp only [accessData, hop, Port.storeWord_eq, Option.bind_eq_bind,
      Option.bind_eq_some_iff, Option.map_eq_some_iff] at h
    obtain ⟨_, ⟨m, hm, rfl⟩, h⟩ := h
    simp only [Option.some.injEq, Prod.mk.injEq] at h
    obtain ⟨hr, hw⟩ := FlatMem.storeWord_eq_some hm
    refine ⟨fun _ => by simpa [hop, accessWidth] using hr, ?_, _, h.1.symm, ?_⟩
    · simp [← h.2, ExMem.memWb, ExMem.wbVal, ExMem.store, hop, isMemOp, isStore]
    · simpa only [ExMem.store, hop, applyStore, Port.bytes] using hw
  case sh =>
    simp only [accessData, hop, Port.storeHalf_eq, Option.bind_eq_bind,
      Option.bind_eq_some_iff, Option.map_eq_some_iff] at h
    obtain ⟨_, ⟨m, hm, rfl⟩, h⟩ := h
    simp only [Option.some.injEq, Prod.mk.injEq] at h
    obtain ⟨hr, hw⟩ := FlatMem.storeHalf_eq_some hm
    rw [setWidth_and_ffff] at hw
    refine ⟨fun _ => by simpa [hop, accessWidth] using hr, ?_, _, h.1.symm, ?_⟩
    · simp [← h.2, ExMem.memWb, ExMem.wbVal, ExMem.store, hop, isMemOp, isStore]
    · simpa only [ExMem.store, hop, applyStore, Port.bytes] using hw
  case sb =>
    simp only [accessData, hop, Port.storeByte_eq, Option.bind_eq_bind,
      Option.bind_eq_some_iff, Option.map_eq_some_iff] at h
    obtain ⟨_, ⟨m, hm, rfl⟩, h⟩ := h
    simp only [Option.some.injEq, Prod.mk.injEq] at h
    obtain ⟨hr, hw⟩ := FlatMem.storeByte_eq_some hm
    rw [setWidth_and_ff] at hw
    refine ⟨fun _ => by simpa [hop, accessWidth] using hr, ?_, _, h.1.symm, ?_⟩
    · simp [← h.2, ExMem.memWb, ExMem.wbVal, ExMem.store, hop, isMemOp, isStore]
    · simpa only [ExMem.store, hop, applyStore, Port.bytes] using hw
  all_goals
    simp only [accessData, hop] at h
    obtain ⟨hp, hwb⟩ := hload h
    refine ⟨fun hm => by simp [hop, isMemOp, isStore] at hm, ?_, _, hp, ?_⟩
    · simp [hwb, ExMem.memWb, ExMem.wbVal, ExMem.store, hop, isMemOp, isStore]
    · simpa [ExMem.store, hop, applyStore] using hsame

/-- In range, MEM's switch goes through. -/
theorem exists_accessData {p : Port} {ex : ExMem} (h : p.Serves ex) :
    ∃ o, accessData p ex = some o := by
  unfold Port.Serves at h
  cases hop : ex.op <;> simp only [hop, isMemOp, isStore, accessWidth, true_implies] at h
  case lw =>
    obtain ⟨v, hv⟩ := FlatMem.exists_loadWord h
    exact ⟨_, by simp only [accessData, hop, Port.loadWord_eq, hv]; rfl⟩
  case lh | lhu =>
    obtain ⟨v, hv⟩ := FlatMem.exists_loadHalf h
    exact ⟨_, by simp only [accessData, hop, Port.loadHalf_eq, hv]; rfl⟩
  case lb | lbu =>
    obtain ⟨v, hv⟩ := FlatMem.exists_loadByte h
    exact ⟨_, by simp only [accessData, hop, Port.loadByte_eq, hv]; rfl⟩
  case sw =>
    obtain ⟨m, hm⟩ := FlatMem.exists_storeWord h ex.rs2Val
    exact ⟨_, by simp only [accessData, hop, Port.storeWord_eq, hm]; rfl⟩
  case sh =>
    obtain ⟨m, hm⟩ := FlatMem.exists_storeHalf h ((ex.rs2Val &&& 0xFFFF).setWidth 16)
    exact ⟨_, by simp only [accessData, hop, Port.storeHalf_eq, hm]; rfl⟩
  case sb =>
    obtain ⟨m, hm⟩ := FlatMem.exists_storeByte h ((ex.rs2Val &&& 0xFF).setWidth 8)
    exact ⟨_, by simp only [accessData, hop, Port.storeByte_eq, hm]; rfl⟩
  all_goals exact ⟨_, by simp only [accessData, hop]; rfl⟩

/-! ## IF and MEM on a port -/

/-- The timing half of a demand access: the port after MEM asked it about an EX/MEM entry. -/
def Port.asked (p : Port) (ex : ExMem) : Port :=
  if isMemOp ex.op then (IMemory.ready p ex.aluOut (isStore ex.op)).2 else p

@[simp] theorem Port.contents_asked (p : Port) (ex : ExMem) :
    (p.asked ex).contents = p.contents := by
  unfold asked; split <;> simp

/-- A fetch that is served loads the word at the pc and predicts behind it. -/
theorem fetchWord_eq_some {p : Port} {bp : Option BranchPredictor} {pc : Word}
    {f : FetchOut Port} (h : fetchWord p bp pc = some f) :
    f.imem = (IMemory.ready p pc false).2 ∧
      (((IMemory.ready p pc false).1 = false ∧ f.out = {} ∧ f.fetchStall = true ∧
          f.predictedPc = pc) ∨
        ((IMemory.ready p pc false).1 = true ∧ p.ram.InRange pc 4 ∧ f.fetchStall = false ∧
          f.out = { pc := pc, raw := Machine.wordAt p.bytes pc, valid := true,
                    predictedTaken := (predictAt bp pc).taken } ∧
          f.predictedPc =
            if (predictAt bp pc).taken then (predictAt bp pc).target else pc + 4)) := by
  unfold fetchWord at h
  cases hr : (IMemory.ready p pc false).1 with
  | false =>
    simp only [hr, Bool.not_false, if_true, Option.some.injEq] at h
    subst h
    exact ⟨rfl, .inl ⟨rfl, rfl, rfl, rfl⟩⟩
  | true =>
    simp only [hr, Bool.not_true, Bool.false_eq_true, if_false, Port.loadWord_eq,
      Option.bind_eq_bind, Option.bind_eq_some_iff, Option.some.injEq] at h
    obtain ⟨raw, hraw, rfl⟩ := h
    obtain ⟨hin, rfl⟩ := FlatMem.loadWord_eq_some hraw
    have hc : (IMemory.ready p pc false).2.contents = p.contents := p.contents_ready pc false
    refine ⟨rfl, .inr ⟨rfl, (FlatMem.inRange_congr hc pc 4).mp hin, rfl, ?_, rfl⟩⟩
    simp only [Machine.wordAt, Port.bytes, FlatMem.bytes_congr hc]

theorem exists_fetchWord {p : Port} (bp : Option BranchPredictor) {pc : Word}
    (h : (IMemory.ready p pc false).1 = true → p.ram.InRange pc 4) :
    ∃ f, fetchWord p bp pc = some f := by
  refine Option.isSome_iff_exists.mp ?_
  cases hr : (IMemory.ready p pc false).1 with
  | false => simp [fetchWord, hr]
  | true =>
    have hc : (IMemory.ready p pc false).2.contents = p.contents := p.contents_ready pc false
    obtain ⟨v, hv⟩ := FlatMem.exists_loadWord ((FlatMem.inRange_congr hc pc 4).mpr (h hr))
    simp [fetchWord, hr, Port.loadWord_eq, hv]

/-- What MEM does with an EX/MEM entry: nothing for a bubble, wait, or complete. -/
theorem accessMem_eq_some {p : Port} {ex : ExMem} {o : MemOut Port}
    (h : accessMem p ex = some o) :
    (ex.valid = false ∧ o = { dmem := p, out := {}, stalling := false }) ∨
      (ex.valid = true ∧ isMemOp ex.op = true ∧
        (IMemory.ready p ex.aluOut (isStore ex.op)).1 = false ∧
        o = { dmem := p.asked ex, out := {}, stalling := true }) ∨
      (ex.valid = true ∧
        (isMemOp ex.op = true → (IMemory.ready p ex.aluOut (isStore ex.op)).1 = true) ∧
        p.Serves ex ∧ o.out = ex.memWb p.bytes ∧ o.stalling = false ∧
        ∃ m, o.dmem = (p.asked ex).setRam m ∧
          (p.asked ex).ram.Rewrites m (applyStore p.bytes ex.store)) := by
  unfold accessMem at h
  cases hv : ex.valid with
  | false =>
    simp only [hv, Bool.not_false, if_true, Option.some.injEq] at h
    exact .inl ⟨rfl, h.symm⟩
  | true =>
    have hdone : ∀ {q : Port}, q = p.asked ex →
        (accessData q ex).map (fun o => (⟨o.1, o.2, false⟩ : MemOut Port)) = some o →
        p.Serves ex ∧ o.out = ex.memWb p.bytes ∧ o.stalling = false ∧
          ∃ m, o.dmem = (p.asked ex).setRam m ∧
            (p.asked ex).ram.Rewrites m (applyStore p.bytes ex.store) := by
      intro q hq ho
      subst hq
      obtain ⟨⟨p', wb⟩, hd, rfl⟩ := Option.map_eq_some_iff.mp ho
      obtain ⟨hs, hwb, m, hp, hm⟩ := accessData_eq_some hd
      have hc := p.contents_asked ex
      rw [Port.bytes_congr hc] at hwb hm
      exact ⟨fun hi => (FlatMem.inRange_congr hc _ _).mp (hs hi), hwb, rfl, m, hp, hm⟩
    simp only [hv, Bool.not_true, Bool.false_eq_true, if_false] at h
    cases hm : isMemOp ex.op with
    | false =>
      simp only [hm, Bool.false_eq_true, if_false] at h
      exact .inr (.inr ⟨rfl, by simp, hdone (by simp [Port.asked, hm]) h⟩)
    | true =>
      simp only [hm, if_true] at h
      cases hr : (IMemory.ready p ex.aluOut (isStore ex.op)).1 with
      | false =>
        simp only [hr, Bool.not_false, if_true, Option.some.injEq] at h
        exact .inr (.inl ⟨rfl, rfl, rfl, by simp [Port.asked, hm, ← h]⟩)
      | true =>
        simp only [hr, Bool.not_true, Bool.false_eq_true, if_false] at h
        exact .inr (.inr ⟨rfl, fun _ => rfl, hdone (by simp [Port.asked, hm]) h⟩)

/-- A cycle on which MEM waits only asks the port. -/
theorem accessMem_stalled {p : Port} {ex : ExMem} {o : MemOut Port} (h : accessMem p ex = some o)
    (hs : o.stalling = true) :
    ex.valid = true ∧ isMemOp ex.op = true ∧ o.out = {} ∧ o.dmem = p.asked ex := by
  obtain ⟨-, ho⟩ | ⟨hv, hop, -, ho⟩ | ⟨-, -, -, -, ho, -⟩ := accessMem_eq_some h
  · rw [ho] at hs; cases hs
  · rw [ho]; exact ⟨hv, hop, rfl, rfl⟩
  · rw [ho] at hs; cases hs

/-- On any other cycle MEM passes its entry on and performs its store. -/
theorem accessMem_flowed {p : Port} {ex : ExMem} {o : MemOut Port} (h : accessMem p ex = some o)
    (hs : o.stalling = false) :
    o.out.valid = ex.valid ∧ (ex.valid = true → o.out = ex.memWb p.bytes) ∧
      o.dmem.bytes = if ex.valid then applyStore p.bytes ex.store else p.bytes := by
  obtain ⟨hv, ho⟩ | ⟨-, -, -, ho⟩ | ⟨hv, -, -, ho, -, n, hd, hw⟩ := accessMem_eq_some h
  · rw [ho, hv]; exact ⟨rfl, by simp, rfl⟩
  · rw [ho] at hs; cases hs
  · rw [hv, if_pos rfl, hd]
    refine ⟨by rw [ho]; rfl, fun _ => ho, ?_⟩
    rw [Port.bytes, Port.setRam_ram, hw.bytes]

/-- MEM does not move the memory. -/
theorem accessMem_span {p : Port} {ex : ExMem} {o : MemOut Port} (h : accessMem p ex = some o) :
    o.dmem.span = p.span := by
  have hasked := Port.span_congr (p.contents_asked ex)
  obtain ⟨-, ho⟩ | ⟨-, -, -, ho⟩ | ⟨-, -, -, -, -, n, hd, hw⟩ := accessMem_eq_some h
  · rw [ho]
  · rw [ho, hasked]
  · rw [hd, ← hasked]
    simp only [Port.span, Port.setRam_ram, hw.base, hw.size]

theorem exists_accessMem {p : Port} {ex : ExMem}
    (h : ex.valid = true → isMemOp ex.op = true →
      (IMemory.ready p ex.aluOut (isStore ex.op)).1 = true →
      p.ram.InRange ex.aluOut (accessWidth ex.op)) :
    ∃ o, accessMem p ex = some o := by
  refine Option.isSome_iff_exists.mp ?_
  cases hv : ex.valid with
  | false => simp [accessMem, hv]
  | true =>
    cases hm : isMemOp ex.op with
    | false =>
      obtain ⟨o, ho⟩ := exists_accessData (fun hi => by simp [hm] at hi : p.Serves ex)
      simp [accessMem, hv, hm, ho]
    | true =>
      cases hr : (IMemory.ready p ex.aluOut (isStore ex.op)).1 with
      | false => simp [accessMem, hv, hm, hr]
      | true =>
        have hc : (IMemory.ready p ex.aluOut (isStore ex.op)).2.contents = p.contents :=
          p.contents_ready _ _
        have hserves : (IMemory.ready p ex.aluOut (isStore ex.op)).2.Serves ex :=
          fun _ => (FlatMem.inRange_congr hc _ _).mpr (h hv hm hr)
        obtain ⟨o, ho⟩ := exists_accessData hserves
        simp [accessMem, hv, hm, hr, ho]

end CpuSim
