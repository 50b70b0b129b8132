import CpuSim.Sim.DataPort

/-!
# Loads and stores through MEM

MEM holds an EX/MEM entry and evaluates it every cycle until the data port has served it
(`Executes`). Whatever mix of SB, SH and SW went before, a load delivers the bytes stored last at
its addresses, least significant first (`mixedWidth_coherent`).
-/

namespace CpuSim

open Rv32i ByteMap

/-! ## MEM until it is served -/

/-- MEM evaluates and latches one entry until the access is served: from port `p` to port `q`,
    with the MEM/WB entry it hands on. -/
inductive Executes (ex : ExMem) : Port → Port → MemWb → Prop
  | served {p : Port} {o : MemOut Port} (h : accessMem p ex = some o) (hs : o.stalling = false) :
      Executes ex p (IMemory.tick o.dmem) o.out
  | waits {p q : Port} {o : MemOut Port} {wb : MemWb} (h : accessMem p ex = some o)
      (hs : o.stalling = true) (he : Executes ex (IMemory.tick o.dmem) q wb) :
      Executes ex p q wb

/-- The entries of a list, one after the other. -/
inductive ExecutesAll : List ExMem → Port → Port → Prop
  | nil (p : Port) : ExecutesAll [] p p
  | cons {ex : ExMem} {exs : List ExMem} {p q r : Port} {wb : MemWb} (h : Executes ex p q wb)
      (hs : ExecutesAll exs q r) : ExecutesAll (ex :: exs) p r

theorem Port.blank_tick (p : Port) : (IMemory.tick p).blank = IMemory.tick p.blank :=
  (maps_blank.tick p).symm

theorem contents_tick_asked (p : Port) (ex : ExMem) :
    (IMemory.tick (p.asked ex)).contents = p.contents :=
  (Port.contents_tick _).trans (p.contents_asked ex)

/-- What MEM leaves behind the port, and the entry it hands on. -/
theorem Executes.spec {ex : ExMem} {p q : Port} {wb : MemWb} (hv : ex.valid = true)
    (h : Executes ex p q wb) :
    q.span = p.span ∧ q.bytes = applyStore p.bytes ex.store ∧ wb = ex.memWb p.bytes := by
  induction h with
  | @served p o h hs =>
    obtain ⟨-, hout, hbytes⟩ := accessMem_flowed h hs
    rw [hv, if_pos rfl] at hbytes
    refine ⟨?_, ?_, hout hv⟩
    · rw [Port.span_congr (Port.contents_tick _), accessMem_span h]
    · rw [Port.bytes_tick, hbytes]
  | @waits p q o wb h hs _ ih =>
    have hc := contents_tick_asked p ex
    rw [(accessMem_stalled h hs).2.2.2, Port.span_congr hc, Port.bytes_congr hc] at ih
    exact ih

/-- A port that drives the access of an entry in range executes it. -/
theorem executes_of_drives {ex : ExMem} {p u : Port} {n : Nat} (hv : ex.valid = true)
    (hop : isMemOp ex.op = true) (hin : p.Serves ex)
    (hd : (IMemory.port Port).Drives (ex.aluOut, isStore ex.op) p n u) :
    ∃ q wb, Executes ex p q wb ∧ q.blank = u.blank := by
  have hasked : ∀ p : Port, p.asked ex = (IMemory.ready p ex.aluOut (isStore ex.op)).2 := by
    intro p
    simp only [Port.asked, hop, if_true]
  have hpoll : ∀ p : Port, IMemory.tick (p.asked ex) =
      (IMemory.port Port).poll p (ex.aluOut, isStore ex.op) := by
    intro p
    rw [hasked]
    rfl
  induction hd with
  | @served p hr =>
    obtain ⟨o, ho⟩ : ∃ o, accessMem p ex = some o := exists_accessMem fun _ h _ => hin h
    obtain ⟨hnv, -⟩ | ⟨-, -, hnr, -⟩ | ⟨-, -, -, -, hs, m, hdm, hw⟩ := accessMem_eq_some ho
    · rw [hv] at hnv
      cases hnv
    · exact absurd (hr.symm.trans hnr) (by decide)
    · refine ⟨_, _, .served ho hs, ?_⟩
      rw [← hpoll, Port.blank_tick, Port.blank_tick, hdm, Port.blank_setRam hw]
  | @waits p u n hr _ ih =>
    obtain ⟨o, ho⟩ : ∃ o, accessMem p ex = some o := exists_accessMem fun _ h _ => hin h
    obtain ⟨hnv, -⟩ | ⟨-, -, -, rfl⟩ | ⟨-, hyes, -⟩ := accessMem_eq_some ho
    · rw [hv] at hnv
      cases hnv
    · rw [← hpoll] at ih
      obtain ⟨q, wb, he, hq⟩ := ih fun h =>
        (FlatMem.inRange_congr (contents_tick_asked p ex) _ _).mpr (hin h)
      exact ⟨q, wb, .waits ho rfl he, hq⟩
    · exact absurd ((hyes hop).symm.trans hr) (by decide)

/-- An entry is executed in one way. -/
theorem Executes.unique {ex : ExMem} {p q q' : Port} {wb wb' : MemWb} (h : Executes ex p q wb)
    (h' : Executes ex p q' wb') : q = q' ∧ wb = wb' := by
  induction h with
  | served h hs =>
    cases h' with
    | served k _ =>
      rw [h] at k
      cases k
      exact ⟨rfl, rfl⟩
    | waits k hs' _ =>
      rw [h] at k
      cases k
      rw [hs] at hs'
      cases hs'
  | waits h hs _ ih =>
    cases h' with
    | served k hs' =>
      rw [h] at k
      cases k
      rw [hs] at hs'
      cases hs'
    | waits k _ he' =>
      rw [h] at k
      cases k
      exact ih he'

theorem ExecutesAll.unique {exs : List ExMem} {p q q' : Port} (h : ExecutesAll exs p q)
    (h' : ExecutesAll exs p q') : q = q' := by
  induction h with
  | nil =>
    cases h'
    rfl
  | cons hex _ ih =>
    cases h' with
    | cons hex' hs' =>
      obtain ⟨rfl, -⟩ := hex.unique hex'
      exact ih hs'

/-- From rest every access in range is executed, and leaves the port at rest. -/
theorem exists_executes {ex : ExMem} {p : Port} (hp : p.blank.Idle) (hv : ex.valid = true)
    (hop : isMemOp ex.op = true) (hin : p.Serves ex) :
    ∃ q wb, Executes ex p q wb ∧ q.blank.Idle := by
  obtain ⟨n, u, hd, hu⟩ := hp.exists_drives (ex.aluOut, isStore ex.op)
  obtain ⟨t, ht, rfl⟩ := Port.maps_blank.drives_lift hd
  obtain ⟨q, wb, he, hq⟩ := executes_of_drives hv hop hin ht
  exact ⟨q, wb, he, hq ▸ hu⟩

/-! ## The bytes stored last -/

/-- The byte a store leaves at an address, where it reaches it. -/
def ExMem.storedByte (ex : ExMem) (a : Nat) : Option Byte :=
  if isStore ex.op = true ∧ ex.aluOut.toNat ≤ a ∧ a < ex.aluOut.toNat + accessWidth ex.op then
    some (ex.rs2Val.extractLsb' (8 * (a - ex.aluOut.toNat)) 8)
  else none

/-- The byte stored most recently at an address; zero where nothing was stored. -/
def lastStored (exs : List ExMem) (a : Nat) : Byte :=
  (exs.reverse.findSome? fun ex => ex.storedByte a).getD 0

/-- The register value a load makes of the bytes at and behind its address. -/
def loadedValue (op : Op) (b : Nat → Byte) : Word :=
  match op with
  | .lb => (b 0).signExtend 32
  | .lbu => (b 0).setWidth 32
  | .lh => (b 1 ++ b 0).signExtend 32
  | .lhu => (b 1 ++ b 0).setWidth 32
  | .lw => b 3 ++ b 2 ++ b 1 ++ b 0
  | _ => 0

theorem ofNat_div_256 (v : Word) (k : Nat) :
    BitVec.ofNat 8 (v.toNat / 256 ^ k) = v.extractLsb' (8 * k) 8 := by
  have hpow : 256 ^ k = 2 ^ (8 * k) := by rw [Nat.pow_mul]
  apply BitVec.eq_of_toNat_eq
  rw [BitVec.toNat_ofNat, BitVec.extractLsb'_toNat, Nat.shiftRight_eq_div_pow, hpow]

/-- The bytes below a mask of `n` bytes are those of the value. -/
theorem ofNat_and_div_256 (v m : Word) {n k : Nat} (hm : m.toNat = 2 ^ (8 * n) - 1) (hk : k < n) :
    BitVec.ofNat 8 ((v &&& m).toNat / 256 ^ k) = v.extractLsb' (8 * k) 8 := by
  have hpow : 2 ^ (8 * n) = 256 ^ k * 256 ^ (n - k - 1 + 1) := by
    rw [← Nat.pow_add, Nat.pow_mul]
    congr 1
    omega
  rw [← ofNat_div_256, BitVec.toNat_and, hm, Nat.and_two_pow_sub_one_eq_mod, hpow,
    Nat.mod_mul_right_div_self, Nat.pow_succ']
  apply BitVec.eq_of_toNat_eq
  rw [BitVec.toNat_ofNat, BitVec.toNat_ofNat, Nat.mod_mul_right_mod]

/-- A store changes the bytes of its own width. -/
theorem applyStore_apply (ex : ExMem) (b : ByteMap) (a : Nat) :
    applyStore b ex.store a = (ex.storedByte a).getD (b a) := by
  have hbyte : ∀ (val : Word), (∀ k < accessWidth ex.op, BitVec.ofNat 8 (val.toNat / 256 ^ k) =
      ex.rs2Val.extractLsb' (8 * k) 8) → isStore ex.op = true →
      ex.store = some ⟨ex.aluOut, accessWidth ex.op, val⟩ →
      applyStore b ex.store a = (ex.storedByte a).getD (b a) := by
    intro val hval hst heq
    rw [heq, applyStore, writeLE_apply, ExMem.storedByte]
    by_cases ha : ex.aluOut.toNat ≤ a ∧ a < ex.aluOut.toNat + accessWidth ex.op
    · have hk : a - ex.aluOut.toNat < accessWidth ex.op := by omega
      rw [if_pos ha, if_pos ⟨hst, ha⟩, hval _ hk, Option.getD_some]
    · rw [if_neg ha, if_neg fun h => ha h.2, Option.getD_none]
  cases hop : ex.op
  case sb =>
    refine hbyte (ex.rs2Val &&& 0xFF) ?_ (by rw [hop]; rfl)
      (by simp [ExMem.store, hop, accessWidth])
    intro k hk
    exact ofNat_and_div_256 _ _ (n := 1) (by decide) (by simpa [hop, accessWidth] using hk)
  case sh =>
    refine hbyte (ex.rs2Val &&& 0xFFFF) ?_ (by rw [hop]; rfl)
      (by simp [ExMem.store, hop, accessWidth])
    intro k hk
    exact ofNat_and_div_256 _ _ (n := 2) (by decide) (by simpa [hop, accessWidth] using hk)
  case sw =>
    exact hbyte ex.rs2Val (fun k _ => ofNat_div_256 _ k) (by rw [hop]; rfl)
      (by simp [ExMem.store, hop, accessWidth])
  all_goals simp [ExMem.store, ExMem.storedByte, hop, isStore, applyStore]

/-- A load delivers the bytes behind the port at its address. -/
theorem wbVal_of_load {ex : ExMem} (hop : isLoad ex.op = true) (b : ByteMap) :
    ex.wbVal b = loadedValue ex.op fun k => b (ex.aluOut.toNat + k) := by
  cases hc : ex.op <;> simp only [hc, isLoad, Bool.false_eq_true] at hop <;>
    simp only [ExMem.wbVal, hc, loadedValue, ofNat_readLE_one, ofNat_readLE_two,
      ofNat_readLE_four, Nat.add_zero]

theorem memOp_of_load {op : Op} (h : isLoad op = true) : isMemOp op = true := by
  cases op <;> simp [isLoad, isMemOp] at h ⊢

theorem memOp_of_store {op : Op} (h : isStore op = true) : isMemOp op = true := by
  cases op <;> simp [isStore, isMemOp] at h ⊢

/-! ## Any history of stores -/

/-- Valid stores whose every byte lies in the memory behind the port. -/
def StoresIn (p : Port) (exs : List ExMem) : Prop :=
  ∀ ex ∈ exs, ex.valid = true ∧ isStore ex.op = true ∧
    p.ram.InRange ex.aluOut (accessWidth ex.op)

theorem StoresIn.of_span {p q : Port} {exs : List ExMem} (hq : q.span = p.span)
    (h : StoresIn p exs) : StoresIn q exs := by
  intro ex hex
  obtain ⟨hv, hst, hin⟩ := h ex hex
  exact ⟨hv, hst, (Port.inRange_span hq _ _).mpr hin⟩

/-- After a history the byte at an address is the one stored there last. -/
theorem ExecutesAll.bytes {exs : List ExMem} {p q : Port} (h : ExecutesAll exs p q)
    (hin : StoresIn p exs) :
    q.span = p.span ∧
      ∀ a, q.bytes a = (exs.reverse.findSome? fun ex => ex.storedByte a).getD (p.bytes a) := by
  induction h with
  | nil p => exact ⟨rfl, fun a => rfl⟩
  | @cons ex exs p q r wb hex _ ih =>
    have hv := (hin ex (List.mem_cons_self ..)).1
    obtain ⟨hspan, hbytes, -⟩ := hex.spec hv
    have hrest : StoresIn p exs := fun ex' h' => hin ex' (List.mem_cons_of_mem _ h')
    obtain ⟨hspan', hlast⟩ := ih (hrest.of_span hspan)
    refine ⟨hspan'.trans hspan, ?_⟩
    intro a
    rw [hlast a, hbytes, applyStore_apply, List.reverse_cons, List.findSome?_append]
    cases exs.reverse.findSome? fun ex => ex.storedByte a with
    | none => cases hb : ex.storedByte a <;> simp [hb]
    | some v => rfl

/-- From rest a history of stores in range is executed, and leaves the port at rest. -/
theorem exists_executesAll {exs : List ExMem} {p : Port} (hp : p.blank.Idle)
    (hin : StoresIn p exs) : ∃ q, ExecutesAll exs p q ∧ q.blank.Idle := by
  induction exs generalizing p with
  | nil => exact ⟨p, .nil p, hp⟩
  | cons ex exs ih =>
    obtain ⟨hv, hst, hr⟩ := hin ex (List.mem_cons_self ..)
    obtain ⟨q, wb, hex, hq⟩ := exists_executes hp hv (memOp_of_store hst) fun _ => hr
    have hrest : StoresIn p exs := fun ex' h' => hin ex' (List.mem_cons_of_mem _ h')
    obtain ⟨r, hall, hrest⟩ := ih hq (hrest.of_span (hex.spec hv).1)
    exact ⟨r, .cons hex hall, hrest⟩

/-- A memory is built all zero. -/
theorem bytes_new (base : Word) (size latency a : Nat) :
    (FlatMem.new base size latency).bytes a = 0 := by
  change (if base.toNat ≤ a then (List.replicate size (0 : Byte)).getD (a - base.toNat) 0
    else 0) = 0
  rw [List.getD_eq_getElem?_getD, List.getElem?_replicate]
  split
  · split <;> rfl
  · rfl

theorem idle_flat_new {base : Word} {size latency : Nat}
    (h : LatencyOk (FlatMem.new base size latency).latency) :
    (Port.flat (.new base size latency)).blank.Idle := ⟨rfl, h⟩

/-- Whatever stores a flat memory has executed since it was built: each changed only the bytes of
    its own width, and a load delivers the bytes stored last at its addresses. Below a latency of
    2^31 every such store and load is executed. -/
theorem mixedWidth_coherent {base : Word} {size latency : Nat} {stores : List ExMem}
    (hin : StoresIn (.flat (.new base size latency)) stores) :
    (LatencyOk (FlatMem.new base size latency).latency →
      ∃ p, ExecutesAll stores (.flat (.new base size latency)) p) ∧
    ∀ p, ExecutesAll stores (.flat (.new base size latency)) p →
      (∀ st q wb, st.valid = true → isStore st.op = true → Executes st p q wb →
        ∀ a, (a < st.aluOut.toNat ∨ st.aluOut.toNat + accessWidth st.op ≤ a) →
          q.bytes a = p.bytes a) ∧
      ∀ ld, ld.valid = true → isLoad ld.op = true →
        (FlatMem.new base size latency).InRange ld.aluOut (accessWidth ld.op) →
        (LatencyOk (FlatMem.new base size latency).latency → ∃ q wb, Executes ld p q wb) ∧
        ∀ q wb, Executes ld p q wb →
          wb.wbVal = loadedValue ld.op fun k => lastStored stores (ld.aluOut.toNat + k) := by
  refine ⟨fun hl => ?_, ?_⟩
  · obtain ⟨p, hp, -⟩ := exists_executesAll (idle_flat_new hl) hin
    exact ⟨p, hp⟩
  intro p hp
  obtain ⟨hspan, hbytes⟩ := hp.bytes hin
  refine ⟨?_, ?_⟩
  · intro st q wb hv hst hex a ha
    obtain ⟨-, hq, -⟩ := hex.spec hv
    have hnone : st.storedByte a = none := if_neg (by omega)
    rw [hq, applyStore_apply, hnone, Option.getD_none]
  · intro ld hv hop hr
    refine ⟨fun hl => ?_, ?_⟩
    · obtain ⟨p', hp', hidle⟩ := exists_executesAll (idle_flat_new hl) hin
      obtain rfl := hp.unique hp'
      obtain ⟨q, wb, hex, -⟩ := exists_executes hidle hv (memOp_of_load hop)
        fun _ => (Port.inRange_span hspan _ _).mpr hr
      exact ⟨q, wb, hex⟩
    · intro q wb hex
      obtain ⟨-, -, rfl⟩ := hex.spec hv
      have hlast : ∀ a, p.bytes a = lastStored stores a := by
        intro a
        rw [hbytes]
        change Option.getD _ ((FlatMem.new base size latency).bytes a) = _
        rw [bytes_new]
        rfl
      change ld.wbVal p.bytes = _
      rw [wbVal_of_load hop]
      simp only [hlast]

/-- A word store under an overlapping half store, read back as a signed byte. -/
theorem mixedWidth_coherent_overlap :
    ∃ p, ExecutesAll [{ op := .sw, aluOut := 1#32, rs2Val := 0x44332211#32, valid := true },
        { op := .sh, aluOut := 2#32, rs2Val := 0x8899#32, valid := true }]
        (.flat (.new 0 8 2)) p ∧
      ∃ q wb, Executes { op := .lb, aluOut := 3#32, rd := 5, valid := true } p q wb ∧
        wb.wbVal = 0xFFFFFF88#32 := by
  have hin : StoresIn (.flat (.new 0 8 2))
      [{ op := .sw, aluOut := 1#32, rs2Val := 0x44332211#32, valid := true },
        { op := .sh, aluOut := 2#32, rs2Val := 0x8899#32, valid := true }] := by
    intro ex hex
    simp only [List.mem_cons, List.not_mem_nil, or_false] at hex
    rcases hex with rfl | rfl <;> exact ⟨rfl, rfl, by decide⟩
  have hl : LatencyOk (FlatMem.new 0 8 2).latency := ⟨by decide, by decide⟩
  obtain ⟨p, hp⟩ := (mixedWidth_coherent hin).1 hl
  obtain ⟨q, wb, hex⟩ := (((mixedWidth_coherent hin).2 p hp).2
    { op := .lb, aluOut := 3#32, rd := 5, valid := true } rfl rfl (by decide)).1 hl
  refine ⟨p, hp, q, wb, hex, ?_⟩
  rw [(((mixedWidth_coherent hin).2 p hp).2 _ rfl rfl (by decide)).2 q wb hex]
  decide

end CpuSim
