import CpuSim.Rtl.Operands
import CpuSim.Sim.Tracer

/-!
# What the commit trace shows

A tracer in the Commit format prints a line for every retired instruction, from the same MEM/WB
entry that write-back works on. It shows a register write wherever the destination is not x0,
write-back looks at the op. Every accepted word agrees in that; a rejected one keeps the raw
destination it was decoded with, and its line shows a write that never happens.
-/

namespace CpuSim

open Rv32i Tracer

/-- What MEM makes for the trace: the store flag of the op, a value of the access width. -/
structure MemWb.Loggable (wb : MemWb) : Prop where
  flag : wb.isStore = CpuSim.isStore wb.op
  fits : wb.isStore = true → wb.memVal.toNat < 16 ^ storeHexDigits wb.op

theorem ExMem.memWb_loggable (ex : ExMem) (mem : ByteMap) : (ex.memWb mem).Loggable := by
  refine ⟨rfl, fun hs => ?_⟩
  change isStore ex.op = true at hs
  have hmask : ∀ k, (ex.rs2Val &&& k).toNat ≤ k.toNat := by
    intro k
    rw [BitVec.toNat_and]
    exact Nat.and_le_right
  unfold memWb store
  cases hop : ex.op <;> rw [hop] at hs
  case sb => exact lt_of_le_of_lt (hmask _) (by decide : (0xFF : Word).toNat < 16 ^ 2)
  case sh => exact lt_of_le_of_lt (hmask _) (by decide : (0xFFFF : Word).toNat < 16 ^ 4)
  case sw => exact ex.rs2Val.isLt
  all_goals cases hs

theorem MemWb.writeBack_eq (wb : MemWb) (rf : RegFile) :
    wb.writeBack rf = applyWrite rf wb.commit.reg := by
  unfold writeBack commit
  dsimp only
  cases writesBack wb with
  | false => rfl
  | true =>
    rw [if_pos rfl, Bool.true_and]
    by_cases hr : wb.rd = 0#5
    · rw [hr, RegFile.write_zero]
      rfl
    · rw [if_pos (bne_iff_ne.mpr hr)]
      rfl

/-- The line of an instruction shows the write that write-back makes, unless it was rejected with
    a destination. -/
theorem MemWb.effect_reg {wb : MemWb} (h : wb.Loggable) (hn : Pipe.NamesX0 wb.op wb.rd)
    (hv : wb.valid = true) :
    (effect wb).reg = wb.commit.reg ↔ (wb.op = .illegal → wb.rd = 0#5) := by
  have hcommit : wb.commit.reg =
      if hasWriteback wb.op && wb.rd != 0#5 then some (wb.rd, wb.wbVal) else none := by
    unfold commit writesBack
    rw [hv, Bool.true_and]
  rw [hcommit]
  unfold effect
  by_cases hr : wb.rd = 0#5
  · have hne : (wb.rd != 0#5) = false := by rw [hr]; rfl
    rw [hne, Bool.and_false, if_neg (not_not.mpr hr)]
    refine ⟨fun _ _ => hr, fun _ => ?_⟩
    split <;> rfl
  · have hne : (wb.rd != 0#5) = true := bne_iff_ne.mpr hr
    rw [hne, Bool.and_true, if_pos hr]
    cases hs : wb.isStore with
    | true =>
      rw [h.flag] at hs
      have hop : hasWriteback wb.op = false ∧ wb.op ≠ .illegal := by
        cases hop : wb.op <;> rw [hop] at hs <;> first | exact ⟨rfl, by decide⟩ | cases hs
      exact absurd (hn hop.1 hop.2) hr
    | false =>
      cases hw : hasWriteback wb.op with
      | true =>
        refine ⟨fun _ hi => ?_, fun _ => rfl⟩
        rw [hi] at hw
        cases hw
      | false =>
        constructor
        · intro heq
          cases heq
        · intro hill
          by_cases hi : wb.op = .illegal
          · exact absurd (hill hi) hr
          · exact absurd (hn hw hi) hr

theorem MemWb.effect_stored {wb : MemWb} (h : wb.Loggable) :
    (effect wb).stored = wb.commit.store := by
  have hstore : wb.commit.store =
      if wb.isStore then some ⟨wb.memAddr, accessWidth wb.op, wb.memVal⟩ else none := rfl
  rw [hstore]
  unfold effect
  cases hs : wb.isStore with
  | true =>
    rw [h.flag] at hs
    have hwidth : storeHexDigits wb.op / 2 = accessWidth wb.op := by
      cases hop : wb.op <;> rw [hop] at hs <;> first | rfl | cases hs
    rw [if_pos rfl, if_pos rfl, hwidth]
    rfl
  | false =>
    simp only [Bool.false_eq_true, if_false]
    split <;> rfl

namespace Pipe

/-- What retires is named and can be logged. -/
theorem loggable_of_retired {p : Pipe} (hnamed : p.Named) (hv : p.memWb.valid = false) {n : Nat}
    {wb : MemWb} (h : wb ∈ p.retired n) :
    wb.valid = true ∧ NamesX0 wb.op wb.rd ∧ wb.Loggable := by
  obtain ⟨k, -, q, hq, hmem⟩ := Runs.mem_log tick retires h
  have hrun : q.halted = false := by
    cases hh : q.halted with
    | false => rfl
    | true =>
      rw [retires_of_halted hh] at hmem
      cases hmem
  have hinv : q.Named ∧ (q.memWb.valid = true → q.memWb.Loggable) := by
    refine running_invariant (P := fun q => q.Named ∧ (q.memWb.valid = true → q.memWb.Loggable))
      ?_ ⟨hnamed, fun hv' => ?_⟩ hq hrun
    · rintro a b ⟨ha, -⟩ har - hab
      refine ⟨ha.tick har hab, fun hbv => ?_⟩
      obtain ⟨f, m, -, hm, ⟨hs, rfl⟩ | ⟨hs, rfl⟩⟩ := tick_cases har hab
      · obtain ⟨-, -, hout, -⟩ := mem_stalled hm hs
        change m.out.valid = true at hbv
        rw [hout] at hbv
        cases hbv
      · obtain ⟨hval, hout, -⟩ := mem_flowed hm hs
        change m.out.valid = true at hbv
        change m.out.Loggable
        rw [hout (hval ▸ hbv)]
        exact a.exMem.memWb_loggable _
    · rw [hv] at hv'
      cases hv'
  rw [retires_of_running hrun] at hmem
  split at hmem
  · rename_i hval
    rw [List.mem_singleton] at hmem
    subst hmem
    exact ⟨hval, hinv.1.memWb hval, hinv.2 hval⟩
  · cases hmem

end Pipe

namespace Core

/-- The text of a tracer in the Commit format that was attached before the first tick. -/
def commitTrace (c : Core) (n : Nat) : List (List Char) :=
  Runs.log tick (fun c => if c.halted then [] else record c.memWb.reg) n c

theorem commitTrace_eq (c : Core) (n : Nat) : c.commitTrace n = (c.retired n).map line := by
  have hobs : ∀ d : Core, (if d.halted then [] else record d.memWb.reg) =
      d.retires.map line := by
    intro d
    unfold retires record
    cases d.halted <;> cases d.memWb.reg.valid <;> rfl
  unfold commitTrace retired
  induction n with
  | zero => rfl
  | succ n ih =>
    simp only [Runs.log, List.map_append, ih]
    cases Runs.run tick n c with
    | none => rfl
    | some d => exact congrArg _ (hobs d)

/-- After the run of `start` to `c` the log tells the truth: line by line it shows the register
    writes that write-back makes, so that replaying them gives the register file, and its stores
    are the retired ones. -/
structure FaithfulLog (start : Core) (n : Nat) (c : Core) : Prop where
  lines : (start.commitTrace n).map (fun l => (readLine l).reg) =
    (start.retired n).map fun wb => wb.commit.reg
  replayed : replay (start.commitTrace n) start.rf = c.rf
  stores : (start.commitTrace n).filterMap (fun l => (readLine l).stored) =
    (start.retired n).filterMap fun wb => wb.commit.store

/-- The log is faithful exactly as long as no instruction retires that the decoder has rejected
    but left a destination in. -/
theorem faithful_log_iff (cfg : SimConfig) (imem dmem : Nat → Byte) (rf : RegFile) (n : Nat)
    (c : Core) (hc : (boot cfg imem dmem rf).ticks n = some c) :
    FaithfulLog (boot cfg imem dmem rf) n c ↔
      ∀ wb ∈ (boot cfg imem dmem rf).retired n, wb.op = .illegal → wb.rd = 0#5 := by
  have hquiet := quiet_boot cfg imem dmem rf
  have hcv := view_of_ticks hquiet hc
  have hretired : ∀ wb ∈ (boot cfg imem dmem rf).retired n,
      wb.valid = true ∧ Pipe.NamesX0 wb.op wb.rd ∧ wb.Loggable := by
    intro wb hwb
    rw [retired_view hquiet] at hwb
    exact Pipe.loggable_of_retired (settled_boot cfg imem dmem rf).named rfl hwb
  have hread : ∀ wb ∈ (boot cfg imem dmem rf).retired n, readLine (line wb) = effect wb :=
    fun wb hwb => readLine_line (hretired wb hwb).2.2.fits
  have hlines : ((boot cfg imem dmem rf).commitTrace n).map (fun l => (readLine l).reg) =
      ((boot cfg imem dmem rf).retired n).map fun wb => (effect wb).reg := by
    rw [commitTrace_eq, List.map_map]
    exact List.map_congr_left fun wb hwb => congrArg Effect.reg (hread wb hwb)
  have hiff : ((boot cfg imem dmem rf).commitTrace n).map (fun l => (readLine l).reg) =
      ((boot cfg imem dmem rf).retired n).map (fun wb => wb.commit.reg) ↔
      ∀ wb ∈ (boot cfg imem dmem rf).retired n, wb.op = .illegal → wb.rd = 0#5 := by
    rw [hlines, List.map_inj_left]
    refine forall₂_congr fun wb hwb => ?_
    obtain ⟨hv, hn, hl⟩ := hretired wb hwb
    exact MemWb.effect_reg hl hn hv
  refine ⟨fun h => hiff.mp h.lines, fun h => ⟨hiff.mpr h, ?_, ?_⟩⟩
  · have hfold : ∀ l : List (List Char), ∀ rf : RegFile,
        replay l rf = (l.map fun l => (readLine l).reg).foldl applyWrite rf := by
      intro l rf
      rw [List.foldl_map]
      rfl
    have hrf : c.rf = _ := Pipe.rf_of_ticks hcv
    rw [hfold, hiff.mpr h, hrf, ← retired_view hquiet, List.foldl_map]
    exact congrArg (fun g => List.foldl g rf ((boot cfg imem dmem rf).retired n))
      (funext fun rf => funext fun wb => (wb.writeBack_eq rf).symm)
  · rw [commitTrace_eq, List.filterMap_map]
    refine List.filterMap_congr fun wb hwb => ?_
    rw [← MemWb.effect_stored (hretired wb hwb).2.2, ← hread wb hwb]
    rfl

theorem faithful_log_iff_addiEbreak :
    ∃ c, (boot predicting addiEbreak (fun _ => 0) RegFile.zero).ticks 6 = some c ∧
      (FaithfulLog (boot predicting addiEbreak (fun _ => 0) RegFile.zero) 6 c ↔
        ∀ wb ∈ (boot predicting addiEbreak (fun _ => 0) RegFile.zero).retired 6,
          wb.op = .illegal → wb.rd = 0#5) := by
  obtain ⟨c, hc⟩ := Option.isSome_iff_exists.mp (by decide +kernel :
    ((boot predicting addiEbreak (fun _ => 0) RegFile.zero).ticks 6).isSome = true)
  exact ⟨c, hc, faithful_log_iff predicting addiEbreak (fun _ => 0) RegFile.zero 6 c hc⟩

/-- `addi x1, x0, 5`, then the word 0x00000080, which is no instruction. -/
def addiReject : Nat → Byte := halfwords [0x0093, 0x0050, 0x0080, 0x0000]

/-- The line of the rejected word shows x1 set to 0, so replaying the log loses the 5. -/
theorem replay_wrong_addiReject :
    ∃ c, (boot predicting addiReject (fun _ => 0) RegFile.zero).ticks 6 = some c ∧
      c.rf.read 1 = 5 ∧
      (replay ((boot predicting addiReject (fun _ => 0) RegFile.zero).commitTrace 6)
        RegFile.zero).read 1 = 0 ∧
      ((boot predicting addiReject (fun _ => 0) RegFile.zero).commitTrace 6)[1]? =
        some "core   0: 3 0x00000004 (0x00000080) x1  0x00000000".toList ∧
      ¬ FaithfulLog (boot predicting addiReject (fun _ => 0) RegFile.zero) 6 c := by
  obtain ⟨c, hc, hread⟩ := Option.map_eq_some_iff.mp (by decide +kernel :
    ((boot predicting addiReject (fun _ => 0) RegFile.zero).ticks 6).map (fun c => c.rf.read 1) =
      some 5)
  have hreplay : (replay ((boot predicting addiReject (fun _ => 0) RegFile.zero).commitTrace 6)
      RegFile.zero).read 1 = 0 := by decide +kernel
  refine ⟨c, hc, hread, hreplay, by decide +kernel, fun h => ?_⟩
  have hrf : replay _ RegFile.zero = c.rf := h.replayed
  rw [hrf, hread] at hreplay
  cases hreplay

end Core

end CpuSim
