import CpuSim.Rtl.BranchCounts
import CpuSim.Rtl.BtbEntries

/-!
# What a prediction was based on

IF predicts while older instructions are still on their way to EX, so a prediction can be older
than what the predictor has learnt when EX checks it. It is never much older: it was made after all
but the last two instructions that left EX before it, and these were predicted right, since every
redirect flushes the front end (`predictions_foreseen`).
-/

namespace CpuSim

open Rv32i

/-! ## Checks -/

/-- An instruction that leaves EX, the way it goes and the way it was predicted to go. -/
structure Check where
  pc : Word
  op : Op
  taken : Bool
  target : Word
  predicted : Bool
  deriving DecidableEq, Repr

namespace Check

/-- EX redirects on it. -/
def wrong (x : Check) : Bool := x.taken != x.predicted

/-- EX trains the predictor with it. -/
def trains (x : Check) : Bool := isCondBranch x.op || x.op == .jal

end Check

namespace BranchPredictor

/-- What EX makes of the predictor. -/
def learn (bp : BranchPredictor) (x : Check) : BranchPredictor :=
  if x.trains then bp.update x.pc (isCondBranch x.op) x.taken x.target else bp

def learnAll (bp : BranchPredictor) (l : List Check) : BranchPredictor := l.foldl learn bp

@[simp] theorem learnAll_nil (bp : BranchPredictor) : bp.learnAll [] = bp := rfl

@[simp] theorem learnAll_concat (bp : BranchPredictor) (l : List Check) (x : Check) :
    bp.learnAll (l ++ [x]) = (bp.learnAll l).learn x := by
  unfold learnAll
  rw [List.foldl_append]
  rfl

/-- A prediction for `pc` that was made after all but the last `room` checks of a log, none of
    which redirected. -/
def Foreseen (bp : BranchPredictor) (log : List Check) (pc : Word) (predicted : Bool)
    (room : Nat) : Prop :=
  ∃ seen late, log = seen ++ late ∧ late.length ≤ room ∧ (∀ y ∈ late, y.wrong = false) ∧
    predicted = ((bp.learnAll seen).predict pc).taken

variable {bp : BranchPredictor} {log : List Check} {pc : Word} {predicted : Bool} {room : Nat}

/-- A prediction made now. -/
theorem Foreseen.now (bp : BranchPredictor) (log : List Check) (pc : Word) :
    bp.Foreseen log pc ((bp.learnAll log).predict pc).taken 0 :=
  ⟨log, [], by simp, Nat.le_refl 0, by simp, rfl⟩

theorem Foreseen.mono (h : bp.Foreseen log pc predicted room) {more : Nat} (hle : room ≤ more) :
    bp.Foreseen log pc predicted more := by
  rcases h with ⟨seen, late, hlog, hlen, hright, hp⟩
  exact ⟨seen, late, hlog, hlen.trans hle, hright, hp⟩

/-- An instruction that leaves EX without a redirect. -/
theorem Foreseen.concat (h : bp.Foreseen log pc predicted room) {x : Check}
    (hx : x.wrong = false) : bp.Foreseen (log ++ [x]) pc predicted (room + 1) := by
  rcases h with ⟨seen, late, rfl, hlen, hright, hp⟩
  refine ⟨seen, late ++ [x], by simp, by simp; omega, ?_, hp⟩
  intro y hy
  rcases List.mem_append.mp hy with hy | hy
  · exact hright y hy
  · rw [List.mem_singleton.mp hy]
    exact hx

end BranchPredictor

/-! ## The pipeline -/

namespace Pipe

variable {p q : Pipe} {start : BranchPredictor} {log : List Check} {f : FetchOut Port}
  {ram : FlatMem}

/-- The instruction in EX. -/
def check (p : Pipe) : Check :=
  { pc := p.idEx.pc, op := p.idEx.op, taken := p.exec.out.branchTaken,
    target := p.exec.out.branchTarget, predicted := p.idEx.predictedTaken }

/-- What leaves EX on a tick. -/
def checks (p : Pipe) : List Check :=
  if !p.halted && !p.stalls && p.idEx.valid then [p.check] else []

/-- The checks of the first `n` ticks. -/
def checked (p : Pipe) (n : Nat) : List Check := Runs.log tick checks n p

/-- What EX does with a valid instruction. -/
theorem exec_check (hv : p.idEx.valid = true) :
    p.exec.redirect = p.check.wrong ∧ p.exec.trainable = p.check.trains ∧
      p.exec.trainCond = isCondBranch p.check.op := by
  unfold check exec
  simp only [hv, if_true]
  exact ⟨rfl, rfl, rfl⟩

theorem exec_bubble (hv : p.idEx.valid = false) :
    p.exec.redirect = false ∧ p.exec.trainable = false := by
  unfold exec
  simp [hv]

/-- The check behind which the next state stands. -/
def flowed (p : Pipe) : List Check := if p.idEx.valid then [p.check] else []

theorem checks_of_flow (hh : p.halted = false) (hs : p.stalls = false) : p.checks = p.flowed := by
  unfold checks flowed
  rw [hh, hs]
  rfl

theorem checks_of_stall (hs : p.stalls = true) : p.checks = [] := by
  unfold checks
  simp [hs]

theorem checks_of_halted (hh : p.halted = true) : p.checks = [] := by
  unfold checks
  simp [hh]

theorem trained_eq {bp : BranchPredictor} (h : p.bpred = some bp) :
    p.trained = some (bp.learnAll p.flowed) := by
  unfold trained flowed
  cases hv : p.idEx.valid with
  | false => simp [(exec_bubble hv).2, h]
  | true =>
    rcases exec_check hv with ⟨-, htrain, hcond⟩
    rw [htrain, hcond, h]
    change _ = some (bp.learn p.check)
    unfold BranchPredictor.learn
    split <;> rfl

/-- The predictor has learnt the log, and what is in flight was foreseen. -/
structure Learning (start : BranchPredictor) (log : List Check) (p : Pipe) : Prop where
  bpred : p.bpred = some (start.learnAll log)
  idEx : p.idEx.valid = true → start.Foreseen log p.idEx.pc p.idEx.predictedTaken 2
  ifId : p.ifId.valid = true →
    start.Foreseen log p.ifId.pc p.ifId.predictedTaken (if p.idEx.valid then 1 else 2)

/-- The prediction that IF hands on. -/
theorem Learning.fetched (h : p.Learning start log) (hf : p.fetch = some f)
    (hv : f.out.valid = true) : start.Foreseen log f.out.pc f.out.predictedTaken 0 := by
  rcases fetchWord_eq_some hf with ⟨-, ⟨-, ho, -⟩ | ⟨-, -, -, ho, -⟩⟩
  · rw [ho] at hv
    cases hv
  · rw [ho, h.bpred]
    exact .now start log p.pc

theorem Learning.stall (h : p.Learning start log) (f : FetchOut Port) (m : MemOut Port) :
    (p.stallNext f m).Learning start log := by
  have hpredicted : p.captured.predictedTaken = p.idEx.predictedTaken := by
    unfold captured
    split <;> rfl
  refine ⟨h.bpred, ?_, ?_⟩
  · intro hv
    change start.Foreseen log p.captured.pc p.captured.predictedTaken 2
    rw [captured_pc, hpredicted]
    exact h.idEx ((captured_valid p).symm.trans hv)
  · intro hv
    change start.Foreseen log p.ifId.pc p.ifId.predictedTaken (if p.captured.valid then 1 else 2)
    rw [captured_valid]
    exact h.ifId hv

/-- Without a redirect what was foreseen still is, one instruction later. -/
theorem foreseen_flowed {pc : Word} {predicted : Bool} {room : Nat}
    (h : start.Foreseen log pc predicted room) (hr : p.exec.redirect = false) :
    start.Foreseen (log ++ p.flowed) pc predicted (if p.idEx.valid then room + 1 else room) := by
  unfold flowed
  cases hv : p.idEx.valid with
  | false => simpa using h
  | true => exact h.concat ((exec_check hv).1.symm.trans hr)

theorem Learning.flow (h : p.Learning start log) (hf : p.fetch = some f) (m : MemOut Port) :
    (p.flowNext f m).Learning start (log ++ p.flowed) := by
  have hbpred : p.trained = some (start.learnAll (log ++ p.flowed)) := by
    rw [trained_eq h.bpred]
    unfold BranchPredictor.learnAll
    rw [List.foldl_append]
  have hifId : (p.flowNext f m).ifId =
      if p.exec.redirect then {} else if p.hazard then p.ifId else f.out := rfl
  have hidEx : (p.flowNext f m).idEx =
      if p.exec.redirect || p.hazard then {} else decodeInsn p.rf p.ifId := rfl
  have hkept : p.exec.redirect = false → p.ifId.valid = true →
      start.Foreseen (log ++ p.flowed) p.ifId.pc p.ifId.predictedTaken 2 := by
    intro hr hv
    refine (foreseen_flowed (h.ifId hv) hr).mono ?_
    cases p.idEx.valid <;> simp
  refine ⟨hbpred, ?_, ?_⟩
  · rw [hidEx]
    cases hr : p.exec.redirect with
    | true =>
      intro hv
      cases hv
    | false =>
      cases hz : p.hazard with
      | true =>
      intro hv
      cases hv
      | false =>
        intro hv
        have hfv : p.ifId.valid = true := by
          cases hfv : p.ifId.valid with
          | true => rfl
          | false =>
            simp [decodeInsn, hfv] at hv
        have hdecoded : (decodeInsn p.rf p.ifId).pc = p.ifId.pc ∧
            (decodeInsn p.rf p.ifId).predictedTaken = p.ifId.predictedTaken := by
          simp [decodeInsn, hfv]
        change start.Foreseen _ (decodeInsn p.rf p.ifId).pc
          (decodeInsn p.rf p.ifId).predictedTaken 2
        rw [hdecoded.1, hdecoded.2]
        exact hkept hr hfv
  · rw [hifId, hidEx]
    cases hr : p.exec.redirect with
    | true =>
      intro hv
      cases hv
    | false =>
      cases hz : p.hazard with
      | true =>
        intro hv
        exact hkept hr hv
      | false =>
        intro hv
        refine (foreseen_flowed (h.fetched hf hv) hr).mono ?_
        have hroom : ∀ a b : Bool, (if a then 0 + 1 else 0) ≤ if b then 1 else 2 := by decide
        exact hroom _ _

/-- Every check of the log was foreseen, and is that of the instruction stored there. -/
structure Audited (start : BranchPredictor) (ram : FlatMem) (log : List Check) : Prop where
  foreseen : ∀ before x after, log = before ++ x :: after →
    start.Foreseen before x.pc x.predicted 2
  stored : ∀ x ∈ log, x.op = (decode (Machine.wordAt ram.bytes x.pc) x.pc).op
  jumps : ∀ x ∈ log, x.op = .jal → x.taken = true

theorem Audited.concat (h : Audited start ram log) {x : Check}
    (hf : start.Foreseen log x.pc x.predicted 2)
    (hop : x.op = (decode (Machine.wordAt ram.bytes x.pc) x.pc).op)
    (hjump : x.op = .jal → x.taken = true) : Audited start ram (log ++ [x]) := by
  refine ⟨?_, ?_, ?_⟩
  · intro before y after hl
    rcases List.append_eq_append_iff.mp hl with ⟨l, rfl, hrest⟩ | ⟨l, hlog, hrest⟩
    · cases l with
      | nil =>
        simp only [List.nil_append, List.cons.injEq] at hrest
        rw [List.append_nil, ← hrest.1]
        exact hf
      | cons z l => simp at hrest
    · cases l with
      | nil =>
        simp only [List.nil_append, List.cons.injEq] at hrest
        rw [List.append_nil] at hlog
        rw [← hlog, hrest.1]
        exact hf
      | cons z l =>
        simp only [List.cons_append, List.cons.injEq] at hrest
        exact h.foreseen before y l (by rw [hlog, hrest.1])
  · intro y hy
    rcases List.mem_append.mp hy with hy | hy
    · exact h.stored y hy
    · rw [List.mem_singleton.mp hy]
      exact hop
  · intro y hy
    rcases List.mem_append.mp hy with hy | hy
    · exact h.jumps y hy
    · rw [List.mem_singleton.mp hy]
      exact hjump

theorem Audited.flowed (h : Audited start ram log) (hp : p.Learning start log)
    (hf : p.Fetched ram) : Audited start ram (log ++ p.flowed) := by
  unfold Pipe.flowed
  cases hv : p.idEx.valid with
  | false => simpa using h
  | true =>
    refine h.concat (hp.idEx hv) (hf.idEx hv).2.op fun hjal => ?_
    change p.idEx.op = .jal at hjal
    simp [check, exec, hv, executeInsn, hjal]

theorem audited_of_ticks (hp : p.Learning start []) (hf : p.Fetched ram) {n : Nat}
    (hq : p.ticks n = some q) :
    q.Learning start (p.checked n) ∧ q.Fetched ram ∧ Audited start ram (p.checked n) := by
  induction n generalizing q with
  | zero =>
    simp only [ticks, Runs.run_zero, Option.some.injEq] at hq
    subst hq
    exact ⟨hp, hf, fun before x after hl => (by simp [checked, Runs.log] at hl), by
      simp [checked, Runs.log], by simp [checked, Runs.log]⟩
  | succ n ih =>
    rcases (Runs.run_succ_eq_some tick).mp hq with ⟨u, hu, huq⟩
    rcases ih hu with ⟨hl, hfu, ha⟩
    have hlog : p.checked (n + 1) = p.checked n ++ u.checks := Runs.log_succ_of_run tick checks hu
    rw [hlog]
    cases hh : u.halted with
    | true =>
      rw [eq_of_tick_of_halted hh huq, checks_of_halted hh, List.append_nil]
      exact ⟨hl, hfu, ha⟩
    | false =>
      rcases tick_cases hh huq with ⟨f, m, hfetch, hm, ⟨hs, rfl⟩ | ⟨hs, rfl⟩⟩
      · rw [checks_of_stall ((mem_stalling hm).symm.trans hs), List.append_nil]
        exact ⟨hl.stall f m, hfu.stall hfetch m, ha⟩
      · rw [checks_of_flow hh ((mem_stalling hm).symm.trans hs)]
        exact ⟨hl.flow hfetch m, hfu.flow hfetch m, ha.flowed hl hfu⟩

end Pipe

namespace Core

variable {cfg : SimConfig} {imem dmem : Nat → Byte} {rf : RegFile}

/-- The checks of the first `n` ticks. -/
def checked (c : Core) (n : Nat) : List Check := Runs.log tick (fun c => c.view.checks) n c

theorem checked_view {c : Core} (hq : c.Quiet) (n : Nat) : c.checked n = c.view.checked n :=
  Runs.log_map tick Pipe.tick _ (fun _ _ => quiet_tick) (fun _ => view_tick)
    (fun _ _ => rfl) hq n

/-- The predictor that the core starts with. -/
def predictorOf (cfg : SimConfig) : BranchPredictor :=
  .new cfg.bpredBhtEntries cfg.bpredBtbEntries

theorem learning_boot (hon : cfg.bpredEnabled = true) (imem dmem : Nat → Byte) (rf : RegFile) :
    (boot cfg imem dmem rf).view.Learning (predictorOf cfg) [] := by
  refine ⟨?_, (nomatch ·), (nomatch ·)⟩
  change (if cfg.bpredEnabled then _ else none) = _
  rw [hon]
  rfl

theorem fetched_boot (cfg : SimConfig) (imem dmem : Nat → Byte) (rf : RegFile) :
    (boot cfg imem dmem rf).view.Fetched (boot cfg imem dmem rf).iport.ram :=
  ⟨rfl, (nomatch ·), (nomatch ·)⟩

/-- The predictor is at all times what training with the instructions that have left EX makes of
    a new one. An instruction that leaves EX carries the prediction of the predictor that was
    trained with all instructions before it but the last two at most, and no redirect is among
    those. -/
theorem predictions_foreseen (hon : cfg.bpredEnabled = true) {n : Nat} {c : Core}
    (hc : (boot cfg imem dmem rf).ticks n = some c) :
    let log := (boot cfg imem dmem rf).checked n
    c.bpred = some ((predictorOf cfg).learnAll log) ∧
      ∀ before x after, log = before ++ x :: after → ∃ seen late, before = seen ++ late ∧
        late.length ≤ 2 ∧ (∀ y ∈ late, y.taken = y.predicted) ∧
        x.predicted = (((predictorOf cfg).learnAll seen).predict x.pc).taken := by
  intro log
  have hquiet := quiet_boot cfg imem dmem rf
  rcases Pipe.audited_of_ticks (learning_boot hon imem dmem rf) (fetched_boot cfg imem dmem rf)
    (view_of_ticks hquiet hc) with ⟨hl, -, ha⟩
  rw [← checked_view hquiet] at hl ha
  refine ⟨hl.bpred, fun before x after hlog => ?_⟩
  rcases ha.foreseen before x after hlog with ⟨seen, late, hsplit, hlen, hright, hp⟩
  refine ⟨seen, late, hsplit, hlen, fun y hy => ?_, hp⟩
  simpa [Check.wrong] using hright y hy

/-- The third jump of a loop of one jump. -/
theorem predictions_foreseen_selfLoop :
    ∃ seen late, ((boot predicting selfLoop (fun _ => 0) RegFile.zero).checked 9).take 2 =
        seen ++ late ∧ late.length ≤ 2 ∧
      (((predictorOf predicting).learnAll seen).predict 0).taken = true := by
  rcases Option.isSome_iff_exists.mp (by decide +kernel :
    ((boot predicting selfLoop (fun _ => 0) RegFile.zero).ticks 9).isSome = true) with ⟨c, hc⟩
  have hsplit : (boot predicting selfLoop (fun _ => 0) RegFile.zero).checked 9 =
      ((boot predicting selfLoop (fun _ => 0) RegFile.zero).checked 9).take 2 ++
        { pc := 0, op := .jal, taken := true, target := 0, predicted := true } ::
          ((boot predicting selfLoop (fun _ => 0) RegFile.zero).checked 9).drop 3 := by
    decide +kernel
  rcases (predictions_foreseen rfl hc).2 _ _ _ hsplit with ⟨seen, late, hseen, hlen, -, hp⟩
  exact ⟨seen, late, hseen, hlen, hp.symm⟩

end Core

end CpuSim
