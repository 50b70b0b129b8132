import CpuSim.Base.Hysteresis
import CpuSim.Rtl.Foresight
import Mathlib.Algebra.BigOperators.Group.Finset.Piecewise
import Mathlib.Algebra.Order.BigOperators.Group.Finset

/-!
# How often the predictor is wrong

As long as no two branches share an entry, the predictor is one guesser for each branch and each
JAL, and it guesses from late news (`Guesser.Informed`). So a branch is mispredicted at most twice
for each time that it goes the way it seldom goes, and once more, a JAL once, and a JALR always
(`mispredicts_bounded`).
-/

namespace CpuSim

open Rv32i

/-! ## Turns -/

/-- An instruction and the way it goes. -/
structure Turn where
  pc : Word
  op : Op
  taken : Bool
  deriving DecidableEq, Repr

def Check.turn (x : Check) : Turn := ⟨x.pc, x.op, x.taken⟩

namespace Turn

/-- The branches and jumps among some turns, by pc and op. -/
def sites (l : List Turn) : Finset (Word × Op) :=
  ((l.filter fun t => isControl t.op).map fun t => (t.pc, t.op)).toFinset

/-- The ways the instruction at `pc` goes. -/
def waysAt (l : List Turn) (pc : Word) : List Bool := (l.filter fun t => t.pc = pc).map taken

/-- What an instruction costs in mispredicts: a branch, twice the times it goes the way it seldom
    goes, and one more if that is not-taken; a JAL, one; a JALR, one each time. -/
def siteCost (op : Op) (ways : List Bool) : Nat :=
  if isCondBranch op then min (2 * ways.count true) (2 * ways.count false + 1)
  else if op = .jal then 1 else ways.length

/-- What all of them cost. -/
def cost (l : List Turn) : Nat := ∑ x ∈ sites l, siteCost x.2 (waysAt l x.1)

/-- No two of the branches and JALs share a BTB entry, no two of the branches a counter. -/
def Apart (bp : BranchPredictor) (l : List Turn) : Prop :=
  ∀ t ∈ l, ∀ u ∈ l, isControl t.op = true → isControl u.op = true → t.op ≠ .jalr → u.op ≠ .jalr →
    t.pc ≠ u.pc → bp.btbIndex t.pc ≠ bp.btbIndex u.pc ∧
      (isCondBranch t.op = true → isCondBranch u.op = true →
        bp.bhtIndex t.pc ≠ bp.bhtIndex u.pc)

instance (bp : BranchPredictor) (l : List Turn) : Decidable (Apart bp l) := by
  unfold Apart
  infer_instance

end Turn

/-! ## Two guessers -/

namespace BranchPredictor

/-- A counter of the BHT. -/
def counterGuesser : Guesser Nat where
  guess c := decide (2 ≤ c)
  train c taken := bump taken c

/-- A BTB entry of a JAL: it is there, or it is not. -/
def jalGuesser : Guesser Bool where
  guess known := known
  train _ _ := true

theorem counter_toward_taken : counterGuesser.Hysteresis true fun c => 2 - c where
  guess c := by
    simp [counterGuesser]
    omega
  toward c := by
    simp only [counterGuesser, bump, if_true]
    split <;> omega
  away c := by
    simp only [counterGuesser, bump, Bool.not_true, Bool.false_eq_true, if_false]
    omega

theorem counter_toward_notTaken : counterGuesser.Hysteresis false fun c => c - 1 where
  guess c := by
    simp [counterGuesser]
    omega
  toward c := by
    simp [counterGuesser, bump]
  away c := by
    simp only [counterGuesser, bump, Bool.not_false, if_true]
    split <;> omega

theorem jal_toward_taken : jalGuesser.Hysteresis true fun known => if known then 0 else 1 where
  guess known := by cases known <;> simp [jalGuesser]
  toward known := by simp [jalGuesser]
  away known := by simp [jalGuesser]

/-! ## One site of the tables -/

/-- What a log has on the instruction at `pc`: the ways it went, and its predictions. -/
def siteLog (l : List Check) (pc : Word) : List (Bool × Bool) :=
  (l.filter fun x => x.pc = pc).map fun x => (x.taken, x.predicted)

theorem siteLog_append (l l' : List Check) (pc : Word) :
    siteLog (l ++ l') pc = siteLog l pc ++ siteLog l' pc := by
  simp [siteLog]

variable {bp : BranchPredictor} {pc : Word} {l : List Check} {op : Op}

/-- Training keeps the layout of the tables. -/
structure SameLayout (bp bp' : BranchPredictor) : Prop where
  bhtMask : bp'.bhtMask = bp.bhtMask
  btbMask : bp'.btbMask = bp.btbMask
  bits : bp'.btbIndexBits = bp.btbIndexBits
  bht : bp'.bht.length = bp.bht.length
  btb : bp'.btb.length = bp.btb.length

theorem sameLayout_learnAll (bp : BranchPredictor) (l : List Check) :
    SameLayout bp (bp.learnAll l) := by
  induction l using List.reverseRecOn with
  | nil => exact ⟨rfl, rfl, rfl, rfl, rfl⟩
  | append_singleton l x ih =>
    rw [learnAll_concat]
    unfold learn
    split
    · refine ⟨ih.bhtMask, ih.btbMask, ih.bits, ?_, ?_⟩
      · change (if isCondBranch x.op then _ else _ : List Nat).length = _
        split
        · rw [List.length_set, ih.bht]
        · exact ih.bht
      · change (List.set _ _ _).length = _
        rw [List.length_set, ih.btb]
    · exact ih

theorem SameLayout.btbIndex {bp' : BranchPredictor} (h : SameLayout bp bp') (pc : Word) :
    bp'.btbIndex pc = bp.btbIndex pc := by
  unfold BranchPredictor.btbIndex
  rw [h.btbMask]

theorem SameLayout.bhtIndex {bp' : BranchPredictor} (h : SameLayout bp bp') (pc : Word) :
    bp'.bhtIndex pc = bp.bhtIndex pc := by
  unfold BranchPredictor.bhtIndex
  rw [h.bhtMask]

/-- Training with an instruction that has another BTB entry. -/
theorem entry_update_of_apart {a target : Word} {isCond taken : Bool}
    (h : bp.btbIndex a ≠ bp.btbIndex pc) :
    (bp.update a isCond taken target).entry pc = bp.entry pc := by
  change (bp.btb.set (bp.btbIndex a) _).getD (bp.btbIndex pc) {} = bp.btb.getD (bp.btbIndex pc) {}
  rw [List.getD_eq_getElem?_getD, List.getElem?_set_ne h, List.getD_eq_getElem?_getD]

/-- Training with an instruction that has another counter, or none. -/
theorem counter_update_of_apart {a target : Word} {isCond taken : Bool}
    (h : isCond = true → bp.bhtIndex a ≠ bp.bhtIndex pc) :
    (bp.update a isCond taken target).counter pc = bp.counter pc := by
  change (if isCond then bp.bht.set (bp.bhtIndex a) _ else bp.bht).getD (bp.bhtIndex pc) 0 =
    bp.bht.getD (bp.bhtIndex pc) 0
  cases isCond with
  | false => rfl
  | true =>
    rw [if_pos rfl, List.getD_eq_getElem?_getD, List.getElem?_set_ne (h rfl),
      List.getD_eq_getElem?_getD]

/-- Training with the instruction at `pc` itself. -/
theorem entry_update_self {target : Word} {isCond taken : Bool}
    (h : bp.btbIndex pc < bp.btb.length) :
    (bp.update pc isCond taken target).entry pc = ⟨true, bp.btbTag pc, target, isCond⟩ := by
  change (bp.btb.set (bp.btbIndex pc) _).getD (bp.btbIndex pc) {} = _
  rw [List.getD_eq_getElem?_getD, List.getElem?_set_self h, Option.getD_some]

theorem counter_update_self {target : Word} {taken : Bool}
    (h : bp.bhtIndex pc < bp.bht.length) :
    (bp.update pc true taken target).counter pc = bump taken (bp.counter pc) := by
  change (bp.bht.set (bp.bhtIndex pc) _).getD (bp.bhtIndex pc) 0 = _
  rw [List.getD_eq_getElem?_getD, List.getElem?_set_self h, Option.getD_some]

/-- A new predictor has room for every pc. -/
theorem index_lt_new {bht btb : Nat} (hbht : 0 < bht) (hbtb : 0 < btb) (pc : Word) :
    (new bht btb).btbIndex pc < (new bht btb).btb.length ∧
      (new bht btb).bhtIndex pc < (new bht btb).bht.length := by
  have hle : ∀ n, ((pc >>> 2) &&& BitVec.ofNat 32 n).toNat ≤ n := by
    intro n
    rw [BitVec.toNat_and, BitVec.toNat_ofNat]
    exact Nat.and_le_right.trans (Nat.mod_le _ _)
  constructor
  · have := hle (btb - 1)
    simp only [new, btbIndex, List.length_replicate]
    omega
  · have := hle (bht - 1)
    simp only [new, bhtIndex, List.length_replicate]
    omega

/-- What the tables say about the instruction at `pc`: what its two guessers have learnt. -/
structure Site (bp : BranchPredictor) (l : List Check) (pc : Word) (op : Op) : Prop where
  known : (bp.entry pc).valid = jalGuesser.trained false (siteLog l pc)
  entry : (bp.entry pc).valid = true →
    (bp.entry pc).tag = bp.btbTag pc ∧ (bp.entry pc).cond = isCondBranch op
  counter : isCondBranch op = true → bp.counter pc = counterGuesser.trained 1 (siteLog l pc)

theorem site_new {bht btb : Nat} (hbht : 0 < bht) (hbtb : 0 < btb) (pc : Word) (op : Op) :
    (new bht btb).Site [] pc op := by
  rcases index_lt_new hbht hbtb pc with ⟨hb, hc⟩
  have hentry : (new bht btb).entry pc = {} := by
    change (List.replicate btb _).getD _ _ = _
    rw [List.getD_eq_getElem?_getD]
    rw [show (new bht btb).btb.length = btb from List.length_replicate] at hb
    simp [hb]
  refine ⟨by rw [hentry]; rfl, fun hv => (by rw [hentry] at hv; cases hv), fun _ => ?_⟩
  change (List.replicate bht 1).getD _ _ = _
  rw [show (new bht btb).bht.length = bht from List.length_replicate] at hc
  rw [List.getD_eq_getElem?_getD]
  simp [hc, siteLog, Guesser.trained]

/-- Nothing of the log but the instruction at `pc` itself, which is an `op`, has its entries. -/
structure Alone (bp : BranchPredictor) (l : List Check) (pc : Word) (op : Op) : Prop where
  own : ∀ x ∈ l, x.pc = pc → x.op = op
  btb : ∀ x ∈ l, x.trains = true → x.pc ≠ pc → bp.btbIndex x.pc ≠ bp.btbIndex pc
  bht : ∀ x ∈ l, isCondBranch x.op = true → isCondBranch op = true → x.pc ≠ pc →
    bp.bhtIndex x.pc ≠ bp.bhtIndex pc

theorem Alone.sublist {l' : List Check} (h : bp.Alone l pc op) (hsub : l' ⊆ l) :
    bp.Alone l' pc op :=
  ⟨fun x hx => h.own x (hsub hx), fun x hx => h.btb x (hsub hx), fun x hx => h.bht x (hsub hx)⟩

theorem Site.learn (h : (bp.learnAll l).Site l pc op) {x : Check} (ha : bp.Alone (l ++ [x]) pc op)
    (hop : isCondBranch op = true ∨ op = .jal) (hb : bp.btbIndex pc < bp.btb.length)
    (hc : bp.bhtIndex pc < bp.bht.length) : (bp.learnAll (l ++ [x])).Site (l ++ [x]) pc op := by
  have hlay := sameLayout_learnAll bp l
  have hx : x ∈ l ++ [x] := by simp
  rw [learnAll_concat]
  unfold BranchPredictor.learn
  by_cases hpc : x.pc = pc
  · have hxop : x.op = op := ha.own x hx hpc
    have htrains : x.trains = true := by
      unfold Check.trains
      rw [hxop]
      simpa using hop
    have hlog : siteLog (l ++ [x]) pc = siteLog l pc ++ [(x.taken, x.predicted)] := by
      rw [siteLog_append]
      simp [siteLog, hpc]
    rw [← hlay.btbIndex, ← hlay.btb] at hb
    rw [← hlay.bhtIndex, ← hlay.bht] at hc
    rw [if_pos htrains, hpc, hxop]
    refine ⟨?_, ?_, ?_⟩
    · rw [entry_update_self hb, hlog, Guesser.trained_append]
      rfl
    · rw [entry_update_self hb]
      exact fun _ => ⟨rfl, rfl⟩
    · intro hcond
      rw [hlog, Guesser.trained_append, ← h.counter hcond, hcond, counter_update_self hc]
      rfl
  · have hlog : siteLog (l ++ [x]) pc = siteLog l pc := by
      rw [siteLog_append]
      simp [siteLog, hpc]
    have hkeep : (bp.learnAll l).Site (l ++ [x]) pc op :=
      ⟨hlog ▸ h.known, h.entry, hlog ▸ h.counter⟩
    split
    · rename_i htrains
      have hbtb := ha.btb x hx htrains hpc
      rw [← hlay.btbIndex, ← hlay.btbIndex] at hbtb
      refine ⟨?_, ?_, ?_⟩
      · rw [entry_update_of_apart hbtb]
        exact hkeep.known
      · rw [entry_update_of_apart hbtb]
        exact hkeep.entry
      · intro hcond
        rw [counter_update_of_apart]
        · exact hkeep.counter hcond
        · intro hxc
          rw [hlay.bhtIndex, hlay.bhtIndex]
          exact ha.bht x hx hxc hcond hpc
    · exact hkeep

/-- The tables of a new predictor after any training. -/
theorem site_learnAll {bht btb : Nat} (hbht : 0 < bht) (hbtb : 0 < btb)
    (ha : (new bht btb).Alone l pc op) (hop : isCondBranch op = true ∨ op = .jal) :
    ((new bht btb).learnAll l).Site l pc op := by
  rcases index_lt_new hbht hbtb pc with ⟨hb, hc⟩
  induction l using List.reverseRecOn with
  | nil => exact site_new hbht hbtb pc op
  | append_singleton l x ih =>
    exact (ih (ha.sublist (List.subset_append_left _ _))).learn ha hop hb hc

/-! ## Predictions of one site -/

theorem trained_jal (l : List (Bool × Bool)) :
    jalGuesser.trained false l = !l.isEmpty := by
  cases l with
  | nil => rfl
  | cons x l =>
    induction l using List.reverseRecOn with
    | nil => rfl
    | append_singleton l y _ =>
      rw [← List.cons_append, Guesser.trained_append]
      simp [Guesser.trained, jalGuesser]

theorem Site.predict_branch (h : bp.Site l pc op) (hop : isCondBranch op = true) :
    (bp.predict pc).taken = counterGuesser.guess (counterGuesser.trained 1 (siteLog l pc)) := by
  unfold predict
  dsimp only
  cases hv : (bp.entry pc).valid with
  | true =>
    rcases h.entry hv with ⟨htag, hcond⟩
    simp [htag, hcond, hop, h.counter hop, counterGuesser]
  | false =>
    -- Nothing has been trained, so the counter is still the first one.
    have hlog : siteLog l pc = [] := by
      have hknown := h.known
      rw [hv, trained_jal] at hknown
      simpa using hknown.symm
    simp [hlog, Guesser.trained, counterGuesser]

theorem Site.predict_jal (h : bp.Site l pc op) (hop : op = .jal) :
    (bp.predict pc).taken = jalGuesser.guess (jalGuesser.trained false (siteLog l pc)) := by
  change _ = jalGuesser.trained false (siteLog l pc)
  rw [← h.known]
  unfold predict
  dsimp only
  cases hv : (bp.entry pc).valid with
  | true =>
    rcases h.entry hv with ⟨htag, hcond⟩
    have hnot : isCondBranch op = false := by rw [hop]; rfl
    simp [htag, hcond, hnot]
  | false => simp

/-- Where each prediction for `pc` is a guesser's, the log of `pc` is informed. -/
theorem informed_siteLog {σ : Type} {g : Guesser σ} {s : σ} {log : List Check}
    (hlog : ∀ before x after, log = before ++ x :: after →
      bp.Foreseen before x.pc x.predicted 2)
    (hguess : ∀ seen late, log = seen ++ late →
      ((bp.learnAll seen).predict pc).taken = g.guess (g.trained s (siteLog seen pc))) :
    g.Informed s (siteLog log pc) := by
  intro before y after hsite
  unfold siteLog at hsite
  rcases List.map_eq_append_iff.mp hsite with ⟨l₁, l₂, hfilter, rfl, hl₂⟩
  rcases List.map_eq_cons_iff.mp hl₂ with ⟨x, l₃, rfl, rfl, rfl⟩
  rcases List.filter_eq_append_iff.mp hfilter with ⟨m₁, m₂, rfl, rfl, hm₂⟩
  rcases List.filter_eq_cons_iff.mp hm₂ with ⟨n₁, n₂, rfl, hnone, hx, -⟩
  rcases hlog (m₁ ++ n₁) x n₂ (by simp) with ⟨seen, late, hsplit, -, hright, hp⟩
  have hpc : x.pc = pc := by simpa using hx
  have hn₁ : siteLog n₁ pc = [] := by
    have hempty : n₁.filter (fun x => x.pc = pc) = [] := List.filter_eq_nil_iff.mpr hnone
    simp [siteLog, hempty]
  refine ⟨siteLog seen pc, siteLog late pc, ?_, ?_, ?_⟩
  · rw [← siteLog_append, ← hsplit, siteLog_append, hn₁, List.append_nil]
    rfl
  · intro z hz
    rcases List.mem_map.mp hz with ⟨x, hx, rfl⟩
    simpa [Check.wrong] using hright x (List.mem_filter.mp hx).1
  · rw [hpc] at hp
    rw [← hguess seen (late ++ x :: n₂) (by
      rw [← List.append_assoc, hsplit, List.append_assoc])]
    exact hp

theorem wrongs_siteLog (l : List Check) (pc : Word) :
    Guesser.wrongs (siteLog l pc) = l.countP fun x => x.pc = pc && x.wrong := by
  unfold Guesser.wrongs siteLog
  rw [List.countP_map, List.countP_filter]
  exact List.countP_congr fun x _ => by simp [Check.wrong, and_comm]

theorem others_siteLog (l : List Check) (pc : Word) (b : Bool) :
    Guesser.others b (siteLog l pc) = (Turn.waysAt (l.map Check.turn) pc).count (!b) := by
  unfold Guesser.others siteLog Turn.waysAt List.count
  rw [List.filter_map, List.map_map, List.countP_map, List.countP_map]
  refine List.countP_congr fun x _ => ?_
  cases x with
  | mk pc op taken target predicted => cases taken <;> cases b <;> simp [Check.turn]

theorem length_siteLog (l : List Check) (pc : Word) :
    (siteLog l pc).length = (Turn.waysAt (l.map Check.turn) pc).length := by
  unfold siteLog Turn.waysAt
  rw [List.filter_map, List.length_map, List.length_map, List.length_map]
  rfl

/-! ## The bound -/

/-- What a log counts, site by site. -/
theorem countP_eq_sum {α β : Type} [DecidableEq β] {P : α → Bool} {f : α → β} {s : Finset β}
    {l : List α} (h : ∀ x ∈ l, P x = true → f x ∈ s) :
    l.countP P = ∑ b ∈ s, l.countP fun x => P x && f x == b := by
  induction l with
  | nil => simp
  | cons x l ih =>
    have hrest := ih fun y hy => h y (by simp [hy])
    have hx := h x (by simp)
    simp only [List.countP_cons, Finset.sum_add_distrib, hrest]
    congr 1
    cases hP : P x with
    | false => simp
    | true => simp [hx hP]

variable {log : List Check} {bht btb : Nat}

/-- An entry of its own for each site. -/
theorem alone_of_apart (hops : ∀ x ∈ log, ∀ y ∈ log, x.pc = y.pc → x.op = y.op)
    (hapart : Turn.Apart bp (log.map Check.turn)) {z : Check} (hz : z ∈ log)
    (hop : isCondBranch z.op = true ∨ z.op = .jal) : bp.Alone log z.pc z.op := by
  have hcontrol : ∀ x : Check, isCondBranch x.op = true ∨ x.op = .jal →
      isControl x.op = true ∧ x.op ≠ .jalr := by
    intro x hx
    rcases hx with hx | hx
    · refine ⟨by simp [isControl, hx], ?_⟩
      intro hj
      rw [hj] at hx
      cases hx
    · simp [hx, isControl]
  have hpair := fun x hx => hapart (Check.turn x) (List.mem_map_of_mem hx) (Check.turn z)
    (List.mem_map_of_mem hz)
  rcases hcontrol z hop with ⟨hzc, hzj⟩
  refine ⟨fun x hx hpc => hops x hx z hz hpc, fun x hx htrains hpc => ?_,
    fun x hx hcond hzcond hpc => ?_⟩
  · rcases hcontrol x (by simpa [Check.trains] using htrains) with ⟨hxc, hxj⟩
    exact (hpair x hx hxc hzc hxj hzj hpc).1
  · rcases hcontrol x (.inl hcond) with ⟨hxc, hxj⟩
    exact (hpair x hx hxc hzc hxj hzj hpc).2 hcond hzcond

/-- The mispredicts of one branch or jump. -/
theorem wrongs_le_siteCost (hbht : 0 < bht) (hbtb : 0 < btb)
    (hlog : ∀ before x after, log = before ++ x :: after →
      (new bht btb).Foreseen before x.pc x.predicted 2)
    (hops : ∀ x ∈ log, ∀ y ∈ log, x.pc = y.pc → x.op = y.op)
    (hjumps : ∀ x ∈ log, x.op = .jal → x.taken = true)
    (hapart : Turn.Apart (new bht btb) (log.map Check.turn)) {z : Check} (hz : z ∈ log) :
    Guesser.wrongs (siteLog log z.pc) ≤
      Turn.siteCost z.op (Turn.waysAt (log.map Check.turn) z.pc) := by
  unfold Turn.siteCost
  have hsite : ∀ seen late, log = seen ++ late → isCondBranch z.op = true ∨ z.op = .jal →
      ((new bht btb).learnAll seen).Site seen z.pc z.op := by
    intro seen late hsplit hop
    have halone := (alone_of_apart hops hapart hz hop).sublist
      (hsplit ▸ List.subset_append_left seen late)
    exact site_learnAll hbht hbtb halone hop
  split
  · rename_i hcond
    have hinformed : counterGuesser.Informed 1 (siteLog log z.pc) :=
      informed_siteLog hlog fun seen late hsplit =>
        (hsite seen late hsplit (.inl hcond)).predict_branch hcond
    have htaken := counter_toward_taken.wrongs_le hinformed
    have hnot := counter_toward_notTaken.wrongs_le hinformed
    rw [others_siteLog] at htaken hnot
    simp only [Bool.not_true, Bool.not_false] at htaken hnot
    omega
  · split
    · rename_i hjal
      have hinformed : jalGuesser.Informed false (siteLog log z.pc) :=
        informed_siteLog hlog fun seen late hsplit =>
          (hsite seen late hsplit (.inr hjal)).predict_jal hjal
      have hwrongs := jal_toward_taken.wrongs_le hinformed
      have hothers : Guesser.others true (siteLog log z.pc) = 0 := by
        refine List.countP_eq_zero.mpr fun y hy => ?_
        rcases List.mem_map.mp hy with ⟨x, hx, rfl⟩
        rcases List.mem_filter.mp hx with ⟨hx, hpc⟩
        have hxop : x.op = .jal := (hops x hx z hz (by simpa using hpc)).trans hjal
        simp [hjumps x hx hxop]
      rw [hothers] at hwrongs
      exact hwrongs
    · rw [← length_siteLog]
      exact List.countP_le_length

/-- All mispredicts of a log. -/
theorem countP_wrong_le_cost (hbht : 0 < bht) (hbtb : 0 < btb)
    (hlog : ∀ before x after, log = before ++ x :: after →
      (new bht btb).Foreseen before x.pc x.predicted 2)
    (hops : ∀ x ∈ log, ∀ y ∈ log, x.pc = y.pc → x.op = y.op)
    (hjumps : ∀ x ∈ log, x.op = .jal → x.taken = true)
    (hapart : Turn.Apart (new bht btb) (log.map Check.turn)) :
    (log.countP fun x => isControl x.op && x.wrong) ≤ Turn.cost (log.map Check.turn) := by
  rw [countP_eq_sum (f := fun x => (x.pc, x.op)) (s := Turn.sites (log.map Check.turn))]
  · refine Finset.sum_le_sum fun site hsite => ?_
    rcases List.mem_map.mp (List.mem_toFinset.mp hsite) with ⟨t, ht, rfl⟩
    rcases List.mem_map.mp (List.mem_filter.mp ht).1 with ⟨z, hz, rfl⟩
    refine le_trans ?_ (wrongs_le_siteCost hbht hbtb hlog hops hjumps hapart hz)
    rw [wrongs_siteLog]
    refine List.countP_mono_left fun x _ hx => ?_
    simp only [Bool.and_eq_true, beq_iff_eq, Prod.mk.injEq] at hx
    simp only [Bool.and_eq_true, decide_eq_true_eq]
    exact ⟨hx.2.1, hx.1.2⟩
  · intro x hx hp
    rw [Bool.and_eq_true] at hp
    refine List.mem_toFinset.mpr (List.mem_map.mpr ⟨x.turn, ?_, rfl⟩)
    exact List.mem_filter.mpr ⟨List.mem_map_of_mem hx, hp.1⟩

end BranchPredictor

/-! ## The counter -/

namespace Pipe

variable {p q : Pipe}

theorem mispredicts_retired (p : Pipe) :
    p.retiredStats.branchMispredicts = p.stats.branchMispredicts := by
  unfold retiredStats
  split <;> rfl

theorem mispredicts_countBranch (s : SimStats) (redirect : Bool) :
    (s.countBranch redirect).branchMispredicts = s.branchMispredicts + redirect.toNat := by
  unfold SimStats.countBranch
  cases redirect <;> rfl

/-- A tick counts the branch or jump that leaves EX on it, if EX redirects. -/
theorem mispredicts_tick (ht : p.tick = some q) :
    q.stats.branchMispredicts =
      p.stats.branchMispredicts + p.checks.countP fun x => isControl x.op && x.wrong := by
  cases hh : p.halted with
  | true =>
    rw [eq_of_tick_of_halted hh ht, checks_of_halted hh]
    rfl
  | false =>
    rcases tick_cases hh ht with ⟨f, m, -, hm, ⟨hs, rfl⟩ | ⟨hs, rfl⟩⟩
    · rw [checks_of_stall ((mem_stalling hm).symm.trans hs)]
      exact mispredicts_retired p
    · rw [checks_of_flow hh ((mem_stalling hm).symm.trans hs)]
      change (if p.exec.control then p.retiredStats.countBranch p.exec.redirect
        else p.retiredStats).branchMispredicts = _
      rw [exec_control, ← mispredicts_retired p]
      unfold flowed
      cases hv : p.idEx.valid with
      | false => rfl
      | true =>
        rw [exec_op hv, Bool.true_and, (exec_check hv).1, if_pos rfl, List.countP_singleton]
        change (if isControl p.check.op then _ else _ : SimStats).branchMispredicts = _
        cases isControl p.check.op with
        | false => rfl
        | true =>
          rw [if_pos rfl, mispredicts_countBranch]
          cases p.check.wrong <;> rfl

theorem mispredicts_of_ticks {n : Nat} (hq : p.ticks n = some q) :
    q.stats.branchMispredicts = p.stats.branchMispredicts +
      (p.checked n).countP fun x => isControl x.op && x.wrong := by
  induction n generalizing q with
  | zero =>
    simp only [ticks, Runs.run_zero, Option.some.injEq] at hq
    subst hq
    rfl
  | succ n ih =>
    rcases (Runs.run_succ_eq_some tick).mp hq with ⟨u, hu, huq⟩
    have hlog : p.checked (n + 1) = p.checked n ++ u.checks := Runs.log_succ_of_run tick checks hu
    rw [mispredicts_tick huq, ih hu, hlog, List.countP_append, Nat.add_assoc]

end Pipe

namespace Core

open BranchPredictor

variable {cfg : SimConfig} {imem dmem : Nat → Byte} {rf : RegFile} {n : Nat} {c : Core}

/-- The audit of a run. -/
theorem audited_boot (hon : cfg.bpredEnabled = true)
    (hc : (boot cfg imem dmem rf).ticks n = some c) :
    Pipe.Audited (predictorOf cfg) (boot cfg imem dmem rf).iport.ram
      ((boot cfg imem dmem rf).checked n) := by
  have hquiet := quiet_boot cfg imem dmem rf
  rw [checked_view hquiet]
  exact (Pipe.audited_of_ticks (learning_boot hon imem dmem rf) (fetched_boot cfg imem dmem rf)
    (view_of_ticks hquiet hc)).2.2

/-- Whatever the memories and the caches, if no two of the branches and JALs that leave EX share
    an entry of the predictor, each of them is mispredicted so often at most: a branch, twice the
    times it is taken, and twice the times it is not, plus one; a JAL, once; a JALR, each time. -/
theorem mispredicts_bounded (hcfg : cfg.Valid) (hon : cfg.bpredEnabled = true)
    (hc : (boot cfg imem dmem rf).ticks n = some c)
    (hapart : Turn.Apart (predictorOf cfg)
      (((boot cfg imem dmem rf).checked n).map Check.turn)) :
    c.stats.branchMispredicts ≤
      Turn.cost (((boot cfg imem dmem rf).checked n).map Check.turn) := by
  have hquiet := quiet_boot cfg imem dmem rf
  have ha := audited_boot hon hc
  rcases hcfg.bpred hon with ⟨⟨i, hi⟩, ⟨j, hj⟩, -⟩
  have hcount := Pipe.mispredicts_of_ticks (view_of_ticks hquiet hc)
  rw [← checked_view hquiet] at hcount
  have hzero : (boot cfg imem dmem rf).view.stats.branchMispredicts = 0 := rfl
  rw [hzero, Nat.zero_add] at hcount
  change c.view.stats.branchMispredicts ≤ _
  rw [hcount]
  exact countP_wrong_le_cost (hi ▸ Nat.two_pow_pos i) (hj ▸ Nat.two_pow_pos j) ha.foreseen
    (fun x hx y hy hpc => by rw [ha.stored x hx, ha.stored y hy, hpc]) ha.jumps hapart

/-- `addi x1, x0, 3; addi x1, x1, -1; bne x1, x0, -4; ebreak`: a loop that runs three times. -/
def countdown : Nat → Byte :=
  halfwords [0x0093, 0x0030, 0x8093, 0xFFF0, 0x9EE3, 0xFE00, 0x0073, 0x0010]

theorem mispredicts_bounded_countdown :
    ∃ c, (boot predicting countdown (fun _ => 0) RegFile.zero).ticks 16 = some c ∧
      c.halted = true ∧ c.stats.branchMispredicts ≤ 3 := by
  rcases Option.map_eq_some_iff.mp (by decide +kernel :
    ((boot predicting countdown (fun _ => 0) RegFile.zero).ticks 16).map halted = some true) with
    ⟨c, hc, hh⟩
  have hle := mispredicts_bounded predicting_valid rfl hc (by decide +kernel)
  have hcost : Turn.cost (((boot predicting countdown (fun _ => 0) RegFile.zero).checked 16).map
      Check.turn) = 3 := by decide +kernel
  exact ⟨c, hc, hh, hcost ▸ hle⟩

end Core

end CpuSim
