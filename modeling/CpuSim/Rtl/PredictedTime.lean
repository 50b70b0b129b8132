import CpuSim.Rtl.Mispredicts
import CpuSim.Rtl.Oracle

/-!
# A predictor's cycles, bounded by the program

`CpuSim.Rtl.Oracle` charges a run with a predictor two cycles for each redirect of that run. What
EX checks up to the halting instruction are the instructions of the sequential machine
(`Followed`), so `Turn.cost` of these bounds the redirects, and the cycle count is bounded by the
program alone.
-/

namespace CpuSim

open Rv32i Machine

/-! ## The turns of the machine -/

namespace Machine

/-- Instruction `i` of the machine and the way it goes. -/
def turnAt (code : ByteMap) (s : Machine) (i : Nat) : Turn :=
  ⟨(s.after code i).pc, ((s.after code i).insn code).op, takenAt code s i⟩

/-- The first `n` instructions. -/
def turns (code : ByteMap) (s : Machine) (n : Nat) : List Turn := (List.range n).map (turnAt code s)

theorem isControl_of_taken {s : Machine} {i : Instruction} (h : s.taken i = true) :
    isControl i.op = true := by
  unfold taken at h
  unfold isControl isCondBranch
  cases hop : i.op <;> simp [hop] at h ⊢

end Machine

namespace Pipe

variable {p q : Pipe} {code : ByteMap} {s : Machine} {log : List Check} {retired : Nat}
  {res : List (Word × Bool)}

theorem resolves_eq_checks (p : Pipe) :
    p.resolves = p.checks.map fun x => (x.pc, x.wrong) := by
  unfold resolves checks
  cases hv : p.idEx.valid with
  | false => simp
  | true =>
    split
    · simp [(exec_check hv).1, check]
    · rfl

theorem resolved_eq_checked (p : Pipe) (n : Nat) :
    p.resolved n = (p.checked n).map fun x => (x.pc, x.wrong) := by
  induction n with
  | zero => rfl
  | succ n ih =>
    change p.resolved n ++ _ = (p.checked n ++ _).map _
    rw [List.map_append, ih]
    congr 1
    cases h : Runs.run tick n p with
    | none => rfl
    | some u => exact resolves_eq_checks u

/-- As far as the machine runs, the checks are its instructions, and only its branches and jumps
    are predicted wrong. -/
structure Followed (code : ByteMap) (s : Machine) (log : List Check) : Prop where
  turn : ∀ (i : Nat) (x : Check), log[i]? = some x → Live code i s → x.turn = turnAt code s i
  control : ∀ (i : Nat) (x : Check), log[i]? = some x → Live code i s → x.wrong = true →
    isControl x.op = true

theorem Followed.flowed (h : Followed code s log) (hlen : log.length = res.length)
    (hot : p.OnTime code s retired res) (htr : p.Tracks code (s.after code retired)) :
    Followed code s (log ++ p.flowed) := by
  -- What the last check is when the machine gets there.
  have hlast : ∀ (i : Nat) (x : Check), (log ++ p.flowed)[i]? = some x → log.length ≤ i →
      Live code i s → x.turn = turnAt code s i ∧ (x.wrong = true → isControl x.op = true) := by
    intro i x hx hi hl
    rw [List.getElem?_append_right hi] at hx
    unfold Pipe.flowed at hx
    cases hv : p.idEx.valid with
    | false => simp [hv] at hx
    | true =>
      rw [if_pos hv, List.getElem?_singleton] at hx
      split at hx
      swap
      · cases hx
      rename_i hzero
      obtain rfl : p.check = x := Option.some.inj hx
      obtain rfl : i = res.length := by omega
      rw [hot.count] at hl
      have hxl := htr.exLive_of_live hl
      have hholds := htr.idEx_holds hv hxl
      have hat := atEx_eq_after code s p retired
      rw [← hot.count] at hat
      rw [hat] at hholds
      have htaken : p.exec.out.branchTaken = takenAt code s res.length := by
        rw [htr.exec_eq hv hxl, hat]
        exact executeAt_branchTaken hholds
      refine ⟨?_, fun hwrong => ?_⟩
      · unfold Check.turn turnAt check
        rw [htaken, hholds.op, hholds.pc]
        exact congrArg (fun pc => Turn.mk pc _ _) (decode_pc _ _)
      · cases hp : p.idEx.predictedTaken with
        | true =>
          change isControl p.idEx.op = true
          rcases hot.predicted hv hxl hp with hop | hop <;> simp [isControl, hop]
        | false =>
          have hgoes : p.exec.out.branchTaken = true := by
            simpa [Check.wrong, check, hp] using hwrong
          change isControl p.idEx.op = true
          rw [hholds.op]
          exact isControl_of_taken (htaken.symm.trans hgoes)
  constructor
  · intro i x hx hl
    by_cases hi : i < log.length
    · rw [List.getElem?_append_left hi] at hx
      exact h.turn i x hx hl
    · exact (hlast i x hx (by omega) hl).1
  · intro i x hx hl
    by_cases hi : i < log.length
    · rw [List.getElem?_append_left hi] at hx
      exact h.control i x hx hl
    · exact (hlast i x hx (by omega) hl).2

/-- Every running state of an ideal run. -/
theorem followed_of_ticks (hi : p.Ideal) (hot : p.OnTime code s 0 [])
    (href : ∀ n q, p.ticks n = some q → q.Refines (p.retired n) code s) {n : Nat}
    (hq : p.ticks n = some q) (hrun : q.halted = false) : Followed code s (p.checked n) := by
  induction n generalizing q with
  | zero => exact ⟨fun i x hx => (by cases hx), fun i x hx => (by cases hx)⟩
  | succ n ih =>
    rcases (Runs.run_succ_eq_some tick).mp hq with ⟨u, hu, huq⟩
    rcases running_of_tick huq hrun with ⟨huh, -⟩
    rcases onTime_of_ticks hi hot href hu huh with ⟨hui, huo⟩
    have hlog : p.checked (n + 1) = p.checked n ++ u.checks := Runs.log_succ_of_run tick checks hu
    rcases (href n u hu).phase with ⟨-, htr⟩ | hstop
    · rw [hlog, checks_of_flow huh (stalls_of_prompt hui.2)]
      refine (ih hu huh).flowed ?_ huo htr
      rw [resolved_eq_checked, List.length_map]
    · rw [hstop.halted] at huh
      cases huh

/-- So the first checks are the first instructions. -/
theorem Followed.take_turns (h : Followed code s log) {k : Nat} (hk : k ≤ log.length)
    (hlive : Live code k s) : (log.take k).map Check.turn = turns code s k := by
  apply List.ext_getElem?
  intro i
  unfold turns
  rw [List.getElem?_map, List.getElem?_map]
  by_cases hi : i < k
  · rw [List.getElem?_take_of_lt hi, List.getElem?_range hi,
      List.getElem?_eq_getElem (by omega : i < log.length)]
    exact congrArg some
      (h.turn i _ (List.getElem?_eq_getElem (by omega)) (hlive.mono (by omega)))
  · rw [List.getElem?_eq_none (by rw [List.length_take]; omega),
      List.getElem?_eq_none (by rw [List.length_range]; omega)]
    rfl

theorem Followed.take_wrong (h : Followed code s log) {k : Nat} (hlive : Live code k s) :
    (log.take k).countP Check.wrong =
      (log.take k).countP fun x => isControl x.op && x.wrong := by
  refine List.countP_congr fun x hx => ?_
  rcases List.mem_iff_getElem?.mp hx with ⟨i, hi⟩
  rw [List.getElem?_take] at hi
  split at hi
  swap
  · cases hi
  rename_i hik
  have hcontrol := h.control i x hi (hlive.mono (by omega))
  cases hw : x.wrong with
  | false => simp
  | true => simp [hcontrol hw]

/-- The beginning of an audited log. -/
theorem Audited.of_append {start : BranchPredictor} {ram : FlatMem} {more : List Check}
    (h : Audited start ram (log ++ more)) : Audited start ram log := by
  refine ⟨fun before x after hl => ?_, fun x hx => h.stored x (List.mem_append_left _ hx),
    fun x hx => h.jumps x (List.mem_append_left _ hx)⟩
  exact h.foreseen before x (after ++ more) (by rw [hl]; simp)

end Pipe

namespace Core

variable {cfg : SimConfig} {imem dmem : Nat → Byte} {rf : RegFile}

/-- What EX has checked when a run without data stalls has halted: first of all the instructions
    of the machine up to the halting one. -/
theorem followed_at_halt (hcfg : (promptData cfg).Valid) (hfetch : PromptFetch cfg)
    (halign : cfg.bpredEnabled = true → (reference cfg dmem rf).Aligned (imageOf cfg imem))
    {n : Nat} {c : Core} (hc : (boot (promptData cfg) imem dmem rf).ticks n = some c)
    (hh : c.halted = true) :
    ∃ log more, (boot (promptData cfg) imem dmem rf).checked n = log ++ more ∧
      Pipe.Followed (imageOf cfg imem) (reference cfg dmem rf) log ∧
      ((boot (promptData cfg) imem dmem rf).retired n).length ≤ log.length := by
  have hquiet := quiet_boot (promptData cfg) imem dmem rf
  have hcv := view_of_ticks hquiet hc
  have href := fun k q hq => @refines_boot (promptData cfg) imem dmem rf hcfg halign k q hq
  rcases Pipe.halting_tick_of_halted rfl hcv hh with ⟨j, r, hj, hr, hrr, hrh, hrc⟩
  have honTime := onTime_boot (promptData cfg) imem dmem rf (imageOf cfg imem)
    (reference cfg dmem rf)
  have hfollowed := Pipe.followed_of_ticks (ideal_boot hfetch.ideal) honTime href hr hrr
  have hcount := (Pipe.onTime_of_ticks (ideal_boot hfetch.ideal) honTime href hr hrr).2.count
  have hv := Pipe.valid_of_halting hrh
  rw [hv, Bool.toNat_true, Pipe.resolved_eq_checked, List.length_map] at hcount
  refine ⟨_, r.checks, ?_, hfollowed, ?_⟩
  · rw [checked_view hquiet]
    exact Pipe.log_of_halting_tick Pipe.checks hr hrc hh (Pipe.checks_of_halted hh) hj
  · have hretires : r.retires = [r.memWb] := by
      rw [Pipe.retires_of_running hrr, hv]
      rfl
    have hlog : (boot (promptData cfg) imem dmem rf).retired n =
        (boot (promptData cfg) imem dmem rf).view.retired j ++ [r.memWb] := by
      rw [retired_view hquiet, ← hretires]
      exact Pipe.log_of_halting_tick Pipe.retires hr hrc hh (Pipe.retires_of_halted hh) hj
    rw [hlog, List.length_append, List.length_singleton]
    omega

/-- With one cycle for each fetch and any data side, the cycles of a run with a predictor lie
    between two counts that the program alone decides: that without any mispredict, and that with
    the `Turn.cost` of its branches and jumps, if no two of these share an entry of the
    predictor. -/
theorem predicted_time_bounded (hcfg : cfg.Valid) (hfetch : PromptFetch cfg)
    (hon : cfg.bpredEnabled = true) (imem dmem : Nat → Byte) (rf : RegFile)
    (halign : (reference cfg dmem rf).Aligned (imageOf cfg imem))
    (hhalts : ∃ t, (boot (promptData cfg) imem dmem rf).HaltsAt t) :
    let code := imageOf cfg imem
    let s := reference cfg dmem rf
    ∃ k costs dport t, Live code k s ∧ (s.after code k).halts code = true ∧
      (IMemory.port Port).DrivesAll (s.accesses code (k + 1)) (boot cfg imem dmem rf).dport costs
        dport ∧
      (boot cfg imem dmem rf).HaltsAt t ∧
      k + 5 + loadUses code s k + stallTime costs ≤ t ∧
      (Turn.Apart (predictorOf cfg) (turns code s k) →
        t ≤ k + 5 + loadUses code s k + stallTime costs + 2 * Turn.cost (turns code s k)) := by
  intro code s
  rcases hhalts with ⟨-, n, c, hc, hh, -⟩
  have hvalid := valid_promptData hcfg
  rcases due_at_halt hvalid hfetch (fun _ => halign) hc hh with ⟨k, hlive, hkh, hlen, hcycles, -⟩
  rcases retired_at_halt hvalid (fun _ => halign) hc hh with ⟨k', -, -, hlen', hlog⟩
  obtain rfl : k = k' := by omega
  rcases haltsAt_of_promptData hcfg hc hh with ⟨costs, dport, hdriven, hend⟩
  rcases followed_at_halt hvalid hfetch (fun _ => halign) hc hh with
    ⟨log, more, hchecked, hfollowed, hle⟩
  -- The redirects before the halting instruction are its branches and jumps gone wrong.
  have hredirects : (((boot (promptData cfg) imem dmem rf).resolved n).take k).countP Prod.snd =
      (log.take k).countP fun x => isControl x.op && x.wrong := by
    have hquiet := quiet_boot (promptData cfg) imem dmem rf
    rw [resolved_view hquiet, Pipe.resolved_eq_checked, ← checked_view hquiet, hchecked,
      ← List.map_take, List.take_append_of_le_length (by omega), List.countP_map]
    exact hfollowed.take_wrong hlive
  have hturns : (log.take k).map Check.turn = turns code s k :=
    hfollowed.take_turns (by omega) hlive
  have hcycles : c.cycles = k + 5 + loadUses code s k +
      2 * (((boot (promptData cfg) imem dmem rf).resolved n).take k).countP Prod.snd := hcycles
  refine ⟨k, costs, dport, _, hlive, hkh, hlog ▸ hdriven, hend, by omega, fun hapart => ?_⟩
  have haudited : Pipe.Audited (predictorOf cfg) (boot (promptData cfg) imem dmem rf).iport.ram
      ((boot (promptData cfg) imem dmem rf).checked n) :=
    @audited_boot (promptData cfg) imem dmem rf n c hon hc
  rw [hchecked, ← List.take_append_drop k log, List.append_assoc] at haudited
  have hbegin := haudited.of_append
  rcases hcfg.bpred hon with ⟨⟨i, hi⟩, ⟨j, hj⟩, -⟩
  have hcost := BranchPredictor.countP_wrong_le_cost (hi ▸ Nat.two_pow_pos i)
    (hj ▸ Nat.two_pow_pos j) hbegin.foreseen
    (fun x hx y hy hpc => by rw [hbegin.stored x hx, hbegin.stored y hy, hpc]) hbegin.jumps
    (hturns ▸ hapart)
  rw [hturns, ← hredirects] at hcost
  omega

theorem countdown_live :
    Live (imageOf predicting countdown) 7 (reference predicting (fun _ => 0) RegFile.zero) := by
  unfold Live
  decide +kernel

theorem countdown_aligned :
    (reference predicting (fun _ => 0) RegFile.zero).Aligned (imageOf predicting countdown) := by
  intro j
  have hfirst : ∀ i < 8, ((reference predicting (fun _ => 0) RegFile.zero).after
      (imageOf predicting countdown) i).pc.toNat % 4 = 0 := by decide +kernel
  rcases (by omega : j < 8 ∨ 7 ≤ j) with h | h
  · exact hfirst j h
  · rcases Nat.exists_eq_add_of_le h with ⟨k, rfl⟩
    rw [← after_add, after_of_halts (by decide +kernel)]
    exact hfirst 7 (by omega)

/-- The loop of `countdown` mispredicts three times at most. -/
theorem predicted_time_bounded_countdown :
    ∃ t, (boot predicting countdown (fun _ => 0) RegFile.zero).HaltsAt t ∧ 12 ≤ t ∧ t ≤ 18 := by
  rcases Option.map_eq_some_iff.mp (by decide +kernel :
    ((boot (promptData predicting) countdown (fun _ => 0) RegFile.zero).ticks 16).map halted =
      some true) with ⟨c, hc, hh⟩
  rcases predicted_time_bounded predicting_valid ⟨rfl, rfl⟩ rfl countdown (fun _ => 0)
    RegFile.zero countdown_aligned ⟨c.cycles, 16, c, hc, hh, rfl⟩ with
    ⟨k, costs, dport, t, hlive, hkh, hd, ht, hlo, hhi⟩
  obtain rfl : k = 7 := halts_unique hlive countdown_live hkh (by decide +kernel)
  have hnone : (reference predicting (fun _ => 0) RegFile.zero).accesses
      (imageOf predicting countdown) 8 = [] := by decide +kernel
  rw [hnone] at hd
  cases hd
  have huses : loadUses (imageOf predicting countdown)
      (reference predicting (fun _ => 0) RegFile.zero) 7 = 0 := by decide +kernel
  have hcost : Turn.cost (turns (imageOf predicting countdown)
      (reference predicting (fun _ => 0) RegFile.zero) 7) = 3 := by decide +kernel
  have hle := hhi (by decide +kernel)
  rw [huses] at hlo hle
  rw [hcost] at hle
  exact ⟨t, ht, hlo, hle⟩

end Core

end CpuSim
