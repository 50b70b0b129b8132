import CpuSim.Rtl.Refinement

/-!
# Instructions leave EX, pass MEM and retire in order

What has left EX on the ticks so far is what has retired, then what waits in MEM/WB, then what
waits in EX/MEM. Nothing is lost, doubled or reordered on the way, whatever stalls, flushes and
halts happen, since a stalled tick moves nothing and every other one moves one entry along.
-/

namespace CpuSim

open Rv32i

/-- What an entry past EX keeps of its instruction until it retires. -/
structure Slip where
  pc : Word
  raw : Word
  op : Op
  rd : RegIdx
  deriving DecidableEq, Repr

def ExMem.slip (ex : ExMem) : Slip := { pc := ex.pc, raw := ex.raw, op := ex.op, rd := ex.rd }

def MemWb.slip (wb : MemWb) : Slip := { pc := wb.pc, raw := wb.raw, op := wb.op, rd := wb.rd }

/-- What WB makes of the register file. -/
def MemWb.writeBack (wb : MemWb) (rf : RegFile) : RegFile :=
  if writesBack wb then rf.write wb.rd wb.wbVal else rf

namespace Pipe

variable {p q : Pipe} {f : FetchOut Port} {m : MemOut Port}

/-- The entry that EX hands to MEM on this cycle. -/
def leaves (p : Pipe) : List ExMem :=
  if !p.halted && !p.stalls && p.idEx.valid then [p.exec.out] else []

theorem leaves_of_halted (h : p.halted = true) : p.leaves = [] := by
  unfold leaves
  rw [h]
  rfl

/-- The entries that left EX in the first `n` ticks. -/
def left (p : Pipe) (n : Nat) : List ExMem := Runs.log tick leaves n p

/-- The entry that retires on this cycle. -/
def pending (p : Pipe) : List MemWb := if p.memWb.valid then [p.memWb] else []

/-- The entry MEM works on. -/
def inMem (p : Pipe) : List ExMem := if p.exMem.valid then [p.exMem] else []

theorem retires_eq_pending (h : p.halted = false) : p.retires = p.pending := retires_of_running h

/-- A running cycle writes back what it retires. -/
theorem written_eq_foldl (h : p.halted = false) :
    p.written = p.retires.foldl (fun rf wb => wb.writeBack rf) p.rf := by
  rw [retires_eq_pending h]
  unfold pending
  cases hv : p.memWb.valid with
  | true => rfl
  | false =>
    unfold written writesBack
    rw [hv]
    rfl

theorem mem_out (hm : p.mem = some m) (hs : m.stalling = false) :
    m.out = if p.exMem.valid then p.exMem.memWb p.dport.bytes else {} := by
  obtain ⟨hv, ho⟩ | ⟨-, -, -, ho⟩ | ⟨hv, -, -, ho, -⟩ := accessMem_eq_some hm
  · rw [hv, ho]; rfl
  · rw [ho] at hs; cases hs
  · rw [hv, ho]; rfl

theorem leaves_of_stall (hs : p.stalls = true) : p.leaves = [] := by
  unfold leaves
  rw [hs]
  simp

theorem leaves_of_flow (hrun : p.halted = false) (hs : p.stalls = false) :
    p.leaves = if p.idEx.valid then [p.exec.out] else [] := by
  unfold leaves
  rw [hrun, hs]
  rfl

/-- On a stalled tick MEM/WB drains, and EX/MEM stays. -/
theorem stallNext_queue (f : FetchOut Port) (hout : m.out = {}) :
    (p.stallNext f m).pending = [] ∧ (p.stallNext f m).inMem = p.inMem := by
  have hwb : (p.stallNext f m).memWb = {} := hout
  refine ⟨?_, rfl⟩
  unfold pending
  rw [hwb]
  rfl

/-- On any other tick each entry moves along. -/
theorem flowNext_queue (f : FetchOut Port) (hm : p.mem = some m) (hs : m.stalling = false) :
    (p.flowNext f m).pending.map MemWb.slip = p.inMem.map ExMem.slip ∧
      (p.flowNext f m).inMem = if p.idEx.valid then [p.exec.out] else [] := by
  constructor
  · have hwb : (p.flowNext f m).memWb =
        if p.exMem.valid then p.exMem.memWb p.dport.bytes else {} := mem_out hm hs
    unfold pending inMem
    rw [hwb]
    cases p.exMem.valid <;> rfl
  · unfold inMem
    have hx : (p.flowNext f m).exMem = p.exec.out := rfl
    rw [hx, exec_valid]

/-- One tick keeps the order. -/
theorem slips_tick {l : List ExMem} {r : List MemWb}
    (h : l.map ExMem.slip =
      r.map MemWb.slip ++ p.pending.map MemWb.slip ++ p.inMem.map ExMem.slip)
    (ht : p.tick = some q) :
    (l ++ p.leaves).map ExMem.slip = (r ++ p.retires).map MemWb.slip ++
      q.pending.map MemWb.slip ++ q.inMem.map ExMem.slip := by
  cases hh : p.halted with
  | true =>
    obtain rfl := eq_of_tick_of_halted hh ht
    rw [leaves_of_halted hh, retires_of_halted hh, List.append_nil, List.append_nil]
    exact h
  | false =>
    rw [retires_eq_pending hh, List.map_append, List.map_append, h]
    obtain ⟨f, m, -, hm, ⟨hs, rfl⟩ | ⟨hs, rfl⟩⟩ := tick_cases hh ht
    · obtain ⟨hpend, hin⟩ := p.stallNext_queue f (mem_stalled hm hs).2.2.1
      rw [leaves_of_stall ((mem_stalling hm).symm.trans hs), hpend, hin]
      simp only [List.map_nil, List.append_nil]
    · obtain ⟨hpend, hin⟩ := flowNext_queue f hm hs
      rw [leaves_of_flow hh ((mem_stalling hm).symm.trans hs), hpend, hin]

/-- The queue past EX: retired, then MEM/WB, then EX/MEM. -/
theorem slips_of_ticks (hpend : p.pending = []) (hin : p.inMem = []) {n : Nat}
    (hq : p.ticks n = some q) :
    (p.left n).map ExMem.slip = (p.retired n).map MemWb.slip ++ q.pending.map MemWb.slip ++
      q.inMem.map ExMem.slip := by
  induction n generalizing q with
  | zero =>
    simp only [ticks, Runs.run_zero, Option.some.injEq] at hq
    subst hq
    rw [hpend, hin]
    rfl
  | succ n ih =>
    obtain ⟨u, hu, huq⟩ := (Runs.run_succ_eq_some tick).mp hq
    have hl : p.left (n + 1) = p.left n ++ u.leaves := Runs.log_succ_of_run tick leaves hu
    have hr : p.retired (n + 1) = p.retired n ++ u.retires :=
      Runs.log_succ_of_run tick retires hu
    rw [hl, hr]
    exact slips_tick (ih hu) huq

/-- When MEM lets go of its entry, that entry retires two ticks later, and then everything that
    had left EX has. -/
theorem retired_of_release (hpend : p.pending = []) (hin : p.inMem = []) {n : Nat}
    {u : Pipe} (hq : p.ticks n = some q) (hrun : q.halted = false) (hnh : q.halting = false)
    (hs : q.stalls = false) (ht : q.tick = some u) :
    (p.retired (n + 2)).map MemWb.slip = (p.left n).map ExMem.slip := by
  have hu : p.ticks (n + 1) = some u := (Runs.run_succ_eq_some tick).mpr ⟨q, hq, ht⟩
  have hr : p.retired (n + 1) = p.retired n ++ q.retires := Runs.log_succ_of_run tick retires hq
  have hr' : p.retired (n + 2) = p.retired (n + 1) ++ u.retires :=
    Runs.log_succ_of_run tick retires hu
  obtain ⟨f, m, -, hm, ⟨hst, -⟩ | ⟨hst, rfl⟩⟩ := tick_cases hrun ht
  · rw [mem_stalling hm, hs] at hst
    cases hst
  · have hur : (q.flowNext f m).halted = false := by
      change (if q.halting then true else q.halted) = false
      rw [hnh, hrun]
      rfl
    rw [hr', hr, retires_eq_pending hrun, retires_eq_pending hur, slips_of_ticks hpend hin hq,
      List.map_append, List.map_append, (flowNext_queue f hm hst).1]

/-- Each resolution is of an instruction that leaves EX. -/
theorem resolves_leaves (p : Pipe) : p.resolves.map Prod.fst = p.leaves.map ExMem.pc := by
  unfold resolves leaves
  split
  · rename_i h
    have hv : p.idEx.valid = true := by
      simp only [Bool.and_eq_true] at h
      exact h.2
    unfold exec
    rw [if_pos hv]
    rfl
  · rfl

theorem resolved_left (p : Pipe) (n : Nat) :
    (p.resolved n).map Prod.fst = (p.left n).map ExMem.pc := by
  induction n with
  | zero => rfl
  | succ n ih =>
    change (Runs.log tick resolves n p ++ _).map _ = (Runs.log tick leaves n p ++ _).map _
    rw [List.map_append, List.map_append]
    refine congrArg₂ (· ++ ·) ih ?_
    cases Runs.run tick n p with
    | none => rfl
    | some u => exact resolves_leaves u

/-- The first resolutions are those of the retired instructions. -/
theorem take_resolved_eq (hpend : p.pending = []) (hin : p.inMem = []) {n : Nat}
    (hq : p.ticks n = some q) :
    ((p.resolved n).take (p.retired n).length).map Prod.fst = (p.retired n).map MemWb.pc := by
  have hslips := congrArg (List.map Slip.pc) (slips_of_ticks hpend hin hq)
  rw [List.map_append, List.map_append, List.map_map, List.map_map, List.append_assoc] at hslips
  have hpcs : (p.resolved n).map Prod.fst = (p.retired n).map MemWb.pc ++ _ :=
    (resolved_left p n).trans hslips
  rw [List.map_take, hpcs]
  exact List.take_left' (List.length_map _)

/-- A run has resolved what has retired and what waits in MEM/WB. -/
theorem length_resolved (hpend : p.pending = []) (hin : p.inMem = []) {n : Nat}
    (hq : p.ticks n = some q) :
    (p.retired n).length + q.pending.length ≤ (p.resolved n).length := by
  have hslips := congrArg List.length (slips_of_ticks hpend hin hq)
  have hpcs := congrArg List.length (resolved_left p n)
  simp only [List.length_map, List.length_append] at hslips hpcs
  omega

/-! ## The register file -/

/-- The register file is what the write-backs of the retired instructions have made of it. -/
theorem rf_of_ticks {n : Nat} (hq : p.ticks n = some q) :
    q.rf = (p.retired n).foldl (fun rf wb => wb.writeBack rf) p.rf := by
  induction n generalizing q with
  | zero =>
    simp only [ticks, Runs.run_zero, Option.some.injEq] at hq
    subst hq
    rfl
  | succ n ih =>
    obtain ⟨u, hu, huq⟩ := (Runs.run_succ_eq_some tick).mp hq
    have hr : p.retired (n + 1) = p.retired n ++ u.retires :=
      Runs.log_succ_of_run tick retires hu
    rw [hr, List.foldl_append, ← ih hu]
    cases hh : u.halted with
    | true =>
      obtain rfl := eq_of_tick_of_halted hh huq
      rw [retires_of_halted hh]
      rfl
    | false =>
      rw [(tick_drain hh huq).1]
      exact written_eq_foldl hh

/-- After the write-back of this cycle, too. -/
theorem written_of_ticks {n : Nat} (hq : p.ticks n = some q) (hrun : q.halted = false) :
    q.written = (p.retired (n + 1)).foldl (fun rf wb => wb.writeBack rf) p.rf := by
  have hr : p.retired (n + 1) = p.retired n ++ q.retires := Runs.log_succ_of_run tick retires hq
  rw [hr, List.foldl_append, ← rf_of_ticks hq]
  exact written_eq_foldl hrun

end Pipe

namespace Core

/-- The entries that left EX in the first `n` ticks. -/
def left (c : Core) (n : Nat) : List ExMem := Runs.log tick (fun c => c.view.leaves) n c

theorem left_view {c : Core} (hq : c.Quiet) (n : Nat) : c.left n = c.view.left n :=
  Runs.log_map tick Pipe.tick _ (fun _ _ => quiet_tick) (fun _ => view_tick)
    (fun _ _ => rfl) hq n

end Core

end CpuSim
