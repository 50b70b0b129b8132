import CpuSim.Rtl.DataStalls

/-!
# The two sides of a core cost cycles independently

The accesses of a program are those of the sequential machine, whatever fetches its
instructions, and a data side takes for them what it takes. So the cycle count at halt is a sum:
a part that the instruction side and the program decide, and a part that the data side and the
program decide (`levers_stack`).
-/

namespace CpuSim

open Rv32i Machine

namespace Machine

/-- The request to data memory of the instruction the machine is at. -/
def access (code : ByteMap) (s : Machine) : Option (Word × Bool) :=
  let i := s.insn code
  if isMemOp i.op then some (s.effAddr i, isStore i.op) else none

/-- The requests of the first `n` executed instructions, in order. -/
def accesses (code : ByteMap) (s : Machine) (n : Nat) : List (Word × Bool) :=
  (List.range n).filterMap fun i => (s.after code i).access code

theorem accesses_succ (code : ByteMap) (s : Machine) (n : Nat) :
    s.accesses code (n + 1) = s.accesses code n ++ ((s.after code n).access code).toList := by
  unfold accesses
  rw [List.range_succ, List.filterMap_append]
  cases h : (s.after code n).access code <;> simp [h]

end Machine

namespace Pipe

variable {p q : Pipe} {code : ByteMap} {s : Machine} {m : MemOut Port}

/-- The entry MEM passes on carries the request of its instruction. -/
theorem Tracks.access_flow (h : p.Tracks code s) (hm : p.mem = some m)
    (hs : m.stalling = false) (hrun : p.halting = false) (hv : m.out.valid = true) :
    m.out.access = (p.atMem code s).access code := by
  obtain ⟨hvalid, hout, -⟩ := mem_flowed hm hs
  have hx : p.exMem.valid = true := hvalid ▸ hv
  have hheld := h.mem hx (by simp [memLive, hrun])
  rw [hout hx]
  unfold MemWb.access ExMem.memWb Machine.access
  dsimp only
  rw [← hheld.op]
  cases hop : isMemOp p.exMem.op with
  | false => rfl
  | true =>
    rw [if_pos rfl, if_pos rfl, if_pos rfl, hheld.addr hop]

/-- What retires has made the requests of the machine. -/
theorem accesses_of_ticks (hp : p.memWb.valid = false)
    (href : ∀ n q, p.ticks n = some q → q.Refines (p.retired n) code s) {n : Nat}
    (hq : p.ticks n = some q) :
    CpuSim.accesses (p.retired n) = s.accesses code (p.retired n).length ∧
      (q.halted = false → q.memWb.valid = true →
        q.memWb.access = (s.after code (p.retired n).length).access code) := by
  induction n generalizing q with
  | zero =>
    simp only [ticks, Runs.run_zero, Option.some.injEq] at hq
    subst hq
    refine ⟨rfl, fun _ hv => ?_⟩
    rw [hp] at hv
    cases hv
  | succ n ih =>
    obtain ⟨u, hu, huq⟩ := (Runs.run_succ_eq_some tick).mp hq
    obtain ⟨hlog, hnext⟩ := ih hu
    have hret : p.retired (n + 1) = p.retired n ++ u.retires := Runs.log_succ_of_run tick retires hu
    cases huh : u.halted with
    | true =>
      obtain rfl := eq_of_tick_of_halted huh huq
      rw [hret, retires_of_halted huh, List.append_nil]
      refine ⟨hlog, fun hrun => ?_⟩
      rw [huh] at hrun
      cases hrun
    | false =>
      have hlen : (p.retired (n + 1)).length = (p.retired n).length + u.memWb.valid.toNat := by
        rw [hret, retires_of_running huh, List.length_append]
        cases u.memWb.valid <;> rfl
      constructor
      · rw [hlen, hret, accesses_append, hlog, retires_of_running huh]
        cases hv : u.memWb.valid with
        | false => exact List.append_nil _
        | true =>
          rw [Bool.toNat_true, accesses_succ, ← hnext huh hv, if_pos rfl]
          unfold CpuSim.accesses
          cases ha : u.memWb.access <;> simp [ha]
      · intro hrun hv
        obtain ⟨-, hnh⟩ := running_of_tick huq hrun
        obtain ⟨-, htr⟩ | hstop := (href n u hu).phase
        · obtain ⟨f, m, -, hm, ⟨hs, rfl⟩ | ⟨hs, rfl⟩⟩ := tick_cases huh huq
          · have hbubble : (u.stallNext f m).memWb = {} := (mem_stalled hm hs).2.2.1
            rw [hbubble] at hv
            cases hv
          · rw [hlen, ← after_add, ← advance_eq_after]
            exact htr.access_flow hm hs hnh hv
        · rw [hstop.halted] at huh
          cases huh

end Pipe

namespace Core

/-- A run from `c` ends halted after `t` cycles. -/
def HaltsAt (c : Core) (t : Nat) : Prop :=
  ∃ n d, c.ticks n = some d ∧ d.halted = true ∧ d.cycles = t

theorem tick_of_halted {c : Core} (h : c.halted = true) : c.tick = some c := by
  unfold tick tickIn
  rw [h]
  rfl

/-- A run has one halted state. -/
theorem eq_of_ticks_of_halted {c d d' : Core} {n n' : Nat} (h : c.ticks n = some d)
    (hd : d.halted = true) (h' : c.ticks n' = some d') (hd' : d'.halted = true) : d = d' := by
  have hlast : ∀ {i j : Nat} {u v : Core}, c.ticks i = some u → u.halted = true →
      c.ticks j = some v → i ≤ j → u = v := by
    intro i j u v hu huh hv hij
    obtain ⟨k, rfl⟩ := Nat.exists_eq_add_of_le hij
    have huv := (Runs.run_add_of_run tick hu).symm.trans hv
    rw [Runs.run_of_fixed tick (tick_of_halted huh)] at huv
    exact Option.some.inj huv
  rcases Nat.le_total n n' with hle | hle
  · exact hlast h hd h' hle
  · exact (hlast h' hd' h hle).symm

theorem HaltsAt.unique {c : Core} {t t' : Nat} (h : c.HaltsAt t) (h' : c.HaltsAt t') :
    t = t' := by
  obtain ⟨n, d, hd, hh, rfl⟩ := h
  obtain ⟨n', d', hd', hh', rfl⟩ := h'
  rw [eq_of_ticks_of_halted hd hh hd' hh']

/-- When the machine without data stalls halts, so does the machine with any data side, after
    the cycles that the accesses take there in addition. -/
theorem haltsAt_of_promptData {cfg : SimConfig} (hcfg : cfg.Valid) {imem dmem : Nat → Byte}
    {rf : RegFile} {n : Nat} {c : Core}
    (hc : (boot (promptData cfg) imem dmem rf).ticks n = some c) (hh : c.halted = true) :
    ∃ costs dport, (IMemory.port Port).DrivesAll
        (accesses ((boot (promptData cfg) imem dmem rf).retired n))
        (boot cfg imem dmem rf).dport costs dport ∧
      (boot cfg imem dmem rf).HaltsAt (c.cycles + stallTime costs) := by
  have hbq := quiet_boot (promptData cfg) imem dmem rf
  have hcq := quiet_boot cfg imem dmem rf
  obtain ⟨k, b, hkn, hb, hbr, hbh, hbc⟩ :=
    Pipe.halting_tick_of_halted rfl (view_of_ticks hbq hc) hh
  obtain ⟨hprompt, costs, d, hlock⟩ := Pipe.lockstep_of_ticks (prompt_boot cfg imem dmem rf)
    (aligned_boot cfg imem dmem rf) (idle_newDport hcfg _) rfl hb hbr
  have hface := hlock.aligned.toFacing
  obtain ⟨f, m, hf, hm, hs, -⟩ := Pipe.tick_of_prompt hprompt hbr hbc
  obtain ⟨d', hdt, hdh⟩ := hface.halts hbr hbh hf hm hs
  have hreach : (boot cfg imem dmem rf).view.ticks (k + stallTime costs + 1) = some d' :=
    (Runs.run_succ_eq_some Pipe.tick).mpr ⟨d, hlock.reached, hdt⟩
  rw [← view_ticks hcq] at hreach
  obtain ⟨e, he, rfl⟩ := Option.map_eq_some_iff.mp hreach
  have hret : (boot (promptData cfg) imem dmem rf).retired n =
      (boot (promptData cfg) imem dmem rf).view.retired k ++ b.pending := by
    rw [retired_view hbq, ← Pipe.retires_eq_pending hbr]
    exact Pipe.log_of_halting_tick Pipe.retires hb hbc hh (Pipe.retires_of_halted hh) hkn
  obtain ⟨dport, hdriven, -⟩ := Port.maps_blank.drivesAll_lift hlock.driven
  rw [← hret] at hdriven
  refine ⟨costs, dport, hdriven, k + stallTime costs + 1, e, he, hdh, ?_⟩
  have hdr : d.halted = false := hface.halted.trans hbr
  have hcycles : c.cycles = b.stats.cycles + 1 := (Pipe.cycles_tick hbr hbc).1
  have hcycles' : e.cycles = d.stats.cycles + 1 := (Pipe.cycles_tick hdr hdt).1
  rw [hcycles, hcycles', Pipe.cycles_of_ticks hb hbr, Pipe.cycles_of_ticks hlock.reached hdr]
  change 0 + (k + stallTime costs) + 1 = 0 + k + 1 + stallTime costs
  omega

theorem valid_promptData {cfg : SimConfig} (h : cfg.Valid) : (promptData cfg).Valid :=
  ⟨⟨le_refl 1, (by decide : 1 < 2 ^ 31)⟩, h.imem, fun hd => (by cases hd), h.icache, h.bpred⟩

/-- The data side of one configuration on the instruction side of another. -/
def withData (cfg data : SimConfig) : SimConfig :=
  { cfg with
    dmemLatencyCycles := data.dmemLatencyCycles
    dcacheEnabled := data.dcacheEnabled
    dcacheLineBytes := data.dcacheLineBytes
    dcacheSets := data.dcacheSets
    dcacheHitLatencyCycles := data.dcacheHitLatencyCycles
    dcacheWays := data.dcacheWays }

/-- A run that halts has executed up to the instruction the machine halts on. -/
theorem retired_at_halt {cfg : SimConfig} (hcfg : cfg.Valid) {imem dmem : Nat → Byte}
    {rf : RegFile}
    (halign : cfg.bpredEnabled = true → (reference cfg dmem rf).Aligned (imageOf cfg imem))
    {n : Nat} {c : Core} (hc : (boot cfg imem dmem rf).ticks n = some c)
    (hh : c.halted = true) :
    ∃ k, Live (imageOf cfg imem) k (reference cfg dmem rf) ∧
      ((reference cfg dmem rf).after (imageOf cfg imem) k).halts (imageOf cfg imem) = true ∧
      ((boot cfg imem dmem rf).retired n).length = k + 1 ∧
      accesses ((boot cfg imem dmem rf).retired n) =
        (reference cfg dmem rf).accesses (imageOf cfg imem) (k + 1) := by
  have hquiet := quiet_boot cfg imem dmem rf
  have hcv := view_of_ticks hquiet hc
  rw [retired_view hquiet]
  obtain ⟨hlog, -⟩ := Pipe.accesses_of_ticks rfl (fun _ _ => refines_boot hcfg halign) hcv
  obtain ⟨-, htr⟩ | hstop := (refines_boot hcfg halign hcv).phase
  · have hrun : c.halted = false := htr.running
    rw [hrun] at hh
    cases hh
  · obtain ⟨k, hk, hlive, hkh, -⟩ := hstop.last
    exact ⟨k, hlive, hkh, hk, hk ▸ hlog⟩

/-- For every program and RAM there are the cycles that a data side adds: whatever the
    instruction side, when it halts with prompt data after `t` cycles it halts with that data
    side after exactly so many more. -/
theorem levers_stack (base : Word) (size : Nat) (imem dmem : Nat → Byte) (rf : RegFile) :
    ∃ stalls : SimConfig → Nat, ∀ cfg data : SimConfig,
      cfg.ramBaseAddr = base → cfg.ramSizeBytes = size → (withData cfg data).Valid →
      (cfg.bpredEnabled = true → (reference cfg dmem rf).Aligned (imageOf cfg imem)) →
      ∀ t, (boot (promptData cfg) imem dmem rf).HaltsAt t →
        ∀ t', (boot (withData cfg data) imem dmem rf).HaltsAt t' ↔ t' = t + stalls data := by
  -- the RAM decides the code and the machine, the RAM and the data side decide the data port
  let ram : SimConfig := { ramBaseAddr := base, ramSizeBytes := size }
  let code := imageOf ram imem
  let s := reference ram dmem rf
  have hstalls : ∀ data : SimConfig, ∃ stall, ∀ k costs dport,
      Live code k s → (s.after code k).halts code = true →
      (IMemory.port Port).DrivesAll (s.accesses code (k + 1))
        (boot (withData ram data) imem dmem rf).dport costs dport → stallTime costs = stall := by
    intro data
    by_cases hex : ∃ k costs dport, Live code k s ∧ (s.after code k).halts code = true ∧
        (IMemory.port Port).DrivesAll (s.accesses code (k + 1))
          (boot (withData ram data) imem dmem rf).dport costs dport
    · obtain ⟨k, costs, dport, hlive, hkh, hdriven⟩ := hex
      refine ⟨stallTime costs, fun k' costs' dport' hlive' hkh' hdriven' => ?_⟩
      obtain rfl := halts_unique hlive hlive' hkh hkh'
      rw [(hdriven.unique hdriven').1]
    · exact ⟨0, fun k costs dport hlive hkh hdriven =>
        absurd ⟨k, costs, dport, hlive, hkh, hdriven⟩ hex⟩
  choose stalls hstalls using hstalls
  refine ⟨stalls, fun cfg data hbase hsize hvalid halign t ht t' => ?_⟩
  subst hbase hsize
  obtain ⟨n, c, hc, hh, rfl⟩ := ht
  have hprompt : (promptData cfg).Valid :=
    ⟨⟨le_refl 1, (by decide : 1 < 2 ^ 31)⟩, hvalid.imem, fun h => (by cases h), hvalid.icache,
      hvalid.bpred⟩
  obtain ⟨k, hlive, hkh, -, hlog⟩ := retired_at_halt hprompt halign hc hh
  obtain ⟨costs, dport, hdriven, hhalts⟩ := haltsAt_of_promptData hvalid hc hh
  have hstall : stallTime costs = stalls data := by
    refine hstalls data k costs dport hlive hkh ?_
    exact hlog ▸ hdriven
  rw [← hstall]
  constructor
  · exact fun h => h.unique hhalts
  · rintro rfl
    exact hhalts

/-- The load of `loadEbreak` costs the same behind a prompt and behind a slow instruction
    memory. -/
theorem levers_stack_loadEbreak :
    ∃ stall, (boot slowCached loadEbreak (fun _ => 0) RegFile.zero).HaltsAt (6 + stall) ∧
      (boot { slowCached with imemLatencyCycles := 3 } loadEbreak (fun _ => 0)
        RegFile.zero).HaltsAt (10 + stall) := by
  obtain ⟨stalls, h⟩ := levers_stack 0 32 loadEbreak (fun _ => 0) RegFile.zero
  have hhalts : ∀ {cfg : SimConfig} {t : Nat},
      ((boot (promptData cfg) loadEbreak (fun _ => 0) RegFile.zero).ticks 12).map
        (fun c => (c.halted, c.cycles)) = some (true, t) →
      (boot (promptData cfg) loadEbreak (fun _ => 0) RegFile.zero).HaltsAt t := by
    intro cfg t ht
    obtain ⟨c, hc, hct⟩ := Option.map_eq_some_iff.mp ht
    simp only [Prod.mk.injEq] at hct
    exact ⟨12, c, hc, hct⟩
  have hslow : ({ slowCached with imemLatencyCycles := 3 } : SimConfig).Valid :=
    ⟨slowCached_valid.dmem, ⟨by decide, by decide⟩, slowCached_valid.dcache, (nomatch ·),
      (nomatch ·)⟩
  refine ⟨stalls slowCached, ?_, ?_⟩
  · exact (h slowCached slowCached rfl rfl slowCached_valid (nomatch ·) 6
      (hhalts (by decide +kernel)) _).mpr rfl
  · exact (h { slowCached with imemLatencyCycles := 3 } slowCached rfl rfl hslow (nomatch ·) 10
      (hhalts (by decide +kernel)) _).mpr rfl

end Core

end CpuSim
