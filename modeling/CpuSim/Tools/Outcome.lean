import CpuSim.Rtl.Total
import CpuSim.Sim.Setup
import CpuSim.Tools.BenchRun

/-!
# What the exit code of the benchmark runner says

From the bytes of the ELF file to the exit code: the runner reports how the sequential machine
behaves that starts at the base of the RAM with the segments of the file in its memory. The
flags decide how many cycles that takes and nothing else (`flags_invisible`).
-/

namespace CpuSim

open Rv32i Machine CpuSim.Core

namespace BenchRun

/-- What loading a file prepares. -/
def preparedBy (file : List Byte) : Prepared := prepared 0x80000000 [.loadElf "" (some file)]

/-- The instruction memory of the machine that executes a file. -/
def codeOf (file : List Byte) : ByteMap := imageOf {} (imageFrom {} (preparedBy file).code)

/-- The machine that executes a file. -/
def machineOf (file : List Byte) : Machine :=
  reference {} (imageFrom {} (preparedBy file).data) (preparedBy file).regs

variable {files : List Char → Option (List Byte)} {args : List (List Char)} {code : Nat}
  {c : Core} {path : List Char} {file : List Byte} {j k maxCycles worst : Nat}

/-- A core that `main` has run was constructed, and it is a booted one. -/
theorem run_of_main (hpath : (parse args).elfPath = some path) (hfile : files path = some file)
    (h : main files args = some (code, some c)) :
    Core.construct (parse args).config = some (Core.new (parse args).config) ∧
      code = exitCode c ∧ runs [(parse args).maxCycles] (boot (parse args).config
        (imageFrom {} (preparedBy file).code) (imageFrom {} (preparedBy file).data)
        (preparedBy file).regs) = some c := by
  unfold main at h
  split at h
  · cases h
  · simp only [hpath, hfile] at h
    cases hnew : Core.construct (parse args).config with
    | none =>
      rw [hnew] at h
      cases h
    | some start =>
      obtain ⟨rfl, -⟩ := construct_eq_some.mp hnew
      rw [hnew] at h
      dsimp only at h
      cases hl : (Core.new (parse args).config).loadElf (String.ofList path) (some file) with
      | error e =>
        rw [hl] at h
        cases e <;> cases h
      | ok core =>
        rw [hl] at h
        obtain ⟨d, hd, hcode⟩ := Option.map_eq_some_iff.mp h
        simp only [Prod.mk.injEq, Option.some.injEq] at hcode
        obtain ⟨rfl, rfl⟩ := hcode
        have hsetup : setupAll (Core.new (parse args).config)
            [.loadElf (String.ofList path) (some file)] = .ok core := by
          change (Core.loadElf _ _ _).bind _ = _
          rw [hl]
          rfl
        have hspace : (parse args).config.ramBaseAddr.toNat + (parse args).config.ramSizeBytes ≤
            2 ^ 32 := (by decide : 0x80000000 + 0x10000 ≤ 2 ^ 32)
        have hboot := (holds_setupAll hspace hsetup).eq_boot hspace
        have hrun : runs [(parse args).maxCycles] core = some d := by
          change (run _ core).bind _ = _
          rw [hd]
          rfl
        rw [hboot] at hrun
        exact ⟨rfl, rfl, hrun⟩

/-- What the flags ask for has a valid shape if its constructors go through. -/
theorem valid_of_construct {o : Options} {start : Core} (h : Core.construct o.config = some start)
    (hmem : LatencyOk o.memLatency) (himem : LatencyOk o.imemLatency) : o.config.Valid := by
  obtain ⟨-, hicache, hdcache, -⟩ := construct_eq_some.mp h
  have hhit : LatencyOk 1 := ⟨by decide, by decide⟩
  refine ⟨hmem, himem, fun hon => ?_, fun hon => ?_, fun _ => ⟨⟨8, rfl⟩, ⟨6, rfl⟩, ?_⟩⟩
  · obtain ⟨hline, hsets, hways⟩ := hdcache hon
    exact ⟨⟨hline, hsets, hways, (by decide : 32 * 64 < 2 ^ 32)⟩, hhit⟩
  · obtain ⟨hline, hsets, hways⟩ := hicache hon
    exact ⟨⟨hline, hsets, hways, (by decide : 32 * 64 < 2 ^ 32)⟩, hhit⟩
  · exact (by decide : 64 < 2 ^ 32)

/-- The core has retired the instructions of the file up to number `k`, where the machine stops,
    and `main` reports that one. -/
structure StopsAt (file : List Byte) (c : Core) (code k : Nat) : Prop where
  live : Live (codeOf file) k (machineOf file)
  halts : ((machineOf file).after (codeOf file) k).halts (codeOf file) = true
  retired : c.instructions = k + 1
  haltPc : c.haltPc = ((machineOf file).after (codeOf file) k).pc
  haltRaw : c.haltRaw = wordAt (codeOf file) ((machineOf file).after (codeOf file) k).pc
  code : code = if (((machineOf file).after (codeOf file) k).insn (codeOf file)).op = .ebreak
    then 0 else 3

/-- The core is at its cycle limit, and the machine runs on behind what it has retired. -/
structure CutOff (file : List Byte) (c : Core) (code maxCycles worst : Nat) : Prop where
  live : Live (codeOf file) c.instructions (machineOf file)
  cycles : c.cycles = maxCycles
  short : maxCycles < (c.instructions + 1) * worst
  code : code = 1

namespace StopsAt

theorem op (h : StopsAt file c code k) :
    (((machineOf file).after (codeOf file) k).insn (codeOf file)).op = .ebreak ∨
      (((machineOf file).after (codeOf file) k).insn (codeOf file)).op = .illegal :=
  decide_eq_true_iff.mp h.halts

theorem eq_of_retired (h : StopsAt file c code k) (hj : c.instructions = j + 1) : j = k := by
  have := h.retired
  omega

theorem not_live (h : StopsAt file c code k) :
    ¬ Live (codeOf file) c.instructions (machineOf file) := by
  intro hl
  have hruns := hl k (by rw [h.retired]; omega)
  rw [h.halts] at hruns
  cases hruns

theorem zero_iff (h : StopsAt file c code k) :
    code = 0 ↔ (((machineOf file).after (codeOf file) k).insn (codeOf file)).op = .ebreak := by
  rw [h.code]
  split <;> simp_all

theorem three_iff (h : StopsAt file c code k) :
    code = 3 ↔ (((machineOf file).after (codeOf file) k).insn (codeOf file)).op = .illegal := by
  obtain hop | hop := h.op
  · rw [h.code, hop]
    simp
  · rw [h.code, hop]
    simp

theorem ne_one (h : StopsAt file c code k) : code ≠ 1 := by
  rw [h.code]
  split <;> decide

end StopsAt

/-- What the core has retired ends before the machine stops. -/
theorem CutOff.le_of_halts (h : CutOff file c code maxCycles worst)
    (hj : ((machineOf file).after (codeOf file) j).halts (codeOf file) = true) :
    c.instructions ≤ j := by
  by_contra hlong
  have hruns := h.live j (by omega)
  rw [hj] at hruns
  cases hruns

/-- The two ways a run of `main` ends. -/
theorem main_cases (hpath : (parse args).elfPath = some path) (hfile : files path = some file)
    (hmem : LatencyOk (parse args).memLatency) (himem : LatencyOk (parse args).imemLatency)
    (halign : (parse args).bpred = true → (machineOf file).Aligned (codeOf file))
    (h : main files args = some (code, some c)) :
    c.rf = ((machineOf file).after (codeOf file) c.instructions).regs ∧
      ((∃ k, StopsAt file c code k) ∨
        CutOff file c code (parse args).maxCycles (Pipe.worstCase (parse args).config)) := by
  obtain ⟨hnew, rfl, hrun⟩ := run_of_main hpath hfile h
  have hcfg := valid_of_construct hnew hmem himem
  have hlimit : [(parse args).maxCycles].foldr max 0 = (parse args).maxCycles :=
    Nat.max_eq_left (Nat.zero_le _)
  have hregs := regs_of_runs hcfg halign hrun
  refine ⟨hregs, ?_⟩
  cases hh : c.halted with
  | true =>
    have hstopped := stopped_of_runs hcfg halign hrun hh
    rcases hstopped with ⟨k, hlive, hkh, hcount, -, hpc, hraw, hreason⟩
    refine .inl ⟨k, hlive, hkh, hcount, hpc, hraw, ?_⟩
    have hre : c.haltReason = Pipe.reasonFor
        (((machineOf file).after (codeOf file) k).insn (codeOf file)).op := hreason
    unfold exitCode
    rw [hre, hh]
    unfold Pipe.reasonFor
    by_cases hop : (((machineOf file).after (codeOf file) k).insn (codeOf file)).op = .ebreak
    · rw [if_pos hop, if_pos hop]
      rfl
    · rw [if_neg hop, if_neg hop]
      rfl
  | false =>
    have hrunning := running_of_runs hcfg halign hrun hh
    rcases hrunning with ⟨hlive, hfull, hshort, hreason⟩
    rw [hlimit] at hfull hshort
    refine .inr ⟨hlive, hfull, hshort, ?_⟩
    unfold exitCode
    rw [hreason, hh]
    rfl

/-- What a finished run of `main` says about the machine that executes the file. Exit code 0: it
    stops at an EBREAK, and the core has retired the instructions up to there; 3: the same at an
    illegal instruction; 1: it runs on behind what has retired, and the cycle limit is used up.
    The registers are the machine's, and a limit with room for the worst case of all instructions
    rules out exit code 1. -/
theorem main_decides (hpath : (parse args).elfPath = some path) (hfile : files path = some file)
    (hmem : LatencyOk (parse args).memLatency) (himem : LatencyOk (parse args).imemLatency)
    (halign : (parse args).bpred = true → (machineOf file).Aligned (codeOf file))
    (h : main files args = some (code, some c)) :
    let s := machineOf file
    let opAt := fun k => ((s.after (codeOf file) k).insn (codeOf file)).op
    c.rf = (s.after (codeOf file) c.instructions).regs ∧
      (code = 0 ↔ ∃ k, Live (codeOf file) k s ∧ opAt k = .ebreak ∧ c.instructions = k + 1) ∧
      (code = 3 ↔ ∃ k, Live (codeOf file) k s ∧ opAt k = .illegal ∧ c.instructions = k + 1) ∧
      (code = 1 ↔ Live (codeOf file) c.instructions s ∧ c.cycles = (parse args).maxCycles) ∧
      (code = 0 ∨ code = 3 ∨ code = 1) ∧
      ∀ k, Live (codeOf file) k s → (s.after (codeOf file) k).halts (codeOf file) = true →
        (k + 1) * Pipe.worstCase (parse args).config ≤ (parse args).maxCycles → code ≠ 1 := by
  intro s opAt
  obtain ⟨hregs, ⟨k, hstop⟩ | hcut⟩ := main_cases hpath hfile hmem himem halign h
  · refine ⟨hregs, ?_, ?_, ?_, ?_, fun _ _ _ _ => hstop.ne_one⟩
    · constructor
      · exact fun hzero => ⟨k, hstop.live, hstop.zero_iff.mp hzero, hstop.retired⟩
      · rintro ⟨j, -, hop, hj⟩
        obtain rfl := hstop.eq_of_retired hj
        exact hstop.zero_iff.mpr hop
    · constructor
      · exact fun hthree => ⟨k, hstop.live, hstop.three_iff.mp hthree, hstop.retired⟩
      · rintro ⟨j, -, hop, hj⟩
        obtain rfl := hstop.eq_of_retired hj
        exact hstop.three_iff.mpr hop
    · exact iff_of_false hstop.ne_one fun hc => hstop.not_live hc.1
    · exact hstop.op.imp hstop.zero_iff.mpr fun hop => .inl (hstop.three_iff.mpr hop)
  · have hnone : ∀ j, c.instructions = j + 1 → ¬ (opAt j = .ebreak ∨ opAt j = .illegal) := by
      intro j hj hop
      have := hcut.le_of_halts (j := j) (decide_eq_true_iff.mpr hop)
      omega
    have hcode := hcut.code
    subst hcode
    refine ⟨hregs, ?_, ?_, ?_, .inr (.inr rfl), ?_⟩
    · exact ⟨fun h => (by cases h), fun ⟨j, _, hop, hj⟩ => absurd (.inl hop) (hnone j hj)⟩
    · exact ⟨fun h => (by cases h), fun ⟨j, _, hop, hj⟩ => absurd (.inr hop) (hnone j hj)⟩
    · exact ⟨fun _ => ⟨hcut.live, hcut.cycles⟩, fun _ => rfl⟩
    · -- a limit with room for everything up to the stop is not used up before it
      intro j _ hjh hroom _
      have hshort := hcut.short
      have hle : (c.instructions + 1) * Pipe.worstCase (parse args).config ≤
          (j + 1) * Pipe.worstCase (parse args).config :=
        Nat.mul_le_mul_right _ (Nat.succ_le_succ (hcut.le_of_halts hjh))
      omega

/-- `addi x1, x0, 5; ebreak` as an ELF file, under every name. -/
def addiElf : List Char → Option (List Byte) := fun _ => some (leWords [
  0x464C457F, 0x00010101, 0, 0, 0x00F30002, 1, 0x80000000, 52, 0, 0, 0x00200034, 1, 0,
  1, 84, 0x80000000, 0, 8, 8, 5, 4,
  0x00500093, 0x00100073])

theorem exists_main {files : List Char → Option (List Byte)} {args : List (List Char)}
    {code : Nat}
    (h : (main files args).map (fun r => (r.1, r.2.isSome)) = some (code, true)) :
    ∃ c, main files args = some (code, some c) := by
  obtain ⟨⟨code', core⟩, hmain, hr⟩ := Option.map_eq_some_iff.mp h
  simp only [Prod.mk.injEq] at hr
  obtain ⟨rfl, hsome⟩ := hr
  obtain ⟨c, rfl⟩ := Option.isSome_iff_exists.mp hsome
  exact ⟨c, hmain⟩

theorem main_addiElf : ∃ c, main addiElf ["prog".toList] = some (0, some c) :=
  exists_main (by decide +kernel)

theorem main_decides_addiElf :
    ∃ c file k, addiElf [] = some file ∧ main addiElf ["prog".toList] = some (0, some c) ∧
      Live (codeOf file) k (machineOf file) ∧
      (((machineOf file).after (codeOf file) k).insn (codeOf file)).op = .ebreak ∧
      c.instructions = k + 1 := by
  obtain ⟨c, hc⟩ := main_addiElf
  have hpath : (parse ["prog".toList]).elfPath = some "prog".toList := by decide
  obtain ⟨-, hzero, -, -, -, -⟩ := main_decides hpath rfl ⟨by decide, by decide⟩
    ⟨by decide, by decide⟩ (fun h => absurd h (by decide)) hc
  obtain ⟨k, hlive, hop, hcount⟩ := hzero.mp rfl
  exact ⟨c, _, k, rfl, hc, hlive, hop, hcount⟩

/-- Two command lines that name the same file, with whatever flags: unless one of the runs is cut
    off by its cycle limit, both end with the same exit code, at the same instruction, after as
    many instructions and with the same registers. -/
theorem flags_invisible {args' : List (List Char)} {files' : List Char → Option (List Byte)}
    {path' : List Char} {code' : Nat} {c' : Core} (hpath : (parse args).elfPath = some path)
    (hfile : files path = some file) (hpath' : (parse args').elfPath = some path')
    (hfile' : files' path' = some file)
    (hmem : LatencyOk (parse args).memLatency) (himem : LatencyOk (parse args).imemLatency)
    (hmem' : LatencyOk (parse args').memLatency) (himem' : LatencyOk (parse args').imemLatency)
    (halign : (parse args).bpred = true ∨ (parse args').bpred = true →
      (machineOf file).Aligned (codeOf file))
    (h : main files args = some (code, some c)) (h' : main files' args' = some (code', some c')) :
    code = 1 ∧ c.cycles = (parse args).maxCycles ∨
      code' = 1 ∧ c'.cycles = (parse args').maxCycles ∨
      code = code' ∧ c.instructions = c'.instructions ∧ c.rf = c'.rf ∧ c.haltPc = c'.haltPc ∧
        c.haltRaw = c'.haltRaw := by
  obtain ⟨hregs, ⟨k, hstop⟩ | hcut⟩ :=
    main_cases hpath hfile hmem himem (fun hb => halign (.inl hb)) h
  · obtain ⟨hregs', ⟨k', hstop'⟩ | hcut'⟩ :=
      main_cases hpath' hfile' hmem' himem' (fun hb => halign (.inr hb)) h'
    · obtain rfl := halts_unique hstop.live hstop'.live hstop.halts hstop'.halts
      have hcount : c.instructions = c'.instructions := hstop.retired.trans hstop'.retired.symm
      refine .inr (.inr ⟨hstop.code.trans hstop'.code.symm, hcount, ?_,
        hstop.haltPc.trans hstop'.haltPc.symm, hstop.haltRaw.trans hstop'.haltRaw.symm⟩)
      rw [hregs, hregs', hcount]
    · exact .inr (.inl ⟨hcut'.code, hcut'.cycles⟩)
  · exact .inl ⟨hcut.code, hcut.cycles⟩

/-- The same program with and without a D-cache. -/
theorem flags_invisible_addiElf :
    ∃ c c', main addiElf ["prog".toList] = some (0, some c) ∧
      main addiElf ["--mem-latency=2".toList, "--dcache".toList, "prog".toList] =
        some (0, some c') ∧
      c.instructions = c'.instructions ∧ c.rf = c'.rf := by
  obtain ⟨c, hc⟩ := main_addiElf
  obtain ⟨c', hc'⟩ := @exists_main addiElf
    ["--mem-latency=2".toList, "--dcache".toList, "prog".toList] 0 (by decide +kernel)
  have hpath : (parse ["prog".toList]).elfPath = some "prog".toList := by decide
  have hpath' : (parse ["--mem-latency=2".toList, "--dcache".toList, "prog".toList]).elfPath =
      some "prog".toList := by decide
  have hno : (parse ["prog".toList]).bpred = true ∨ (parse ["--mem-latency=2".toList,
      "--dcache".toList, "prog".toList]).bpred = true → False := by decide
  obtain ⟨hone, -⟩ | ⟨hone, -⟩ | ⟨-, hcount, hregs, -⟩ := flags_invisible hpath rfl hpath' rfl
    ⟨by decide, by decide⟩ ⟨by decide, by decide⟩ ⟨by decide, by decide⟩ ⟨by decide, by decide⟩
    (fun h => (hno h).elim) hc hc'
  · cases hone
  · cases hone
  · exact ⟨c, c', hc, hc', hcount, hregs⟩

end BenchRun

end CpuSim
