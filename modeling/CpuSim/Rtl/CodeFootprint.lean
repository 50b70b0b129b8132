import CpuSim.Memory.Polled
import CpuSim.Rtl.Slack

/-!
# The time of a program behind caches

Without a predictor IF runs straight on until EX redirects it, so all it ever asks for are the
words of the program's instructions and the two behind each (`Straight`). Behind an I-cache that
the lines of these words fit in, it waits for each line once, wherever the redirects find it. With
the closed form of the data stalls that bounds the cycles of a program from both sides.
-/

namespace CpuSim

open Rv32i Machine Atomic

namespace Machine

/-- What IF may ask for while the machine executes its first `n` instructions: each of them, and
    the two words behind it. -/
def fetches (code : ByteMap) (s : Machine) (n : Nat) : List Word :=
  (List.range n).flatMap fun i =>
    [(s.after code i).pc, (s.after code i).pc + 4, (s.after code i).pc + 8]

end Machine

namespace Pipe

variable {p q : Pipe} {code : ByteMap} {s : Machine} {f : FetchOut Port} {m : MemOut Port}
  {retired waits latency lineBytes k : Nat} {res : List (Word × Bool)} {lines : Finset Nat}

/-! ## Straight on -/

/-- Every slot of the front end holds the word behind that of the next slot. -/
structure Straight (p : Pipe) : Prop where
  fetched : p.ifId.valid = true → p.pc = p.ifId.pc + 4
  decoded : p.idEx.valid = true → p.frontPc = p.idEx.pc + 4

theorem Straight.flow (h : p.Straight) (hf : p.fetch = some f) (hnone : p.bpred = none)
    (m : MemOut Port) : (p.flowNext f m).Straight := by
  have hid := flow_ifId p f m
  have hpc := flow_pc p f m
  have hserved : f.out.valid = true → f.out.pc = p.pc ∧ f.predictedPc = p.pc + 4 := by
    intro hv
    obtain ⟨hfpc, -, -, hnext⟩ := fetch_served hf hv
    rw [hnone] at hnext
    exact ⟨hfpc, hnext⟩
  have hvalid := Tracks.flow_idEx_valid p f m
  cases hr : p.exec.redirect with
  | true =>
    rw [hr, if_pos rfl] at hid
    refine ⟨fun hv => ?_, fun hv => ?_⟩
    · rw [hid] at hv
      cases hv
    · rw [hvalid, hr] at hv
      cases hv.1
  | false =>
    rw [hr, if_neg (by decide)] at hid hpc
    cases hz : p.hazard with
    | true =>
      rw [hz] at hid hpc
      simp only [if_true, Bool.true_or] at hid hpc
      refine ⟨fun hv => ?_, fun hv => ?_⟩
      · rw [hid] at hv ⊢
        rw [hpc]
        exact h.fetched hv
      · rw [hvalid, hz] at hv
        cases hv.2.1
    | false =>
      rw [hz] at hid hpc
      simp only [Bool.false_eq_true, if_false, Bool.false_or] at hid hpc
      have hstall := fetch_valid hf
      refine ⟨fun hv => ?_, fun hv => ?_⟩
      · rw [hid] at hv ⊢
        obtain ⟨hfpc, hnext⟩ := hserved hv
        rw [hv, Bool.true_eq, Bool.not_eq_true'] at hstall
        rw [hpc, hstall, if_neg (by decide), hnext, hfpc]
      · obtain ⟨-, -, hifv⟩ := hvalid.mp hv
        have hdpc : (decodeInsn p.rf p.ifId).pc = p.ifId.pc :=
          (decodeInsn_holds p.rf hifv).pc.trans (decode_pc _ _)
        rw [Tracks.flow_idEx p f m hv, hdpc, ← h.fetched hifv]
        unfold frontPc
        rw [hid]
        cases hv' : f.out.valid with
        | true =>
          rw [if_pos rfl]
          exact (hserved hv').1
        | false =>
          rw [hv', Bool.false_eq, Bool.not_eq_false'] at hstall
          rw [if_neg (by decide), hpc, hstall, if_pos rfl]

/-- The machine runs as far as the instruction in ID/EX. -/
theorem Tracks.live_of_exLive (h : p.Tracks code (s.after code retired))
    (hlive : Live code retired s) (hxl : p.exLive = true) :
    Live code (retired + p.memWb.valid.toNat + p.exMem.valid.toNat) s := by
  have hmem : Live code (retired + p.memWb.valid.toNat) s := by
    cases hv : p.memWb.valid with
    | false => exact hlive
    | true =>
      intro j hj
      rw [Bool.toNat_true] at hj
      rcases Nat.lt_succ_iff_lt_or_eq.mp hj with hlt | rfl
      · exact hlive j hlt
      · exact h.runs_of_memLive hv (exLive_memLive hxl)
  cases hv : p.exMem.valid with
  | false => exact hmem
  | true =>
    intro j hj
    rw [Bool.toNat_true] at hj
    rcases Nat.lt_succ_iff_lt_or_eq.mp hj with hlt | rfl
    · exact hmem j hlt
    · have hruns := h.runs_of_exLive hv hxl
      unfold atMem at hruns
      rwa [advance_eq_after, after_add] at hruns

/-- IF asks for the instruction that the machine executes next, or one of the two behind it. -/
theorem Straight.pc_mem_fetches (h : p.Straight) (hlate : p.Late code s retired res waits)
    (htr : p.Tracks code (s.after code retired)) (hlive : Live code retired s)
    (hxl : p.exLive = true) (hk : (s.after code k).halts code = true) :
    p.pc ∈ fetches code s (k + 1) := by
  have hreach : res.length ≤ k := by
    have hex := htr.live_of_exLive hlive hxl
    rw [← hlate.count] at hex
    by_contra hlt
    rw [hex k (by omega)] at hk
    cases hk
  have hnear : p.pc = (s.after code res.length).pc ∨ p.pc = (s.after code res.length).pc + 4 ∨
      p.pc = (s.after code res.length).pc + 8 := by
    have hfront : p.pc = p.frontPc ∨ p.pc = p.frontPc + 4 := by
      unfold frontPc
      cases hv : p.ifId.valid with
      | true => exact .inr (h.fetched hv)
      | false => exact .inl rfl
    cases hv : p.idEx.valid with
    | true =>
      rw [h.decoded hv, (htr.ex hv hxl).1, hlate.atEx] at hfront
      refine .inr (hfront.imp_right fun hpc => hpc.trans ?_)
      rw [BitVec.add_assoc]
      rfl
    | false =>
      have hpath : p.onPath = true := by
        refine onPath_of (by simp [idLive, hxl, hv]) ?_
        cases hr : p.exec.redirect with
        | false => rfl
        | true =>
          rw [exec_redirect_valid hr] at hv
          cases hv
      have hat : p.atId code (s.after code retired) = s.after code res.length := by
        unfold atId
        rw [hv, advance_false, hlate.atEx]
      rw [htr.front hpath, hat] at hfront
      exact hfront.imp_right .inl
  refine List.mem_flatMap.mpr ⟨res.length, List.mem_range.mpr (by omega), ?_⟩
  simpa using hnear

/-! ## One wait for each line -/

/-- The I-cache of `p`, as long as it matters: polled for `lines` only. -/
structure Cold (latency lineBytes : Nat) (lines : Finset Nat) (waits : Nat) (p : Pipe) : Prop where
  cache : ∃ c, p.iport = .cached c ∧
    (p.exLive = true → ∃ done, c.Polled latency lineBytes lines done waits)
  paid : waits ≤ lines.card * latency

theorem Cold.flow (h : p.Cold latency lineBytes lines waits) (hf : p.fetch = some f)
    (hm : p.mem = some m) (hs : m.stalling = false) (hrun : p.halted = false)
    (hnh : p.halting = false)
    (hline : p.exLive = true → p.pc.toNat / lineBytes ∈ lines) :
    (p.flowNext f m).Cold latency lineBytes lines (waits + p.unserved.length) := by
  rcases h.cache with ⟨c, hport, hpolled⟩
  have himem := (fetchWord_eq_some hf).1
  rw [hport] at himem
  have hnext : (p.flowNext f m).iport = .cached (c.ready p.pc false).2.tick :=
    congrArg IMemory.tick himem
  cases hxl : p.exLive with
  | true =>
    have hstall : f.fetchStall = !(c.ready p.pc false).1 := by
      have hready : (IMemory.ready p.iport p.pc false).1 = (c.ready p.pc false).1 := by
        rw [hport]
        rfl
      rcases fetchWord_eq_some hf with ⟨-, ⟨hr, -, hs, -⟩ | ⟨hr, -, hs, -⟩⟩ <;>
        rw [hs, ← hready, hr] <;> rfl
    rcases hpolled hxl with ⟨done, hd⟩
    rcases hd.poll (hline hxl) false with ⟨done', hd'⟩
    rw [← hstall, ← length_unserved hrun hf hxl] at hd'
    exact ⟨⟨_, hnext, fun _ => ⟨done', hd'⟩⟩, hd'.waits_le⟩
  | false =>
    have hquiet : p.unserved = [] := by simp [unserved, hxl]
    rw [hquiet]
    refine ⟨⟨_, hnext, fun hl => ?_⟩, h.paid⟩
    rw [idLive_exLive (Tracks.flow_exLive hm hs hnh hl)] at hxl
    cases hxl

/-- In a run with prompt data and without a predictor IF waits for no line twice. -/
theorem cold_of_ticks (hp : p.dport.Prompt) (hlate : p.Late code s 0 [] 0)
    (hnone : p.Unpredicted) (hstraight : p.Straight) (hcold : p.Cold latency lineBytes lines 0)
    (href : ∀ n q, p.ticks n = some q → q.Refines (p.retired n) code s)
    (hk : (s.after code k).halts code = true)
    (hlines : ∀ a ∈ fetches code s (k + 1), a.toNat / lineBytes ∈ lines) {n : Nat}
    (hq : p.ticks n = some q) (hrun : q.halted = false) :
    q.Straight ∧ q.Cold latency lineBytes lines (p.waited n).length := by
  induction n generalizing q with
  | zero =>
    simp only [ticks, Runs.run_zero, Option.some.injEq] at hq
    subst hq
    exact ⟨hstraight, hcold⟩
  | succ n ih =>
    rcases (Runs.run_succ_eq_some tick).mp hq with ⟨u, hu, huq⟩
    rcases running_of_tick huq hrun with ⟨huh, hnh⟩
    rcases ih hu huh with ⟨hus, huc⟩
    rcases late_of_ticks hp hlate href hu huh with ⟨hup, hul⟩
    have hun := (late_resolved_of_ticks hp hlate hnone href hu huh).1
    rcases (href n u hu).phase with ⟨hlive, htr⟩ | hstop
    swap
    · rw [hstop.halted] at huh
      cases huh
    rcases tick_of_prompt hup huh huq with ⟨f, m, hf, hm, hs, rfl, -⟩
    have hwait : p.waited (n + 1) = p.waited n ++ u.unserved :=
      Runs.log_succ_of_run tick unserved hu
    rw [hwait, List.length_append]
    refine ⟨hus.flow hf hun.bpred m, huc.flow hf hm hs huh hnh fun hxl => ?_⟩
    exact hlines _ (hus.pc_mem_fetches hul htr hlive hxl hk)

end Pipe

/-- A new cache has been polled for nothing. -/
theorem Cache.polled_new {m : FlatMem} {latency lineBytes sets ways : Nat} {lines : Finset Nat}
    (hm : m.Timing latency) (hrank : m.rank = latency - 1) (h : CacheShape lineBytes sets ways)
    (hfits : ∀ set < sets, (lines.filter fun x => x % sets = set).card ≤ ways) (degree : Nat)
    (stats : Option SimStats) :
    (Cache.new m lineBytes sets 1 ways false degree stats).Polled latency lineBytes lines ∅ 0 := by
  rcases Cache.level_new m h Nat.one_pos false degree stats with ⟨hfields, hempty⟩
  simp only [Level.shape, Prod.mk.injEq] at hfields
  rcases hfields with ⟨hbytes, hsets, hways, -⟩
  refine ⟨Cache.wellFormed_new m h 1 false degree stats, rfl, rfl, hbytes, rfl, hm, ?_,
    Finset.empty_subset _, hempty, hrank, ?_⟩
  · intro set hset
    rw [hsets] at hset ⊢
    rw [hways]
    exact hfits set hset
  · rw [Finset.card_empty, Nat.zero_mul]

namespace Core

variable {cfg : SimConfig} {imem dmem : Nat → Byte} {rf : RegFile}

/-- The lines of the I-cache that some words are in. -/
def codeFootprint (cfg : SimConfig) (words : List Word) : Finset Nat :=
  Level.footprint cfg.icacheLineBytes (words.map BitVec.toNat)

/-- No set of the I-cache gets more lines of these words than it has ways. -/
def FitsIcache (cfg : SimConfig) (words : List Word) : Prop :=
  ∀ set < cfg.icacheSets,
    ((codeFootprint cfg words).filter fun x => x % cfg.icacheSets = set).card ≤ cfg.icacheWays

instance (cfg : SimConfig) (words : List Word) : Decidable (FitsIcache cfg words) := by
  unfold FitsIcache
  infer_instance

/-- An I-cache that fetches a line only when IF asks for it, and serves a hit at once. -/
structure PlainIcache (cfg : SimConfig) : Prop where
  icache : cfg.icacheEnabled = true
  prefetch : cfg.icachePrefetchEnabled = false
  hit : cfg.icacheHitLatencyCycles = 1

theorem straight_boot (cfg : SimConfig) (imem dmem : Nat → Byte) (rf : RegFile) :
    (boot cfg imem dmem rf).view.Straight where
  fetched h := by cases h
  decoded h := by cases h

theorem cold_boot (hcfg : cfg.Valid) (hcache : PlainIcache cfg) {words : List Word}
    (hfits : FitsIcache cfg words) (imem dmem : Nat → Byte) (rf : RegFile) :
    (boot (promptData cfg) imem dmem rf).view.Cold cfg.imemLatencyCycles cfg.icacheLineBytes
      (codeFootprint cfg words) 0 := by
  rcases hcfg.icache hcache.icache with ⟨hshape, -⟩
  have hpos := hcfg.imem.1
  have hlatency : (if cfg.imemLatencyCycles = 0 then 1 else cfg.imemLatencyCycles) =
      cfg.imemLatencyCycles := if_neg (by omega)
  let m : FlatMem :=
    { FlatMem.new cfg.ramBaseAddr cfg.ramSizeBytes cfg.imemLatencyCycles with
      mem := bytesOf cfg.ramSizeBytes imem }
  have hport : (boot (promptData cfg) imem dmem rf).view.iport = .cached (Cache.new m
      cfg.icacheLineBytes cfg.icacheSets 1 cfg.icacheWays false cfg.icachePrefetchDegree
        (some {})) := by
    change (newIport cfg).load (bytesOf cfg.ramSizeBytes imem) = _
    unfold newIport
    rw [hcache.icache, hcache.prefetch, hcache.hit]
    rfl
  refine ⟨⟨_, hport, fun _ => ⟨∅, ?_⟩⟩, Nat.zero_le _⟩
  refine Cache.polled_new ⟨hcfg.imem, hlatency, fun h => by cases h⟩ ?_ hshape hfits _ _
  exact congrArg (· - 1) hlatency

/-- How long IF waits behind an I-cache that the program fits in. -/
theorem waited_le (hcfg : cfg.Valid) (hcache : PlainIcache cfg)
    (hoff : cfg.bpredEnabled = false) {k : Nat} {n : Nat} {c : Core}
    (hk : ((reference cfg dmem rf).after (imageOf cfg imem) k).halts (imageOf cfg imem) = true)
    (hfits : FitsIcache cfg ((reference cfg dmem rf).fetches (imageOf cfg imem) (k + 1)))
    (hc : (boot (promptData cfg) imem dmem rf).ticks n = some c) (hh : c.halted = true) :
    ((boot (promptData cfg) imem dmem rf).waited n).length ≤
      (codeFootprint cfg ((reference cfg dmem rf).fetches (imageOf cfg imem) (k + 1))).card *
        cfg.imemLatencyCycles := by
  have hquiet := quiet_boot (promptData cfg) imem dmem rf
  have hcv := view_of_ticks hquiet hc
  have halign : (promptData cfg).bpredEnabled = true →
      (reference (promptData cfg) dmem rf).Aligned (imageOf (promptData cfg) imem) := by
    intro hon
    change cfg.bpredEnabled = true at hon
    rw [hoff] at hon
    cases hon
  have href := fun k q hq => @refines_boot (promptData cfg) imem dmem rf
    (valid_promptData hcfg) halign k q hq
  have hnone : (boot (promptData cfg) imem dmem rf).view.Unpredicted := by
    refine ⟨?_, rfl, rfl⟩
    change (if cfg.bpredEnabled then _ else none) = none
    rw [hoff]
    rfl
  rcases Pipe.halting_tick_of_halted rfl hcv hh with ⟨j, r, hj, hr, hrr, hrh, hrc⟩
  have hcold := (Pipe.cold_of_ticks (prompt_boot cfg imem dmem rf)
    (late_boot (promptData cfg) imem dmem rf _ _) hnone
    (straight_boot (promptData cfg) imem dmem rf)
    (cold_boot hcfg hcache hfits imem dmem rf) href hk (fun a ha => ?_) hr hrr).2.paid
  · rw [waited_view hquiet]
    have hlog := Pipe.log_of_halting_tick Pipe.unserved hr hrc hh (Pipe.unserved_of_halted hh) hj
    rw [Pipe.unserved_of_halting hrh, List.append_nil] at hlog
    exact (congrArg List.length hlog).trans_le hcold
  · refine List.mem_toFinset.mpr (List.mem_map.mpr ⟨a.toNat, ?_, rfl⟩)
    exact List.mem_map_of_mem ha

/-- The cycles of a program behind an I-cache and any data side, without a predictor: at least
    what its instructions, loads, branches and data accesses take, and more by no more than the
    time to fetch, once each, the lines of its instructions and of the two words behind each,
    if these fit the I-cache. -/
theorem cached_time_bounded (hcfg : cfg.Valid) (hcache : PlainIcache cfg)
    (hoff : cfg.bpredEnabled = false) (imem dmem : Nat → Byte) (rf : RegFile)
    (hhalts : ∃ t, (boot (promptData cfg) imem dmem rf).HaltsAt t) :
    let code := imageOf cfg imem
    let s := reference cfg dmem rf
    ∃ k t, Live code k s ∧ (s.after code k).halts code = true ∧
      (boot cfg imem dmem rf).HaltsAt t ∧
      ((cfg.dcacheEnabled = true → FitsDcache cfg (s.accesses code (k + 1))) →
        let least := k + 5 + loadUses code s k + 2 * takens code s k +
          dataStalls cfg (s.accesses code (k + 1))
        least ≤ t ∧
          (FitsIcache cfg (s.fetches code (k + 1)) →
            t ≤ least +
              (codeFootprint cfg (s.fetches code (k + 1))).card * cfg.imemLatencyCycles)) := by
  intro code s
  rcases hhalts with ⟨-, n, c, hc, hh, -⟩
  have hvalid := valid_promptData hcfg
  have halign : cfg.bpredEnabled = true → s.Aligned code := by
    intro hon
    rw [hoff] at hon
    cases hon
  rcases late_at_halt hvalid halign hc hh with ⟨k, hlive, hkh, hlen, hlo, hhi, htaken⟩
  rcases retired_at_halt hvalid halign hc hh with ⟨k', -, -, hlen', hlog⟩
  obtain rfl : k = k' := by omega
  rcases haltsAt_of_promptData hcfg hc hh with ⟨costs, dport, hdriven, hend⟩
  rw [htaken hoff] at hlo hhi
  refine ⟨k, _, hlive, hkh, hend, fun hdata => ?_⟩
  have hdriven : (IMemory.port Port).DrivesAll (s.accesses code (k + 1))
      ((newDport cfg).load (bytesOf cfg.ramSizeBytes dmem)) costs dport := hlog ▸ hdriven
  rw [stallTime_dport hcfg hdata hdriven]
  refine ⟨Nat.add_le_add_right hlo _, fun hfits => ?_⟩
  have hwaited : ((boot (promptData cfg) imem dmem rf).waited n).length ≤
      (codeFootprint cfg (s.fetches code (k + 1))).card * cfg.imemLatencyCycles :=
    waited_le hcfg hcache hoff hkh hfits hc hh
  have htime : c.cycles + dataStalls cfg (s.accesses code (k + 1)) ≤
      k + 5 + loadUses code s k + 2 * takens code s k +
        ((boot (promptData cfg) imem dmem rf).waited n).length +
        dataStalls cfg (s.accesses code (k + 1)) := Nat.add_le_add_right hhi _
  change c.cycles + dataStalls cfg (s.accesses code (k + 1)) ≤
    k + 5 + loadUses code s k + 2 * takens code s k + dataStalls cfg (s.accesses code (k + 1)) + _
  omega

/-- `loadUseJump` behind two caches: one line of data, four of code. -/
theorem cached_time_bounded_loadUseJump :
    ∃ t, (boot codeCached loadUseJump (fun _ => 0) RegFile.zero).HaltsAt t ∧ 14 ≤ t ∧ t ≤ 26 := by
  rcases Option.map_eq_some_iff.mp (by decide +kernel :
    ((boot (promptData codeCached) loadUseJump (fun _ => 0) RegFile.zero).ticks 18).map halted =
      some true) with ⟨c, hc, hh⟩
  rcases cached_time_bounded codeCached_valid ⟨rfl, rfl, rfl⟩ rfl loadUseJump (fun _ => 0)
    RegFile.zero ⟨c.cycles, 18, c, hc, hh, rfl⟩ with ⟨k, t, hlive, hkh, ht, hbounds⟩
  have hlive' : Live (imageOf codeCached loadUseJump) 3
      (reference codeCached (fun _ => 0) RegFile.zero) := by
    unfold Live
    decide +kernel
  obtain rfl := halts_unique hlive hlive' hkh (by decide +kernel)
  rcases hbounds fun _ => by decide +kernel with ⟨hlo, hhi⟩
  have hleast : 3 + 5 + loadUses (imageOf codeCached loadUseJump)
        (reference codeCached (fun _ => 0) RegFile.zero) 3 +
      2 * takens (imageOf codeCached loadUseJump)
        (reference codeCached (fun _ => 0) RegFile.zero) 3 +
      dataStalls codeCached ((reference codeCached (fun _ => 0) RegFile.zero).accesses
        (imageOf codeCached loadUseJump) 4) = 14 := by decide +kernel
  have hlines : (codeFootprint codeCached ((reference codeCached (fun _ => 0)
      RegFile.zero).fetches (imageOf codeCached loadUseJump) 4)).card *
        codeCached.imemLatencyCycles = 12 := by decide +kernel
  have hle := hhi (by decide +kernel)
  exact ⟨t, ht, hleast.symm.trans_le hlo, hle.trans_eq (congrArg₂ (· + ·) hleast hlines)⟩

end Core

end CpuSim
