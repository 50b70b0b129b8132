import CpuSim.Memory.Compulsory
import CpuSim.Memory.Demand
import CpuSim.Memory.Waiting

/-!
# A cache that is polled

A caller asks on every cycle, for whatever address it likes: it may ask for another line while
one is being fetched, and takes what comes. Without prefetching, and when a hit takes one cycle,
the polls that go unserved are those of the fills, and no line is filled twice as long as the
lines asked for fit (`Polled`).
-/

namespace CpuSim

open Atomic

namespace Cache

variable {c : Cache FlatMem} {latency lineBytes waits : Nat} {lines done : Finset Nat}

/-- How much of the next fill has been waited for. -/
def Filling (latency : Nat) (lines done : Finset Nat) (waits : Nat) (c : Cache FlatMem) : Prop :=
  match c.phase with
  | .idle => c.backing.rank = latency - 1 ∧ waits = done.card * latency
  | .hitWait => c.hitRemaining = 0 ∧ c.backing.rank = latency - 1 ∧ waits = done.card * latency
  | .missFetch => c.level.lineOf c.curAddr.toNat ∈ lines \ done ∧ c.victimWay < c.ways ∧
      c.level.lines (c.indexOf c.curAddr).toNat c.victimWay = none ∧
      waits + c.backing.rank + 1 = (done.card + 1) * latency
  | .writeBack | .prefetchWait => False

/-- Polls for `lines`, which fit, have filled `done` and gone unserved `waits` times. -/
structure Polled (latency lineBytes : Nat) (lines done : Finset Nat) (waits : Nat)
    (c : Cache FlatMem) : Prop where
  shape : c.WellFormed
  noPolicy : c.pfPolicy = none
  inactive : c.pfActive = false
  bytes : 2 ^ c.offsetBits = lineBytes
  hit : c.hitLatency = 1
  backing : c.backing.Timing latency
  fits : c.level.Fits lines
  inside : done ⊆ lines
  keeps : c.level.Keeps done
  filling : c.Filling latency lines done waits

/-- No more than one fill for each line. -/
theorem Polled.waits_le (h : c.Polled latency lineBytes lines done waits) :
    waits ≤ lines.card * latency := by
  have hle := Nat.mul_le_mul_right latency (Finset.card_le_card h.inside)
  have hfilling := h.filling
  unfold Filling at hfilling
  split at hfilling
  · omega
  · omega
  · rcases hfilling with ⟨hmem, -, -, hwaits⟩
    rcases Finset.mem_sdiff.mp hmem with ⟨hin, hout⟩
    have hcard := Finset.card_le_card (Finset.insert_subset hin h.inside)
    rw [Finset.card_insert_of_notMem hout] at hcard
    have hfills := Nat.mul_le_mul_right latency hcard
    omega
  · exact hfilling.elim
  · exact hfilling.elim

/-- The timer of a hit that takes one cycle. -/
theorem Polled.timer (h : c.Polled latency lineBytes lines done waits) :
    toInt32 c.hitLatency - 1 = 0 := by
  rw [h.hit, toInt32_of_latencyOk ⟨by decide, by decide⟩]
  rfl

/-- A request that is accepted hits a line that was filled, or starts to fill another one. -/
theorem Polled.accept (h : c.Polled latency lineBytes lines done waits) (hp : c.phase = .idle)
    {a : Word} (ha : a.toNat / lineBytes ∈ lines) (w : Bool) :
    (c.accept a w).Polled latency lineBytes lines done waits := by
  rw [← h.bytes] at ha
  have ha : c.level.lineOf a.toNat ∈ lines := ha
  have hfilling := h.filling
  simp only [Filling, hp] at hfilling
  rcases hfilling with ⟨hrank, hwaits⟩
  have hindex := indexOf_lt h.shape a
  have hset := level_setOf h.shape a
  have hsets : 0 < c.level.sets := Nat.two_pow_pos c.indexBits
  rcases hw : c.findWay a with _ | way
  · have hnew : c.level.lineOf a.toNat ∉ done := by
      intro hmem
      rcases h.keeps.lookup_of_mem hmem with ⟨v, -, hl, -⟩
      rw [level_lookup h.shape, hw] at hl
      cases hl
    have hfits : c.level.Fits (insert (c.level.lineOf a.toNat) done) :=
      h.fits.mono (Finset.insert_subset ha h.inside)
    rcases h.keeps.victim_empty hsets hnew hfits with ⟨hway, hempty⟩
    have hvictim : c.level.victim (c.level.lineOf a.toNat % c.level.sets) =
        c.chooseVictim (c.indexOf a) := by
      change c.level.victim (c.level.setOf a.toNat) = _
      rw [hset]
      exact level_victim c hindex
    rw [hvictim] at hway hempty
    have hempty : c.level.lines (c.indexOf a).toNat (c.chooseVictim (c.indexOf a)) = none :=
      hset ▸ hempty
    have hclean : c.dirtyAt (c.indexOf a) (c.chooseVictim (c.indexOf a)) = false := by
      have howes := level_owes h.shape hindex (chooseVictim_lt h.shape (c.indexOf a))
      unfold Level.owes at howes
      rw [hempty] at howes
      by_contra hdirty
      rw [Bool.not_eq_false] at hdirty
      rw [if_pos hdirty] at howes
      cases howes
    have hpos := h.backing.ok.1
    rw [accept_miss h.noPolicy h.inactive hw, if_neg (by rw [hclean]; decide)]
    refine ⟨h.shape.frame rfl, h.noPolicy, h.inactive, h.bytes, h.hit, h.backing, h.fits,
      h.inside, h.keeps, Finset.mem_sdiff.mpr ⟨ha, hnew⟩, hway, hempty, ?_⟩
    change waits + c.backing.rank + 1 = _
    rw [hrank, hwaits, Nat.succ_mul]
    omega
  · rw [accept_hit h.noPolicy hw]
    have hkept : ({ c with curAddr := a, curIsWrite := w, lastHit := true } :
        Cache FlatMem).WellFormed := h.shape.frame rfl
    have hshape := hkept.acceptHit (c.indexOf a) way w
    have hlevel := level_acceptHit hkept hindex (findWay_lt hw) (valid_of_findWay hw) w
    have hlookup : c.level.lookup a.toNat = some way := (level_lookup h.shape a).trans hw
    rcases h.keeps.lookup_of_mem (by
      by_contra hnew
      rw [h.keeps.lookup_of_notMem hsets hnew] at hlookup
      cases hlookup) with ⟨v, b, hl, -, hb⟩
    rw [hlookup] at hl
    cases hl
    rw [hset] at hb
    have hkeeps := h.keeps.hit hb w
    have hfields : (c.level.hit (c.indexOf a).toNat way w).shape = c.level.shape := by
      simp only [Level.hit, hb]
      rfl
    have htimer := h.timer
    rw [acceptHit_eq] at hshape hlevel ⊢
    refine ⟨hshape, h.noPolicy, h.inactive, h.bytes, h.hit, h.backing, ?_, h.inside,
      hlevel ▸ hkeeps, htimer, hrank, hwaits⟩
    intro s hs
    exact h.fits s hs

/-- A hit is over after its cycle. -/
theorem Polled.tick_hit (h : c.Polled latency lineBytes lines done waits)
    (hp : c.phase = .hitWait) :
    c.tick.Polled latency lineBytes lines done waits := by
  have hfilling := h.filling
  simp only [Filling, hp] at hfilling
  rcases hfilling with ⟨hzero, hrank, hwaits⟩
  rw [tick_hitWait hp h.inactive]
  unfold countDown
  rw [if_neg (by omega)]
  exact ⟨h.shape.frame rfl, h.noPolicy, h.inactive, h.bytes, h.hit, h.backing, h.fits, h.inside,
    h.keeps, hrank, hwaits⟩

/-- One more cycle of a fill, and at the end of it the line. -/
theorem Polled.tick_fetch (h : c.Polled latency lineBytes lines done waits)
    (hp : c.phase = .missFetch) :
    ∃ done', c.tick.Polled latency lineBytes lines done' (waits + 1) := by
  have hfilling := h.filling
  simp only [Filling, hp] at hfilling
  rcases hfilling with ⟨hmem, hway, hempty, hpaid⟩
  rcases Finset.mem_sdiff.mp hmem with ⟨hin, hout⟩
  have hindex := indexOf_lt h.shape c.curAddr
  have hset := level_setOf h.shape c.curAddr
  rcases h.backing.rank_poll c.curAddr false with ⟨hwait, hdone⟩
  have htiming := (h.backing.ready c.curAddr false).1.tick
  rw [tick_missFetch hp]
  change ∃ done', Polled latency lineBytes lines done' (waits + 1)
    (if (c.backing.ready c.curAddr false).1 then
      ({ c with backing := (c.backing.ready c.curAddr false).2.tick } : Cache FlatMem).fill
    else { c with backing := (c.backing.ready c.curAddr false).2.tick })
  cases hr : (c.backing.ready c.curAddr false).1 with
  | false =>
    have hrank := hwait hr
    rw [if_neg (by decide)]
    refine ⟨done, h.shape.frame rfl, h.noPolicy, h.inactive, h.bytes, h.hit, htiming, h.fits,
      h.inside, h.keeps, ?_⟩
    simp only [Filling, hp]
    exact ⟨hmem, hway, hempty, by omega⟩
  | true =>
    rcases hdone hr with ⟨hzero, hfull⟩
    have hshape := h.shape.installLine (c.indexOf c.curAddr) c.victimWay c.curAddr c.curIsWrite
      false
    have hlevel := level_installLine h.shape hindex hway c.curAddr c.curIsWrite false
    have hkeeps := h.keeps.put_new (Nat.two_pow_pos c.indexBits) hout hway
      (by change c.level.lines (c.level.setOf c.curAddr.toNat) c.victimWay = none
          rw [hset]; exact hempty) c.curIsWrite
    have hput : c.level.put (c.level.lineOf c.curAddr.toNat % c.level.sets) c.victimWay
        ⟨c.level.lineOf c.curAddr.toNat / c.level.sets, c.curIsWrite⟩ =
        c.level.put (c.indexOf c.curAddr).toNat c.victimWay
          ⟨(c.tagOf c.curAddr).toNat, c.curIsWrite⟩ :=
      congrArg₂ (fun s t => c.level.put s c.victimWay ⟨t, c.curIsWrite⟩) hset
        (level_tagOf c c.curAddr)
    have hcard : (insert (c.level.lineOf c.curAddr.toNat) done).card = done.card + 1 :=
      Finset.card_insert_of_notMem hout
    have htimer := h.timer
    rw [if_pos rfl, fill_backing]
    unfold Cache.fill
    rw [installLine_eq] at hshape hlevel ⊢
    refine ⟨insert (c.level.lineOf c.curAddr.toNat) done, hshape.frame rfl, h.noPolicy,
      h.inactive, h.bytes, h.hit, htiming, h.fits, Finset.insert_subset hin h.inside, ?_, htimer,
      hfull, ?_⟩
    · rw [hput, ← hlevel] at hkeeps
      exact hkeeps
    · rw [hcard]
      omega

/-- One poll. -/
theorem Polled.poll (h : c.Polled latency lineBytes lines done waits) {a : Word}
    (ha : a.toNat / lineBytes ∈ lines) (w : Bool) :
    ∃ done', (c.ready a w).2.tick.Polled latency lineBytes lines done'
      (waits + (!(c.ready a w).1).toNat) := by
  have hbusy : ∀ d : Cache FlatMem, d.phase ≠ .idle →
      d.Polled latency lineBytes lines done waits →
      ∃ done', d.tick.Polled latency lineBytes lines done'
        (waits + (!(d.phase == .hitWait && d.hitRemaining == 0)).toNat) := by
    intro d hd hpolled
    have hfilling := hpolled.filling
    cases hp : d.phase with
    | idle => exact absurd hp hd
    | hitWait =>
      simp only [Filling, hp] at hfilling
      rw [hfilling.1]
      exact ⟨done, hpolled.tick_hit hp⟩
    | missFetch => exact hpolled.tick_fetch hp
    | writeBack | prefetchWait => simp only [Filling, hp] at hfilling
  by_cases hp : c.phase = .idle
  · have hserved : (c.ready a w).1 =
        ((c.accept a w).phase == .hitWait && (c.accept a w).hitRemaining == 0) := by
      unfold Cache.ready
      rw [if_pos hp]
    rw [hserved, ready_of_idle hp]
    exact hbusy _ (c.accept_phase a w) (h.accept hp ha w)
  · rw [ready_of_busy hp]
    exact hbusy c hp h

end Cache

end CpuSim
