import CpuSim.Memory.Atomic
import CpuSim.Memory.Geometry
import Mathlib.Data.List.Find

/-!
# A cache as a level of the atomic hierarchy

`level` reads the tag array and the replacement policy of a `Cache` as a level of the atomic
cache. The searches of the source agree with the atomic ones under it, and its two ways of
changing a line, a hit and an install, are the atomic ones.
-/

namespace CpuSim

open Atomic

instance : Policy TreePlru where
  victim t set := t.victim (BitVec.ofNat 32 set)
  touch t set way := t.touch (BitVec.ofNat 32 set) way

/-- A tag entry as a line of the atomic cache. -/
def Line.block (l : Line) : Option Block := if l.valid then some ⟨l.tag.toNat, l.dirty⟩ else none

namespace Cache

variable {M : Type} {c : Cache M}

/-- The tag array and the policy of a cache as a level of the atomic hierarchy. -/
def level (c : Cache M) : Level TreePlru where
  lineBytes := 2 ^ c.offsetBits
  sets := 2 ^ c.indexBits
  ways := c.ways
  hitLatency := c.hitLatency
  lines set way :=
    if set < 2 ^ c.indexBits ∧ way < c.ways then (c.lineAt (BitVec.ofNat 32 set) way).block
    else none
  policy := c.repl

theorem level_lines_eq (c : Cache M) (set way : Nat) :
    c.level.lines set way =
      if set < 2 ^ c.indexBits ∧ way < c.ways then (c.lineAt (BitVec.ofNat 32 set) way).block
      else none := rfl

theorem level_lines {set : Word} {way : Nat} (hs : set.toNat < 2 ^ c.indexBits)
    (hw : way < c.ways) : c.level.lines set.toNat way = (c.lineAt set way).block := by
  rw [level_lines_eq, if_pos ⟨hs, hw⟩, BitVec.ofNat_toNat, BitVec.setWidth_eq]

theorem level_setOf (h : c.WellFormed) (a : Word) :
    c.level.setOf a.toNat = (c.indexOf a).toNat := (indexOf_toNat h a).symm

theorem level_tagOf (c : Cache M) (a : Word) : c.level.tagOf a.toNat = (c.tagOf a).toNat :=
  (tagOf_toNat c a).symm

theorem level_lookup (h : c.WellFormed) (a : Word) : c.level.lookup a.toNat = c.findWay a := by
  have hways : c.level.ways = c.ways := rfl
  unfold Level.lookup findWay
  rw [hways]
  apply List.find?_congr
  intro w hw
  rw [level_setOf h, level_tagOf, level_lines (indexOf_lt h a) (List.mem_range.mp hw), Line.block]
  by_cases hv : (c.lineAt (c.indexOf a) w).valid = true
  · rw [if_pos hv, hv, Option.any_some, Bool.true_and, Bool.eq_iff_iff, beq_iff_eq, beq_iff_eq]
    exact BitVec.toNat_inj
  · simp [hv]

theorem level_victim (c : Cache M) {set : Word} (hs : set.toNat < 2 ^ c.indexBits) :
    c.level.victim set.toNat = c.chooseVictim set := by
  have hfind : ((List.range c.ways).find? fun w => (c.level.lines set.toNat w).isNone) =
      (List.range c.ways).find? fun w => !(c.lineAt set w).valid := by
    apply List.find?_congr
    intro w hw
    rw [level_lines hs (List.mem_range.mp hw), Line.block]
    cases (c.lineAt set w).valid <;> rfl
  have hpolicy : Policy.victim c.level.policy set.toNat = c.repl.victim set := by
    change c.repl.victim (BitVec.ofNat 32 set.toNat) = _
    rw [BitVec.ofNat_toNat, BitVec.setWidth_eq]
  have hways : c.level.ways = c.ways := rfl
  unfold Level.victim chooseVictim
  rw [hways, hfind, hpolicy]
  cases (List.range c.ways).find? fun w => !(c.lineAt set w).valid <;> rfl

theorem level_owes (h : c.WellFormed) {set : Word} {way : Nat}
    (hs : set.toNat < 2 ^ c.indexBits) (hw : way < c.ways) :
    c.level.owes set.toNat way =
      if c.dirtyAt set way then
        some (c.addrOf set (c.lineAt set way).tag).toNat
      else none := by
  unfold Level.owes
  rw [level_lines hs hw, Line.block, addrOf_toNat h hs (tag_lineAt_lt h set way), dirtyAt]
  cases (c.lineAt set way).valid <;> cases (c.lineAt set way).dirty <;> rfl

/-- Replacing a line and touching the policy. -/
theorem level_put (h : c.WellFormed) {set : Word} {way : Nat} (hs : set.toNat < 2 ^ c.indexBits)
    (hw : way < c.ways) {l : Line} {b : Block} (hl : l.block = some b) :
    ({ c.setLine set way l with repl := c.repl.touch set way } : Cache M).level =
      c.level.put set.toNat way b := by
  have hset : BitVec.ofNat 32 set.toNat = set := by rw [BitVec.ofNat_toNat, BitVec.setWidth_eq]
  apply Level.ext
  · rfl
  · rfl
  · rfl
  · rfl
  · funext s w
    change (if s < 2 ^ c.indexBits ∧ w < c.ways then
        ((c.setLine set way l).lineAt (BitVec.ofNat 32 s) w).block else none) =
      if s = set.toNat ∧ w = way then some b else c.level.lines s w
    by_cases hin : s < 2 ^ c.indexBits ∧ w < c.ways
    · have hwidth := h.width
      have hs32 : s < 2 ^ 32 :=
        hin.1.trans (Nat.pow_lt_pow_right (by omega) (by omega))
      have hsame : BitVec.ofNat 32 s = set ↔ s = set.toNat := by
        constructor
        · rintro rfl
          rw [BitVec.toNat_ofNat, Nat.mod_eq_of_lt hs32]
        · rintro rfl
          exact hset
      rw [if_pos hin, lineAt_setLine h _ l hs hw hin.2, level_lines_eq, if_pos hin]
      simp only [hsame]
      split
      · exact hl
      · rfl
    · have hne : ¬ (s = set.toNat ∧ w = way) := by
        rintro ⟨rfl, rfl⟩
        exact hin ⟨hs, hw⟩
      rw [if_neg hin, if_neg hne, level_lines_eq, if_neg hin]
  · change c.repl.touch set way = c.repl.touch (BitVec.ofNat 32 set.toNat) way
    rw [hset]

theorem level_installLine (h : c.WellFormed) {set : Word} {way : Nat}
    (hs : set.toNat < 2 ^ c.indexBits) (hw : way < c.ways) (a : Word) (isWrite pf : Bool) :
    (c.installLine set way a isWrite pf).level =
      c.level.put set.toNat way ⟨(c.tagOf a).toNat, isWrite⟩ := by
  rw [installLine_eq]
  exact level_put h hs hw (l := ⟨true, isWrite, pf, c.tagOf a⟩) rfl

theorem level_acceptHit (h : c.WellFormed) {set : Word} {way : Nat}
    (hs : set.toNat < 2 ^ c.indexBits) (hw : way < c.ways)
    (hv : (c.lineAt set way).valid = true) (isWrite : Bool) :
    (c.acceptHit set way isWrite).level = c.level.hit set.toNat way isWrite := by
  have hblock : (c.lineAt set way).block =
      some ⟨(c.lineAt set way).tag.toNat, (c.lineAt set way).dirty⟩ := if_pos hv
  unfold Level.hit
  rw [level_lines hs hw, hblock, acceptHit_eq]
  exact level_put h hs hw (l := { c.lineAt set way with
    dirty := (c.lineAt set way).dirty || isWrite, prefetched := false }) (if_pos hv)

end Cache

end CpuSim
