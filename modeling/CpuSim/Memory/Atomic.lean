import Mathlib.Data.Nat.Basic

/-!
# The atomic cache

A write-back, write-allocate, set-associative cache over a lower memory, as a function: one
access at a time, with its cost and the tags, dirty bits and replacement state it leaves.
Addresses are natural numbers, a line is found by division, and `below` is whatever the misses
and write-backs go to, so a hierarchy is this function iterated.
-/

namespace Atomic

/-- A replacement policy, by set and way. -/
class Policy (P : Type*) where
  victim : P → Nat → Nat
  touch : P → Nat → Nat → P

/-- A resident line. -/
@[ext] structure Block where
  tag : Nat
  dirty : Bool
  deriving DecidableEq, Repr

/-- One level: its geometry, what each way of each set holds, and the policy's state. -/
@[ext] structure Level (P : Type*) where
  lineBytes : Nat
  sets : Nat
  ways : Nat
  hitLatency : Nat
  lines : Nat → Nat → Option Block
  policy : P

namespace Level

variable {P β : Type*} (l : Level P)

def setOf (a : Nat) : Nat := a / l.lineBytes % l.sets

def tagOf (a : Nat) : Nat := a / l.lineBytes / l.sets

/-- The address of the first byte of a line. -/
def baseOf (set tag : Nat) : Nat := (tag * l.sets + set) * l.lineBytes

/-- The way that holds `a`. -/
def lookup (a : Nat) : Option Nat :=
  (List.range l.ways).find? fun w => (l.lines (l.setOf a) w).any fun b => b.tag == l.tagOf a

variable [Policy P]

/-- The way a miss replaces: an empty one, else the policy's. -/
def victim (set : Nat) : Nat :=
  ((List.range l.ways).find? fun w => (l.lines set w).isNone).getD (Policy.victim l.policy set)

/-- The write-back a replacement owes: the base of the line it drops, when that is dirty. -/
def owes (set way : Nat) : Option Nat :=
  (l.lines set way).bind fun b => if b.dirty then some (l.baseOf set b.tag) else none

/-- Put a line into a way and touch it. -/
def put (set way : Nat) (b : Block) : Level P :=
  { l with
    lines := fun s w => if s = set ∧ w = way then some b else l.lines s w
    policy := Policy.touch l.policy set way }

/-- A line after a hit: a store dirties it. -/
def hit (set way : Nat) (isWrite : Bool) : Level P :=
  match l.lines set way with
  | some b => l.put set way ⟨b.tag, b.dirty || isWrite⟩
  | none => l

/-- One access: a hit costs the hit latency; a miss first writes back what its victim owes,
    then reads below, then installs the line, dirty when the access is a store. -/
def access (below : β → Nat → Bool → Nat × β) (s : Level P × β) (a : Nat) (isWrite : Bool) :
    Nat × (Level P × β) :=
  let l := s.1
  let set := l.setOf a
  match l.lookup a with
  | some way => (l.hitLatency, (l.hit set way isWrite, s.2))
  | none =>
    let way := l.victim set
    let flushed := match l.owes set way with
      | some base => below s.2 base true
      | none => (0, s.2)
    let fetched := below flushed.2 a false
    (flushed.1 + fetched.1 + l.hitLatency, (l.put set way ⟨l.tagOf a, isWrite⟩, fetched.2))

variable {l} {below : β → Nat → Bool → Nat × β} {b : β} {a : Nat}

theorem access_of_hit {way : Nat} (h : l.lookup a = some way) (isWrite : Bool) :
    access below (l, b) a isWrite = (l.hitLatency, (l.hit (l.setOf a) way isWrite, b)) := by
  simp only [access, h]

theorem access_of_clean_miss (h : l.lookup a = none)
    (ho : l.owes (l.setOf a) (l.victim (l.setOf a)) = none) (isWrite : Bool) :
    access below (l, b) a isWrite =
      ((below b a false).1 + l.hitLatency,
        (l.put (l.setOf a) (l.victim (l.setOf a)) ⟨l.tagOf a, isWrite⟩,
          (below b a false).2)) := by
  simp only [access, h, ho, Nat.zero_add]

theorem access_of_dirty_miss {base : Nat} (h : l.lookup a = none)
    (ho : l.owes (l.setOf a) (l.victim (l.setOf a)) = some base) (isWrite : Bool) :
    access below (l, b) a isWrite =
      ((below b base true).1 + (below (below b base true).2 a false).1 + l.hitLatency,
        (l.put (l.setOf a) (l.victim (l.setOf a)) ⟨l.tagOf a, isWrite⟩,
          (below (below b base true).2 a false).2)) := by
  simp only [access, h, ho]

end Level

end Atomic
