import CpuSim.Base.Orders
import CpuSim.Sim.Run

/-!
# The benchmark runner

`tools/bench_run.cpp`: the command line, and a run of the ELF file that it names up to an exit
code. Every set of options has a command line that is read back as these options, with the flags
in any order (`parse_shuffled`).
-/

namespace CpuSim

open Digits

namespace BenchRun

/-! ## Numbers -/

/-- `isspace` in the C locale. -/
def isSpace (c : Char) : Bool := c = ' ' || decide (9 ≤ c.toNat ∧ c.toNat ≤ 13)

/-- The optional sign that `strtoul` accepts. -/
def sign : List Char → Bool × List Char
  | '-' :: cs => (true, cs)
  | '+' :: cs => (false, cs)
  | cs => (false, cs)

/-- `strtoul` and `strtoull` in base ten, both of 64 bits: the largest value for everything out of
    range, and the negated value behind a minus sign. -/
def strtoul (cs : List Char) : Nat :=
  let (neg, cs) := sign (cs.dropWhile isSpace)
  let v := ofDec cs
  if 2 ^ 64 ≤ v then 2 ^ 64 - 1 else if neg then (2 ^ 64 - v) % 2 ^ 64 else v

/-- `static_cast<unsigned>` of a `strtoul`. -/
def toUnsigned (cs : List Char) : Nat := strtoul cs % 2 ^ 32

/-! ## Arguments -/

/-- What the loop of `main` takes an argument for. -/
inductive Arg where
  | trace (path : List Char)
  | cycles (path : List Char)
  | memLatency (n : Nat)
  | dcache
  | dcacheWays (n : Nat)
  | imemLatency (n : Nat)
  | icache
  | icacheWays (n : Nat)
  | iprefetch
  | iprefetchDegree (n : Nat)
  | bpred
  | positional (text : List Char)
  deriving DecidableEq, Repr

/-- The chain of comparisons in the loop of `main`. -/
def classify (arg : List Char) : Arg :=
  if "--trace=".toList.isPrefixOf arg then .trace (arg.drop 8)
  else if "--cycles=".toList.isPrefixOf arg then .cycles (arg.drop 9)
  else if "--mem-latency=".toList.isPrefixOf arg then .memLatency (toUnsigned (arg.drop 14))
  else if arg = "--dcache".toList then .dcache
  else if "--dcache-ways=".toList.isPrefixOf arg then .dcacheWays (toUnsigned (arg.drop 14))
  else if "--imem-latency=".toList.isPrefixOf arg then .imemLatency (toUnsigned (arg.drop 15))
  else if arg = "--icache".toList then .icache
  else if "--icache-ways=".toList.isPrefixOf arg then .icacheWays (toUnsigned (arg.drop 14))
  else if arg = "--iprefetch".toList then .iprefetch
  else if "--iprefetch-degree=".toList.isPrefixOf arg then
    .iprefetchDegree (toUnsigned (arg.drop 19))
  else if arg = "--bpred".toList then .bpred
  else .positional arg

/-- The local variables of `main` that the arguments set, with their defaults. -/
structure Options where
  tracePath : Option (List Char) := none
  cyclesPath : Option (List Char) := none
  elfPath : Option (List Char) := none
  maxCycles : Nat := Core.noLimit
  memLatency : Nat := 5
  dcache : Bool := false
  dcacheWays : Nat := 1
  imemLatency : Nat := 1
  icache : Bool := false
  icacheWays : Nat := 1
  iprefetch : Bool := false
  iprefetchDegree : Nat := 1
  bpred : Bool := false
  deriving DecidableEq, Repr

/-- The body of the loop of `main`. The first argument that is no flag is the ELF path, every
    later one a cycle limit. -/
def Options.set (o : Options) : Arg → Options
  | .trace path => { o with tracePath := some path }
  | .cycles path => { o with cyclesPath := some path }
  | .memLatency n => { o with memLatency := n }
  | .dcache => { o with dcache := true }
  | .dcacheWays n => { o with dcacheWays := n }
  | .imemLatency n => { o with imemLatency := n }
  | .icache => { o with icache := true }
  | .icacheWays n => { o with icacheWays := n }
  | .iprefetch => { o with iprefetch := true }
  | .iprefetchDegree n => { o with iprefetchDegree := n }
  | .bpred => { o with bpred := true }
  | .positional text =>
    if o.elfPath = none then { o with elfPath := some text }
    else { o with maxCycles := strtoul text }

/-- The loop of `main`. -/
def parse (args : List (List Char)) : Options :=
  args.foldl (fun o arg => o.set (classify arg)) {}

/-! ## The run -/

/-- The `SimConfig` of `main`. -/
def Options.config (o : Options) : SimConfig :=
  { dmemLatencyCycles := o.memLatency
    dcacheEnabled := o.dcache
    dcacheWays := o.dcacheWays
    imemLatencyCycles := o.imemLatency
    icacheEnabled := o.icache
    icacheWays := o.icacheWays
    icachePrefetchEnabled := o.iprefetch
    icachePrefetchDegree := o.iprefetchDegree
    bpredEnabled := o.bpred }

/-- The exit code of a run that ended. -/
def exitCode (c : Core) : Nat :=
  if c.haltReason = .illegal then 3 else if c.halted then 0 else 1

/-- `main`: the exit code, and the core where one has run; `none` where an assertion ends the
    program, of a constructor already if the flags ask for a number of ways that is no power of
    two. `files` is the file system. -/
def main (files : List Char → Option (List Byte)) (args : List (List Char)) :
    Option (Nat × Option Core) :=
  if args = [] then some (1, none)
  else
    let o := parse args
    match o.elfPath with
    | none => some (1, none)
    | some path =>
      match Core.construct o.config with
      | none => none
      | some core =>
        match core.loadElf (String.ofList path) (files path) with
        | .error (.thrown _) => some (2, none)
        | .error .aborted => none
        | .ok core => (core.run o.maxCycles).map fun core => (exitCode core, some core)

/-! ## Writing a command line -/

/-- The eleven flags, and the arguments without one. -/
inductive Kind where
  | trace | cycles | memLatency | dcache | dcacheWays | imemLatency | icache | icacheWays
  | iprefetch | iprefetchDegree | bpred | positional
  deriving DecidableEq, Repr

def Arg.kind : Arg → Kind
  | .trace _ => .trace
  | .cycles _ => .cycles
  | .memLatency _ => .memLatency
  | .dcache => .dcache
  | .dcacheWays _ => .dcacheWays
  | .imemLatency _ => .imemLatency
  | .icache => .icache
  | .icacheWays _ => .icacheWays
  | .iprefetch => .iprefetch
  | .iprefetchDegree _ => .iprefetchDegree
  | .bpred => .bpred
  | .positional _ => .positional

/-- The text of an argument. -/
def Arg.text : Arg → List Char
  | .trace path => "--trace=".toList ++ path
  | .cycles path => "--cycles=".toList ++ path
  | .memLatency n => "--mem-latency=".toList ++ dec 0 n
  | .dcache => "--dcache".toList
  | .dcacheWays n => "--dcache-ways=".toList ++ dec 0 n
  | .imemLatency n => "--imem-latency=".toList ++ dec 0 n
  | .icache => "--icache".toList
  | .icacheWays n => "--icache-ways=".toList ++ dec 0 n
  | .iprefetch => "--iprefetch".toList
  | .iprefetchDegree n => "--iprefetch-degree=".toList ++ dec 0 n
  | .bpred => "--bpred".toList
  | .positional text => text

/-- The arguments of one kind that set these options, with `elf` for the ELF path. -/
def Options.argsOf (o : Options) (elf : List Char) : Kind → List Arg
  | .trace => o.tracePath.toList.map .trace
  | .cycles => o.cyclesPath.toList.map .cycles
  | .memLatency => [.memLatency o.memLatency]
  | .dcache => if o.dcache then [.dcache] else []
  | .dcacheWays => [.dcacheWays o.dcacheWays]
  | .imemLatency => [.imemLatency o.imemLatency]
  | .icache => if o.icache then [.icache] else []
  | .icacheWays => [.icacheWays o.icacheWays]
  | .iprefetch => if o.iprefetch then [.iprefetch] else []
  | .iprefetchDegree => [.iprefetchDegree o.iprefetchDegree]
  | .bpred => if o.bpred then [.bpred] else []
  | .positional => [.positional elf, .positional (dec 0 o.maxCycles)]

/-- Every kind once. -/
def kinds : List Kind :=
  [.trace, .cycles, .memLatency, .dcache, .dcacheWays, .imemLatency, .icache, .icacheWays,
    .iprefetch, .iprefetchDegree, .bpred, .positional]

/-- The arguments that set these options. -/
def Options.args (o : Options) (elf : List Char) : List Arg := kinds.flatMap (o.argsOf elf)

/-- What `main` can be told: an ELF path that is no flag, and numbers that fit their types. -/
structure Options.Representable (o : Options) (elf : List Char) : Prop where
  elfPath : o.elfPath = some elf
  noFlag : classify elf = .positional elf
  maxCycles : o.maxCycles < 2 ^ 64
  memLatency : o.memLatency < 2 ^ 32
  dcacheWays : o.dcacheWays < 2 ^ 32
  imemLatency : o.imemLatency < 2 ^ 32
  icacheWays : o.icacheWays < 2 ^ 32
  iprefetchDegree : o.iprefetchDegree < 2 ^ 32

/-! ## Reading it back -/

/-- A number starts with a digit, so neither with a blank nor with a sign. -/
theorem dec_head (n : Nat) : ∃ c cs, dec 0 n = c :: cs ∧ 48 ≤ c.toNat ∧ c.toNat ≤ 57 := by
  have hdigits : dec 0 n = Nat.toDigits 10 n := by
    unfold dec List.rightpad
    rw [Nat.zero_sub]
    exact List.append_nil _
  cases hd : Nat.toDigits 10 n with
  | nil =>
    have hpos : 0 < (Nat.toDigits 10 n).length := Nat.length_toDigits_pos
    rw [hd] at hpos
    cases hpos
  | cons c cs =>
    have hdigit : c.isDigit = true :=
      Nat.isDigit_of_mem_toDigits (by decide) (by decide) (hd ▸ List.mem_cons_self)
    simp only [Char.isDigit, Bool.and_eq_true, decide_eq_true_eq] at hdigit
    exact ⟨c, cs, hdigits.trans hd, UInt32.le_iff_toNat_le.mp hdigit.1,
      UInt32.le_iff_toNat_le.mp hdigit.2⟩

theorem strtoul_dec {n : Nat} (h : n < 2 ^ 64) : strtoul (dec 0 n) = n := by
  obtain ⟨c, cs, hc, hrange⟩ := dec_head n
  have hblank : isSpace c = false := by
    unfold isSpace
    rw [Bool.or_eq_false_iff]
    refine ⟨decide_eq_false fun he => ?_, decide_eq_false fun he => ?_⟩
    · rw [he] at hrange
      exact absurd hrange (by decide)
    · omega
  have hsign : sign (c :: cs) = (false, c :: cs) := by
    unfold sign
    split
    · rename_i he
      simp only [List.cons.injEq] at he
      rw [he.1] at hrange
      exact absurd hrange (by decide)
    · rename_i he
      simp only [List.cons.injEq] at he
      rw [he.1] at hrange
      exact absurd hrange (by decide)
    · rfl
  have hv : ofDec (c :: cs) = n := by
    rw [← hc]
    exact ofDec_dec 0 n
  unfold strtoul
  rw [hc, List.dropWhile_cons_of_neg (by rw [hblank]; decide), hsign]
  dsimp only
  rw [hv, if_neg (by omega), if_neg (by decide)]

/-- A number is no flag. -/
theorem classify_dec (n : Nat) : classify (dec 0 n) = .positional (dec 0 n) := by
  obtain ⟨c, cs, hc, hrange⟩ := dec_head n
  have hne : '-' ≠ c := by
    rintro rfl
    exact absurd hrange (by decide)
  have hahead : ∀ flag : List Char, flag.head? = some '-' → ¬ flag.isPrefixOf (c :: cs) = true := by
    intro flag hflag
    obtain ⟨rest, rfl⟩ := List.head?_eq_some_iff.mp hflag
    rw [List.isPrefixOf_cons_cons, beq_false_of_ne hne, Bool.false_and]
    decide
  have hequal : ∀ flag : List Char, flag.head? = some '-' → c :: cs ≠ flag := by
    rintro flag hflag rfl
    exact hne (Option.some.inj hflag).symm
  rw [hc]
  unfold classify
  rw [if_neg (hahead _ rfl), if_neg (hahead _ rfl), if_neg (hahead _ rfl),
    if_neg (hequal _ rfl), if_neg (hahead _ rfl), if_neg (hahead _ rfl), if_neg (hequal _ rfl),
    if_neg (hahead _ rfl), if_neg (hequal _ rfl), if_neg (hahead _ rfl), if_neg (hequal _ rfl)]

theorem toUnsigned_dec {n : Nat} (h : n < 2 ^ 32) : toUnsigned (dec 0 n) = n := by
  unfold toUnsigned
  rw [strtoul_dec (by omega), Nat.mod_eq_of_lt h]

/-- A number where the text of a flag has it. -/
def Arg.Fits : Arg → Prop
  | .memLatency n | .dcacheWays n | .imemLatency n | .icacheWays n | .iprefetchDegree n =>
    n < 2 ^ 32
  | .positional text => classify text = .positional text
  | _ => True

/-- The text of an argument is taken for that argument. -/
theorem classify_text {a : Arg} (h : a.Fits) : classify a.text = a := by
  cases a with
  | trace path => rfl
  | cycles path => rfl
  | memLatency n => exact congrArg Arg.memLatency (toUnsigned_dec h)
  | dcache => rfl
  | dcacheWays n => exact congrArg Arg.dcacheWays (toUnsigned_dec h)
  | imemLatency n => exact congrArg Arg.imemLatency (toUnsigned_dec h)
  | icache => rfl
  | icacheWays n => exact congrArg Arg.icacheWays (toUnsigned_dec h)
  | iprefetch => rfl
  | iprefetchDegree n => exact congrArg Arg.iprefetchDegree (toUnsigned_dec h)
  | bpred => rfl
  | positional text => exact h

variable {o : Options} {elf : List Char}

theorem Options.Representable.fits (h : o.Representable elf) {k : Kind} {a : Arg}
    (ha : a ∈ o.argsOf elf k) : a.Fits := by
  cases k with
  | trace =>
    obtain ⟨path, -, rfl⟩ := List.mem_map.mp ha
    trivial
  | cycles =>
    obtain ⟨path, -, rfl⟩ := List.mem_map.mp ha
    trivial
  | memLatency => exact List.mem_singleton.mp ha ▸ h.memLatency
  | dcacheWays => exact List.mem_singleton.mp ha ▸ h.dcacheWays
  | imemLatency => exact List.mem_singleton.mp ha ▸ h.imemLatency
  | icacheWays => exact List.mem_singleton.mp ha ▸ h.icacheWays
  | iprefetchDegree => exact List.mem_singleton.mp ha ▸ h.iprefetchDegree
  | dcache | icache | iprefetch | bpred =>
    unfold argsOf at ha
    dsimp only at ha
    split at ha
    · exact List.mem_singleton.mp ha ▸ trivial
    · cases ha
  | positional =>
    rcases List.mem_cons.mp ha with rfl | ha
    · exact h.noFlag
    · exact List.mem_singleton.mp ha ▸ classify_dec _

theorem kind_of_mem {k : Kind} {a : Arg} (ha : a ∈ o.argsOf elf k) : a.kind = k := by
  cases k with
  | trace | cycles =>
    obtain ⟨path, -, rfl⟩ := List.mem_map.mp ha
    rfl
  | memLatency | dcacheWays | imemLatency | icacheWays | iprefetchDegree =>
    exact List.mem_singleton.mp ha ▸ rfl
  | dcache | icache | iprefetch | bpred =>
    unfold Options.argsOf at ha
    dsimp only at ha
    split at ha
    · exact List.mem_singleton.mp ha ▸ rfl
    · cases ha
  | positional =>
    rcases List.mem_cons.mp ha with rfl | ha
    · rfl
    · exact List.mem_singleton.mp ha ▸ rfl

/-- Picking the arguments of one kind out of some kinds. -/
theorem filter_argsOf (ks : List Kind) (hks : ks.Nodup) (k : Kind) :
    (ks.flatMap (o.argsOf elf)).filter (fun a => a.kind = k) =
      if k ∈ ks then o.argsOf elf k else [] := by
  induction ks with
  | nil => rfl
  | cons j ks ih =>
    obtain ⟨hj, hnd⟩ := List.nodup_cons.mp hks
    rw [List.flatMap_cons, List.filter_append, ih hnd]
    by_cases hjk : j = k
    · subst hjk
      have hall : (o.argsOf elf j).filter (fun a => a.kind = j) = o.argsOf elf j :=
        List.filter_eq_self.mpr fun a ha => by simp [kind_of_mem ha]
      rw [hall, if_neg hj, if_pos List.mem_cons_self, List.append_nil]
    · have hnone : (o.argsOf elf j).filter (fun a => a.kind = k) = [] :=
        List.filter_eq_nil_iff.mpr fun a ha => by simp [kind_of_mem ha, hjk]
      rw [hnone, List.nil_append]
      by_cases hk : k ∈ ks
      · rw [if_pos hk, if_pos (List.mem_cons_of_mem j hk)]
      · have hk' : k ∉ j :: ks := by
          rw [List.mem_cons, not_or]
          exact ⟨fun he => hjk he.symm, hk⟩
        rw [if_neg hk, if_neg hk']

theorem filter_args (o : Options) (elf : List Char) (k : Kind) :
    (o.args elf).filter (fun a => a.kind = k) = o.argsOf elf k := by
  unfold Options.args
  rw [filter_argsOf kinds (by decide), if_pos (by cases k <;> decide)]

/-- A flag is there at most once. -/
theorem length_argsOf {k : Kind} (h : k ≠ .positional) : (o.argsOf elf k).length ≤ 1 := by
  cases k with
  | trace =>
    change (o.tracePath.toList.map Arg.trace).length ≤ 1
    cases o.tracePath <;> simp
  | cycles =>
    change (o.cyclesPath.toList.map Arg.cycles).length ≤ 1
    cases o.cyclesPath <;> simp
  | memLatency | dcacheWays | imemLatency | icacheWays | iprefetchDegree => exact Nat.le_refl 1
  | dcache | icache | iprefetch | bpred =>
    unfold Options.argsOf
    dsimp only
    split <;> simp
  | positional => exact absurd rfl h

theorem eq_of_perm_of_length_le_one {α : Type} {l l' : List α} (h : l.Perm l')
    (hl : l'.length ≤ 1) : l = l' := by
  match l', hl with
  | [], _ => exact h.eq_nil
  | [a], _ => exact h.eq_singleton

/-- Set one after the other, the arguments give the options. -/
theorem set_args (h : o.Representable elf) :
    (o.args elf).foldl Options.set {} = o := by
  have hmax := strtoul_dec h.maxCycles
  have helf := h.elfPath
  obtain ⟨tracePath, cyclesPath, elfPath, maxCycles, memLatency, dcache, dcacheWays, imemLatency,
    icache, icacheWays, iprefetch, iprefetchDegree, bpred⟩ := o
  dsimp only at hmax helf
  subst helf
  cases tracePath <;> cases cyclesPath <;> cases dcache <;> cases icache <;> cases iprefetch <;>
    cases bpred <;> simp [Options.args, kinds, Options.argsOf, Options.set, hmax]

/-- The effect of an argument as a step that never faults. -/
def act (a : Arg) (o : Options) : Option Options := some (o.set a)

theorem runAll_act (l : List Arg) (o : Options) :
    Orders.runAll act l o = some (l.foldl Options.set o) := by
  induction l generalizing o with
  | nil => rfl
  | cons a l ih =>
    rw [Orders.runAll_cons]
    exact ih _

/-- Arguments of different kinds set different variables. -/
theorem act_commutes {a b : Arg} (h : a.kind ≠ b.kind) : Orders.Commutes act a b := by
  intro o
  change some ((o.set a).set b) = some ((o.set b).set a)
  congr 1
  by_cases he : o.elfPath = none <;> cases a <;> cases b <;> first
    | rfl
    | exact absurd rfl h
    | simp [Options.set, he]

/-- Every set of options has a command line that `main` reads back as these options, and so has
    every shuffle of it that leaves the ELF path before the cycle limit. -/
theorem parse_shuffled (h : o.Representable elf) (args : List (List Char))
    (hperm : args.Perm ((o.args elf).map Arg.text))
    (horder : args.filter (fun arg => (classify arg).kind = .positional) =
      (o.argsOf elf .positional).map Arg.text) : parse args = o := by
  have hback : ∀ {l : List Arg}, (∀ a ∈ l, a.Fits) → (l.map Arg.text).map classify = l := by
    intro l hl
    rw [List.map_map]
    refine (List.map_congr_left fun a ha => ?_).trans (List.map_id l)
    exact classify_text (hl a ha)
  have hfits : ∀ a ∈ o.args elf, a.Fits := by
    intro a ha
    obtain ⟨k, -, hk⟩ := List.mem_flatMap.mp ha
    exact h.fits hk
  have hmap : (args.map classify).Perm (o.args elf) := by
    have hp := hperm.map classify
    rwa [hback hfits] at hp
  have hsame : ∀ k, (args.map classify).filter (fun a => a.kind = k) =
      (o.args elf).filter fun a => a.kind = k := by
    intro k
    rw [filter_args]
    by_cases hk : k = .positional
    · subst hk
      rw [List.filter_map]
      have hpos := congrArg (List.map classify) horder
      rw [hback fun a ha => h.fits ha] at hpos
      exact hpos
    · have hp := hmap.filter fun a => decide (a.kind = k)
      rw [filter_args] at hp
      exact eq_of_perm_of_length_le_one hp (length_argsOf hk)
  have hrun := Orders.runAll_eq_of_filter act Arg.kind (fun _ _ => act_commutes) hsame {}
  rw [runAll_act, runAll_act, set_args h, Option.some.injEq, List.foldl_map] at hrun
  exact hrun

/-- Flags on both sides of the ELF path, and a cycle limit behind them. -/
theorem parse_shuffled_prog :
    parse ["--dcache".toList, "--mem-latency=7".toList, "prog".toList, "--icache-ways=1".toList,
        "--imem-latency=1".toList, "--iprefetch-degree=1".toList, "--dcache-ways=2".toList,
        "100".toList] =
      { elfPath := some "prog".toList, maxCycles := 100, memLatency := 7, dcache := true,
        dcacheWays := 2 } := by
  have h : Options.Representable
      { elfPath := some "prog".toList, maxCycles := 100, memLatency := 7, dcache := true,
        dcacheWays := 2 } "prog".toList :=
    ⟨rfl, by decide, by decide, by decide, by decide, by decide, by decide, by decide⟩
  exact parse_shuffled h _ (by decide) (by decide)

end BenchRun

end CpuSim
