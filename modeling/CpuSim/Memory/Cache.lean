import CpuSim.Memory.FlatMem
import CpuSim.Memory.TreePlru

/-!
# The cache

`memory/cache.cpp`: a set-associative, write-back, timing-only overlay over any backing
memory. It stores tags, never data, so the data path delegates. The SimStats probe of the
source is a pointer shared with the pipeline; the cache counts only the two prefetch
counters, and the model keeps its view of the probe in the cache.
-/

namespace CpuSim

/-- `SequentialPrefetch`: the line after the one just accessed. -/
structure SequentialPrefetch where
  lineBytes : Nat
  deriving DecidableEq, Repr

def SequentialPrefetch.next (p : SequentialPrefetch) (addr : Word) : Word :=
  addr + BitVec.ofNat 32 p.lineBytes

/-- `Cache::Phase`. -/
inductive Phase where
  | idle | hitWait | writeBack | missFetch | prefetchWait
  deriving DecidableEq, Repr

/-- `Cache::Line`: the tag state of one line. -/
structure Line where
  valid : Bool := false
  dirty : Bool := false
  prefetched : Bool := false
  tag : Word := 0
  deriving DecidableEq, Repr

/-- `Cache` over a backing memory. -/
structure Cache (M : Type) where
  backing : M
  offsetBits : Nat
  indexBits : Nat
  indexMask : Word
  hitLatency : Nat
  ways : Nat
  lines : List Line
  repl : TreePlru
  phase : Phase := .idle
  curAddr : Word := 0
  curIsWrite : Bool := false
  victimWay : Nat := 0
  wbAddr : Word := 0
  hitRemaining : Int := 0
  lastHit : Bool := false
  pfPolicy : Option SequentialPrefetch := none
  pfDegree : Nat := 1
  pfActive : Bool := false
  pfAddr : Word := 0
  pfWay : Nat := 0
  pfChain : Nat := 0
  stats : Option SimStats := none

namespace Cache

variable {M : Type}

/-- The constructor. -/
def new (backing : M) (lineBytes sets hitLatency ways : Nat) (prefetchEnabled : Bool)
    (prefetchDegree : Nat) (stats : Option SimStats) : Cache M :=
  { backing := backing
    offsetBits := log2Exact lineBytes
    indexBits := log2Exact sets
    indexMask := BitVec.ofNat 32 (sets - 1)
    hitLatency := if hitLatency = 0 then 1 else hitLatency
    ways := ways
    lines := List.replicate (sets * ways) {}
    repl := TreePlru.new sets ways
    pfPolicy := if prefetchEnabled then some ⟨lineBytes⟩ else none
    pfDegree := if prefetchDegree = 0 then 1 else prefetchDegree
    stats := stats }

/-! ## Address fields -/

def indexOf (c : Cache M) (addr : Word) : Word := (addr >>> c.offsetBits) &&& c.indexMask

def tagOf (c : Cache M) (addr : Word) : Word := addr >>> (c.offsetBits + c.indexBits)

def lineAddrOf (c : Cache M) (addr : Word) : Word :=
  addr &&& ~~~((1#32 <<< c.offsetBits) - 1#32)

/-- The base address of the line with this set and tag. -/
def addrOf (c : Cache M) (set tag : Word) : Word :=
  (tag <<< (c.offsetBits + c.indexBits)) ||| (set <<< c.offsetBits)

/-! ## Lines -/

/-- Row-major position of `(set, way)` in `lines_`. -/
def slot (c : Cache M) (set : Word) (way : Nat) : Nat := set.toNat * c.ways + way

def lineAt (c : Cache M) (set : Word) (way : Nat) : Line := c.lines.getD (c.slot set way) {}

/-- Assignment through the reference `line_at` returns. -/
def setLine (c : Cache M) (set : Word) (way : Nat) (l : Line) : Cache M :=
  { c with lines := c.lines.set (c.slot set way) l }

/-- `Cache::find_way`: the first way holding `addr`; `none` is the source's -1. -/
def findWay (c : Cache M) (addr : Word) : Option Nat :=
  (List.range c.ways).find? fun w =>
    (c.lineAt (c.indexOf addr) w).valid && (c.lineAt (c.indexOf addr) w).tag == c.tagOf addr

/-- `Cache::choose_victim`: the first invalid way, else the policy's. -/
def chooseVictim (c : Cache M) (set : Word) : Nat :=
  match (List.range c.ways).find? fun w => !(c.lineAt set w).valid with
  | some w => w
  | none => c.repl.victim set

/-- `if (stats_) ++stats_->icache_prefetch_useful`. -/
def countUseful (c : Cache M) : Cache M := { c with stats := c.stats.map SimStats.countUseful }

/-- `if (stats_) ++stats_->icache_prefetch_useless`. -/
def countUseless (c : Cache M) : Cache M := { c with stats := c.stats.map SimStats.countUseless }

/-- `Cache::install_line`. -/
def installLine (c : Cache M) (set : Word) (way : Nat) (addr : Word)
    (isWrite fromPrefetch : Bool) : Cache M :=
  let l := c.lineAt set way
  let c := if l.valid && l.prefetched then c.countUseless else c
  let c := c.setLine set way
    { valid := true, dirty := isWrite, prefetched := fromPrefetch, tag := c.tagOf addr }
  { c with repl := c.repl.touch set way }

/-! ## The prefetch engine -/

/-- The part `maybe_start_prefetch` and the chaining in `service_prefetch` share: reserve a
    way for `target` unless it is resident or its victim needs a writeback. -/
def reservePrefetch (c : Cache M) (target : Word) (chain : Nat) : Cache M :=
  if (c.findWay target).isSome then c
  else
    let way := c.chooseVictim (c.indexOf target)
    let v := c.lineAt (c.indexOf target) way
    if v.valid && v.dirty then c
    else { c with pfAddr := target, pfWay := way, pfActive := true, pfChain := chain }

/-- `Cache::maybe_start_prefetch`. -/
def maybeStartPrefetch (c : Cache M) (addr : Word) : Cache M :=
  match c.pfPolicy with
  | none => c
  | some policy =>
    if c.pfActive then c
    else c.reservePrefetch (policy.next (c.lineAddrOf addr)) 1

/-- What `service_prefetch` does on the cycle the backing serves the prefetch: install the
    line, then chain up to the configured degree. -/
def completePrefetch (c : Cache M) : Cache M :=
  let c := c.installLine (c.indexOf c.pfAddr) c.pfWay c.pfAddr false true
  let c := { c with pfActive := false }
  if c.pfChain < c.pfDegree then
    match c.pfPolicy with
    | none => c
    | some policy => c.reservePrefetch (policy.next c.pfAddr) (c.pfChain + 1)
  else c

variable [IMemory M]

/-- `backing_.ready(...)` with its effect on the backing. -/
def backingReady (c : Cache M) (addr : Word) (isWrite : Bool) : Bool × Cache M :=
  ((IMemory.ready c.backing addr isWrite).1,
    { c with backing := (IMemory.ready c.backing addr isWrite).2 })

def backingTick (c : Cache M) : Cache M := { c with backing := IMemory.tick c.backing }

/-- `Cache::service_prefetch`. -/
def servicePrefetch (c : Cache M) : Cache M :=
  if !c.pfActive then c
  else
    let r := c.backingReady c.pfAddr false
    let c := if r.1 then r.2.completePrefetch else r.2
    c.backingTick

/-! ## Timing path -/

/-- The hit arm of `ready`: dirty the line on a store, note the first use of a prefetched
    line, touch the policy and start the hit timer. -/
def acceptHit (c : Cache M) (set : Word) (way : Nat) (isWrite : Bool) : Cache M :=
  let l := c.lineAt set way
  let l := if isWrite then { l with dirty := true } else l
  let c := if l.prefetched then
      (c.setLine set way { l with prefetched := false }).countUseful
    else c.setLine set way l
  { c with
    repl := c.repl.touch set way
    phase := .hitWait
    hitRemaining := toInt32 c.hitLatency - 1 }

/-- The miss arm of `ready`: pick the victim now, drop a prefetch that reserved the same way,
    and flush first when the victim is dirty. -/
def acceptMiss (c : Cache M) (set : Word) : Cache M :=
  let c := { c with victimWay := c.chooseVictim set }
  let c := if c.pfActive && c.indexOf c.pfAddr == set && c.pfWay == c.victimWay then
      { c with pfActive := false } else c
  let v := c.lineAt set c.victimWay
  if v.valid && v.dirty then
    { c with wbAddr := c.addrOf set v.tag, phase := .writeBack }
  else { c with phase := .missFetch }

/-- The body of `ready` in the idle phase. -/
def accept (c : Cache M) (addr : Word) (isWrite : Bool) : Cache M :=
  let c := { c with curAddr := addr, curIsWrite := isWrite }
  let set := c.indexOf addr
  let w := c.findWay addr
  let c := { c with lastHit := w.isSome }
  let c := c.maybeStartPrefetch addr
  match w with
  | some way => c.acceptHit set way isWrite
  | none =>
    if c.pfActive && c.lineAddrOf addr == c.pfAddr then
      { c with victimWay := c.pfWay, phase := .prefetchWait }
    else c.acceptMiss set

/-- `Cache::ready`. -/
def ready (c : Cache M) (addr : Word) (isWrite : Bool) : Bool × Cache M :=
  let c := if c.phase = .idle then c.accept addr isWrite else c
  (c.phase == .hitWait && c.hitRemaining == 0, c)

/-- The demand fill of `MissFetch` and `PrefetchWait`. -/
def fill (c : Cache M) : Cache M :=
  let c := c.installLine (c.indexOf c.curAddr) c.victimWay c.curAddr c.curIsWrite false
  { c with phase := .hitWait, hitRemaining := toInt32 c.hitLatency - 1 }

/-- `Cache::tick`. -/
def tick (c : Cache M) : Cache M :=
  match c.phase with
  | .idle => c.servicePrefetch
  | .hitWait =>
    let c := if c.hitRemaining > 0 then { c with hitRemaining := c.hitRemaining - 1 }
      else { c with phase := .idle }
    c.servicePrefetch
  | .writeBack =>
    let r := c.backingReady c.wbAddr true
    let c := if r.1 then { r.2 with phase := .missFetch } else r.2
    c.backingTick
  | .missFetch =>
    let r := c.backingReady c.curAddr false
    let c := if r.1 then r.2.fill else r.2
    c.backingTick
  | .prefetchWait =>
    let r := c.backingReady c.curAddr false
    let c := if r.1 then { r.2.fill.countUseful with pfActive := false } else r.2
    c.backingTick

/-! ## Data path -/

/-- A store goes straight through to the backing memory. -/
def storeThrough (c : Cache M) (m : Option M) : Option (Cache M) :=
  m.map fun b => { c with backing := b }

instance : IMemory (Cache M) where
  loadWord c addr := IMemory.loadWord c.backing addr
  loadHalf c addr := IMemory.loadHalf c.backing addr
  loadByte c addr := IMemory.loadByte c.backing addr
  storeWord c addr val := c.storeThrough (IMemory.storeWord c.backing addr val)
  storeHalf c addr val := c.storeThrough (IMemory.storeHalf c.backing addr val)
  storeByte c addr val := c.storeThrough (IMemory.storeByte c.backing addr val)
  ready := ready
  tick := tick

end Cache

end CpuSim
