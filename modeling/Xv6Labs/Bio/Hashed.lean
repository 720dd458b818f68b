import Mathlib
import Xv6Labs.Bio.Cache

/-!
# The Lab 3 buffer cache

`bio.c` of Lab 3 splits the cache into thirteen buckets with a spinlock each. `bget` keeps its own
bucket's lock while it goes through the other buckets for an unreferenced buffer. The machine below
runs any number of threads through `bread`, `brelse`, `bpin` and `bunpin`. A step of a thread is one
`acquire`, one `release`, one sleep-lock operation, or the code between an `acquire` and the next
`acquire` or `release`.

`refs` is history: a thread gets a reference from `bget` and from `bpin` and gives one up in `brelse`
and in `bunpin`. Threads that are not inside a call may hand references to each other, so a pin can
be dropped by another thread than the one that took it.
-/

namespace Xv6Labs.Bio.Hashed

open LinkedRing

abbrev nbuckets : ℕ := 13

abbrev Node := Bio.Node nbuckets

abbrev Tid := ℕ

def bucketOf (blockno : UInt32) : Fin nbuckets :=
  ⟨blockno.toNat % 13, Nat.mod_lt _ (by decide)⟩

/-! ### Program points

Where a thread is, by what it does next.
* `bget(dev, blockno)`: `acquire` takes `lock[bucket]`; `search` is the lookup loop and the recycling
  loop over its own bucket; `stealAcquire`, `stealSearch` and `stealRelease` are one round of the
  steal loop at bucket `i`; `stolenRelease` releases `lock[i]` after a buffer was taken from it;
  `release` releases `lock[bucket]`; `sleepLock` is `acquiresleep(&b->lock)`; `noBuffers` is
  `panic("bget: no buffers")`.
* `bread`: `fill` reads the block from the disk if the buffer is not valid.
* `brelse(b)`: `relse` reads `bucket = b->blockno%13`; `relseSleep` is the `holdingsleep` test and
  `releasesleep(&b->lock)`, with `notHeld` for `panic("brelse")`; `relseAcquire` takes `lock[bucket]`;
  `relseUpdate` is `b->refcnt--` with the move to the front.
* `bpin(b)` (`up = true`) and `bunpin(b)`: `pin` reads the bucket, `pinAcquire` takes its lock,
  `pinUpdate` changes `b->refcnt`.
* `unlock` releases `lock[bucket]` at the end of `brelse`, `bpin` and `bunpin`.
-/

inductive Pc where
  | idle
  | acquire (dev blockno : UInt32)
  | search (dev blockno : UInt32)
  | stealAcquire (dev blockno : UInt32) (i : Fin nbuckets)
  | stealSearch (dev blockno : UInt32) (i : Fin nbuckets)
  | stealRelease (dev blockno : UInt32) (i : Fin nbuckets)
  | stolenRelease (bucket i : Fin nbuckets) (b : Node)
  | release (bucket : Fin nbuckets) (b : Node)
  | sleepLock (b : Node)
  | fill (b : Node)
  | noBuffers
  | relse (b : Node)
  | relseSleep (b : Node) (bucket : Fin nbuckets)
  | relseAcquire (b : Node) (bucket : Fin nbuckets)
  | relseUpdate (b : Node) (bucket : Fin nbuckets)
  | notHeld
  | pin (up : Bool) (b : Node)
  | pinAcquire (up : Bool) (b : Node) (bucket : Fin nbuckets)
  | pinUpdate (up : Bool) (b : Node) (bucket : Fin nbuckets)
  | unlock (bucket : Fin nbuckets)
  deriving DecidableEq

/-- `lock` and `sleep` name the holders of the bucket spinlocks and of the buffers' sleep-locks. -/
structure State (D : Type) where
  cache : Cache nbuckets D
  lock : Fin nbuckets → Option Tid
  sleep : Node → Option Tid
  disk : UInt32 → D
  pc : Tid → Pc
  refs : List (Tid × Node)

variable {D : Type}

/-- `binit`: all buffers go to bucket 0, the other buckets steal them later. -/
def binit (zero : D) : Cache nbuckets D := (Cache.blank zero).linkAll 0 (List.finRange nbuf)

def initial (zero : D) (disk : UInt32 → D) : State D :=
  ⟨binit zero, fun _ => none, fun _ => none, disk, fun _ => .idle, []⟩

namespace State

def goto (s : State D) (t : Tid) (pc : Pc) : State D := { s with pc := Function.update s.pc t pc }

/-- A thread that finds the lock taken spins in `acquire` and makes no step. -/
def acquire (s : State D) (t : Tid) (h : Fin nbuckets) (pc : Pc) : Option (State D) :=
  if s.lock h = none then some ({ s with lock := Function.update s.lock h (some t) }.goto t pc) else none

def release (s : State D) (t : Tid) (h : Fin nbuckets) (pc : Pc) : State D :=
  { s with lock := Function.update s.lock h none }.goto t pc

def take (s : State D) (t : Tid) (b : Node) (c : Cache nbuckets D) (pc : Pc) : State D :=
  { s with cache := c, refs := (t, b) :: s.refs }.goto t pc

def give (s : State D) (t : Tid) (b : Node) (c : Cache nbuckets D) (pc : Pc) : State D :=
  { s with cache := c, refs := s.refs.erase (t, b) }.goto t pc

def refCount (s : State D) (b : Node) : ℕ := (s.refs.map Prod.snd).count b

end State

/-- The head of the steal loop at index `i`: `bucket` itself is skipped, and the loop ends in
`panic("bget: no buffers")`. -/
def steal (dev blockno : UInt32) (i : ℕ) : Pc :=
  let i := if i = bucketOf blockno then i + 1 else i
  if h : i < nbuckets then .stealAcquire dev blockno ⟨i, h⟩ else .noBuffers

/-- One step of thread `t`; `none` if it is idle, has panicked, spins on a lock, or is in a loop over
a list that does not lead back to its head. -/
def step (s : State D) (t : Tid) : Option (State D) :=
  match s.pc t with
  | .idle | .noBuffers | .notHeld => none
  | .acquire dev blockno => s.acquire t (bucketOf blockno) (.search dev blockno)
  | .search dev blockno =>
    let bucket := bucketOf blockno
    match s.cache.lookup bucket dev blockno with
    | none => none
    | some (some b) => some (s.take t b (s.cache.incRef b) (.release bucket b))
    | some none =>
      match s.cache.unused bucket with
      | none => none
      | some (some b) => some (s.take t b (s.cache.assign b dev blockno) (.release bucket b))
      | some none => some (s.goto t (steal dev blockno 0))
  | .stealAcquire dev blockno i => s.acquire t i (.stealSearch dev blockno i)
  | .stealSearch dev blockno i =>
    let bucket := bucketOf blockno
    match s.cache.unused i with
    | none => none
    | some (some b) =>
      some (s.take t b ((s.cache.assign b dev blockno).moveTo bucket b) (.stolenRelease bucket i b))
    | some none => some (s.goto t (.stealRelease dev blockno i))
  | .stealRelease dev blockno i => some (s.release t i (steal dev blockno (i + 1)))
  | .stolenRelease bucket i b => some (s.release t i (.release bucket b))
  | .release bucket b => some (s.release t bucket (.sleepLock b))
  | .sleepLock b =>
    if s.sleep b = none then some ({ s with sleep := Function.update s.sleep b (some t) }.goto t (.fill b))
    else none
  | .fill b => some ({ s with cache := s.cache.fill b s.disk }.goto t .idle)
  | .relse b => some (s.goto t (.relseSleep b (bucketOf (s.cache.buf b).blockno)))
  | .relseSleep b bucket =>
    if s.sleep b = some t then
      some ({ s with sleep := Function.update s.sleep b none }.goto t (.relseAcquire b bucket))
    else some (s.goto t .notHeld)
  | .relseAcquire b bucket => s.acquire t bucket (.relseUpdate b bucket)
  | .relseUpdate b bucket => some (s.give t b (s.cache.drop bucket b) (.unlock bucket))
  | .pin up b => some (s.goto t (.pinAcquire up b (bucketOf (s.cache.buf b).blockno)))
  | .pinAcquire up b bucket => s.acquire t bucket (.pinUpdate up b bucket)
  | .pinUpdate true b bucket => some (s.take t b (s.cache.incRef b) (.unlock bucket))
  | .pinUpdate false b bucket => some (s.give t b (s.cache.decRef b) (.unlock bucket))
  | .unlock bucket => some (s.release t bucket .idle)

inductive Call where
  | bread (dev blockno : UInt32)
  | brelse (b : Node)
  | bpin (b : Node)
  | bunpin (b : Node)

def Call.entry : Call → Pc
  | bread dev blockno => .acquire dev blockno
  | brelse b => .relse b
  | bpin b => .pin true b
  | bunpin b => .pin false b

/-- Callers use devices other than 0, and release, pin and unpin only buffers they hold a reference
to. -/
def Call.Allowed (s : State D) (t : Tid) : Call → Prop
  | bread dev _ => dev ≠ 0
  | brelse b | bpin b | bunpin b => (t, b) ∈ s.refs

inductive Step : State D → State D → Prop where
  | run {s s' : State D} (t : Tid) (h : step s t = some s') : Step s s'
  | call {s : State D} (t : Tid) (c : Call) (idle : s.pc t = .idle) (allowed : c.Allowed s t) :
      Step s (s.goto t c.entry)
  | hand {s : State D} (t u : Tid) (b : Node) (idle : s.pc t = .idle) (held : (t, b) ∈ s.refs) :
      Step s { s with refs := (u, b) :: s.refs.erase (t, b) }

def Reachable (s : State D) : Prop :=
  ∃ zero disk, Relation.ReflTransGen Step (initial zero disk) s

end Xv6Labs.Bio.Hashed
