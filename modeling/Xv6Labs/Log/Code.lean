import Xv6Labs.Bio.Variants
import Xv6Labs.Lib.Threads
import Xv6Labs.Log.Reserve

/-!
# The log and the buffer cache under it

`log.c` over the Lab 2 buffer cache, as code of processes that share one memory. An atomic action is a critical
section, one operation on a sleep-lock or on the disk, or code that touches only buffers its process has locked
and fields of `log.lh` that nobody else writes at that time. A process that panics, and a loop that goes past
`LOGSIZE` blocks, has no next action.

The fields of `Kernel` after `ctl` are history. `busy` is a reference that a process has before it gets the
sleep-lock and after it gave it up, `dirty` marks buffers that were changed since they were last logged or written
to the disk, and `unpinned` is how many blocks of the list `install_trans` has unpinned. Operations are numbered
in the order in which they begin, `ops` is the next number; `writes` are the writes they have logged. Each commit
covers the operations that have begun, `commits` says how many for each; `durable` are those whose header is on
the disk, `finished` those whose commit has finished, and `short` tells whether a commit ever had more blocks than
the superblock leaves room for.
-/

namespace Xv6Labs.Log

open Bio Threads Prog

structure Superblock where
  logstart : UInt32
  nlog : UInt32

structure Write where
  op : ℕ
  blockno : UInt32
  data : Block

structure Kernel where
  cache : Cache Single.heads Block
  disk : UInt32 → Block
  lock : Fin nbuf → Option Tid := fun _ => none
  ctl : State := {}
  busy : Tid → Option (Fin nbuf) := fun _ => none
  dirty : Fin nbuf → Bool := fun _ => false
  unpinned : ℕ := 0
  ops : ℕ := 0
  op : Tid → ℕ := fun _ => 0
  writes : List Write := []
  commits : List ℕ := []
  durable : ℕ := 0
  finished : ℕ := 0
  short : Bool := false

def boot (disk : UInt32 → Block) : Kernel := { cache := Single.binit fun _ => 0, disk := disk }

namespace Kernel

abbrev buf (s : Kernel) (b : Fin nbuf) : Buf Block := s.cache.buf (.buf b)

def setData (s : Kernel) (b : Fin nbuf) (data : Block) : Kernel :=
  { s with cache := s.cache.setBuf (.buf b) { s.buf b with data := data }, dirty := Function.update s.dirty b true }

end Kernel

/-! ### The header block

The first word of the header block is `n`, an `int`, and the next ones are the block numbers. A negative `n` acts
as 0: no loop runs. -/

def headN (d : Block) : ℕ := (d ⟨0, by decide⟩).toInt32.toInt.toNat

def headBlock (d : Block) (i : ℕ) : UInt32 := if h : i + 1 < bsize / 4 then d ⟨i + 1, h⟩ else 0

def putHead (l : Log) (d : Block) : Block := fun j =>
  if j.val = 0 then UInt32.ofNat l.n else if j.val ≤ l.n then l.block (j.val - 1) else d j

def getHead (l : Log) (d : Block) : Log :=
  { l with n := headN d, block := fun i => if i < headN d then headBlock d i else l.block i }

/-! ### Actions -/

inductive Action where
  | bget (blockno : UInt32)
  | acquiresleep (b : Fin nbuf)
  | fill (b : Fin nbuf)
  | store (b : Fin nbuf) (f : Block → Block)
  | memmove (dst src : Fin nbuf)
  | bwrite (b : Fin nbuf)
  | releasesleep (b : Fin nbuf)
  | drop (b : Fin nbuf)
  | bunpin (b : Fin nbuf)
  | getHead (b : Fin nbuf)
  | putHead (b : Fin nbuf)
  | lhN
  | lhBlock (i : ℕ)
  | clear
  | begin_op
  | check (b : Fin nbuf)
  | append (b : Fin nbuf)
  | leave
  | finish
  | diverge

abbrev Action.Result : Action → Type
  | .bget _ => Fin nbuf
  | .lhN => ℕ
  | .lhBlock _ => UInt32
  | .leave => Bool
  | _ => Unit

variable (sb : Superblock)

namespace Kernel

/-- The header that `commit` writes first makes its transaction durable. -/
def write (s : Kernel) (t : Tid) (b : Fin nbuf) : Kernel :=
  { s with
    disk := Function.update s.disk (s.buf b).blockno (s.buf b).data
    dirty := Function.update s.dirty b false
    durable := if s.ctl.phase t = .commit ∧ (s.buf b).blockno = sb.logstart then s.ops else s.durable }

def clear (s : Kernel) (t : Tid) : Kernel :=
  { s with
    ctl := { s.ctl with
      log := { s.ctl.log with n := 0 }
      trans := ∅
      phase := if s.ctl.phase t = .commit then Function.update s.ctl.phase t .cleared else s.ctl.phase }
    unpinned := 0 }

/-- `log.lh.block[i] = b->blockno; if (i == log.lh.n) { bpin(b); log.lh.n++; }` -/
def append (s : Kernel) (t : Tid) (b : Fin nbuf) (ctl : State) : Kernel :=
  { s with
    ctl := ctl
    cache := if s.ctl.log.slot (s.buf b).blockno = s.ctl.log.n then s.cache.incRef (.buf b) else s.cache
    dirty := Function.update s.dirty b false
    writes := s.writes ++ [⟨s.op t, (s.buf b).blockno, (s.buf b).data⟩] }

end Kernel

def exec (t : Tid) : (a : Action) → Kernel → Option (a.Result × Kernel)
  | .bget blockno, s =>
    match Single.bget s.cache rootdev blockno with
    | some (some (c, .buf b)) => some (b, { s with cache := c, busy := Function.update s.busy t (some b) })
    | _ => none
  | .acquiresleep b, s =>
    if s.lock b = none then
      some ((), { s with lock := Function.update s.lock b (some t), busy := Function.update s.busy t none })
    else none
  | .fill b, s => some ((), { s with cache := s.cache.fill (.buf b) s.disk })
  | .store b f, s => some ((), s.setData b (f (s.buf b).data))
  | .memmove dst src, s => some ((), s.setData dst (s.buf src).data)
  | .bwrite b, s => if s.lock b = some t then some ((), s.write sb t b) else none
  | .releasesleep b, s =>
    if s.lock b = some t then
      some ((), { s with lock := Function.update s.lock b none, busy := Function.update s.busy t (some b) })
    else none
  | .drop b, s => some ((), { s with cache := s.cache.drop 0 (.buf b), busy := Function.update s.busy t none })
  | .bunpin b, s => some ((), { s with cache := s.cache.decRef (.buf b), unpinned := s.unpinned + 1 })
  | .getHead b, s =>
    some ((), { s with ctl := { s.ctl with log := Log.getHead s.ctl.log (s.buf b).data } })
  | .putHead b, s => some ((), s.setData b (Log.putHead s.ctl.log (s.buf b).data))
  | .lhN, s => some (s.ctl.log.n, s)
  | .lhBlock i, s => some (s.ctl.log.block i, s)
  | .clear, s => some ((), s.clear t)
  | .begin_op, s =>
    match next sb.nlog s.ctl t .begin_op with
    | some ctl => some ((), { s with ctl := ctl, op := Function.update s.op t s.ops, ops := s.ops + 1 })
    | none => none
  | .check b, s =>
    match next sb.nlog s.ctl t (.log_write (s.buf b).blockno) with
    | some ctl =>
      match ctl.phase t with
      | .checked _ _ => some ((), { s with ctl := ctl })
      | _ => none
    | none => none
  | .append b, s =>
    match next sb.nlog s.ctl t .append with
    | some ctl => some ((), s.append t b ctl)
    | none => none
  | .leave, s =>
    match next sb.nlog s.ctl t .end_op with
    | some ctl =>
      match ctl.phase t with
      | .commit => some (true, { s with
          ctl := ctl
          commits := s.commits ++ [s.ops]
          short := s.short || decide (sb.nlog.toNat ≤ s.ctl.log.n) })
      | .out => some (false, { s with ctl := ctl })
      | _ => none
    | none => none
  | .finish, s =>
    match next sb.nlog s.ctl t .finish with
    | some ctl => some ((), { s with ctl := ctl, durable := s.ops, finished := s.ops })
    | none => none
  | .diverge, _ => none

/-! ### `bio.c` -/

abbrev Code := Prog Action Action.Result

def act (a : Action) : Code a.Result := lift a

def bread (blockno : UInt32) : Code (Fin nbuf) := do
  let b ← act (.bget blockno)
  act (.acquiresleep b)
  act (.fill b)
  return b

def bwrite (b : Fin nbuf) : Code Unit := act (.bwrite b)

def brelse (b : Fin nbuf) : Code Unit := do
  act (.releasesleep b)
  act (.drop b)

def bunpin (b : Fin nbuf) : Code Unit := act (.bunpin b)

/-! ### `log.c` -/

/-- `for (tail = 0; tail < log.lh.n; tail++)` -/
def forTail (body : ℕ → Code Unit) : ℕ → ℕ → Code Unit
  | 0, _ => act .diverge
  | fuel + 1, tail => do
    let n ← act .lhN
    if tail < n then
      body tail
      forTail body fuel (tail + 1)
    else
      return ()

def logBlock (tail : ℕ) : UInt32 := sb.logstart + UInt32.ofNat tail + 1

def install (tail : ℕ) : Code Unit := do
  let lbuf ← bread (logBlock sb tail)
  let blockno ← act (.lhBlock tail)
  let dbuf ← bread blockno
  act (.memmove dbuf lbuf)
  bwrite dbuf
  bunpin dbuf
  brelse lbuf
  brelse dbuf

def install_trans : Code Unit := forTail (install sb) (logSize + 1) 0

def read_head : Code Unit := do
  let buf ← bread sb.logstart
  act (.getHead buf)
  brelse buf

def write_head : Code Unit := do
  let buf ← bread sb.logstart
  act (.putHead buf)
  bwrite buf
  brelse buf

def recover_from_log : Code Unit := do
  read_head sb
  install_trans sb
  act .clear
  write_head sb

def begin_op : Code Unit := act .begin_op

def copy_log (tail : ℕ) : Code Unit := do
  let dst ← bread (logBlock sb tail)
  let blockno ← act (.lhBlock tail)
  let src ← bread blockno
  act (.memmove dst src)
  bwrite dst
  brelse src
  brelse dst

def write_log : Code Unit := forTail (copy_log sb) (logSize + 1) 0

def commit : Code Unit := do
  let n ← act .lhN
  if 0 < n then
    write_log sb
    write_head sb
    install_trans sb
    act .clear
    write_head sb
  else
    return ()

def end_op : Code Unit := do
  let do_commit ← act .leave
  if do_commit then
    commit sb
    act .finish
  else
    return ()

def log_write (b : Fin nbuf) : Code Unit := do
  act (.check b)
  act (.append b)

/-! ### File system operations -/

/-- Blocks outside of the log. -/
def Home (blockno : UInt32) : Prop := ∀ k < sb.nlog.toNat, blockno ≠ sb.logstart + UInt32.ofNat k

/-- What a process may do next. It reads blocks at any time and releases the buffers it holds; it changes home
blocks only inside an operation, and logs a buffer that it changed before it releases it or ends the operation. -/
inductive Offered (t : Tid) (s : Kernel) : Code Unit → Prop where
  | bread (blockno : UInt32) : Offered t s (bread blockno >>= fun _ => pure ())
  | brelse (b : Fin nbuf) (held : s.lock b = some t) (logged : s.dirty b = false) : Offered t s (brelse b)
  | change (b : Fin nbuf) (f : Block → Block) (held : s.lock b = some t) (home : Home sb (s.buf b).blockno)
      (inOp : ∃ logged, s.ctl.phase t = .inOp logged) : Offered t s (act (.store b f))
  | log_write (b : Fin nbuf) (held : s.lock b = some t) (home : Home sb (s.buf b).blockno)
      (inOp : ∃ logged, s.ctl.phase t = .inOp logged) : Offered t s (log_write b)
  | begin_op : Offered t s begin_op
  | end_op (logged : ∀ b, s.lock b = some t → s.dirty b = false) : Offered t s (end_op sb)

abbrev Conf := Threads.Conf Tid Action Action.Result Kernel

def Running : Conf → Conf → Prop := Threads.Step (exec sb) (Offered sb)

/-- The system after its first boot, with no process inside a call. -/
def Booted (disk : UInt32 → Block) (c : Conf) : Prop :=
  (recover_from_log sb).run (exec sb 0) (boot disk) = some ((), c.shared) ∧ c.code = fun _ => .ret ()

/-- A recovery that crashes: the disk after some of its writes. -/
def Crashes (disk disk' : UInt32 → Block) : Prop :=
  ∃ s, Visits (exec sb 0) (recover_from_log sb) (boot disk) s ∧ s.disk = disk'

def Recovers (disk disk' : UInt32 → Block) : Prop :=
  ∃ s, (recover_from_log sb).run (exec sb 0) (boot disk) = some ((), s) ∧ s.disk = disk'

end Xv6Labs.Log
