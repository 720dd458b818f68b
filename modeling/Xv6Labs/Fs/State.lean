import Xv6Labs.Fs.Layout
import Xv6Labs.Lib.Threads

/-!
# The file system in memory

The memory that the file system calls of all processes share: the blocks as the buffer cache shows them, the inode
cache, the file table, the pipes, and of each process its descriptors and its working directory. An atomic action is
a critical section, one operation on an inode's sleep-lock, the code between `bread` and `brelse` of one block, or
code that touches only what its process has to itself. A process that panics has no next action.

The fields of `Proc` after `cwd` are history. `hand` and `files` count the references to inodes and files that the
process has in local variables. A descriptor slot is `counted` if it has a reference of its own, and the working
directory is `spent` once its reference was given up. `putting` is the inode that the process passes to `iput`,
`closing` the end of a pipe whose last file it has closed, `page` a page from `kalloc` that is not a pipe yet, and
`child` the process that `fork` makes. `fresh` of the kernel is the block that `balloc` has marked for a process and no
inode has yet, and `cut` of an inode counts the entries of its indirect block that `itrunc` has freed.
-/

namespace Xv6Labs.Fs

open Threads Prog

structure Inode extends Dinode where
  dev : UInt32 := 0
  inum : UInt32 := 0
  ref : ℕ := 0
  valid : Bool := false
  cut : ℕ := 0

inductive FdType where
  | none
  | pipe
  | inode
  | device
  deriving DecidableEq

abbrev Page : Type := ℕ

structure File where
  type : FdType := .none
  ref : ℕ := 0
  readable : Bool := false
  writable : Bool := false
  pipe : Page := 0
  ip : Fin ninode := 0
  off : UInt32 := 0
  major : UInt16 := 0

structure Pipe where
  allocated : Bool := false
  readopen : Bool := false
  writeopen : Bool := false
  frees : ℕ := 0
  allocs : ℕ := 0

inductive ProcState where
  | unused
  | embryo
  | running
  | zombie
  deriving DecidableEq

structure Proc where
  state : ProcState := .unused
  ofile : Fin nofile → Option (Fin nfile) := fun _ => none
  cwd : Option (Fin ninode) := none
  hand : Fin ninode → ℕ := fun _ => 0
  files : Fin nfile → ℕ := fun _ => 0
  counted : Fin nofile → Bool := fun _ => false
  spent : Bool := false
  putting : Option (Fin ninode) := none
  closing : Option (Page × Bool) := none
  page : Option Page := none
  child : Option Tid := none

structure Kernel where
  block : UInt32 → Block
  inode : Fin ninode → Inode := fun _ => {}
  lock : Fin ninode → Option Tid := fun _ => none
  file : Fin nfile → File := fun _ => {}
  proc : Tid → Proc := fun _ => {}
  pipe : Page → Pipe := fun _ => {}
  outstanding : ℕ := 0
  fresh : Tid → Option UInt32 := fun _ => none

variable (sb : Superblock)

namespace Kernel

def dinode (s : Kernel) (inum : UInt32) : Dinode := getDinode (s.block (iblock sb inum)) (inum.toNat % ipb)

def bit (s : Kernel) (b : UInt32) : Bool := getBit (s.block (bblock sb b)) (b.toNat % bpb)

def setBlock (s : Kernel) (n : UInt32) (d : Block) : Kernel := { s with block := Function.update s.block n d }

def setInode (s : Kernel) (i : Fin ninode) (x : Inode) : Kernel := { s with inode := Function.update s.inode i x }

def setFile (s : Kernel) (f : Fin nfile) (x : File) : Kernel := { s with file := Function.update s.file f x }

def setProc (s : Kernel) (t : Tid) (x : Proc) : Kernel := { s with proc := Function.update s.proc t x }

def setPipe (s : Kernel) (pi : Page) (x : Pipe) : Kernel := { s with pipe := Function.update s.pipe pi x }

def setFresh (s : Kernel) (t : Tid) (b : Option UInt32) : Kernel := { s with fresh := Function.update s.fresh t b }

end Kernel

namespace Proc

def take (p : Proc) (i : Fin ninode) : Proc := { p with hand := Function.update p.hand i (p.hand i + 1) }

def give (p : Proc) (i : Fin ninode) : Proc := { p with hand := Function.update p.hand i (p.hand i - 1) }

def takeFile (p : Proc) (f : Fin nfile) : Proc := { p with files := Function.update p.files f (p.files f + 1) }

def giveFile (p : Proc) (f : Fin nfile) : Proc := { p with files := Function.update p.files f (p.files f - 1) }

def setFd (p : Proc) (fd : Fin nofile) (f : Option (Fin nfile)) (counted : Bool) : Proc :=
  { p with ofile := Function.update p.ofile fd f, counted := Function.update p.counted fd counted }

end Proc

/-! ### Actions -/

inductive Action where
  | panic
  | begin_op
  | end_op
  -- Blocks.
  | load (n : UInt32)
  | bzero (n : UInt32)
  | balloc (k : ℕ)
  | ialloc (inum : UInt32) (type : UInt16)
  | iupdate (i : Fin ninode)
  | iload (i : Fin ninode)
  | setEntry (n : UInt32) (k : ℕ) (addr : UInt32)
  | write (n : UInt32) (off : ℕ) (src : ℕ → UInt8) (m : ℕ) (logged : Bool)
  -- An inode whose lock the process holds.
  | inode (i : Fin ninode)
  | setInode (i : Fin ninode) (f : Dinode → Dinode)
  | setAddr (i : Fin ninode) (k : Fin (ndirect + 1)) (addr : UInt32)
  | bfreeAddr (i : Fin ninode) (k : Fin (ndirect + 1))
  | bfreeEntry (i : Fin ninode) (k : ℕ) (addr : UInt32)
  | invalidate (i : Fin ninode)
  -- The inode cache.
  | iget (dev inum : UInt32)
  | idup (i : Fin ninode)
  | acquiresleep (i : Fin ninode)
  | releasesleep (i : Fin ninode)
  | callIput (i : Fin ninode)
  | iput (i : Fin ninode)
  | iputUnlock (i : Fin ninode)
  | iputDrop (i : Fin ninode)
  -- The file table and descriptors.
  | filealloc
  | filedup (f : Fin nfile) (slot : Option (Fin nofile))
  | fileclose (f : Fin nfile)
  | file (f : Fin nfile)
  | setFile (f : Fin nfile) (i : Fin ninode) (omode : UInt32)
  | setOff (f : Fin nfile) (off : UInt32)
  | fd (fd : Fin nofile)
  | fdalloc (f : Fin nfile) (own : Bool)
  | takeFd (fd : Fin nofile)
  | clearFd (fd : Fin nofile)
  -- Pipes.
  | kalloc (page : Option Page)
  | kfree (page : Page)
  | pipeInit (f0 f1 : Fin nfile) (page : Page)
  | pipeclose (page : Page) (writable : Bool)
  -- Processes.
  | cwd
  | takeCwd
  | setCwd (i : Option (Fin ninode))
  | allocproc (np : Tid)
  | freeproc (np : Tid)
  | childFd (np : Tid) (fd : Fin nofile) (f : Fin nfile)
  | childCwd (np : Tid) (i : Fin ninode)
  | start (np : Tid)
  | zombie
  | reap (np : Tid)

abbrev Action.Result : Action → Type
  | .load _ => Block
  | .balloc _ => Option UInt32
  | .ialloc _ _ => Bool
  | .inode _ => Inode
  | .iget _ _ => Fin ninode
  | .iput _ => Bool
  | .filealloc => Option (Fin nfile)
  | .fileclose _ => Option File
  | .file _ => File
  | .fd _ => Option (Fin nfile)
  | .fdalloc _ _ => Option (Fin nofile)
  | .takeFd _ => Option (Fin nfile)
  | .kalloc _ => Option Page
  | .pipeclose _ _ => Bool
  | .cwd => Fin ninode
  | .takeCwd => Fin ninode
  | _ => Unit

namespace Kernel

variable (t : Tid)

/-- `log_write` panics outside of any transaction. -/
def logWrite (s : Kernel) (n : UInt32) (d : Block) : Option (Unit × Kernel) :=
  if s.outstanding < 1 then none else some ((), s.setBlock n d)

def balloc (s : Kernel) (k : ℕ) : Option (Option UInt32 × Kernel) :=
  let n := sb.bmapstart + UInt32.ofNat k
  match findFree (s.block n) (k * bpb) sb.size.toNat with
  | none => some (none, s)
  | some bi =>
    let b := UInt32.ofNat (k * bpb + bi)
    match s.logWrite n (setBit (s.block n) bi) with
    | none => none
    | some (_, s') => some (some b, s'.setFresh t (some b))

def bfree (s : Kernel) (b : UInt32) : Option (Unit × Kernel) :=
  if s.bit sb b then s.logWrite (bblock sb b) (clearBit (s.block (bblock sb b)) (b.toNat % bpb)) else none

def ialloc (s : Kernel) (inum : UInt32) (type : UInt16) : Option (Bool × Kernel) :=
  if (s.dinode sb inum).type = 0 then
    match s.logWrite (iblock sb inum) (putDinode (s.block (iblock sb inum)) (inum.toNat % ipb) { type := type }) with
    | none => none
    | some (_, s') => some (true, s')
  else
    some (false, s)

def iupdate (s : Kernel) (i : Fin ninode) : Option (Unit × Kernel) :=
  let n := iblock sb (s.inode i).inum
  s.logWrite n (putDinode (s.block n) ((s.inode i).inum.toNat % ipb) (s.inode i).toDinode)

def iload (s : Kernel) (i : Fin ninode) : Option (Unit × Kernel) :=
  let d := s.dinode sb (s.inode i).inum
  if d.type = 0 then none else some ((), s.setInode i { s.inode i with toDinode := d, valid := true })

def setAddr (s : Kernel) (i : Fin ninode) (k : Fin (ndirect + 1)) (addr : UInt32) : Kernel :=
  (s.setInode i { s.inode i with addrs := Function.update (s.inode i).addrs k addr }).setFresh t none

/-- `bfree(ip->dev, ip->addrs[k]); ip->addrs[k] = 0;` -/
def bfreeAddr (s : Kernel) (i : Fin ninode) (k : Fin (ndirect + 1)) : Option (Unit × Kernel) :=
  match s.bfree sb ((s.inode i).addrs k) with
  | none => none
  | some (_, s') =>
    some ((), s'.setInode i { s'.inode i with addrs := Function.update (s'.inode i).addrs k 0, cut := 0 })

def bfreeEntry (s : Kernel) (i : Fin ninode) (k : ℕ) (addr : UInt32) : Option (Unit × Kernel) :=
  if addr = 0 then some ((), s.setInode i { s.inode i with cut := k + 1 })
  else
    match s.bfree sb addr with
    | none => none
    | some (_, s') => some ((), s'.setInode i { s'.inode i with cut := k + 1 })

def setEntry (s : Kernel) (n : UInt32) (k : ℕ) (addr : UInt32) : Option (Unit × Kernel) :=
  match s.logWrite n (fun j => if j.val = k then addr else s.block n j) with
  | none => none
  | some (_, s') => some ((), s'.setFresh t none)

def write (s : Kernel) (n : UInt32) (off : ℕ) (src : ℕ → UInt8) (m : ℕ) (logged : Bool) : Option (Unit × Kernel) :=
  let d := (s.block n).memmove off src m
  if logged then s.logWrite n d else some ((), s.setBlock n d)

def iget (s : Kernel) (dev inum : UInt32) : Option (Fin ninode × Kernel) :=
  let cached (i : Fin ninode) := decide (0 < (s.inode i).ref ∧ (s.inode i).dev = dev ∧ (s.inode i).inum = inum)
  match (List.finRange ninode).find? cached with
  | some i => some (i, (s.setInode i { s.inode i with ref := (s.inode i).ref + 1 }).setProc t ((s.proc t).take i))
  | none =>
    match (List.finRange ninode).find? fun i => decide ((s.inode i).ref = 0) with
    | none => none
    | some i =>
      some (i, (s.setInode i { s.inode i with dev := dev, inum := inum, ref := 1, valid := false, cut := 0 }).setProc t
        ((s.proc t).take i))

def idup (s : Kernel) (i : Fin ninode) : Kernel :=
  (s.setInode i { s.inode i with ref := (s.inode i).ref + 1 }).setProc t ((s.proc t).take i)

def setLock (s : Kernel) (i : Fin ninode) (owner : Option Tid) : Kernel :=
  { s with lock := Function.update s.lock i owner }

/-- `ip->ref--`, by which the caller gives up its reference. -/
def iputDrop (s : Kernel) (i : Fin ninode) : Kernel :=
  (s.setInode i { s.inode i with ref := (s.inode i).ref - 1 }).setProc t
    { (s.proc t).give i with putting := none }

/-- The test under `icache.lock`; sleeping with the lock held is a panic. -/
def iput (s : Kernel) (i : Fin ninode) : Option (Bool × Kernel) :=
  if (s.inode i).ref = 1 ∧ (s.inode i).valid = true ∧ (s.inode i).nlink = 0 then
    if s.lock i = none then some (true, (s.setLock i (some t)).setProc t { s.proc t with putting := none }) else none
  else
    some (false, s.iputDrop t i)

def filealloc (s : Kernel) : Option (Fin nfile) × Kernel :=
  match (List.finRange nfile).find? fun f => decide ((s.file f).ref = 0) with
  | none => (none, s)
  | some f => (some f, (s.setFile f { s.file f with ref := 1 }).setProc t ((s.proc t).takeFile f))

def filedup (s : Kernel) (f : Fin nfile) (slot : Option (Fin nofile)) : Option (Unit × Kernel) :=
  if (s.file f).ref < 1 then none
  else
    let s' := s.setFile f { s.file f with ref := (s.file f).ref + 1 }
    match slot with
    | none => some ((), s'.setProc t ((s.proc t).takeFile f))
    | some fd => some ((), s'.setProc t { s.proc t with counted := Function.update (s.proc t).counted fd true })

/-- The copy of a file whose last reference is gone takes over its inode or its end of a pipe. -/
def fileclose (s : Kernel) (f : Fin nfile) : Option (Option File × Kernel) :=
  let x := s.file f
  if x.ref < 1 then none
  else
    let p := (s.proc t).giveFile f
    if 0 < x.ref - 1 then some (none, (s.setFile f { x with ref := x.ref - 1 }).setProc t p)
    else
      let p' := match x.type with
        | .none => p
        | .pipe => { p with closing := some (x.pipe, x.writable) }
        | .inode | .device => p.take x.ip
      some (some x, (s.setFile f { x with ref := 0, type := .none }).setProc t p')

def oWronly (omode : UInt32) : Bool := omode &&& 1 != 0

def oRdwr (omode : UInt32) : Bool := omode &&& 2 != 0

/-- What `sys_open` stores in the file it has allocated, for an inode that is locked. -/
def openFile (s : Kernel) (f : Fin nfile) (i : Fin ninode) (omode : UInt32) : Kernel :=
  let x := s.file f
  let x' := if (s.inode i).type = tDevice then { x with type := .device, major := (s.inode i).major }
    else { x with type := .inode, off := 0 }
  (s.setFile f { x' with ip := i, readable := !oWronly omode, writable := oWronly omode || oRdwr omode }).setProc t
    ((s.proc t).give i)

def fdalloc (s : Kernel) (f : Fin nfile) (own : Bool) : Option (Fin nofile) × Kernel :=
  match (List.finRange nofile).find? fun fd => decide ((s.proc t).ofile fd = none) with
  | none => (none, s)
  | some fd =>
    let p := if own then (s.proc t).giveFile f else s.proc t
    (some fd, s.setProc t (p.setFd fd (some f) own))

/-- The descriptor gives its reference to a local variable. -/
def takeFd (s : Kernel) (fd : Fin nofile) : Option (Fin nfile) × Kernel :=
  match (s.proc t).ofile fd with
  | none => (none, s)
  | some f =>
    let p := if (s.proc t).counted fd then (s.proc t).takeFile f else s.proc t
    (some f, s.setProc t (p.setFd fd (some f) false))

def clearFd (s : Kernel) (fd : Fin nofile) : Kernel :=
  let p := match (s.proc t).ofile fd with
    | some f => if (s.proc t).counted fd then (s.proc t).takeFile f else s.proc t
    | none => s.proc t
  s.setProc t (p.setFd fd none false)

/-- `kalloc` returns some page that is free, or fails. -/
def kalloc (s : Kernel) : Option Page → Option (Option Page × Kernel)
  | none => some (none, s)
  | some pi =>
    if (s.pipe pi).allocated then none
    else
      some (some pi, (s.setPipe pi { s.pipe pi with allocated := true, allocs := (s.pipe pi).allocs + 1 }).setProc t
        { s.proc t with page := some pi })

def kfree (s : Kernel) (pi : Page) : Kernel :=
  (s.setPipe pi { s.pipe pi with allocated := false, frees := (s.pipe pi).frees + 1 }).setProc t
    { s.proc t with page := none }

def pipeInit (s : Kernel) (f0 f1 : Fin nfile) (pi : Page) : Kernel :=
  let s₁ := s.setPipe pi { s.pipe pi with readopen := true, writeopen := true }
  let s₂ := s₁.setFile f0 { s₁.file f0 with type := .pipe, readable := true, writable := false, pipe := pi }
  let s₃ := s₂.setFile f1 { s₂.file f1 with type := .pipe, readable := false, writable := true, pipe := pi }
  s₃.setProc t { s₃.proc t with page := none }

/-- The end that is closed, and whether the page is to be freed. -/
def pipeclose (s : Kernel) (pi : Page) (writable : Bool) : Bool × Kernel :=
  let x := if writable then { s.pipe pi with writeopen := false } else { s.pipe pi with readopen := false }
  let last := !x.readopen && !x.writeopen
  (last, (s.setPipe pi x).setProc t
    { s.proc t with closing := none, page := if last then some pi else (s.proc t).page })

def childFd (s : Kernel) (np : Tid) (fd : Fin nofile) (f : Fin nfile) : Kernel :=
  let s' := s.setProc t ((s.proc t).giveFile f)
  s'.setProc np ((s'.proc np).setFd fd (some f) true)

def childCwd (s : Kernel) (np : Tid) (i : Fin ninode) : Kernel :=
  let s' := s.setProc t ((s.proc t).give i)
  s'.setProc np { s'.proc np with cwd := some i }

def setState (s : Kernel) (np : Tid) (state : ProcState) : Kernel := s.setProc np { s.proc np with state := state }

def setChild (s : Kernel) (np : Option Tid) : Kernel := s.setProc t { s.proc t with child := np }

end Kernel

def exec (t : Tid) : (a : Action) → Kernel → Option (a.Result × Kernel)
  | .panic, _ => none
  | .begin_op, s => some ((), { s with outstanding := s.outstanding + 1 })
  | .end_op, s => some ((), { s with outstanding := s.outstanding - 1 })
  | .load n, s => some (s.block n, s)
  | .bzero n, s => s.logWrite n fun _ => 0
  | .balloc k, s => s.balloc sb t k
  | .ialloc inum type, s => s.ialloc sb inum type
  | .iupdate i, s => s.iupdate sb i
  | .iload i, s => s.iload sb i
  | .setEntry n k addr, s => s.setEntry t n k addr
  | .write n off src m logged, s => s.write n off src m logged
  | .inode i, s => some (s.inode i, s)
  | .setInode i f, s => some ((), s.setInode i { s.inode i with toDinode := f (s.inode i).toDinode })
  | .setAddr i k addr, s => some ((), s.setAddr t i k addr)
  | .bfreeAddr i k, s => s.bfreeAddr sb i k
  | .bfreeEntry i k addr, s => s.bfreeEntry sb i k addr
  | .invalidate i, s => some ((), s.setInode i { s.inode i with valid := false })
  | .iget dev inum, s => s.iget t dev inum
  | .idup i, s => some ((), s.idup t i)
  | .acquiresleep i, s => if 0 < (s.inode i).ref ∧ s.lock i = none then some ((), s.setLock i (some t)) else none
  | .releasesleep i, s => if 0 < (s.inode i).ref ∧ s.lock i = some t then some ((), s.setLock i none) else none
  | .callIput i, s => some ((), s.setProc t { s.proc t with putting := some i })
  | .iput i, s => s.iput t i
  | .iputUnlock i, s => some ((), s.setLock i none)
  | .iputDrop i, s => some ((), s.iputDrop t i)
  | .filealloc, s => some (s.filealloc t)
  | .filedup f slot, s => s.filedup t f slot
  | .fileclose f, s => s.fileclose t f
  | .file f, s => some (s.file f, s)
  | .setFile f i omode, s => some ((), s.openFile t f i omode)
  | .setOff f off, s => some ((), s.setFile f { s.file f with off := off })
  | .fd fd, s => some ((s.proc t).ofile fd, s)
  | .fdalloc f own, s => some (s.fdalloc t f own)
  | .takeFd fd, s => some (s.takeFd t fd)
  | .clearFd fd, s => some ((), s.clearFd t fd)
  | .kalloc page, s => s.kalloc t page
  | .kfree page, s => some ((), s.kfree t page)
  | .pipeInit f0 f1 page, s => some ((), s.pipeInit t f0 f1 page)
  | .pipeclose page writable, s => some (s.pipeclose t page writable)
  | .cwd, s =>
    match (s.proc t).cwd with
    | none => none
    | some i => some (i, s)
  | .takeCwd, s =>
    match (s.proc t).cwd with
    | none => none
    | some i => some (i, s.setProc t { (s.proc t).take i with spent := true })
  | .setCwd i, s =>
    let p := match i with
      | some i => (s.proc t).give i
      | none => s.proc t
    some ((), s.setProc t { p with cwd := i, spent := false })
  | .allocproc np, s => if (s.proc np).state = .unused then some ((), (s.setState np .embryo).setChild t (some np))
      else none
  | .freeproc np, s => some ((), (s.setState np .unused).setChild t none)
  | .childFd np fd f, s => some ((), s.childFd t np fd f)
  | .childCwd np i, s => some ((), s.childCwd t np i)
  | .start np, s => some ((), (s.setState np .running).setChild t none)
  | .zombie, s => some ((), s.setState t .zombie)
  | .reap np, s => if (s.proc np).state = .zombie then some ((), s.setState np .unused) else none

abbrev Code := Prog Action Action.Result

def act (a : Action) : Code a.Result := lift a

end Xv6Labs.Fs
