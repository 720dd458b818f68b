import Xv6Labs.Fs.Code

/-!
# File system calls

`file.c`, `sysfile.c` and what `pipe.c`, `exec.c` and `proc.c` do to files and inodes. A path is `none` if the user's
string cannot be fetched. What the calls do outside of the file system is up to the caller of the model: transfers
through pipes and devices return some number, `kalloc` some free page or nothing, and `allocproc` some unused slot.
-/

namespace Xv6Labs.Fs

open Threads Prog

variable (sb : Superblock)

abbrev Path : Type := List UInt8

/-! ### `file.c` and `pipe.c` -/

def pipeclose (pi : Page) (writable : Bool) : Code Unit := do
  if ← act (.pipeclose pi writable) then act (.kfree pi) else return ()

def fileclose (f : Fin nfile) : Code Unit := do
  match ← act (.fileclose f) with
  | none => return ()
  | some ff =>
    match ff.type with
    | .none => return ()
    | .pipe => pipeclose ff.pipe ff.writable
    | .inode | .device => do
      act .begin_op
      iput ff.ip
      act .end_op

def filestat (f : Fin nfile) (copied : Bool) : Code ℤ := do
  let x ← act (.file f)
  match x.type with
  | .inode | .device => do
    ilock x.ip
    let _ ← act (.inode x.ip)
    iunlock x.ip
    return if copied then 0 else -1
  | _ => return -1

/-- `readi` and `f->off += r`. -/
def readFile (f : Fin nfile) (i : Fin ninode) (dst : Dest) (n : UInt32) : Code ℤ := do
  let x ← act (.file f)
  let (r, _) ← readi sb i dst x.off n
  act (.setOff f (x.off + UInt32.ofNat r))
  return r

def fileread (f : Fin nfile) (dst : Dest) (n : Int32) (other : ℤ) : Code ℤ := do
  let x ← act (.file f)
  if x.readable = false then
    return -1
  else
    match x.type with
    | .pipe => return other
    | .device => return if x.major.toNat < ndev then other else -1
    | .inode => do
      ilock x.ip
      let r ← readFile sb f x.ip dst n.toUInt32
      iunlock x.ip
      return r
    | .none => do
      act .panic
      return -1

def writeFile (f : Fin nfile) (i : Fin ninode) (src : Source) (n : UInt32) : Code ℤ := do
  let x ← act (.file f)
  let r ← writei sb i src x.off n
  if 0 < r then do
    act (.setOff f (x.off + UInt32.ofNat r.toNat))
    return r
  else
    return r

abbrev writeMax : ℕ := (maxOpBlocks - 1 - 1 - 2) / 2 * bsize

/-- The loop of `filewrite` from byte `k` on; it returns the number of bytes written. -/
def filewriteFrom (f : Fin nfile) (i : Fin ninode) (src : Source) (n : ℕ) : ℕ → ℕ → Code ℕ
  | 0, k => return k
  | fuel + 1, k =>
    if k < n then do
      let n1 := min (n - k) writeMax
      act .begin_op
      ilock i
      let r ← writeFile sb f i ⟨fun j => src.byte (k + j), fun tot m => src.copies (k + tot) m⟩ (UInt32.ofNat n1)
      iunlock i
      act .end_op
      if r < 0 then
        return k
      else if r ≠ n1 then do
        act .panic
        return k
      else
        filewriteFrom f i src n fuel (k + r.toNat)
    else
      return k

def filewrite (f : Fin nfile) (src : Source) (n : Int32) (other : ℤ) : Code ℤ := do
  let x ← act (.file f)
  if x.writable = false then
    return -1
  else
    match x.type with
    | .pipe => return other
    | .device => return if x.major.toNat < ndev then other else -1
    | .inode => do
      let k ← filewriteFrom sb f x.ip src n.toInt.toNat n.toInt.toNat 0
      return if (k : ℤ) = n.toInt then n.toInt else -1
    | .none => do
      act .panic
      return -1

/-! ### `sysfile.c` -/

/-- `argfd` fails if the number is not that of an open descriptor. -/
def sys_dup (fd : Fin nofile) : Code ℤ := do
  match ← act (.fd fd) with
  | none => return -1
  | some f =>
    match ← act (.fdalloc f false) with
    | none => return -1
    | some fd' => do
      act (.filedup f (some fd'))
      return fd'.val

def sys_read (fd : Fin nofile) (dst : Dest) (n : Int32) (other : ℤ) : Code ℤ := do
  match ← act (.fd fd) with
  | none => return -1
  | some f => fileread sb f dst n other

def sys_write (fd : Fin nofile) (src : Source) (n : Int32) (other : ℤ) : Code ℤ := do
  match ← act (.fd fd) with
  | none => return -1
  | some f => filewrite sb f src n other

def sys_close (fd : Fin nofile) : Code ℤ := do
  match ← act (.fd fd) with
  | none => return -1
  | some f => do
    act (.clearFd fd)
    fileclose f
    return 0

def sys_fstat (fd : Fin nofile) (copied : Bool) : Code ℤ := do
  match ← act (.fd fd) with
  | none => return -1
  | some f => filestat f copied

def addLink (i : Fin ninode) (by_ : UInt16) : Code Unit := do
  act (.setInode i fun d => { d with nlink := d.nlink + by_ })
  iupdate i

/-- `bad:` in `sys_link`. -/
def linkFailed (i : Fin ninode) : Code ℤ := do
  ilock i
  addLink i (-1)
  iunlockput i
  act .end_op
  return -1

def linkTo (i : Fin ninode) (new : Path) : Code ℤ := do
  match ← nameiparent sb new with
  | none => linkFailed i
  | some (dp, name) => do
    ilock dp
    let d ← act (.inode dp)
    let ip ← act (.inode i)
    if d.dev = ip.dev then do
      if ← dirlink sb dp name ip.inum then do
        iunlockput dp
        iput i
        act .end_op
        return 0
      else do
        iunlockput dp
        linkFailed i
    else do
      iunlockput dp
      linkFailed i

def sys_link (old new : Option Path) : Code ℤ :=
  match old, new with
  | some old, some new => do
    act .begin_op
    match ← namei sb old with
    | none => do
      act .end_op
      return -1
    | some i => do
      ilock i
      let ip ← act (.inode i)
      if ip.type = tDir then do
        iunlockput i
        act .end_op
        return -1
      else do
        addLink i 1
        iunlock i
        linkTo sb i new
  | _, _ => return -1

/-- Is there no entry after "." and ".."? -/
def emptyFrom (dp : Fin ninode) (size : UInt32) : ℕ → UInt32 → Code Bool
  | 0, _ => return true
  | fuel + 1, off =>
    if off < size then do
      let de ← readDirent sb dp off
      if de.inum = 0 then emptyFrom dp size fuel (off + UInt32.ofNat direntSize) else return false
    else
      return true

def isdirempty (dp : Fin ninode) : Code Bool := do
  let d ← act (.inode dp)
  emptyFrom sb dp d.size (d.size.toNat / direntSize + 1) (UInt32.ofNat (2 * direntSize))

def dot : Path := [46]

def dotdot : Path := [46, 46]

/-- `bad:` in `sys_unlink`. -/
def unlinkFailed (dp : Fin ninode) : Code ℤ := do
  iunlockput dp
  act .end_op
  return -1

def removeEntry (dp i : Fin ninode) (off : UInt32) : Code ℤ := do
  let ip ← act (.inode i)
  writeDirent sb dp off {}
  if ip.type = tDir then addLink dp (-1) else pure ()
  iunlockput dp
  addLink i (-1)
  iunlockput i
  act .end_op
  return 0

/-- `ip->type == T_DIR && !isdirempty(ip)` -/
def nonempty (i : Fin ninode) (ip : Inode) : Code Bool :=
  if ip.type = tDir then do
    let none ← isdirempty sb i
    return !none
  else
    return false

def unlinkIn (dp : Fin ninode) (name : Path) : Code ℤ := do
  if namecmp name dot ∨ namecmp name dotdot then
    unlinkFailed dp
  else
    match ← dirlookup sb dp name with
    | none => unlinkFailed dp
    | some (i, off) => do
      ilock i
      let ip ← act (.inode i)
      if ip.nlink.toInt16.toInt < 1 then do
        act .panic
        return -1
      else do
        if ← nonempty sb i ip then do
          iunlockput i
          unlinkFailed dp
        else
          removeEntry sb dp i off

def sys_unlink (path : Option Path) : Code ℤ :=
  match path with
  | none => return -1
  | some path => do
    act .begin_op
    match ← nameiparent sb path with
    | none => do
      act .end_op
      return -1
    | some (dp, name) => do
      ilock dp
      unlinkIn sb dp name

def createDots (dp i : Fin ninode) : Code Unit := do
  addLink dp 1
  let ip ← act (.inode i)
  let d ← act (.inode dp)
  if ← dirlink sb i dot ip.inum then do
    if ← dirlink sb i dotdot d.inum then return () else act .panic
  else
    act .panic

def createIn (dp : Fin ninode) (name : Path) (type major minor : UInt16) : Code (Option (Fin ninode)) := do
  let d ← act (.inode dp)
  let i ← ialloc sb d.dev type
  ilock i
  act (.setInode i fun d => { d with major := major, minor := minor, nlink := 1 })
  iupdate i
  if type = tDir then createDots sb dp i else pure ()
  let ip ← act (.inode i)
  if ← dirlink sb dp name ip.inum then do
    iunlockput dp
    return some i
  else do
    act .panic
    return none

/-- The inode is locked. -/
def create (path : Path) (type major minor : UInt16) : Code (Option (Fin ninode)) := do
  match ← nameiparent sb path with
  | none => return none
  | some (dp, name) => do
    ilock dp
    match ← dirlookup sb dp name with
    | some (i, _) => do
      iunlockput dp
      ilock i
      let ip ← act (.inode i)
      if type = tFile ∧ (ip.type = tFile ∨ ip.type = tDevice) then
        return some i
      else do
        iunlockput i
        return none
    | none => createIn sb dp name type major minor

def oCreate (omode : UInt32) : Bool := omode &&& 0x200 != 0

def oTrunc (omode : UInt32) : Bool := omode &&& 0x400 != 0

/-- The first part of `sys_open`: the inode, locked. -/
def openInode (path : Path) (omode : UInt32) : Code (Option (Fin ninode)) :=
  if oCreate omode then
    create sb path tFile 0 0
  else do
    match ← namei sb path with
    | none => return none
    | some i => do
      ilock i
      let ip ← act (.inode i)
      if ip.type = tDir ∧ omode ≠ 0 then do
        iunlockput i
        return none
      else
        return some i

def openFailed (i : Fin ninode) : Code ℤ := do
  iunlockput i
  act .end_op
  return -1

def openFd (i : Fin ninode) (omode : UInt32) : Code ℤ := do
  match ← act .filealloc with
  | none => openFailed i
  | some f =>
    match ← act (.fdalloc f true) with
    | none => do
      fileclose f
      openFailed i
    | some fd => do
      act (.setFile f i omode)
      let ip ← act (.inode i)
      if oTrunc omode ∧ ip.type = tFile then itrunc i else pure ()
      iunlock i
      act .end_op
      return fd.val

def sys_open (path : Option Path) (omode : UInt32) : Code ℤ :=
  match path with
  | none => return -1
  | some path => do
    act .begin_op
    match ← openInode sb path omode with
    | none => do
      act .end_op
      return -1
    | some i => do
      let ip ← act (.inode i)
      if ip.type = tDevice ∧ (ip.major.toInt16.toInt < 0 ∨ (ndev : ℤ) ≤ ip.major.toInt16.toInt) then
        openFailed i
      else
        openFd i omode

def sys_mknod (path : Option Path) (type major minor : UInt16) : Code ℤ := do
  act .begin_op
  match path with
  | none => do
    act .end_op
    return -1
  | some path =>
    match ← create sb path type major minor with
    | none => do
      act .end_op
      return -1
    | some i => do
      iunlockput i
      act .end_op
      return 0

def sys_mkdir (path : Option Path) : Code ℤ := sys_mknod sb path tDir 0 0

def chdirTo (i : Fin ninode) : Code ℤ := do
  ilock i
  let ip ← act (.inode i)
  if ip.type ≠ tDir then do
    iunlockput i
    act .end_op
    return -1
  else do
    iunlock i
    let old ← act .takeCwd
    iput old
    act .end_op
    act (.setCwd (some i))
    return 0

def sys_chdir (path : Option Path) : Code ℤ := do
  act .begin_op
  match path with
  | none => do
    act .end_op
    return -1
  | some path =>
    match ← namei sb path with
    | none => do
      act .end_op
      return -1
    | some i => chdirTo i

/-- What `exec` reads of the file are the ranges `reads`. -/
def sys_exec (path : Path) (reads : List (UInt32 × UInt32)) : Code Unit := do
  act .begin_op
  match ← namei sb path with
  | none => act .end_op
  | some i => do
    ilock i
    forEach (fun (off, n) => do
      let _ ← readi sb i kernelDest off n
      return ()) reads
    iunlockput i
    act .end_op

/-- `bad:` in `pipealloc`; its page is not allocated then. -/
def pipeallocFailed : List (Fin nfile) → Code (Option (Fin nfile × Fin nfile))
  | [] => return none
  | f :: fs => do
    fileclose f
    pipeallocFailed fs

def pipealloc (page : Option Page) : Code (Option (Fin nfile × Fin nfile)) := do
  match ← act .filealloc with
  | none => pipeallocFailed []
  | some f0 =>
    match ← act .filealloc with
    | none => pipeallocFailed [f0]
    | some f1 =>
      match ← act (.kalloc page) with
      | none => pipeallocFailed [f0, f1]
      | some pi => do
        act (.pipeInit f0 f1 pi)
        return some (f0, f1)

def pipeFailed (rf wf : Fin nfile) : Code ℤ := do
  fileclose rf
  fileclose wf
  return -1

def sys_pipe (page : Option Page) (copied : Bool) : Code ℤ := do
  match ← pipealloc page with
  | none => return -1
  | some (rf, wf) =>
    match ← act (.fdalloc rf true) with
    | none => pipeFailed rf wf
    | some fd0 =>
      match ← act (.fdalloc wf true) with
      | none => do
        act (.clearFd fd0)
        pipeFailed rf wf
      | some fd1 =>
        if copied then
          return 0
        else do
          act (.clearFd fd0)
          act (.clearFd fd1)
          pipeFailed rf wf

/-! ### `proc.c` -/

def forkFd (np : Tid) (fd : Fin nofile) : Code Unit := do
  match ← act (.fd fd) with
  | none => return ()
  | some f => do
    act (.filedup f none)
    act (.childFd np fd f)

def fork (np : Option Tid) (copied : Bool) : Code ℤ :=
  match np with
  | none => return -1
  | some np => do
    act (.allocproc np)
    if copied then do
      forEach (forkFd np) (List.finRange nofile)
      let i ← act .cwd
      act (.idup i)
      act (.childCwd np i)
      act (.start np)
      return np.val
    else do
      act (.freeproc np)
      return -1

def exitFd (fd : Fin nofile) : Code Unit := do
  match ← act (.takeFd fd) with
  | none => return ()
  | some f => do
    fileclose f
    act (.clearFd fd)

def exit : Code Unit := do
  forEach exitFd (List.finRange nofile)
  act .begin_op
  let i ← act .takeCwd
  iput i
  act .end_op
  act (.setCwd none)
  act .zombie

/-! ### Runs -/

/-- The calls of a running process. -/
inductive Call : Code Unit → Prop where
  | dup (fd : Fin nofile) : Call (sys_dup fd >>= fun _ => pure ())
  | read (fd : Fin nofile) (dst : Dest) (n : Int32) (other : ℤ) : Call (sys_read sb fd dst n other >>= fun _ => pure ())
  | write (fd : Fin nofile) (src : Source) (n : Int32) (other : ℤ) :
      Call (sys_write sb fd src n other >>= fun _ => pure ())
  | close (fd : Fin nofile) : Call (sys_close fd >>= fun _ => pure ())
  | fstat (fd : Fin nofile) (copied : Bool) : Call (sys_fstat fd copied >>= fun _ => pure ())
  | link (old new : Option Path) : Call (sys_link sb old new >>= fun _ => pure ())
  | unlink (path : Option Path) : Call (sys_unlink sb path >>= fun _ => pure ())
  | open (path : Option Path) (omode : UInt32) : Call (sys_open sb path omode >>= fun _ => pure ())
  | mkdir (path : Option Path) : Call (sys_mkdir sb path >>= fun _ => pure ())
  | mknod (path : Option Path) (major minor : UInt16) :
      Call (sys_mknod sb path tDevice major minor >>= fun _ => pure ())
  | chdir (path : Option Path) : Call (sys_chdir sb path >>= fun _ => pure ())
  | exec (path : Path) (reads : List (UInt32 × UInt32)) : Call (sys_exec sb path reads)
  | pipe (page : Option Page) (copied : Bool) : Call (sys_pipe page copied >>= fun _ => pure ())
  | fork (np : Option Tid) (copied : Bool) : Call (fork np copied >>= fun _ => pure ())
  | wait (np : Tid) : Call (act (.reap np))
  | exit : Call exit

def Called (t : Tid) (s : Kernel) (code : Code Unit) : Prop := (s.proc t).state = .running ∧ Call sb code

abbrev Conf := Threads.Conf Tid Action Action.Result Kernel

def Running : Conf → Conf → Prop := Threads.Step (exec sb) (Called sb)

/-- The first process, whose working directory is the root. -/
def boot (block : UInt32 → Block) : Kernel where
  block := block
  inode := Function.update (fun _ => {}) 0 { dev := rootdev, inum := rootino, ref := 1 }
  proc := Function.update (fun _ => {}) 0 { state := .running, cwd := some 0 }

def start (block : UInt32 → Block) : Conf := ⟨boot block, fun _ => .ret ()⟩

end Xv6Labs.Fs
