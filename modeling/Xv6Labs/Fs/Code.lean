import Xv6Labs.Fs.State

/-!
# `fs.c`

The code of the inode layer. An inode pointer is a slot of the inode cache. What `readi` copies to its destination and
`writei` takes from its source is data of the caller; a user address that is not mapped stops the copy.
-/

namespace Xv6Labs.Fs

open Threads Prog

variable (sb : Superblock)

def forEach {α : Type} (body : α → Code Unit) : List α → Code Unit
  | [] => return ()
  | x :: xs => do
    body x
    forEach body xs

/-! ### Blocks -/

/-- The bitmap blocks from number `k` on. -/
def ballocFrom : ℕ → ℕ → Code UInt32
  | 0, _ => do
    act .panic
    return 0
  | more + 1, k => do
    match ← act (.balloc k) with
    | some b =>
      act (.bzero b)
      return b
    | none => ballocFrom more (k + 1)

def balloc : Code UInt32 := ballocFrom ((sb.size.toNat + bpb - 1) / bpb) 0

/-! ### Inodes -/

def ilock (i : Fin ninode) : Code Unit := do
  act (.acquiresleep i)
  let ip ← act (.inode i)
  if ip.valid = false then act (.iload i) else return ()

def iunlock (i : Fin ninode) : Code Unit := act (.releasesleep i)

def iupdate (i : Fin ninode) : Code Unit := act (.iupdate i)

def iallocFrom (dev : UInt32) (type : UInt16) : ℕ → UInt32 → Code (Fin ninode)
  | 0, _ => do
    act .panic
    return 0
  | more + 1, inum => do
    if ← act (.ialloc inum type) then act (.iget dev inum) else iallocFrom dev type more (inum + 1)

def ialloc (dev : UInt32) (type : UInt16) : Code (Fin ninode) := iallocFrom dev type (sb.ninodes.toNat - 1) 1

/-- `if ((addr = ip->addrs[k]) == 0) ip->addrs[k] = addr = balloc(ip->dev);` -/
def addrOf (i : Fin ninode) (k : Fin (ndirect + 1)) : Code UInt32 := do
  let ip ← act (.inode i)
  if ip.addrs k = 0 then do
    let addr ← balloc sb
    act (.setAddr i k addr)
    return addr
  else
    return ip.addrs k

/-- `if ((addr = a[bn]) == 0) { a[bn] = addr = balloc(ip->dev); log_write(bp); }` -/
def entryOf (indirect : UInt32) (bn : ℕ) : Code UInt32 := do
  let a ← act (.load indirect)
  if word a bn = 0 then do
    let addr ← balloc sb
    act (.setEntry indirect bn addr)
    return addr
  else
    return word a bn

def bmap (i : Fin ninode) (bn : ℕ) : Code UInt32 :=
  if h : bn < ndirect then
    addrOf sb i ⟨bn, Nat.lt_succ_of_lt h⟩
  else if bn - ndirect < nindirect then do
    let indirect ← addrOf sb i (Fin.last ndirect)
    entryOf sb indirect (bn - ndirect)
  else do
    act .panic
    return 0

def truncAddr (i : Fin ninode) (k : Fin ndirect) : Code Unit := do
  let ip ← act (.inode i)
  if ip.addrs k.castSucc = 0 then return () else act (.bfreeAddr i k.castSucc)

def truncIndirect (i : Fin ninode) : Code Unit := do
  let ip ← act (.inode i)
  if ip.addrs (Fin.last ndirect) = 0 then
    return ()
  else do
    let a ← act (.load (ip.addrs (Fin.last ndirect)))
    forEach (fun j : Fin nindirect => act (.bfreeEntry i j (a j))) (List.finRange nindirect)
    act (.bfreeAddr i (Fin.last ndirect))

def itrunc (i : Fin ninode) : Code Unit := do
  forEach (truncAddr i) (List.finRange ndirect)
  truncIndirect i
  act (.setInode i fun d => { d with size := 0 })
  iupdate i

def iput (i : Fin ninode) : Code Unit := do
  act (.callIput i)
  if ← act (.iput i) then
    itrunc i
    act (.setInode i fun d => { d with type := 0 })
    iupdate i
    act (.invalidate i)
    act (.iputUnlock i)
    act (.iputDrop i)
  else
    return ()

def iunlockput (i : Fin ninode) : Code Unit := do
  iunlock i
  iput i

/-! ### Contents -/

/-- Whether the `m` bytes at `dst + tot` can be stored. -/
abbrev Dest : Type := ℕ → ℕ → Bool

def kernelDest : Dest := fun _ _ => true

def Pages.dest (pages : Pages) (va : UInt64) : Dest := fun tot m =>
  decide (∀ k < m, pages (pgrounddown (va + UInt64.ofNat (tot + k))) ≠ none)

/-- The bytes at `src`, and how many of the `m` bytes at `src + tot` are copied before a page is not mapped. -/
structure Source where
  byte : ℕ → UInt8
  copies : ℕ → ℕ → ℕ

def kernelSource (byte : ℕ → UInt8) : Source := ⟨byte, fun _ m => m⟩

def Pages.source (pages : Pages) (va : UInt64) : Source where
  byte := fun k =>
    let addr := va + UInt64.ofNat k
    match pages (pgrounddown addr) with
    | some page => page (addr - pgrounddown addr).toNat
    | none => 0
  copies := fun tot m =>
    ((List.range m).find? fun k => (pages (pgrounddown (va + UInt64.ofNat (tot + k)))).isNone).getD m

def chunk (off n tot : ℕ) : ℕ := min (n - tot) (bsize - off % bsize)

/-- The loop of `readi`, with the bytes it has read so far. -/
def readLoop (i : Fin ninode) (dst : Dest) (n : ℕ) : ℕ → ℕ → ℕ → List UInt8 → Code (ℕ × List UInt8)
  | 0, _, tot, data => return (tot, data)
  | fuel + 1, off, tot, data =>
    if tot < n then do
      let b ← bmap sb i (off / bsize)
      let d ← act (.load b)
      let m := chunk off n tot
      if dst tot m then
        readLoop i dst n fuel (off + m) (tot + m) (data ++ (List.range m).map fun k => d.byte (off % bsize + k))
      else
        return (tot, data)
    else
      return (tot, data)

/-- The number of bytes and the bytes; `off` and `n` are 32-bit words. -/
def readi (i : Fin ninode) (dst : Dest) (off n : UInt32) : Code (ℕ × List UInt8) := do
  let ip ← act (.inode i)
  if ip.size < off ∨ off + n < off then return (0, [])
  else
    let n := if ip.size < off + n then ip.size - off else n
    readLoop sb i dst n.toNat n.toNat off.toNat 0 []

/-- The loop of `writei`; it returns the offset where it stopped. -/
def writeLoop (i : Fin ninode) (src : Source) (n : ℕ) : ℕ → ℕ → ℕ → Code ℕ
  | 0, off, _ => return off
  | fuel + 1, off, tot =>
    if tot < n then do
      let b ← bmap sb i (off / bsize)
      let m := chunk off n tot
      let copied := src.copies tot m
      act (.write b (off % bsize) (fun k => src.byte (tot + k)) copied (copied == m))
      if copied = m then writeLoop i src n fuel (off + m) (tot + m) else return off
    else
      return off

/-- `if (n > 0) { if (off > ip->size) ip->size = off; iupdate(ip); }` -/
def writeSize (i : Fin ninode) (off : ℕ) : Code Unit := do
  let ip ← act (.inode i)
  act (.setInode i fun d => { d with size := if ip.size.toNat < off then UInt32.ofNat off else d.size })
  iupdate i

def writei (i : Fin ninode) (src : Source) (off n : UInt32) : Code ℤ := do
  let ip ← act (.inode i)
  if ip.size < off ∨ off + n < off then
    return -1
  else if UInt32.ofNat (maxFile * bsize) < off + n then
    return -1
  else do
    let last ← writeLoop sb i src n.toNat n.toNat off.toNat 0
    if n = 0 then
      return 0
    else do
      writeSize i last
      return n.toInt32.toInt

/-! ### Directories -/

/-- `panic` if the entry cannot be read. -/
def readDirent (dp : Fin ninode) (off : UInt32) : Code Dirent := do
  let (tot, data) ← readi sb dp kernelDest off (UInt32.ofNat direntSize)
  if tot = direntSize then return Dirent.ofBytes data
  else
    act .panic
    return {}

def writeDirent (dp : Fin ninode) (off : UInt32) (de : Dirent) : Code Unit := do
  let r ← writei sb dp (kernelSource de.byte) off (UInt32.ofNat direntSize)
  if r = direntSize then return () else act .panic

def lookupFrom (dp : Fin ninode) (name : List UInt8) (size : UInt32) : ℕ → UInt32 → Code (Option (UInt16 × UInt32))
  | 0, _ => return none
  | fuel + 1, off =>
    if off < size then do
      let de ← readDirent sb dp off
      if de.inum ≠ 0 ∧ namecmp name de.name = true then return some (de.inum, off)
      else lookupFrom dp name size fuel (off + UInt32.ofNat direntSize)
    else
      return none

/-- The inode, and `*poff`. -/
def dirlookup (dp : Fin ninode) (name : List UInt8) : Code (Option (Fin ninode × UInt32)) := do
  let d ← act (.inode dp)
  if d.type = tDir then
    match ← lookupFrom sb dp name d.size (d.size.toNat / direntSize + 1) 0 with
    | some (inum, off) =>
      let i ← act (.iget d.dev inum.toUInt32)
      return some (i, off)
    | none => return none
  else
    act .panic
    return none

def emptySlot (dp : Fin ninode) (size : UInt32) : ℕ → UInt32 → Code UInt32
  | 0, off => return off
  | fuel + 1, off =>
    if off < size then do
      let de ← readDirent sb dp off
      if de.inum = 0 then return off else emptySlot dp size fuel (off + UInt32.ofNat direntSize)
    else
      return off

def dirlink (dp : Fin ninode) (name : List UInt8) (inum : UInt32) : Code Bool := do
  match ← dirlookup sb dp name with
  | some (i, _) =>
    iput i
    return false
  | none =>
    let d ← act (.inode dp)
    let off ← emptySlot sb dp d.size (d.size.toNat / direntSize + 1) 0
    writeDirent sb dp off ⟨UInt16.ofNat inum.toNat, name⟩
    return true

/-! ### Paths -/

/-- The loop of `namex`; the last element of the path is `name`. -/
def walk (parent : Bool) : ℕ → Fin ninode → List UInt8 → List UInt8 → Code (Option (Fin ninode × List UInt8))
  | 0, i, _, _ => do
    act .panic
    return some (i, [])
  | fuel + 1, i, path, name =>
    match skipelem path with
    | some (name, path) => do
      ilock i
      let ip ← act (.inode i)
      if ip.type ≠ tDir then
        iunlockput i
        return none
      else if parent ∧ path = [] then
        iunlock i
        return some (i, name)
      else
        match ← dirlookup sb i name with
        | none =>
          iunlockput i
          return none
        | some (next, _) =>
          iunlockput i
          walk parent fuel next path name
    | none => do
      if parent then
        iput i
        return none
      else
        return some (i, name)

def namex (path : List UInt8) (parent : Bool) : Code (Option (Fin ninode × List UInt8)) := do
  if path.head? = some slash then
    let i ← act (.iget rootdev rootino)
    walk sb parent (path.length + 1) i path []
  else
    let i ← act .cwd
    act (.idup i)
    walk sb parent (path.length + 1) i path []

def namei (path : List UInt8) : Code (Option (Fin ninode)) := do
  return (← namex sb path false).map Prod.fst

def nameiparent (path : List UInt8) : Code (Option (Fin ninode × List UInt8)) := namex sb path true

end Xv6Labs.Fs
