import Xv6Labs.Fs.Bytes
import Xv6Labs.Log.Reserve

/-!
# The file system on the disk

`fs.h`: inodes, the free map and directory entries as they lie in blocks. `short` fields are kept as 16-bit words; a
comparison with 0 or 1 reads them as signed numbers.
-/

namespace Xv6Labs.Fs

abbrev ndirect : ℕ := 12

abbrev nindirect : ℕ := bsize / 4

abbrev maxFile : ℕ := ndirect + nindirect

abbrev dirsiz : ℕ := 14

abbrev ninode : ℕ := 50

instance ninode_neZero : NeZero ninode := ⟨by decide⟩

abbrev nofile : ℕ := 16

abbrev nfile : ℕ := 100

abbrev ndev : ℕ := 10

abbrev rootino : UInt32 := 1

/-- Inodes per block, and bitmap bits per block. -/
abbrev ipb : ℕ := bsize / 64

abbrev bpb : ℕ := bsize * 8

structure Superblock where
  size : UInt32
  ninodes : UInt32
  inodestart : UInt32
  bmapstart : UInt32

abbrev tDir : UInt16 := 1

abbrev tFile : UInt16 := 2

abbrev tDevice : UInt16 := 3

structure Dinode where
  type : UInt16 := 0
  major : UInt16 := 0
  minor : UInt16 := 0
  nlink : UInt16 := 0
  size : UInt32 := 0
  addrs : Fin (ndirect + 1) → UInt32 := fun _ => 0

variable (sb : Superblock)

/-- `IBLOCK(i, sb)` and `BBLOCK(b, sb)`. -/
def iblock (inum : UInt32) : UInt32 := inum / UInt32.ofNat ipb + sb.inodestart

def bblock (b : UInt32) : UInt32 := b / UInt32.ofNat bpb + sb.bmapstart

/-! ### Inodes in a block -/

def halves (low high : UInt16) : UInt32 := UInt32.ofNat (low.toNat + 65536 * high.toNat)

def low (w : UInt32) : UInt16 := UInt16.ofNat (w.toNat % 65536)

def high (w : UInt32) : UInt16 := UInt16.ofNat (w.toNat / 65536)

def word (d : Block) (i : ℕ) : UInt32 := if h : i < bsize / 4 then d ⟨i, h⟩ else 0

/-- `(struct dinode*)bp->data + k` -/
def getDinode (d : Block) (k : ℕ) : Dinode where
  type := low (word d (16 * k))
  major := high (word d (16 * k))
  minor := low (word d (16 * k + 1))
  nlink := high (word d (16 * k + 1))
  size := word d (16 * k + 2)
  addrs := fun j => word d (16 * k + 3 + j)

def Dinode.word (x : Dinode) : ℕ → UInt32
  | 0 => halves x.type x.major
  | 1 => halves x.minor x.nlink
  | 2 => x.size
  | j + 3 => if h : j < ndirect + 1 then x.addrs ⟨j, h⟩ else 0

def putDinode (d : Block) (k : ℕ) (x : Dinode) : Block := fun i =>
  if i.val / 16 = k then x.word (i.val % 16) else d i

/-! ### The free map -/

def getBit (d : Block) (bi : ℕ) : Bool := (word d (bi / 32)).toBitVec.getLsbD (bi % 32)

def setBit (d : Block) (bi : ℕ) : Block :=
  fun i => if i.val = bi / 32 then d i ||| (1 <<< UInt32.ofNat (bi % 32)) else d i

def clearBit (d : Block) (bi : ℕ) : Block := fun i =>
  if i.val = bi / 32 then d i &&& ~~~(1 <<< UInt32.ofNat (bi % 32)) else d i

/-- The inner loop of `balloc` over the bits of blocks `b`, `b + 1`, ... -/
def findFree (d : Block) (b size : ℕ) : Option ℕ :=
  (List.range bpb).find? fun bi => decide (b + bi < size) && !getBit d bi

/-! ### Directory entries -/

structure Dirent where
  inum : UInt16 := 0
  name : List UInt8 := []

abbrev direntSize : ℕ := 16

/-- The name ends at its first NUL or after `DIRSIZ` bytes. -/
def cstring (bytes : List UInt8) : List UInt8 := (bytes.take dirsiz).takeWhile (· ≠ 0)

/-- `namecmp(s, t) == 0` -/
def namecmp (s t : List UInt8) : Bool := cstring s == cstring t

def Dirent.ofBytes (bytes : List UInt8) : Dirent where
  inum := UInt16.ofNat ((bytes.getD 0 0).toNat + 256 * (bytes.getD 1 0).toNat)
  name := (bytes.drop 2).take dirsiz

/-- `strncpy` pads the name with zeros. -/
def Dirent.byte (de : Dirent) (k : ℕ) : UInt8 :=
  match k with
  | 0 => UInt8.ofNat de.inum.toNat
  | 1 => UInt8.ofNat (de.inum.toNat / 256)
  | k + 2 => (cstring de.name).getD k 0

/-! ### Paths -/

def slash : UInt8 := 47

/-- The next path element, cut to `DIRSIZ` bytes, and the path after it. -/
def skipelem (path : List UInt8) : Option (List UInt8 × List UInt8) :=
  match path.dropWhile (· = slash) with
  | [] => none
  | c :: rest =>
    let elem := (c :: rest).takeWhile (· ≠ slash)
    some (elem.take dirsiz, ((c :: rest).dropWhile (· ≠ slash)).dropWhile (· = slash))

end Xv6Labs.Fs
