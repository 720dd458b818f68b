import Mathlib

/-!
The constants of `param.h` that the models use: `NPROC`, `NCPU`, `MAXOPBLOCKS` (max # of blocks any
FS op writes), `LOGSIZE` (max data blocks in on-disk log), `NBUF` (size of disk block cache) and `ROOTDEV`
(device number of file system root disk); and `BSIZE` of `fs.h`. A disk block is the list of its 32-bit words.
-/

namespace Xv6Labs

abbrev nproc : ℕ := 64

abbrev ncpu : ℕ := 8

abbrev maxOpBlocks : ℕ := 10

abbrev logSize : ℕ := maxOpBlocks * 3

abbrev nbuf : ℕ := maxOpBlocks * 3

instance nproc_neZero : NeZero nproc := ⟨by decide⟩

instance ncpu_neZero : NeZero ncpu := ⟨by decide⟩

instance nbuf_neZero : NeZero nbuf := ⟨by decide⟩

instance one_neZero : NeZero 1 := ⟨by decide⟩

abbrev rootdev : UInt32 := 1

abbrev bsize : ℕ := 1024

abbrev Block : Type := Fin (bsize / 4) → UInt32

end Xv6Labs
