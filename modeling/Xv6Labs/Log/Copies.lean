import Xv6Labs.Fs.Bytes
import Xv6Labs.Log.Pins

/-!
# The buffer cache and the disk between operations

`fs.c` changes a block in two ways. `bzero`, `balloc`, `bfree`, `ialloc`, `iupdate` and `bmap` store into a buffer
they have locked and call `log_write` on it at once. `writei` copies from user memory page by page; if a page is not
mapped, it releases the buffer without `log_write`, with the pages before it already in the buffer. `Served` offers
each of these at any time inside an operation, on any home block and with any data.
-/

namespace Xv6Labs.Log

open Bio Threads Prog

variable {sb : Superblock} {disk₀ : UInt32 → Block} {t : Tid} {s s' : Kernel} {c c₀ : Conf} {b i : Fin nbuf}
  {pages : Pages} {va : UInt64} {len : ℕ}

def copyin (pages : Pages) (b : Fin nbuf) : ℕ → ℕ → UInt64 → ℕ → Code Bool
  | _, _, _, 0 => return true
  | 0, _, _, _ + 1 => do
    act .diverge
    return false
  | fuel + 1, dst, srcva, len + 1 =>
    let va0 := pgrounddown srcva
    match pages va0 with
    | none => return false
    | some page => do
      let offset := (srcva - va0).toNat
      let n := min (pgsize - offset) (len + 1)
      act (.store b fun d => d.memmove dst (fun k => page (offset + k)) n)
      copyin pages b fuel (dst + n) (va0 + 4096) (len + 1 - n)

/-- The body of `writei`'s loop, after `bread`. -/
def write_chunk (pages : Pages) (b : Fin nbuf) (dst : ℕ) (src : UInt64) (m : ℕ) : Code Unit := do
  let copied ← copyin pages b m dst src m
  if copied then
    log_write b
    brelse b
  else
    brelse b

def modify (b : Fin nbuf) (f : Block → Block) : Code Unit := do
  act (.store b f)
  log_write b

/-- What a process does next, where `fair` says which chunks of user memory are written. -/
inductive Served (sb : Superblock) (fair : Pages → UInt64 → ℕ → Prop) (t : Tid) (s : Kernel) : Code Unit → Prop where
  | bread (blockno : UInt32) : Served sb fair t s (bread blockno >>= fun _ => pure ())
  | brelse (b : Fin nbuf) (held : s.lock b = some t) : Served sb fair t s (brelse b)
  | modify (b : Fin nbuf) (f : Block → Block) (held : s.lock b = some t) (home : Home sb (s.buf b).blockno)
      (inOp : ∃ logged, s.ctl.phase t = .inOp logged) : Served sb fair t s (modify b f)
  | write_chunk (pages : Pages) (b : Fin nbuf) (dst : ℕ) (src : UInt64) (m : ℕ) (held : s.lock b = some t)
      (home : Home sb (s.buf b).blockno) (inOp : ∃ logged, s.ctl.phase t = .inOp logged) (ok : fair pages src m) :
      Served sb fair t s (write_chunk pages b dst src m)
  | begin_op : Served sb fair t s begin_op
  | end_op : Served sb fair t s (end_op sb)

/-- No operation is running, no commit, and the log is empty. -/
structure Quiet (s : Kernel) : Prop where
  outstanding : s.ctl.log.outstanding = 0
  committing : s.ctl.log.committing = false
  empty : s.ctl.log.n = 0

def Agrees (s : Kernel) : Prop :=
  ∀ i, (s.buf i).dev = rootdev → (s.buf i).valid = true → (s.buf i).data = s.disk (s.buf i).blockno

/-! ### Between two calls -/

/-- Inside an operation, with a buffer of a home block that may have changed. -/
structure Editing (sb : Superblock) (t : Tid) (b : Fin nbuf) (s : Kernel) : Prop extends Idle t s where
  held : s.lock b = some t
  home : Home sb (s.buf b).blockno
  inOp : ∃ logged, s.ctl.phase t = .inOp logged
  others : ∀ i, i ≠ b → s.lock i = some t → s.dirty i = false

theorem Editing.frame (editing : Editing sb t b s) (frame : Frame t s s') : Editing sb t b s' := by
  obtain ⟨held, -, same⟩ := frame.held b editing.held
  refine ⟨editing.toIdle.frame frame, held, ?_, ?_, fun i other mine => ?_⟩
  · rw [same.blockno]
    exact editing.home
  · rw [frame.phase]
    exact editing.inOp
  · rw [(frame.held i (frame.mine i mine)).2.1]
    exact editing.others i other (frame.mine i mine)

theorem Good.agrees (good : Good sb disk₀ s) (quiet : Quiet s) : Agrees s := by
  intro i root valid
  have control := good.refs.control
  have unpinned : ¬Pinned s i := by
    rintro ⟨-, k, -, less, -⟩
    rw [quiet.empty] at less
    exact Nat.not_lt_zero k less
  apply good.clean.agree i root valid _ unpinned
  cases dirty : s.dirty i with
  | false => rfl
  | true =>
    obtain ⟨t, -, writing⟩ := good.clean.dirty i dirty
    have none := control.running_le t
    rw [quiet.outstanding] at none
    have calm := control.quiet quiet.committing t
    cases phase : s.ctl.phase t with
    | inOp | checked =>
      rw [phase] at none
      exact (Nat.not_succ_le_zero 0 none).elim
    | commit | cleared =>
      rw [phase] at calm
      exact (calm trivial).elim
    | out | panicked =>
      rw [phase] at writing
      exact writing.elim

/-! ### A chunk that is cut

A file has block 50, and its inode is in block 32. A process writes 1024 bytes from address 3584 into the block: half
of them are in the page at 0, half in the next one. -/

def copied (pages : Pages) : Kernel := after (write_chunk pages 1 0 3584 1024) reading

def updating (pages : Pages) : Kernel := after (bread 32 >>= fun _ => pure ()) (copied pages)

def updated (pages : Pages) : Kernel := after (modify 2 id) (updating pages)

def written (pages : Pages) : Kernel := after (end_op mkfs) (after (brelse 2) (updated pages))

/-- The calls return. -/
structure Returns (pages : Pages) : Prop where
  chunk : ((write_chunk pages 1 0 3584 1024).run (exec mkfs 0) reading).isSome = true
  reads : ((bread 32 >>= fun _ => pure ()).run (exec mkfs 0) (copied pages)).isSome = true
  held : (updating pages).lock 2 = some 0
  block : ((updating pages).buf 2).blockno = 32
  inOp : (updating pages).ctl.phase 0 = .inOp ∅ ∨ (updating pages).ctl.phase 0 = .inOp {50}
  logs : ((modify 2 id).run (exec mkfs 0) (updating pages)).isSome = true
  kept : (updated pages).lock 2 = some 0
  drops : ((brelse 2).run (exec mkfs 0) (updated pages)).isSome = true
  ends : ((end_op mkfs).run (exec mkfs 0) (after (brelse 2) (updated pages))).isSome = true

end Xv6Labs.Log
