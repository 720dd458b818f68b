import Xv6Labs.Bio.Cache

/-!
# Buffer cache calls, one at a time

The functions of `bio.c` for a single caller. The two caches differ in `bget`'s search and in the list a
released buffer goes to; `Variant` holds these two, and the rest is the same code. In the result of a
search, `none` stands for a loop that does not end and `some none` for `panic("bget: no buffers")`.

A call ends in a `Fault` if it panics or never returns. `acquiresleep` on a lock that is taken never
returns here, since the only caller holds it.
-/

namespace Xv6Labs.Bio

inductive Fault where
  | noBuffers
  | notHeld
  | hangs
  deriving DecidableEq

structure Variant (H : ℕ) (D : Type) where
  hash : UInt32 → Fin H
  search : Cache H D → UInt32 → UInt32 → Option (Option (Cache H D × Node H))

structure Sys (H : ℕ) (D : Type) where
  cache : Cache H D
  locked : Node H → Bool
  disk : UInt32 → D

variable {H : ℕ} {D : Type}

abbrev CallM (H : ℕ) (D : Type) := StateT (Sys H D) (Except Fault)

def bread (v : Variant H D) (dev blockno : UInt32) : CallM H D (Node H) := fun s =>
  match v.search s.cache dev blockno with
  | none => throw .hangs
  | some none => throw .noBuffers
  | some (some (c, b)) =>
    if s.locked b then throw .hangs
    else pure (b, { s with cache := c.fill b s.disk, locked := Function.update s.locked b true })

def bwrite (b : Node H) : CallM H D Unit := fun s =>
  if s.locked b then
    pure ((), { s with disk := Function.update s.disk (s.cache.buf b).blockno (s.cache.buf b).data })
  else throw .notHeld

def brelse (v : Variant H D) (b : Node H) : CallM H D Unit := fun s =>
  if s.locked b then
    pure ((), { s with
      cache := s.cache.drop (v.hash (s.cache.buf b).blockno) b, locked := Function.update s.locked b false })
  else throw .notHeld

def bpin (b : Node H) : CallM H D Unit := fun s => pure ((), { s with cache := s.cache.incRef b })

def bunpin (b : Node H) : CallM H D Unit := fun s => pure ((), { s with cache := s.cache.decRef b })

/-- A write through `b->data`. -/
def setData (b : Node H) (f : D → D) : CallM H D Unit := fun s =>
  pure ((), { s with cache := s.cache.setBuf b { s.cache.buf b with data := f (s.cache.buf b).data } })

/-! ### Results of calls -/

section
variable {v : Variant H D} {s : Sys H D} {dev blockno : UInt32} {c : Cache H D} {b : Node H}

theorem bread_full (search : v.search s.cache dev blockno = some none) :
    bread v dev blockno s = .error .noBuffers := by
  unfold bread
  rw [search]
  rfl

theorem bread_found (search : v.search s.cache dev blockno = some (some (c, b))) (free : s.locked b = false) :
    bread v dev blockno s =
      .ok (b, { s with cache := c.fill b s.disk, locked := Function.update s.locked b true }) := by
  unfold bread
  rw [search]
  simp only [free]
  rfl

theorem bwrite_held (held : s.locked b = true) : bwrite b s =
    .ok ((), { s with disk := Function.update s.disk (s.cache.buf b).blockno (s.cache.buf b).data }) := by
  unfold bwrite
  rw [if_pos held]
  rfl

theorem bwrite_unheld (free : s.locked b = false) : bwrite b s = .error .notHeld := by
  unfold bwrite
  simp only [free]
  rfl

theorem brelse_unheld (free : s.locked b = false) : brelse v b s = .error .notHeld := by
  unfold brelse
  simp only [free]
  rfl

theorem brelse_held (held : s.locked b = true) : brelse v b s = .ok ((), { s with
    cache := s.cache.drop (v.hash (s.cache.buf b).blockno) b, locked := Function.update s.locked b false }) := by
  unfold brelse
  rw [if_pos held]
  rfl

end

end Xv6Labs.Bio
