import Xv6Labs.Pipe.Code

/-!
# What holds of a pipe

The counters are the numbers of bytes taken and stored, wrapped; the ring holds the bytes between them. Each call of
`pipewrite` has stored the first bytes of its buffer, in order.
-/

namespace Xv6Labs.Pipes

open Threads Prog Monitor
open Proc (Slot)

variable {pi : Pipe} {id i n : ℕ} {ch : UInt8} {src : ℕ → Option UInt8} {t : Thread} {faults : Bool}

def Pipe.stored (pi : Pipe) : List UInt8 := pi.written.map Prod.snd

/-- The bytes that one call has stored. -/
def bytesOf (id : ℕ) (written : List (ℕ × UInt8)) : List UInt8 := (written.filter fun e => e.1 = id).map Prod.snd

def Pipe.delivered (pi : Pipe) : List UInt8 := (pi.reads.map Read.bytes).flatten

structure Counts (pi : Pipe) : Prop where
  nread : pi.nread = wrap pi.taken.length
  nwrite : pi.nwrite = wrap pi.written.length
  least : pi.taken.length ≤ pi.written.length
  most : pi.written.length ≤ pi.taken.length + pipeSize

structure Fifo (pi : Pipe) : Prop where
  taken : pi.taken <+: pi.stored
  ring : ∀ i ch, pi.taken.length ≤ i → pi.stored[i]? = some ch → pi.data (cell i) = ch

/-- The call `id` is one of `t` for `n` bytes of `src`, and has stored `i` of them. -/
structure Stored (t : Thread) (src : ℕ → Option UInt8) (n : ℤ) (id i : ℕ) (pi : Pipe) : Prop where
  call : pi.writes[id]? = some ⟨t, src, n⟩
  bytes : (bytesOf id pi.written).map some = (List.range i).map src

structure Sources (pi : Pipe) : Prop where
  known : ∀ e ∈ pi.written, e.1 < pi.writes.length
  part : ∀ id w, pi.writes[id]? = some w → ∃ i, i ≤ w.n.toNat ∧ Stored w.caller w.src w.n id i pi

/-- What readers got, if all copies succeed. -/
structure Delivered (pi : Pipe) : Prop where
  bytes : pi.delivered <+: pi.taken
  zero : ∀ r ∈ pi.reads, 0 < r.n → r.result = 0 → r.empty = true ∧ r.writeopen = false

structure Always (faults : Bool) (pi : Pipe) : Prop where
  counts : Counts pi
  fifo : Fifo pi
  sources : Sources pi
  delivered : faults = false → Delivered pi

/-! ### The counters and the ring -/

theorem cell_wrap : cell (wrap n) = cell n := by
  apply Fin.ext
  simp only [cell, wrap, pipeSize]
  omega

theorem wrap_succ : wrap (wrap n + 1) = wrap (n + 1) := by
  simp only [wrap]
  omega

theorem Counts.full_iff (counts : Counts pi) : pi.full = true ↔ pi.written.length = pi.taken.length + pipeSize := by
  have := counts.least
  have := counts.most
  simp only [Pipe.full, beq_iff_eq, counts.nread, counts.nwrite, wrap, pipeSize] at *
  omega

theorem Counts.empty_iff (counts : Counts pi) : pi.empty = true ↔ pi.written.length = pi.taken.length := by
  have := counts.least
  have := counts.most
  simp only [Pipe.empty, beq_iff_eq, counts.nread, counts.nwrite, wrap, pipeSize] at *
  omega

/-- `nwrite - nread` in `uint`. -/
def Pipe.held (pi : Pipe) : ℕ := wrap (pi.nwrite + 2 ^ 32 - pi.nread)

theorem Counts.held (counts : Counts pi) : pi.held = pi.written.length - pi.taken.length := by
  have := counts.least
  have := counts.most
  simp only [Pipe.held, counts.nread, counts.nwrite, wrap, pipeSize] at *
  omega

theorem Counts.not_full (counts : Counts pi) (h : pi.full = false) :
    pi.written.length < pi.taken.length + pipeSize := by
  have most := counts.most
  have : ¬ pi.written.length = pi.taken.length + pipeSize := by
    rw [← counts.full_iff, h]
    exact Bool.false_ne_true
  omega

theorem Counts.not_empty (counts : Counts pi) (h : pi.empty = false) : pi.taken.length < pi.written.length := by
  have least := counts.least
  have : ¬ pi.written.length = pi.taken.length := by
    rw [← counts.empty_iff, h]
    exact Bool.false_ne_true
  omega

theorem Counts.store (counts : Counts pi) (room : pi.full = false) : Counts (pi.store id ch) where
  nread := counts.nread
  nwrite := by simp only [Pipe.store, List.length_append, List.length_singleton, counts.nwrite, wrap_succ]
  least := by
    simp only [Pipe.store, List.length_append]
    exact Nat.le_add_right_of_le counts.least
  most := by
    have := counts.not_full room
    simp only [Pipe.store, List.length_append, List.length_singleton]
    omega

theorem Counts.take (counts : Counts pi) (some : pi.empty = false) : Counts pi.take where
  nread := by simp only [Pipe.take, List.length_append, List.length_singleton, counts.nread, wrap_succ]
  nwrite := counts.nwrite
  least := by
    have := counts.not_empty some
    simp only [Pipe.take, List.length_append, List.length_singleton]
    omega
  most := by
    have := counts.most
    simp only [Pipe.take, List.length_append, List.length_singleton]
    omega

theorem Pipe.stored_length (pi : Pipe) : pi.stored.length = pi.written.length := List.length_map ..

theorem stored_store : (pi.store id ch).stored = pi.stored ++ [ch] := by simp [Pipe.stored, Pipe.store]

/-- The ring has less than a round of bytes in it, so the new byte overwrites none of them. -/
theorem Fifo.store (fifo : Fifo pi) (counts : Counts pi) (room : pi.full = false) : Fifo (pi.store id ch) where
  taken := by
    rw [stored_store]
    exact fifo.taken.trans (List.prefix_append ..)
  ring i c from_ there := by
    have most := counts.not_full room
    rw [stored_store] at there
    have within : i < pi.stored.length + 1 := by
      have := (List.getElem?_eq_some_iff.mp there).1
      simpa using this
    rw [pi.stored_length] at within
    change pi.taken.length ≤ i at from_
    change Function.update pi.data (cell pi.nwrite) ch (cell i) = c
    rw [counts.nwrite, cell_wrap]
    by_cases last : i = pi.written.length
    · subst last
      rw [Function.update_self]
      rw [← pi.stored_length, List.getElem?_concat_length] at there
      exact Option.some.inj there
    · have ne : cell i ≠ cell pi.written.length := by
        intro same
        have same := congrArg Fin.val same
        simp only [cell, pipeSize] at same most
        omega
      rw [Function.update_of_ne ne]
      rw [List.getElem?_append_left (by rw [pi.stored_length]; omega)] at there
      exact fifo.ring i c from_ there

theorem Fifo.next (fifo : Fifo pi) (counts : Counts pi) (some : pi.empty = false) :
    pi.stored[pi.taken.length]? = .some (pi.data (cell pi.nread)) := by
  have within := counts.not_empty some
  rw [← pi.stored_length] at within
  have there := List.getElem?_eq_getElem within
  rw [there, counts.nread, cell_wrap, fifo.ring _ _ le_rfl there]

theorem Fifo.take (fifo : Fifo pi) (counts : Counts pi) (some : pi.empty = false) : Fifo pi.take where
  taken := by
    obtain ⟨rest, split⟩ := fifo.taken
    have next := fifo.next counts some
    rw [← split, List.getElem?_append_right le_rfl, Nat.sub_self] at next
    obtain ⟨tail, rfl⟩ : ∃ tail, rest = pi.data (cell pi.nread) :: tail := by
      cases rest with
      | nil => cases next
      | cons c tail =>
        cases next
        exact ⟨tail, rfl⟩
    change pi.taken ++ [pi.data (cell pi.nread)] <+: pi.stored
    rw [← split]
    exact ⟨tail, by simp⟩
  ring i c from_ there := by
    refine fifo.ring i c ?_ there
    simp only [Pipe.take, List.length_append] at from_
    omega

/-! ### The calls -/

theorem bytesOf_store : bytesOf n (pi.store id ch).written = bytesOf n pi.written ++ if id = n then [ch] else [] := by
  by_cases same : id = n <;> simp [bytesOf, Pipe.store, same]

theorem Stored.store {k : ℤ} (stored : Stored t src k id i pi) (found : src i = some ch) :
    Stored t src k id (i + 1) (pi.store id ch) where
  call := stored.call
  bytes := by rw [bytesOf_store, if_pos rfl, List.map_append, stored.bytes, List.range_succ, List.map_append, List.map_singleton,
    List.map_singleton, found]

theorem Sources.store {k : ℤ} (sources : Sources pi) (stored : Stored t src k id i pi) (found : src i = some ch)
    (within : i < k.toNat) : Sources (pi.store id ch) where
  known e mem := by
    rcases List.mem_append.mp mem with mem | mem
    · exact sources.known e mem
    · cases List.mem_singleton.mp mem
      exact (List.getElem?_eq_some_iff.mp stored.call).1
  part n w there := by
    by_cases same : id = n
    · subst same
      cases stored.call.symm.trans there
      exact ⟨i + 1, within, stored.store found⟩
    · obtain ⟨m, most, before⟩ := sources.part n w there
      refine ⟨m, most, there, ?_⟩
      rw [bytesOf_store, if_neg same, List.append_nil]
      exact before.bytes

def Pipe.begins (pi : Pipe) (t : Thread) (src : ℕ → Option UInt8) (n : ℤ) : Pipe :=
  { pi with writes := pi.writes ++ [⟨t, src, n⟩] }

theorem Sources.fresh (sources : Sources pi) : bytesOf pi.writes.length pi.written = [] := by
  simp only [bytesOf, List.map_eq_nil_iff, List.filter_eq_nil_iff, decide_eq_true_eq]
  exact fun e mem same => absurd (sources.known e mem) (by omega)

theorem Sources.begins {k : ℤ} (sources : Sources pi) : Stored t src k pi.writes.length 0 (pi.begins t src k) where
  call := List.getElem?_concat_length ..
  bytes := by
    change (bytesOf pi.writes.length pi.written).map some = _
    rw [sources.fresh]
    rfl

theorem Sources.begin {k : ℤ} (sources : Sources pi) : Sources (pi.begins t src k) where
  known e mem := by
    have := sources.known e mem
    simp only [Pipe.begins, List.length_append]
    omega
  part id w there := by
    by_cases old : id < pi.writes.length
    · have before : pi.writes[id]? = some w := by
        rwa [Pipe.begins, List.getElem?_append_left old] at there
      obtain ⟨m, most, stored⟩ := sources.part id w before
      exact ⟨m, most, there, stored.bytes⟩
    · have last : id = pi.writes.length := by
        have := (List.getElem?_eq_some_iff.mp there).1
        simp only [Pipe.begins, List.length_append, List.length_singleton] at this
        omega
      subst last
      have fresh : Stored t src k pi.writes.length 0 (pi.begins t src k) := sources.begins
      cases fresh.call.symm.trans there
      exact ⟨0, Nat.zero_le _, fresh⟩

end Xv6Labs.Pipes
