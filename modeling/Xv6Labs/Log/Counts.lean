import Xv6Labs.Log.Atomic

/-!
# Reference counts after recovery

`install_trans` is written for `commit`, where `log_write` has pinned every listed block. Recovery calls it without
any pins: each block it installs leaves a buffer with `refcnt` -1. After a recovery that had nothing to install, the
counts are right in every later state.
-/

namespace Xv6Labs.Log

open Bio Threads Prog

variable {sb : Superblock} {disk : UInt32 → Block} {s : Kernel} {c : Conf}

/-- `refcnt` counts the references that are there, and `bget` leaves every buffer that a process has, waits for or
drops as it is. -/
structure Counted (sb : Superblock) (s : Kernel) : Prop where
  refs : ∀ i, (s.buf i).refcnt.toNat = refCount s i
  kept : ∀ t blockno b s', exec sb t (.bget blockno) s = some (b, s') →
    ∀ i u, s.lock i = some u ∨ s.busy u = some i →
      (s'.buf i).dev = (s.buf i).dev ∧ (s'.buf i).blockno = (s.buf i).blockno

theorem RefInv.counted (inv : RefInv s) : Counted sb s := by
  refine ⟨fun i => ?_, fun t blockno b s' found i u has => ?_⟩
  · rw [inv.refs, UInt32.toNat_ofNat_of_lt' (refCount_lt s i)]
  · have used : (s.buf i).refcnt ≠ 0 := by
      apply inv.used
      rcases has with held | waits
      · exact .inl ⟨u, held⟩
      · exact .inr (.inl ⟨u, waits⟩)
    rcases exec_bget inv.filed sb t blockno with ⟨j, -, -, hit⟩ | ⟨-, j, cache, unused, bufs, -, recycled⟩ |
      ⟨-, -, full⟩
    · rw [hit] at found
      cases found
      exact ⟨(incRef_same s.cache b i).dev, (incRef_same s.cache b i).blockno⟩
    · rw [recycled] at found
      cases found
      have other : i ≠ b := by
        rintro rfl
        exact used unused
      simp only [Kernel.buf]
      rw [bufs, Cache.assign_other other]
      exact ⟨rfl, rfl⟩
    · rw [full] at found
      cases found

/-- Recovery of a well-formed log returns; the counts are right afterwards exactly if the log was empty. -/
theorem recover_counts (small : headN (disk sb.logstart) < logSize) (fits : headN (disk sb.logstart) < sb.nlog.toNat)
    (distinct : ∀ i < headN (disk sb.logstart), ∀ j < headN (disk sb.logstart),
      headBlock (disk sb.logstart) i = headBlock (disk sb.logstart) j → i = j)
    (homes : ∀ j < headN (disk sb.logstart), Home sb (headBlock (disk sb.logstart) j)) :
    ∃ s, (recover_from_log sb).run (exec sb 0) (boot disk) = some ((), s) ∧
      (((∀ i, (s.buf i).refcnt = 0) ∧
        ∀ c, Relation.ReflTransGen (Running sb) ⟨s, fun _ => .ret ()⟩ c → Counted sb c.shared) ↔
      headN (disk sb.logstart) = 0) := by
  have log : ∀ k ≤ headN (disk sb.logstart), ∀ j < headN (disk sb.logstart),
      sb.logstart + UInt32.ofNat k ≠ headBlock (disk sb.logstart) j := by
    intro k most j less
    exact Ne.symm (homes j less k (by omega))
  obtain ⟨s, ran, strays⟩ := recover_run sb 0 disk (Nat.lt_of_lt_of_le small (by decide)) distinct log
  refine ⟨s, ran, ?_⟩
  constructor
  · rintro ⟨zero, -⟩
    exact strays.none_iff.mp zero
  · intro empty
    refine ⟨strays.none_iff.mpr empty, fun c run => ?_⟩
    exact (running_good (by omega) empty (booted_of ran) run).refs.counted

/-- A log with one block of the file system in it. -/
def listing (n blockno : UInt32) : UInt32 → Block := fun m j =>
  if m = 2 then if j.val = 0 then n else if j.val = 1 then blockno else 0 else 0

/-- An empty log, and one with block 50. -/
theorem recover_counts_listing :
    (∃ s, (recover_from_log mkfs).run (exec mkfs 0) (boot (listing 0 50)) = some ((), s) ∧ (∀ i, (s.buf i).refcnt = 0) ∧
      ∀ c, Relation.ReflTransGen (Running mkfs) ⟨s, fun _ => .ret ()⟩ c → Counted mkfs c.shared) ∧
    ∃ s, (recover_from_log mkfs).run (exec mkfs 0) (boot (listing 1 50)) = some ((), s) ∧
      ¬ ((∀ i, (s.buf i).refcnt = 0) ∧
        ∀ c, Relation.ReflTransGen (Running mkfs) ⟨s, fun _ => .ret ()⟩ c → Counted mkfs c.shared) := by
  constructor
  · have none : headN (listing 0 50 mkfs.logstart) = 0 := by decide
    obtain ⟨s, ran, counts⟩ := @recover_counts mkfs (listing 0 50) (by decide) (by decide)
      (fun i less => absurd less (by rw [none]; exact Nat.not_lt_zero i))
      fun i less => absurd less (by rw [none]; exact Nat.not_lt_zero i)
    exact ⟨s, ran, counts.mpr none⟩
  · have one : headN (listing 1 50 mkfs.logstart) = 1 := by decide
    have home : Home mkfs (headBlock (listing 1 50 mkfs.logstart) 0) := by unfold Home; decide +kernel
    obtain ⟨s, ran, counts⟩ := @recover_counts mkfs (listing 1 50) (by decide) (by decide)
      (fun i less j less' _ => by omega) fun j less => by
        obtain rfl : j = 0 := by omega
        exact home
    exact ⟨s, ran, fun right => absurd (counts.mp right) (by rw [one]; decide)⟩

/-- Recovery of a log with block 50 leaves its buffer with `refcnt` -1. -/
theorem recover_stray :
    headN (listing 1 50 mkfs.logstart) = 1 ∧ Home mkfs (headBlock (listing 1 50 mkfs.logstart) 0) ∧
      ∃ s, (recover_from_log mkfs).run (exec mkfs 0) (boot (listing 1 50)) = some ((), s) ∧
        ∃ i, (s.buf i).blockno = 50 ∧ (s.buf i).refcnt = 4294967295 := by
  refine ⟨by decide, by unfold Home; decide +kernel, after (recover_from_log mkfs) (boot (listing 1 50)), ?_, ?_⟩
  · exact after_ran (by decide +kernel)
  · exact ⟨2, by decide +kernel⟩

end Xv6Labs.Log
