import Xv6Labs.Log.Counts

/-!
# Pins

A block is pinned from the `log_write` that lists it until `install_trans` has written it home. While nothing
commits, the pins are the listed blocks, and the cache keeps each of them in one valid buffer.
-/

namespace Xv6Labs.Log

open Bio Threads Prog

variable {sb : Superblock} {disk₀ : UInt32 → Block} {t : Tid} {s s' : Kernel} {c c₀ : Conf} {i : Fin nbuf}

def Holds (s : Kernel) (i : Fin nbuf) (blockno : UInt32) : Prop :=
  (s.buf i).dev = rootdev ∧ (s.buf i).blockno = blockno

open Classical in
/-- The list has no duplicates, each listed block is in exactly one buffer, which is valid, and `refcnt` counts the
references and the pin. -/
structure Exact (s : Kernel) : Prop where
  distinct : ∀ j < s.ctl.log.n, ∀ k < s.ctl.log.n, s.ctl.log.block j = s.ctl.log.block k → j = k
  cached : ∀ k < s.ctl.log.n, ∃ i, Holds s i (s.ctl.log.block k) ∧ (s.buf i).valid = true ∧
    ∀ j, Holds s j (s.ctl.log.block k) → j = i
  refs : ∀ i, (s.buf i).refcnt.toNat = holds (s.lock i) + ∑ t, waits i (s.busy t) +
    if (s.buf i).dev = rootdev ∧ s.ctl.log.Listed (s.buf i).blockno then 1 else 0

/-- A listed block that is not installed yet stays in its buffer. -/
structure Kept (sb : Superblock) (s : Kernel) (i : Fin nbuf) : Prop where
  valid : (s.buf i).valid = true
  bget : ∀ t blockno b s', exec sb t (.bget blockno) s = some (b, s') → Same (s.buf i) (s'.buf i)

theorem Holds.unique (distinct : s.cache.Distinct) {j : Fin nbuf} {n : UInt32} (left : Holds s j n)
    (right : Holds s i n) : j = i := by
  apply distinct j i _ (left.1.trans right.1.symm) (left.2.trans right.2.symm)
  rw [show (s.cache.buf (.buf j)).dev = _ from left.1]
  decide

theorem Good.exact (good : Good sb disk₀ s) (calm : ∀ t, ¬(s.ctl.phase t).Committing) : Exact s := by
  have zero := good.refs.pinned calm
  have pinned : ∀ i, Pinned s i ↔ (s.buf i).dev = rootdev ∧ s.ctl.log.Listed (s.buf i).blockno := by
    intro i
    constructor
    · rintro ⟨root, k, -, high, there⟩
      exact ⟨root, k, high, there⟩
    · rintro ⟨root, k, high, there⟩
      exact ⟨root, k, by omega, high, there⟩
  refine ⟨good.refs.control.distinct, fun k less => ?_, fun i => ?_⟩
  · obtain ⟨i, root, there⟩ := good.refs.cached k (by omega) less
    refine ⟨i, ⟨root, there⟩, ?_, fun j other => other.unique good.refs.distinct ⟨root, there⟩⟩
    apply good.pins.valid i
    exact ⟨root, k, by omega, less, there.symm⟩
  · rw [good.refs.refs, UInt32.toNat_ofNat_of_lt' (refCount_lt s i)]
    unfold refCount Log.pins
    by_cases pin : Pinned s i
    · rw [if_pos pin, if_pos ((pinned i).1 pin)]
    · rw [if_neg pin, if_neg (mt (pinned i).2 pin)]

theorem Good.kept (good : Good sb disk₀ s) (pinned : Pinned s i) : Kept sb s i := by
  refine ⟨good.pins.valid i pinned, fun t blockno b s' found => ?_⟩
  have used := good.refs.used (.inr (.inr pinned))
  rcases exec_bget good.refs.filed sb t blockno with ⟨j, -, -, hit⟩ | ⟨-, j, cache, unused, bufs, -, recycled⟩ |
    ⟨-, -, full⟩
  · rw [hit] at found
    cases found
    exact incRef_same s.cache b i
  · rw [recycled] at found
    cases found
    have other : i ≠ b := by
      rintro rfl
      exact used unused
    simp only [Kernel.buf]
    rw [bufs, Cache.assign_other other]
    exact .refl _
  · rw [full] at found
    cases found

/-- The end of a commit. -/
theorem Good.finished (good : Good sb disk₀ s) (h : exec sb t .finish s = some ((), s')) :
    s'.ctl.log.n = 0 ∧ ∀ i, ¬Pinned s' i := by
  have empty : s'.ctl.log.n = 0 := by
    simp only [exec] at h
    cases step : next sb.nlog s.ctl t .finish with
    | none =>
      rw [step] at h
      cases h
    | some ctl =>
      rw [step] at h
      cases h
      unfold next at step
      cases phase : s.ctl.phase t <;> simp only [phase] at step <;> try cases step
      · split at step
        case isTrue none =>
          cases step
          exact none
        case isFalse => cases step
      · exact good.pins.cleared t phase
  refine ⟨empty, ?_⟩
  rintro i ⟨-, k, -, less, -⟩
  omega

/-- Pins in every state after a boot from an empty log. -/
theorem pins_exact (nonempty : 0 < sb.nlog.toNat) (empty : headN (disk₀ sb.logstart) = 0)
    (booted : Booted sb disk₀ c₀) (run : Relation.ReflTransGen (Running sb) c₀ c) :
    ((∀ t, ¬(c.shared.ctl.phase t).Committing) → Exact c.shared) ∧
      (∀ t s', exec sb t .finish c.shared = some ((), s') → s'.ctl.log.n = 0 ∧ ∀ i, ¬Pinned s' i) ∧
      ∀ k, c.shared.unpinned ≤ k → k < c.shared.ctl.log.n →
        ∃ i, Holds c.shared i (c.shared.ctl.log.block k) ∧ Kept sb c.shared i := by
  have good := running_good nonempty empty booted run
  refine ⟨good.exact, fun t s' finish => good.finished finish, fun k low high => ?_⟩
  obtain ⟨i, root, there⟩ := good.refs.cached k low high
  exact ⟨i, ⟨root, there⟩, good.kept ⟨root, k, low, high, there.symm⟩⟩

theorem not_committing {phase : Phase} (before : phase ≠ .commit) (after : phase ≠ .cleared) : ¬phase.Committing := by
  cases phase with
  | commit => exact (before rfl).elim
  | cleared => exact (after rfl).elim
  | _ => exact id

theorem booted_mkfs : Booted mkfs zeros ⟨booted, fun _ => .ret ()⟩ := by
  have ran : (recover_from_log mkfs).run (exec mkfs 0) (boot zeros) = some ((), booted) := after_ran (by decide +kernel)
  exact booted_of ran

theorem pins_exact_logged : ending.ctl.log.n = 1 ∧ ending.ctl.log.block 0 = 50 ∧ Exact ending := by
  have calm : ∀ t, ending.ctl.phase t ≠ .commit ∧ ending.ctl.phase t ≠ .cleared := by decide +kernel
  have one : ending.ctl.log.n = 1 := by decide +kernel
  have block : ending.ctl.log.block 0 = 50 := by decide +kernel
  have running := ending_running
  generalize ending = s at *
  apply And.intro one (And.intro block _)
  apply (pins_exact (by decide) (by decide) booted_mkfs running).1
  intro t
  exact not_committing (calm t).1 (calm t).2

end Xv6Labs.Log
