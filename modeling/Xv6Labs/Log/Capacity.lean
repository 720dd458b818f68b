import Xv6Labs.Log.Pins

/-!
# Room in the buffer cache

`bget` panics if it finds no buffer without references. The blocks of the open transaction and the processes that
read share the `NBUF` buffers, and nothing but `NPROC` bounds the number of readers.
-/

namespace Xv6Labs.Log

open Bio Threads Prog

variable {sb : Superblock} {disk₀ : UInt32 → Block} {t : Tid} {s s' : Kernel} {c c₀ : Conf} {i : Fin nbuf}
  {blockno : UInt32}

/-- `panic("bget: no buffers")` -/
def NoBuffers (s : Kernel) (blockno : UInt32) : Prop := Single.bget s.cache rootdev blockno = some none

/-- The buffers that a process has locked, or waits for, or is about to drop. -/
def uses (s : Kernel) (t : Tid) : ℕ :=
  ∑ i, (if s.lock i = some t then 1 else 0) + ∑ i, waits i (s.busy t)

/-- An operation has at most two buffers at a time, a process outside of any operation at most one. -/
def Frugal (s : Kernel) : Prop := ∀ t, uses s t ≤ if s.ctl.phase t = .out then 1 else 2

def Referenced (s : Kernel) (i : Fin nbuf) : Prop :=
  (∃ t, s.lock i = some t) ∨ (∃ t, s.busy t = some i) ∨ Pinned s i

theorem RefInv.referenced (inv : RefInv s) : (s.buf i).refcnt ≠ 0 ↔ Referenced s i := by
  constructor
  · intro used
    by_contra none
    apply used
    rw [inv.refcnt_zero]
    unfold Referenced at none
    push Not at none
    obtain ⟨unlocked, waiting, unpinned⟩ := none
    have free : s.lock i = .none := Option.eq_none_iff_forall_ne_some.mpr unlocked
    have zero : ∑ t, waits i (s.busy t) = 0 := by
      apply Finset.sum_eq_zero
      intro t _
      exact if_neg (waiting t)
    have unlisted : pins s i = 0 := if_neg unpinned
    unfold refCount
    rw [free, zero, unlisted]
    rfl
  · exact inv.used

theorem RefInv.noBuffers (inv : RefInv s) :
    NoBuffers s blockno ↔ ¬s.cache.Cached rootdev blockno ∧ ∀ i, Referenced s i := by
  obtain ⟨l, filed⟩ := inv.filed
  have found := Single.sound s.cache l rootdev blockno filed
  change Found _ _ _ _ (Single.bget s.cache rootdev blockno) at found
  simp only [← inv.referenced]
  unfold NoBuffers
  generalize Single.bget s.cache rootdev blockno = result at found
  cases found with
  | hit i devs blocks =>
    apply iff_of_false
    · intro absurd
      cases absurd
    · intro absent
      exact absent.1 ⟨i, devs, blocks⟩
  | recycled c i miss unused bufs filed =>
    apply iff_of_false
    · intro absurd
      cases absurd
    · intro used
      exact used.2 i unused
  | full miss busy => exact iff_of_true rfl ⟨miss, busy⟩

/-! ### Counting -/

theorem holds_sum (owner : Option Tid) : holds owner = ∑ t, if owner = some t then 1 else 0 := by
  cases owner with
  | none => simp [holds]
  | some t => simp [holds]

theorem uses_sum (s : Kernel) :
    ∑ t, uses s t = ∑ i, (holds (s.lock i) + ∑ t, waits i (s.busy t)) := by
  have locks : ∑ t, ∑ i, (if s.lock i = some t then 1 else 0) = ∑ i, holds (s.lock i) := by
    rw [Finset.sum_comm]
    simp only [holds_sum]
  have waiting : ∑ t, ∑ i, waits i (s.busy t) = ∑ i, ∑ t, waits i (s.busy t) := Finset.sum_comm
  unfold uses
  rw [Finset.sum_add_distrib, Finset.sum_add_distrib, locks, waiting]

/-- The log pins at most as many buffers as it lists blocks. -/
theorem RefInv.pins_le (inv : RefInv s) : ∑ i, pins s i ≤ s.ctl.log.n - s.unpinned := by
  classical
  have card : ∑ i, pins s i = (Finset.univ.filter fun i => Pinned s i).card := by
    rw [Finset.card_filter]
    rfl
  have slot : ∀ i, Pinned s i → ∃ k ∈ Finset.Ico s.unpinned s.ctl.log.n, s.ctl.log.block k = (s.buf i).blockno := by
    rintro i ⟨-, k, low, high, there⟩
    exact ⟨k, Finset.mem_Ico.mpr ⟨low, high⟩, there⟩
  choose! f inside there using slot
  rw [card, ← Nat.card_Ico]
  apply Finset.card_le_card_of_injOn f
  · intro i pinned
    exact inside i (by simpa using pinned)
  · intro i left j right same
    have pinned : Pinned s i := by simpa using left
    have other : Pinned s j := by simpa using right
    apply inv.distinct i j _ (pinned.1.trans other.1.symm)
    · exact (there i pinned).symm.trans ((congrArg s.ctl.log.block same).trans (there j other))
    · rw [show (s.cache.buf (.buf i)).dev = _ from pinned.1]
      decide

theorem RefInv.crowded (inv : RefInv s) (all : ∀ i, Referenced s i) :
    nbuf ≤ ∑ t, uses s t + (s.ctl.log.n - s.unpinned) := by
  have each : ∀ i, 1 ≤ refCount s i := by
    intro i
    have used := inv.referenced.mpr (all i)
    rw [Ne, inv.refcnt_zero] at used
    omega
  calc nbuf = ∑ _i : Fin nbuf, 1 := by simp
    _ ≤ ∑ i, refCount s i := Finset.sum_le_sum fun i _ => each i
    _ = ∑ t, uses s t + ∑ i, pins s i := by rw [uses_sum, ← Finset.sum_add_distrib]; rfl
    _ ≤ _ := Nat.add_le_add_left inv.pins_le _

/-! ### Readers -/

theorem uses_congr (lock : ∀ i, s'.lock i = some t ↔ s.lock i = some t) (busy : s'.busy t = s.busy t) :
    uses s' t = uses s t := by
  unfold uses
  simp only [lock, busy]

theorem uses_busy (unlocked : ∀ i, s.lock i ≠ some t) (busy : s.busy t = some i) : uses s t = 1 := by
  unfold uses
  simp [unlocked, busy, waits]

theorem uses_lock (locked : ∀ j, s.lock j = some t ↔ j = i) (busy : s.busy t = none) : uses s t = 1 := by
  unfold uses
  simp [locked, busy, waits]

theorem bget_uses {got : Kernel} (unlocked : ∀ i, s.lock i ≠ some t) (few : ∀ u, uses s u ≤ 1)
    (step : exec sb t (.bget blockno) s = some (i, got)) :
    got.lock = s.lock ∧ got.busy t = some i ∧ ∀ u, uses got u ≤ 1 := by
  have bget : got.lock = s.lock ∧ got.busy = Function.update s.busy t (some i) := by
    simp only [exec] at step
    split at step
    · cases step
      exact ⟨rfl, rfl⟩
    · cases step
  have waiting : got.busy t = some i := by rw [bget.2, Function.update_self]
  refine ⟨bget.1, waiting, fun u => ?_⟩
  by_cases same : u = t
  · rw [same, uses_busy (by rwa [bget.1]) waiting]
  · rw [uses_congr (s := s) (by simp [bget.1]) (by rw [bget.2, Function.update_of_ne same])]
    exact few u

theorem acquiresleep_uses (unlocked : ∀ i, s.lock i ≠ some t) (few : ∀ u, uses s u ≤ 1)
    (step : exec sb t (.acquiresleep i) s = some ((), s')) : ∀ u, uses s' u ≤ 1 := by
  simp only [exec] at step
  split at step
  case isFalse => cases step
  case isTrue free =>
    cases step
    intro u
    by_cases same : u = t
    · subst same
      rw [uses_lock (i := i)]
      · intro j
        by_cases here : j = i
        · simp [here]
        · simp [here, unlocked]
      · exact Function.update_self _ _ _
    · rw [uses_congr (s := s) (t := u)]
      · exact few u
      · intro j
        by_cases here : j = i
        · simp [here, free, Ne.symm same]
        · simp [Function.update_of_ne here]
      · exact Function.update_of_ne same _ _

/-- A process that has no buffer has at most one while it reads a block. -/
theorem bread_uses (unlocked : ∀ i, s.lock i ≠ some t) (few : ∀ u, uses s u ≤ 1) {x : Kernel}
    (visits : Visits (exec sb t) (bread blockno >>= fun _ => pure ()) s x) : ∀ u, uses x u ≤ 1 := by
  cases visits with
  | here => exact few
  | later step rest =>
    obtain ⟨lock, -, few'⟩ := bget_uses unlocked few step
    cases rest with
    | here => exact few'
    | later step rest =>
      have few'' := acquiresleep_uses (by rwa [lock]) few' step
      cases rest with
      | here => exact few''
      | later step rest =>
        simp only [exec] at step
        cases step
        cases rest with
        | here => exact few''

def Frugally (sb : Superblock) (c c' : Conf) : Prop := Running sb c c' ∧ Frugal c'.shared

/-- The processes never see `bget` panic, if each has few buffers. -/
def NeverFull (sb : Superblock) : Prop :=
  ∀ disk₀ c₀ c, headN (disk₀ sb.logstart) = 0 → Booted sb disk₀ c₀ → Relation.ReflTransGen (Frugally sb) c₀ c →
    ∀ t blockno k, c.code t = .act (.bget blockno) k → ¬NoBuffers c.shared blockno

theorem frugal_of (few : ∀ u, uses s u ≤ 1) : Frugal s := by
  intro t
  have one := few t
  split <;> omega

theorem bread_frugally (unlocked : ∀ i, s.lock i ≠ some t) (few : ∀ u, uses s u ≤ 1)
    (ran : (bread blockno >>= fun _ => pure ()).run (exec sb t) s = some ((), s')) :
    Relation.ReflTransGen (Frugally sb) ⟨s, fun _ => .ret ()⟩ ⟨s', fun _ => .ret ()⟩ := by
  have call : Frugally sb ⟨s, fun _ => .ret ()⟩ _ := ⟨.call t _ rfl (.bread blockno), frugal_of few⟩
  have rest := Step.along (Offered sb) (fun _ => .ret ()) (P := Frugal) ran
    fun x visits => frugal_of (bread_uses unlocked few visits)
  rw [Function.update_eq_self] at rest
  exact .head call rest

/-! ### A cache full of readers

Process `k` reads block `50 + k` and keeps the buffer. -/

def reader (k : ℕ) : Code Unit := bread (50 + UInt32.ofNat k) >>= fun _ => pure ()

structure Reading (k : ℕ) (s : Kernel) : Prop where
  empty : s.ctl.log.n = 0
  busy : ∀ t, s.busy t = none
  readers : ∀ t, uses s t = if t.val < k then 1 else 0
  fresh : ∀ i, (s.buf i).dev = rootdev → (s.buf i).blockno.toNat < 50 + k

theorem reading_sum {k : ℕ} (reading : Reading k s) (small : k ≤ nproc) : ∑ t, uses s t = k := by
  simp only [reading.readers]
  rw [Finset.sum_boole, Fin.card_filter_val_lt]
  simpa using small

theorem reading_unlocked {k : ℕ} (reading : Reading k s) (later : k ≤ t.val) : ∀ i, s.lock i ≠ some t := by
  intro i locked
  have zero := reading.readers t
  rw [if_neg (by omega)] at zero
  unfold uses at zero
  have single := Finset.single_le_sum (f := fun i => if s.lock i = some t then 1 else 0)
    (fun _ _ => Nat.zero_le _) (Finset.mem_univ i)
  simp only [locked, if_pos] at single
  omega

theorem reader_block {k : ℕ} (small : k ≤ nbuf) : (50 + UInt32.ofNat k).toNat = 50 + k := by
  have bound : k < 2 ^ 32 := lt_of_le_of_lt small (by decide)
  have sum : 50 + k < 2 ^ 32 := lt_of_le_of_lt (Nat.add_le_add_left small 50) (by decide)
  rw [UInt32.toNat_add, UInt32.toNat_ofNat_of_lt' bound]
  exact Nat.mod_eq_of_lt sum

theorem Reading.absent {k : ℕ} (reading : Reading k s) (small : k ≤ nbuf) :
    ¬s.cache.Cached rootdev (50 + UInt32.ofNat k) := by
  rintro ⟨i, root, block⟩
  have older := reading.fresh i root
  rw [show (s.buf i).blockno = _ from block, reader_block small] at older
  omega

theorem Reading.next (sb : Superblock) {k : ℕ} (reading : Reading k s) (inv : RefInv s) (more : k < nbuf)
    (self : t.val = k) :
    ∃ s', (reader k).run (exec sb t) s = some ((), s') ∧ Reading (k + 1) s' := by
  have unlocked := reading_unlocked (t := t) reading (by omega)
  have absent := reading.absent more.le
  have room : ∃ i, (s.buf i).refcnt = 0 := by
    by_contra none
    push Not at none
    have many := inv.crowded fun i => inv.referenced.mp (none i)
    rw [reading_sum reading (more.le.trans (by decide)), reading.empty] at many
    omega
  have awake : ∀ i, (s.buf i).dev = rootdev ∧ (s.buf i).blockno = 50 + UInt32.ofNat k ∨ (s.buf i).refcnt = 0 →
      s.lock i = none := by
    rintro i (⟨root, block⟩ | unused)
    · exact (absent ⟨i, root, block⟩).elim
    · apply Option.eq_none_iff_forall_ne_some.mpr
      intro u locked
      exact inv.used (.inl ⟨u, locked⟩) unused
  obtain ⟨i, c, ran, free, reads⟩ := bread_run sb t _ inv.filed inv.distinct (.inr room) awake
  refine ⟨_, run_bind_of ran, reading.empty, fun u => ?_, fun u => ?_, fun j root => ?_⟩
  · by_cases same : u = t
    · rw [same]
      exact Function.update_self _ _ _
    · exact (Function.update_of_ne same _ _).trans (reading.busy u)
  · by_cases same : u = t
    · rw [same, uses_lock (i := i), if_pos (by omega)]
      · intro j
        by_cases here : j = i
        · simp [here]
        · simp [here, unlocked]
      · exact Function.update_self _ _ _
    · have other : u.val ≠ k := by
        intro equal
        exact same (Fin.ext (equal.trans self.symm))
      rw [uses_congr (s := s) (t := u), reading.readers u]
      · apply if_congr _ rfl rfl
        omega
      · intro j
        by_cases here : j = i
        · simp [here, free, Ne.symm same]
        · simp [Function.update_of_ne here]
      · exact Function.update_of_ne same _ _
  · by_cases here : j = i
    · subst here
      have block : (c.buf (.buf j)).blockno.toNat = 50 + k := by rw [reads.block, reader_block more.le]
      change (c.buf (.buf j)).blockno.toNat < _
      omega
    · have other := reads.others j here
      simp only [Kernel.buf, other] at root ⊢
      have older := reading.fresh j root
      change (s.buf j).blockno.toNat < _
      omega

theorem Frugally.running (run : Relation.ReflTransGen (Frugally sb) c₀ c) :
    Relation.ReflTransGen (Running sb) c₀ c := by
  apply Relation.ReflTransGen.mono _ _ _ run
  intro _ _ step
  exact step.1

theorem Reading.few {k : ℕ} (reading : Reading k s) : ∀ u, uses s u ≤ 1 := by
  intro u
  rw [reading.readers u]
  split <;> omega

theorem readers_run (nonempty : 0 < sb.nlog.toNat) (empty : headN (disk₀ sb.logstart) = 0)
    (booted : Booted sb disk₀ ⟨s, fun _ => .ret ()⟩) (idle : Reading 0 s) {k : ℕ} (small : k ≤ nbuf) :
    ∃ s', Relation.ReflTransGen (Frugally sb) ⟨s, fun _ => .ret ()⟩ ⟨s', fun _ => .ret ()⟩ ∧ Reading k s' := by
  induction k with
  | zero => exact ⟨s, .refl, idle⟩
  | succ k ih =>
    obtain ⟨x, run, reading⟩ := ih (by omega)
    have inv := (running_good nonempty empty booted (Frugally.running run)).refs
    have bound : k < nproc := lt_of_lt_of_le small (by decide)
    obtain ⟨s', ran, later⟩ := reading.next sb (t := ⟨k, bound⟩) inv small rfl
    have unlocked := reading_unlocked (t := ⟨k, bound⟩) reading (Nat.le_refl k)
    exact ⟨s', run.trans (bread_frugally unlocked reading.few ran), later⟩

theorem Reading.full (reading : Reading nbuf s) (inv : RefInv s) : NoBuffers s (50 + UInt32.ofNat nbuf) := by
  rw [inv.noBuffers]
  refine ⟨reading.absent (Nat.le_refl _), fun i => .inl ?_⟩
  have total : ∑ i, holds (s.lock i) = ∑ _i : Fin nbuf, 1 := by
    have sum := uses_sum s
    rw [reading_sum reading (by decide)] at sum
    simpa [reading.busy, waits] using sum.symm
  have most : ∀ i ∈ Finset.univ, holds (s.lock i) ≤ 1 := by
    intro i _
    unfold holds
    split <;> omega
  have one := (Finset.sum_eq_sum_iff_of_le most).mp total i (Finset.mem_univ i)
  cases owner : s.lock i with
  | none =>
    rw [owner] at one
    cases one
  | some t => exact ⟨t, rfl⟩

theorem reading_booted : Reading 0 booted := by
  have empty : booted.ctl.log.n = 0 := by decide +kernel
  have busy : ∀ t, booted.busy t = none := by decide +kernel
  have readers : ∀ t, uses booted t = 0 := by decide +kernel
  have fresh : ∀ i, (booted.buf i).blockno.toNat < 50 := by decide +kernel
  generalize booted = s at *
  exact ⟨empty, busy, fun t => readers t, fun i _ => fresh i⟩

theorem readers_full : ¬NeverFull mkfs := by
  intro never
  have boots := booted_mkfs
  have idle := reading_booted
  generalize booted = s at *
  obtain ⟨s', run, reading⟩ := readers_run (by decide) (by decide) boots idle (Nat.le_refl nbuf)
  have inv := (running_good (by decide) (by decide) boots (Frugally.running run)).refs
  have call : Frugally mkfs ⟨s', fun _ => .ret ()⟩ _ :=
    ⟨.call 30 (reader nbuf) rfl (.bread _), frugal_of reading.few⟩
  exact never zeros _ _ (by decide) boots (run.tail call) 30 _ _ rfl (reading.full inv)

/-- When `bget` panics. -/
theorem no_buffers_iff (nonempty : 0 < sb.nlog.toNat) (empty : headN (disk₀ sb.logstart) = 0)
    (booted : Booted sb disk₀ c₀) (run : Relation.ReflTransGen (Running sb) c₀ c) (blockno : UInt32) :
    (NoBuffers c.shared blockno ↔ ¬c.shared.cache.Cached rootdev blockno ∧ ∀ i, Referenced c.shared i) ∧
      (∑ t, uses c.shared t + (c.shared.ctl.log.n - c.shared.unpinned) < nbuf → ¬NoBuffers c.shared blockno) := by
  have refs := (running_good nonempty empty booted run).refs
  refine ⟨refs.noBuffers, fun room full => ?_⟩
  have many := refs.crowded (refs.noBuffers.mp full).2
  omega

/-- Before the first call, and when thirty threads have read a block each. -/
theorem no_buffers_iff_readers : ¬NoBuffers booted 80 ∧ ∃ s : Kernel,
    Relation.ReflTransGen (Running mkfs) ⟨booted, fun _ => .ret ()⟩ ⟨s, fun _ => .ret ()⟩ ∧ NoBuffers s 80 ∧
      ∀ i, Referenced s i := by
  have boots := booted_mkfs
  have idle := reading_booted
  generalize booted = s at *
  have zero : ∑ t, uses s t + (s.ctl.log.n - s.unpinned) = 0 := by
    rw [reading_sum idle (Nat.zero_le _), idle.empty, Nat.zero_sub]
  refine ⟨(no_buffers_iff (by decide) (by decide) boots .refl 80).2 (by rw [zero]; decide), ?_⟩
  obtain ⟨s', run, reading⟩ := readers_run (by decide) (by decide) boots idle (Nat.le_refl nbuf)
  have reads := Frugally.running run
  have full : NoBuffers s' 80 := reading.full (running_good (by decide) (by decide) boots reads).refs
  exact ⟨s', reads, full, ((no_buffers_iff (by decide) (by decide) boots reads 80).1.mp full).2⟩

end Xv6Labs.Log
