import Mathlib
import Xv6Labs.Bio.HashedRun

/-!
# Lock order in the Lab 3 buffer cache

A `bget` that steals holds its own bucket's lock while it waits for the others in index order. Two of
them can wait for each other: a `bget` on bucket 0 goes on to bucket 1 while a `bget` on bucket 1
starts again at bucket 0. A cycle of waiting threads always has a step down in the bucket numbers,
so there is none in a run in which no stealing `bget` spins on the lock of a lower bucket whose holder
is spinning as well.
-/

namespace Xv6Labs.Bio.Hashed

variable {D : Type} {s s' : State D} {t u : Tid} {T : Set Tid}

/-- The lock that the next `acquire` of a thread is for. -/
def Pc.waits : Pc → Option (Fin nbuckets)
  | .acquire _ blockno => some (bucketOf blockno)
  | .stealAcquire _ _ i => some i
  | .relseAcquire _ bucket | .pinAcquire _ _ bucket => some bucket
  | _ => none

def Pc.Holds (h : Fin nbuckets) : Pc → Prop
  | .search _ blockno | .stealAcquire _ blockno _ => h = bucketOf blockno
  | .stealSearch _ blockno i | .stealRelease _ blockno i => h = bucketOf blockno ∨ h = i
  | .stolenRelease bucket i _ => h = bucket ∨ h = i
  | .release bucket _ | .relseUpdate _ bucket | .pinUpdate _ _ bucket | .unlock bucket => h = bucket
  | .noBuffers => True
  | _ => False

/-- Each thread of `T` holds a bucket lock and spins in `acquire` on a bucket lock that another thread
of `T` holds. -/
structure Deadlocked (s : State D) (T : Set Tid) : Prop where
  nonempty : T.Nonempty
  holds : ∀ t ∈ T, ∃ h, s.lock h = some t
  spins : ∀ t ∈ T, ∃ h, (s.pc t).waits = some h ∧ ∃ u ∈ T, u ≠ t ∧ s.lock h = some u

/-- No `bget` spins in its steal loop on the lock of a bucket below its own whose holder spins in a
steal loop too. -/
def Ordered (s : State D) : Prop :=
  ∀ t dev blockno i u dev' blockno' j, s.pc t = .stealAcquire dev blockno i → s.lock i = some u →
    s.pc u = .stealAcquire dev' blockno' j → s.lock j ≠ none → bucketOf blockno ≤ i

def Held (s : State D) : Prop := ∀ h t, s.lock h = some t → (s.pc t).Holds h

theorem Held.next (held : Held s) (others : ∀ t, t ≠ u → s'.pc t = s.pc t)
    (locks : ∀ h t, t ≠ u → s'.lock h = some t → s.lock h = some t)
    (own : ∀ h, s'.lock h = some u → (s'.pc u).Holds h) : Held s' := by
  intro h t locked
  by_cases eq : t = u
  · subst eq
    exact own h locked
  · rw [others t eq]
    exact held h t (locks h t eq locked)

theorem Held.goto (held : Held s) {a : State D} {pc : Pc} (lock : a.lock = s.lock) (pcs : a.pc = s.pc)
    (own : ∀ h, (s.pc u).Holds h → pc.Holds h) : Held (a.goto u pc) := by
  refine held.next (u := u) ?_ ?_ ?_
  · intro t ne
    simp [State.goto, pcs, ne]
  · intro h t ne locked
    rw [← lock]
    exact locked
  · intro h locked
    rw [show (a.goto u pc).pc u = pc by simp [State.goto]]
    exact own h (held h u (by rw [← lock]; exact locked))

theorem Held.acquire (held : Held s) {k : Fin nbuckets} {pc : Pc} (h : s.acquire u k pc = some s')
    (own : ∀ h, h = k ∨ (s.pc u).Holds h → pc.Holds h) : Held s' := by
  unfold State.acquire at h
  split at h
  · obtain rfl := Option.some.inj h
    refine held.next (u := u) ?_ ?_ ?_
    · intro t ne
      simp [State.goto, ne]
    · intro h t ne locked
      by_cases eq : h = k
      · subst eq
        simp [State.goto, ne.symm] at locked
      · simpa [State.goto, eq] using locked
    · intro h locked
      simp only [State.goto, Function.update_self]
      by_cases eq : h = k
      · exact own h (.inl eq)
      · exact own h (.inr (held h u (by simpa [State.goto, eq] using locked)))
  · cases h

theorem Held.release (held : Held s) {k : Fin nbuckets} {pc : Pc}
    (own : ∀ h, h ≠ k → (s.pc u).Holds h → pc.Holds h) : Held (s.release u k pc) := by
  refine held.next (u := u) ?_ ?_ ?_
  · intro t ne
    simp [State.release, State.goto, ne]
  · intro h t ne locked
    by_cases eq : h = k
    · subst eq
      simp [State.release, State.goto] at locked
    · simpa [State.release, State.goto, eq] using locked
  · intro h locked
    rw [show (s.release u k pc).pc u = pc by simp [State.release, State.goto]]
    by_cases eq : h = k
    · subst eq
      simp [State.release, State.goto] at locked
    · exact own h eq (held h u (by simpa [State.release, State.goto, eq] using locked))

theorem holds_steal {h : Fin nbuckets} {dev blockno : UInt32} (own : h = bucketOf blockno) (k : ℕ) :
    (steal dev blockno k).Holds h := by
  rcases steal_cases dev blockno k with ⟨done, -⟩ | ⟨i, more, -⟩
  · rw [done]
    trivial
  · rw [more]
    exact own

theorem step_held (held : Held s) (h : step s u = some s') : Held s' := by
  cases pc : s.pc u with
  | idle | noBuffers | notHeld => simp [step, pc] at h
  | acquire | relseAcquire | pinAcquire =>
    simp only [step, pc] at h
    exact held.acquire h (by simp [pc, Pc.Holds.eq_def])
  | stealAcquire =>
    simp only [step, pc] at h
    exact held.acquire h (by simp [pc, Pc.Holds.eq_def, or_comm])
  | search dev blockno =>
    simp only [step, pc] at h
    repeat' split at h
    all_goals cases h
    · exact held.goto rfl rfl (by simp [pc, Pc.Holds.eq_def])
    · exact held.goto rfl rfl (by simp [pc, Pc.Holds.eq_def])
    · refine held.goto rfl rfl fun k own => holds_steal ?_ 0
      rwa [pc] at own
  | stealSearch =>
    simp only [step, pc] at h
    split at h
    all_goals cases h
    all_goals exact held.goto rfl rfl (by simp [pc, Pc.Holds.eq_def])
  | stealRelease dev blockno i =>
    simp only [step, pc, Option.some.injEq] at h
    subst h
    refine held.release fun h ne own => holds_steal ?_ _
    simpa [pc, Pc.Holds.eq_def, ne] using own
  | stolenRelease =>
    simp only [step, pc, Option.some.injEq] at h
    subst h
    refine held.release fun h ne own => ?_
    simpa [pc, Pc.Holds.eq_def, ne] using own
  | release | unlock =>
    simp only [step, pc, Option.some.injEq] at h
    subst h
    refine held.release fun h ne own => ?_
    simp [pc, Pc.Holds.eq_def, ne] at own
  | sleepLock | relseSleep =>
    simp only [step, pc] at h
    split at h
    all_goals cases h
    all_goals exact held.goto rfl rfl (by simp [pc, Pc.Holds.eq_def])
  | fill | relse | relseUpdate | pin =>
    simp only [step, pc, Option.some.injEq] at h
    subst h
    exact held.goto rfl rfl (by simp [pc, Pc.Holds.eq_def])
  | pinUpdate up =>
    cases up
    all_goals simp only [step, pc, Option.some.injEq] at h
    all_goals subst h
    all_goals exact held.goto rfl rfl (by simp [pc, Pc.Holds.eq_def])

theorem Step.held (held : Held s) (h : Step s s') : Held s' := by
  cases h with
  | run t h => exact step_held held h
  | call t c idle allowed =>
    refine held.goto rfl rfl fun h own => ?_
    rw [idle] at own
    exact own.elim
  | hand => exact held

theorem reachable_held (h : Reachable s) : Held s := by
  obtain ⟨zero, disk, steps⟩ := h
  induction steps with
  | refl => simp [Held, initial]
  | tail _ last ih => exact last.held ih

/-- A thread that waits for a lock while it holds one is a `bget` in its steal loop, and what it holds
is the lock of its own bucket. -/
theorem Held.stealing (held : Held s) {h k : Fin nbuckets} (locked : s.lock h = some t)
    (waits : (s.pc t).waits = some k) : ∃ dev blockno, s.pc t = .stealAcquire dev blockno k ∧ h = bucketOf blockno := by
  have holds := held h t locked
  cases pc : s.pc t with
  | stealAcquire dev blockno i =>
    rw [pc] at holds waits
    obtain rfl : i = k := by simpa [Pc.waits] using waits
    exact ⟨dev, blockno, rfl, holds⟩
  | acquire | relseAcquire | pinAcquire => simp [pc, Pc.Holds.eq_def] at holds
  | _ => simp [pc, Pc.waits] at waits

/-- A run in which every state is `Ordered`. -/
def OrderedReachable (s : State D) : Prop :=
  ∃ zero disk, Relation.ReflTransGen (fun a b => Step a b ∧ Ordered b) (initial zero disk) s

theorem initial_ordered (zero : D) (disk : UInt32 → D) : Ordered (initial zero disk) := by
  intro t dev blockno i u dev' blockno' j pc
  cases pc

theorem OrderedReachable.ordered (h : OrderedReachable s) : Reachable s ∧ Ordered s := by
  obtain ⟨zero, disk, steps⟩ := h
  refine ⟨⟨zero, disk, Relation.ReflTransGen.mono (fun _ _ h => h.1) _ _ steps⟩, ?_⟩
  cases steps with
  | refl => exact initial_ordered zero disk
  | tail _ last => exact last.2

/-- Without a spin on a lower bucket's lock held by a spinning thread no set of threads is deadlocked:
the member that holds the highest bucket would wait for a higher one. -/
theorem orderedReachable_no_deadlock (h : OrderedReachable s) (T : Set Tid) : ¬Deadlocked s T := by
  intro dead
  obtain ⟨reach, ordered⟩ := h.ordered
  have held := reachable_held reach
  obtain ⟨t, member⟩ := dead.nonempty
  obtain ⟨h, locked⟩ := dead.holds t member
  obtain ⟨m, above⟩ : ∃ m, nbuckets - h.val = m := ⟨_, rfl⟩
  -- Each member leads to another one that holds a higher bucket's lock.
  induction m using Nat.strong_induction_on generalizing t h with
  | _ m ih =>
    obtain ⟨k, waits, u, memberU, ne, lockedU⟩ := dead.spins t member
    obtain ⟨dev, blockno, pc, rfl⟩ := held.stealing locked waits
    obtain ⟨j, waitsU, v, -, -, lockedV⟩ := dead.spins u memberU
    obtain ⟨dev', blockno', pcU, rfl⟩ := held.stealing lockedU waitsU
    have up := ordered _ _ _ _ _ _ _ _ pc lockedU pcU (by simp [lockedV])
    have apart : bucketOf blockno ≠ bucketOf blockno' := by
      intro same
      rw [same, lockedU] at locked
      exact ne (Option.some.inj locked)
    have higher : bucketOf blockno < bucketOf blockno' := lt_of_le_of_ne up apart
    have := (bucketOf blockno').isLt
    exact ih _ (by omega) u memberU _ lockedU rfl

theorem ordered_of_none (none : ∀ u dev blockno i, s.pc u ≠ .stealAcquire dev blockno i) : Ordered s :=
  fun u dev blockno i _ _ _ _ pc => absurd pc (none u dev blockno i)

/-- Only thread `t` is in its steal loop, and the lock it goes for is not its own. -/
theorem ordered_of_one {dev blockno : UInt32} {i : Fin nbuckets} (here : s.pc t = .stealAcquire dev blockno i)
    (other : s.lock i ≠ some t) (only : ∀ u, u ≠ t → ∀ dev blockno i, s.pc u ≠ .stealAcquire dev blockno i) :
    Ordered s := by
  intro u dev₁ blockno₁ i₁ v dev₂ blockno₂ i₂ pc locked pc'
  have mine : u = t := by
    by_contra ne
    exact only u ne _ _ _ pc
  have mine' : v = t := by
    by_contra ne
    exact only v ne _ _ _ pc'
  subst mine mine'
  cases here.symm.trans pc
  exact absurd locked other

/-- Thread 1 holds bucket 5 and spins on bucket 0, which thread 0 holds. -/
theorem orderedReachable_no_deadlock_stealing : ∃ s : State Block, OrderedReachable s ∧
    (s.lock 5 = some 1 ∧ s.pc 1 = .stealAcquire 1 5 0 ∧ s.lock 0 = some 0) ∧ ∀ T, ¬Deadlocked s T := by
  let s₀ : State Block := initial (fun _ => 0) fun _ _ => 0
  let s₁ := s₀.goto 1 (.acquire 1 5)
  let s₂ := s₀.point 1 (Function.update s₀.lock 5 (some 1)) s₀.sleep s₀.cache s₀.refs (.search 1 5)
  let s₃ := s₂.goto 1 (.stealAcquire 1 5 0)
  let s₄ := s₃.goto 0 (.acquire 1 0)
  let s₅ := { s₄ with lock := Function.update s₄.lock 0 (some 0) }.goto 0 (.search 1 0)
  have miss : s₀.cache.lookup 5 1 5 = some none := by decide +kernel
  have busy : s₀.cache.unused 5 = some none := by decide +kernel
  have acquires : step s₁ 1 = some s₂ := point_acquire rfl
  have searches : step s₂ 1 = some s₃ := by
    have bucket : bucketOf 5 = 5 := by decide
    have here : s₂.pc 1 = .search 1 5 := point_pc
    have same : s₂.cache = s₀.cache := rfl
    unfold step
    rw [here]
    dsimp only
    rw [bucket, same, miss]
    dsimp only
    rw [busy]
    rfl
  have reach : OrderedReachable s₅ := by
    refine ⟨fun _ => 0, fun _ _ => 0, .head (b := s₁) ⟨?_, ?_⟩ (.head (b := s₂) ⟨.run 1 acquires, ?_⟩
      (.head (b := s₃) ⟨.run 1 searches, ?_⟩ (.head (b := s₄) ⟨?_, ?_⟩ (.single ⟨.run 0 rfl, ?_⟩))))⟩
    · exact .call 1 (.bread 1 5) rfl (by simp [Call.Allowed])
    · refine ordered_of_none fun u dev blockno i => ?_
      by_cases mine : u = 1 <;> simp [s₁, s₀, State.goto, initial, mine]
    · refine ordered_of_none fun u dev blockno i => ?_
      by_cases mine : u = 1 <;> simp [s₂, s₀, State.point, initial, mine]
    · refine ordered_of_one (t := 1) (i := 0) rfl (by decide) fun u ne dev blockno i => ?_
      simp [s₃, s₂, s₀, State.point, initial, ne]
    · exact .call 0 (.bread 1 0) rfl (by simp [Call.Allowed])
    · refine ordered_of_one (t := 1) (i := 0) rfl (by decide) fun u ne dev blockno i => ?_
      by_cases first : u = 0 <;> simp [s₄, s₃, s₂, s₀, State.goto, State.point, initial, ne, first]
    · refine ordered_of_one (t := 1) (i := 0) rfl (by decide) fun u ne dev blockno i => ?_
      by_cases first : u = 0 <;> simp [s₅, s₄, s₃, s₂, s₀, State.goto, State.point, initial, ne, first]
  exact ⟨s₅, reach, ⟨rfl, rfl, rfl⟩, orderedReachable_no_deadlock reach⟩

/-- With every buffer of the cache in use in bucket 0, thread 1 holds bucket 0 and waits for bucket 1 while
thread 2 holds bucket 1 and waits for bucket 0. -/
theorem steal_loops_deadlock : ∃ s : State Block, Reachable s ∧ Deadlocked s {1, 2} := by
  obtain ⟨s, used, packed, card⟩ := packed_many (D := Block) (fun _ => 0) (fun _ _ => 0) le_rfl
  obtain ⟨l, filed⟩ := packed.reach.inv.1.filed
  have all : ∀ i, i ∈ used := by
    rw [← Finset.eq_univ_iff_forall, ← Finset.card_eq_iff_eq_univ, card, Fintype.card_fin]
  have busy : ∀ h, s.cache.unused h = some none := by
    refine fun h => filed.unused_none fun i _ => ?_
    rw [(packed.held i (all i)).1]
    decide
  have miss : ∀ m, (∀ j < nbuf, m ≠ UInt32.ofNat (13 * j)) →
      s.cache.lookup (bucketOf m) 1 m = some none := by
    refine fun m other => filed.lookup_none fun cached => ?_
    obtain ⟨j, less, same⟩ := packed.blocks m cached
    exact other j (card ▸ less) same
  have first := solo_bread_miss (P := fun _ _ => True) (packed.idle 1) (show (1 : UInt32) ≠ 0 by decide)
    (packed.free _) (miss 390 (by decide)) (busy _) trivial
  let s₁ := s.point 1 (Function.update s.lock 0 (some 1)) s.sleep s.cache s.refs (.stealAcquire 1 390 1)
  have idle : s₁.pc 2 = .idle := by simpa [s₁, State.point] using packed.idle 2
  have second := solo_bread_miss (P := fun _ _ => True) idle (show (1 : UInt32) ≠ 0 by decide)
    (show s₁.lock (bucketOf 1) = none from packed.free _) (miss 1 (by decide)) (busy _) trivial
  have reach : Reachable s₁ := packed.reach.reachable.called first
  refine ⟨_, reach.called second, ⟨1, by simp⟩, ?_, ?_⟩
  · rintro t (rfl | rfl)
    · exact ⟨0, rfl⟩
    · exact ⟨1, rfl⟩
  · rintro t (rfl | rfl)
    · exact ⟨1, rfl, 2, by simp, by decide, rfl⟩
    · exact ⟨0, rfl, 1, by simp, by decide, rfl⟩

end Xv6Labs.Bio.Hashed
