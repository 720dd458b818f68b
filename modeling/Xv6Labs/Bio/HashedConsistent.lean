import Xv6Labs.Bio.HashedRun

/-!
# Consistency of the Lab 3 buffer cache

The property a reader of the lists relies on, in every state the threads reach while the reference
counters do not wrap around. `refcnt` is an `unsigned int`: after 2^32 - 1 calls of `bpin` on a
buffer that is held once, its counter says that nobody uses it.
-/

namespace Xv6Labs.Bio.Hashed

variable {D : Type} {s : State D} {t : Tid} {b : Node}

/-- The cache is in order: thirteen circular lists with mutually inverse links hold every buffer
exactly once, in the bucket of its block number; `refcnt` is the number of outstanding references;
and no two buffers hold the same block of a device. -/
structure Consistent (s : State D) : Prop where
  inverse : ∀ a, s.cache.link.next (s.cache.link.prev a) = a ∧ s.cache.link.prev (s.cache.link.next a) = a
  lists : ∃ l : Fin nbuckets → List (Fin nbuf),
    (∀ h, s.cache.link.Ring (.head h) ((l h).map .buf)) ∧ (∀ i, ∃! h, i ∈ l h) ∧
    ∀ h, ∀ i ∈ l h, (s.cache.buf (.buf i)).blockno.toNat % 13 = h
  counted : ∀ i, (s.cache.buf (.buf i)).refcnt.toNat = s.refCount (.buf i)
  distinct : ∀ i j, i ≠ j → (s.cache.buf (.buf i)).dev ≠ 0 →
    ¬((s.cache.buf (.buf i)).dev = (s.cache.buf (.buf j)).dev ∧
      (s.cache.buf (.buf i)).blockno = (s.cache.buf (.buf j)).blockno)

theorem Inv.consistent (inv : Inv s) (bounded : Bounded s) : Consistent s := by
  obtain ⟨l, filed⟩ := inv.filed
  refine ⟨?_, ⟨l, filed.ring, ?_, ?_⟩, ?_, ?_⟩
  · intro a
    cases a with
    | buf i =>
      refine (filed.ring (bucketOf (s.cache.buf (.buf i)).blockno)).inverse (List.mem_cons_of_mem _ ?_)
      exact List.mem_map_of_mem ((filed.mem i _).mpr rfl)
    | head h => exact (filed.ring h).inverse List.mem_cons_self
  · intro i
    refine ⟨bucketOf (s.cache.buf (.buf i)).blockno, (filed.mem i _).mpr rfl, ?_⟩
    intro h here
    exact ((filed.mem i h).mp here).symm
  · intro h i here
    exact congrArg Fin.val ((filed.mem i h).mp here)
  · intro i
    rw [inv.counted i, UInt32.toNat_ofNat_of_lt' (bounded _)]
  · intro i j ne nonzero same
    exact ne (inv.distinct i j nonzero same.1 same.2)

/-- The cache stays in order through every interleaving in which no buffer ever has 2^32 or more
outstanding references. -/
theorem boundedReachable_consistent (h : BoundedReachable s) : Consistent s :=
  h.inv.1.consistent h.inv.2

theorem boundedReachable_consistent_full : ∃ s : State Block,
    BoundedReachable s ∧ s.refs.length = nbuf ∧ Consistent s := by
  obtain ⟨s, used, packed, card⟩ := packed_many (D := Block) (fun _ => 0) (fun _ _ => 0) le_rfl
  exact ⟨s, packed.reach, packed.refs.trans card, boundedReachable_consistent packed.reach⟩

/-! ### Without the bound -/

theorem pin_many (reach : Reachable s) (idle : s.pc t = .idle) (free : ∀ h, s.lock h = none) (refs : s.refs = [(t, b)])
    (one : (s.cache.buf b).refcnt = 1) (k : ℕ) :
    ∃ s' : State D, Reachable s' ∧ s'.pc t = .idle ∧ (∀ h, s'.lock h = none) ∧
      s'.refs = List.replicate (k + 1) (t, b) ∧ (s'.cache.buf b).refcnt = UInt32.ofNat (k + 1) := by
  induction k with
  | zero => exact ⟨s, reach, idle, free, refs, one⟩
  | succ k ih =>
    obtain ⟨s', reach', idle', free', refs', count⟩ := ih
    have held : (t, b) ∈ s'.refs := by simp [refs']
    have pin := solo_bpin (P := fun _ _ => True) idle' held (free' _) trivial trivial
    refine ⟨_, reach'.called pin, idle', free', ?_, ?_⟩
    · show (t, b) :: s'.refs = _
      rw [refs', ← List.replicate_succ]
    · rw [Cache.incRef, Cache.setBuf_self, UInt32.ofNat_add (k + 1) 1, ← count]
      rfl

/-- A buffer with 2^32 references has counter 0. -/
theorem refcnt_wraps_around : ∃ s : State Block, Reachable s ∧ (∀ h, s.lock h = none) ∧ ¬Consistent s := by
  obtain ⟨s, used, packed, card⟩ := packed_many (D := Block) (fun _ => 0) (fun _ _ => 0)
    (show 1 ≤ nbuf by decide)
  obtain ⟨i, rfl⟩ := Finset.card_eq_one.mp card
  obtain ⟨one, -, held⟩ := packed.held i (Finset.mem_singleton_self i)
  have refs : s.refs = [(0, .buf i)] := by
    obtain ⟨r, single⟩ := List.length_eq_one_iff.mp (packed.refs.trans card)
    rw [single] at held ⊢
    rw [List.mem_singleton.mp held]
  obtain ⟨n, wraps⟩ : ∃ n, n + 1 = 2 ^ 32 := ⟨2 ^ 32 - 1, by omega⟩
  obtain ⟨s', reach, -, free, refs', count⟩ :=
    pin_many packed.reach.reachable (packed.idle 0) packed.free refs one n
  refine ⟨s', reach, free, ?_⟩
  intro consistent
  have counted := consistent.counted i
  rw [count, State.refCount, refs', List.map_replicate, List.count_replicate_self, wraps] at counted
  exact absurd counted (by decide)

end Xv6Labs.Bio.Hashed
