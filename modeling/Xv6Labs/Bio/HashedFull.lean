import Xv6Labs.Bio.HashedRun
import Xv6Labs.Lib.History

/-!
# When the Lab 3 `bget` gives up

`bget` looks at the buckets one after the other, so its verdict "no buffers" puts together what it saw
at different times. `During t` follows one call of `bread` by thread `t` and collects the states since the
call. If no buffer of a bucket that the call has been through becomes unreferenced behind its back, the
cache is full when the call panics; otherwise the call can miss a buffer that was free all along.
-/

namespace Xv6Labs.Bio.Hashed

variable {D : Type} {s s' : State D} {t u : Tid} {i : Fin nbuf} {seen : List (State D)}

/-- Thread `t` has just called `bread` in a state in `Start`. -/
def Entered (t : Tid) (Start : State D → Prop) (s : State D) : Prop :=
  ∃ a dev blockno, Start a ∧ a.pc t = .idle ∧ dev ≠ 0 ∧ s = a.goto t (.acquire dev blockno)

/-- Thread `t` is inside a call of `bread` that it made in a state in `Start`, and `R` led from each state to
the next since then. -/
abbrev During (t : Tid) (Start : State D → Prop) (R : State D → State D → Prop) :
    List (State D) → State D → Prop :=
  History.During (Entered t Start) (fun s => s.pc t ≠ .idle) R

def Full (s : State D) : Prop := ∀ i, (s.cache.buf (.buf i)).refcnt ≠ 0

/-- The buckets in which a `bget` has already looked for an unreferenced buffer. -/
def Pc.Searched (h : Fin nbuckets) : Pc → Prop
  | .stealAcquire _ blockno i | .stealSearch _ blockno i => h = bucketOf blockno ∨ h < i
  | .stealRelease _ blockno i => h = bucketOf blockno ∨ h ≤ i
  | _ => False

/-- No buffer of a bucket that thread `t` has already searched becomes unreferenced. -/
def Quiet (t : Tid) (s s' : State D) : Prop :=
  ∀ i, (s.pc t).Searched (bucketOf (s.cache.buf (.buf i)).blockno) →
    (s.cache.buf (.buf i)).refcnt ≠ 0 → (s'.cache.buf (.buf i)).refcnt ≠ 0

/-- A buffer only gets another block number together with its first reference. -/
theorem assign_block {c : Cache nbuckets D} {b : Node} (dev blockno : UInt32) (i : Fin nbuf) :
    ((c.assign b dev blockno).buf (.buf i)).blockno = (c.buf (.buf i)).blockno ∨
      ((c.assign b dev blockno).buf (.buf i)).refcnt = 1 := by
  by_cases eq : (Node.buf i) = b
  · subst eq
    simp [Cache.assign]
  · simp [Cache.assign, Cache.setBuf_of_ne _ eq]

theorem step_block (h : step s u = some s') (i : Fin nbuf) :
    (s'.cache.buf (.buf i)).blockno = (s.cache.buf (.buf i)).blockno ∨
      (s'.cache.buf (.buf i)).refcnt = 1 := by
  cases pc : s.pc u with
  | idle | noBuffers | notHeld => simp [step, pc] at h
  | acquire | relseAcquire | pinAcquire | stealAcquire =>
    simp only [step, pc, State.acquire] at h
    split at h
    all_goals cases h
    exact .inl rfl
  | search dev blockno =>
    simp only [step, pc] at h
    repeat' split at h
    all_goals cases h
    · exact .inl (s.cache.incRef_spec _ _).2.1
    · exact assign_block dev blockno i
    · exact .inl rfl
  | stealSearch dev blockno k =>
    simp only [step, pc] at h
    split at h
    all_goals cases h
    · exact assign_block dev blockno i
    · exact .inl rfl
  | sleepLock | relseSleep =>
    simp only [step, pc] at h
    split at h
    all_goals cases h
    all_goals exact .inl rfl
  | stealRelease | stolenRelease | release | unlock | relse | pin =>
    simp only [step, pc, Option.some.injEq] at h
    subst h
    exact .inl rfl
  | fill b =>
    simp only [step, pc, Option.some.injEq] at h
    subst h
    exact .inl (s.cache.fill_spec b s.disk _).2.1
  | relseUpdate b bucket =>
    simp only [step, pc, Option.some.injEq] at h
    subst h
    left
    show ((s.cache.drop bucket b).buf _).blockno = _
    rw [Cache.drop_buf, (s.cache.decRef_spec b _).2.1]
  | pinUpdate up b bucket =>
    cases up
    all_goals simp only [step, pc, Option.some.injEq] at h
    all_goals subst h
    · exact .inl (s.cache.decRef_spec b _).2.1
    · exact .inl (s.cache.incRef_spec b _).2.1

theorem Step.block (h : Step s s') (i : Fin nbuf) :
    (s'.cache.buf (.buf i)).blockno = (s.cache.buf (.buf i)).blockno ∨
      (s'.cache.buf (.buf i)).refcnt = 1 := by
  cases h with
  | run t h => exact step_block h i
  | call => exact .inl rfl
  | hand => exact .inl rfl

/-- What thread `t` has searched stays in use, whoever makes the step. -/
theorem Quiet.keep (quiet : Quiet t s s') (h : Step s s')
    (busy : ∀ i, (s.pc t).Searched (bucketOf (s.cache.buf (.buf i)).blockno) →
      (s.cache.buf (.buf i)).refcnt ≠ 0)
    (searched : (s.pc t).Searched (bucketOf (s'.cache.buf (.buf i)).blockno)) :
    (s'.cache.buf (.buf i)).refcnt ≠ 0 := by
  rcases h.block i with same | one
  · rw [same] at searched
    exact quiet i searched (busy i searched)
  · rw [one]
    decide

/-- The steal loop has been through bucket `h` when it gets beyond it. -/
theorem searched_steal {dev blockno : UInt32} {k : ℕ} {h : Fin nbuckets}
    (searched : (steal dev blockno k).Searched h ∨ steal dev blockno k = .noBuffers) :
    h = bucketOf blockno ∨ h.val < k := by
  by_cases below : h.val < k
  · exact .inr below
  · left
    rcases steal_cases dev blockno k with ⟨done, rest⟩ | ⟨i, more, ne, from_, rest⟩
    · exact rest h (by omega)
    · rw [more] at searched
      rcases searched with (own | less) | panic
      · exact own
      · exact rest h (by omega) less
      · cases panic

/-- What a step of thread `t` adds to the buckets it has searched holds no unreferenced buffer. -/
theorem step_searched (inv : Inv s) (h : step s t = some s')
    (searched : (s'.pc t).Searched (bucketOf (s'.cache.buf (.buf i)).blockno) ∨ s'.pc t = .noBuffers) :
    (s.pc t).Searched (bucketOf (s'.cache.buf (.buf i)).blockno) ∨ (s'.cache.buf (.buf i)).refcnt ≠ 0 := by
  obtain ⟨l, filed⟩ := inv.filed
  have arrives : ∀ (a : State D) pc, (a.goto t pc).pc t = pc := fun a pc => by simp [State.goto]
  cases pc : s.pc t with
  | idle | noBuffers | notHeld => simp [step, pc] at h
  | acquire | relseAcquire | pinAcquire =>
    simp only [step, pc, State.acquire] at h
    split at h
    all_goals cases h
    simp [State.goto, Pc.Searched] at searched
  | stealAcquire =>
    simp only [step, pc, State.acquire] at h
    split at h
    all_goals cases h
    rw [arrives] at searched
    exact .inl (by simpa [Pc.Searched] using searched)
  | search dev blockno =>
    simp only [step, pc] at h
    repeat' split at h
    all_goals cases h
    · simp [State.take, State.goto, Pc.Searched] at searched
    · simp [State.take, State.goto, Pc.Searched] at searched
    · rename_i free
      right
      rw [arrives] at searched
      rcases searched_steal searched with own | below
      · rcases filed.unused_spec (bucketOf blockno) with ⟨j, found, -⟩ | ⟨-, busy⟩
        · rw [free] at found
          cases found
        · exact busy i own
      · omega
  | stealSearch dev blockno k =>
    simp only [step, pc] at h
    split at h
    all_goals cases h
    · simp [State.take, State.goto, Pc.Searched] at searched
    · rename_i free
      rw [arrives] at searched
      rcases filed.unused_spec k with ⟨j, found, -⟩ | ⟨-, busy⟩
      · rw [free] at found
        cases found
      · by_cases here : bucketOf (s.cache.buf (.buf i)).blockno = k
        · exact .inr (busy i here)
        · left
          rcases searched with (own | upto) | panic
          · exact .inl own
          · exact .inr (lt_of_le_of_ne upto here)
          · cases panic
  | stealRelease dev blockno k =>
    simp only [step, pc, Option.some.injEq] at h
    subst h
    left
    have here : (s.release t k (steal dev blockno (k + 1))).pc t = steal dev blockno (k + 1) := by
      simp [State.release, State.goto]
    rw [here] at searched
    rcases searched_steal searched with own | below
    · exact .inl own
    · exact .inr (Fin.le_def.mpr (by omega))
  | sleepLock | relseSleep =>
    simp only [step, pc] at h
    split at h
    all_goals cases h
    all_goals simp [State.goto, Pc.Searched] at searched
  | stolenRelease | release | unlock | relse | pin | fill | relseUpdate =>
    simp only [step, pc, Option.some.injEq] at h
    subst h
    simp [State.goto, State.release, State.give, Pc.Searched] at searched
  | pinUpdate up b bucket =>
    cases up
    all_goals simp only [step, pc, Option.some.injEq] at h
    all_goals subst h
    all_goals simp [State.goto, State.take, State.give, Pc.Searched] at searched

theorem Step.own (h : Step s s') (busy : s.pc t ≠ .idle) : step s t = some s' ∨ s'.pc t = s.pc t := by
  cases h with
  | run u h =>
    by_cases eq : t = u
    · subst eq
      exact .inl h
    · exact .inr (step_others h eq)
  | call u c idle =>
    have ne : t ≠ u := fun eq => busy (eq ▸ idle)
    exact .inr (by simp [State.goto, ne])
  | hand => exact .inr rfl

theorem BoundedReachable.step (reach : BoundedReachable s) (h : Step s s') (bounded : Bounded s') :
    BoundedReachable s' := by
  obtain ⟨zero, disk, before⟩ := reach
  exact ⟨zero, disk, before.tail ⟨h, bounded⟩⟩

theorem During.bounded {R : State D → State D → Prop} (run : During t BoundedReachable R seen s)
    (steps : ∀ a b, R a b → Step a b ∧ Bounded b) : BoundedReachable s := by
  apply run.invariant
  · rintro a ⟨a, dev, blockno, start, idle, nonzero, rfl⟩
    exact start.step (.call t (.bread dev blockno) idle nonzero) start.inv.2
  · intro a b reach h
    exact reach.step (steps _ _ h).1 (steps _ _ h).2

/-- The cache was full at some instant of a `bget` that reached `panic("bget: no buffers")`, if nothing
in the buckets it had been through became unreferenced during the call. -/
theorem quiet_panic_full
    (run : During t BoundedReachable (fun a b => Step a b ∧ Bounded b ∧ Quiet t a b) seen s)
    (panic : s.pc t = .noBuffers) : ∃ x ∈ seen, Full x := by
  suffices h : (∀ i, (s.pc t).Searched (bucketOf (s.cache.buf (.buf i)).blockno) →
      (s.cache.buf (.buf i)).refcnt ≠ 0) ∧ (s.pc t = .noBuffers → ∃ x ∈ seen, Full x) from h.2 panic
  clear panic
  induction run with
  | enter h =>
    obtain ⟨a, dev, blockno, -, -, -, rfl⟩ := h
    simp [State.goto, Pc.Searched]
  | @next seen s s' before busy step ih =>
    obtain ⟨used, full⟩ := ih
    have reach := During.bounded before fun _ _ h => ⟨h.1, h.2.1⟩
    obtain ⟨step, -, quiet⟩ := step
    have keep := fun i => quiet.keep (i := i) step used
    rcases step.own busy with own | same
    · have all : ∀ i, (s'.pc t).Searched (bucketOf (s'.cache.buf (.buf i)).blockno) ∨
          s'.pc t = .noBuffers → (s'.cache.buf (.buf i)).refcnt ≠ 0 := by
        intro i searched
        rcases step_searched reach.inv.1 own searched with before | now
        · exact keep i before
        · exact now
      exact ⟨fun i searched => all i (.inl searched),
        fun panic => ⟨s', List.mem_cons_self, fun i => all i (.inr panic)⟩⟩
    · rw [same]
      refine ⟨keep, fun panic => ?_⟩
      obtain ⟨x, member, all⟩ := full panic
      exact ⟨x, List.mem_cons_of_mem _ member, all⟩

/-! ### Calls inside a call -/

section Inside

variable {Start : State D → Prop} {R : State D → State D → Prop}
  {P : Cache nbuckets D → List (Tid × Node) → Prop}

/-- Thread `u` runs alone for a while during the call of `t`. -/
theorem During.solo (run : During t Start R seen s) (busy : s.pc t ≠ .idle)
    (steps : Relation.ReflTransGen (Solo u P) s s') (rel : ∀ a b, Solo u P a b → R a b) :
    ∃ seen', During t Start R seen' s' ∧ ∀ x ∈ seen', x ∈ seen ∨ P x.cache x.refs := by
  apply run.extend (P := fun x => P x.cache x.refs) steps _ fun a b solo => ⟨rel a b solo, solo.2⟩
  intro a b before last
  by_cases eq : u = t
  · subst eq
    intro idle
    have stuck := last.1
    simp [step, idle] at stuck
  · have still : a.pc t = s.pc t := by
      clear last
      induction before with
      | refl => rfl
      | tail _ last ih => rw [step_others last.1 (Ne.symm eq), ih]
    rw [still]
    exact busy

theorem During.called {call : Call} (run : During t Start R seen s) (busy : s.pc t ≠ .idle) (ne : u ≠ t)
    (h : Called u P call s s') (rel : ∀ a b, Step a b → P b.cache b.refs → R a b) :
    ∃ seen', During t Start R seen' s' ∧ ∀ x ∈ seen', x ∈ seen ∨ P x.cache x.refs := by
  have same : (s.goto u call.entry).pc t = s.pc t := by simp [State.goto, ne.symm]
  have entered : During t Start R _ _ := run.next busy (rel _ _ (.call u call h.idle h.allowed) h.ok)
  obtain ⟨seen', run', ok⟩ := entered.solo (by rw [same]; exact busy) h.run
    fun a b solo => rel a b (.run u solo.1) solo.2
  refine ⟨seen', run', fun x member => ?_⟩
  rcases ok x member with old | new
  · rcases List.mem_cons.mp old with rfl | old
    · exact .inr h.ok
    · exact .inl old
  · exact .inr new

end Inside

theorem quiet_panic_full_packed : ∃ (seen : List (State Block)) (s : State Block),
    During 1 BoundedReachable (fun a b => Step a b ∧ Bounded b ∧ Quiet 1 a b) seen s ∧
      s.pc 1 = .noBuffers ∧ ∃ x ∈ seen, Full x := by
  obtain ⟨s, used, packed, card⟩ := packed_many (D := Block) (fun _ => 0) (fun _ _ => 0) le_rfl
  obtain ⟨l, filed⟩ := packed.reach.inv.1.filed
  have all : ∀ i, i ∈ used := by
    rw [← Finset.eq_univ_iff_forall, ← Finset.card_eq_iff_eq_univ, card, Fintype.card_fin]
  have full : Full s := fun i => by rw [(packed.held i (all i)).1]; decide
  have busy : ∀ h, s.cache.unused h = some none := fun h => filed.unused_none fun i _ => full i
  have miss : s.cache.lookup (bucketOf 1) 1 1 = some none := by
    refine filed.lookup_none fun cached => ?_
    obtain ⟨j, less, same⟩ := packed.blocks 1 cached
    rw [card] at less
    exact absurd same (by revert j; decide)
  have ok : (∀ i, (s.cache.buf (.buf i)).refcnt ≠ 0) ∧ s.refs.length ≤ nbuf :=
    ⟨full, by rw [packed.refs, card]⟩
  have scan : Relation.ReflTransGen
      (Solo 1 fun c refs => (∀ i, (c.buf (.buf i)).refcnt ≠ 0) ∧ refs.length ≤ nbuf)
      (s.goto 1 (.acquire 1 1))
      (s.point 1 (Function.update s.lock (bucketOf 1) (some 1)) s.sleep s.cache s.refs .noBuffers) := by
    refine (solo_miss ok (packed.free (bucketOf 1)) miss (busy _)).trans (solo_panic ok 0 ?_ fun h _ _ => busy h)
    intro h ne
    rw [Function.update_of_ne ne]
    exact packed.free h
  have called : During 1 BoundedReachable (fun a b => Step a b ∧ Bounded b ∧ Quiet 1 a b) _
    (s.goto 1 (.acquire 1 1)) := .enter ⟨s, 1, 1, packed.reach, packed.idle 1, by decide, rfl⟩
  obtain ⟨seen, run, -⟩ := called.solo (by simp [State.goto]) scan fun a b solo =>
    ⟨.run 1 solo.1, fun n => ((refCount_le b n).trans solo.2.2).trans_lt (by decide),
      fun i _ _ => solo.2.1 i⟩
  exact ⟨seen, _, run, point_pc, quiet_panic_full run point_pc⟩

/-! ### A missed buffer -/

/-- Thread 0 holds every buffer but `y`. Those are in bucket 0; `y` caches block 2 and is free. -/
structure Spare (s : State D) (y : Fin nbuf) : Prop where
  reach : BoundedReachable s
  idle : ∀ t, s.pc t = .idle
  free : ∀ h, s.lock h = none
  refs : s.refs.length < nbuf
  held : ∀ i, i ≠ y → bucketOf (s.cache.buf (.buf i)).blockno = 0 ∧ (s.cache.buf (.buf i)).refcnt = 1 ∧
    s.sleep (.buf i) = some 0 ∧ (0, .buf i) ∈ s.refs
  block : (s.cache.buf (.buf y)).dev = 1 ∧ (s.cache.buf (.buf y)).blockno = 2
  unused : (s.cache.buf (.buf y)).refcnt = 0 ∧ s.sleep (.buf y) = none
  uncached : ¬s.cache.Cached 1 1

theorem spare_exists (zero : D) (disk : UInt32 → D) : ∃ (s : State D) (y : Fin nbuf), Spare s y := by
  obtain ⟨s, used, packed, card⟩ := packed_many zero disk (show 29 ≤ nbuf by decide)
  obtain ⟨l, filed⟩ := packed.reach.inv.1.filed
  have uncached : ∀ m < 13, m ≠ 0 → ¬s.cache.Cached 1 m := by
    intro m small nonzero cached
    obtain ⟨j, less, rfl⟩ := packed.blocks m cached
    rw [card] at less
    have apart : ∀ j < 29, UInt32.ofNat (13 * j) < 13 → UInt32.ofNat (13 * j) = 0 := by decide
    exact nonzero (apart j less small)
  obtain ⟨y, fresh, found⟩ := packed.unused filed (by rw [card]; decide)
  have rest : ∀ i, i ≠ y → i ∈ used := by
    intro i ne
    have all : insert y used = Finset.univ := by
      rw [← Finset.card_eq_iff_eq_univ, Finset.card_insert_of_notMem fresh, card, Fintype.card_fin]
      rfl
    exact (Finset.mem_insert.mp (all ▸ Finset.mem_univ i)).resolve_left ne
  have result : bget s.cache 1 2 =
      some (some ((s.cache.assign (.buf y) 1 2).moveTo 2 (.buf y), .buf y)) := by
    have own : s.cache.unused 2 = some none :=
      filed.unused_none fun i here => by rw [packed.home i] at here; exact absurd here (by decide)
    have miss : s.cache.lookup 2 1 2 = some none :=
      filed.lookup_none (uncached 2 (by decide) (by decide))
    have first := drop_finRange (show 0 < nbuckets by decide)
    rw [List.drop_zero] at first
    simp only [bget, show bucketOf 2 = 2 from rfl, miss, own]
    rw [first, stealLoop, if_neg (by decide), show (⟨0, by decide⟩ : Fin nbuckets) = 0 from rfl, found]
    rfl
  have few : s.refs.length + 1 = nbuf := by
    rw [packed.refs, card]
    rfl
  have took := solo_bread (P := fun _ refs => refs.length ≤ nbuf) (packed.idle 0) (by decide)
    packed.free result (packed.spare y fresh).2 (by omega) few.le few.le
  have spec := ((s.cache.assign (.buf y) 1 2).moveTo 2 (.buf y)).fill_spec (.buf y) s.disk
  generalize ((s.cache.assign (.buf y) 1 2).moveTo 2 (.buf y)).fill (.buf y) s.disk = c at took spec
  let s₁ : State D := { s with
    sleep := Function.update s.sleep (.buf y) (some 0), cache := c, refs := (0, .buf y) :: s.refs }
  have erased : s₁.refs.erase (0, .buf y) = s.refs := List.erase_cons_head ..
  have gave := solo_brelse (s := s₁) (t := 0) (b := .buf y) (P := fun _ refs => refs.length ≤ nbuf)
    (packed.idle 0) List.mem_cons_self (by simp [s₁]) (packed.free _) few.le (by rw [erased]; omega)
  have small : ∀ (c : Cache nbuckets D) (refs : List (Tid × Node)), refs.length ≤ nbuf → refs.length < 2 ^ 32 :=
    fun _ _ few => few.trans_lt (by decide)
  have spec' := c.decRef_spec (.buf y)
  have others : ∀ i, i ≠ y → ((c.decRef (.buf y)).buf (.buf i)).blockno = (s.cache.buf (.buf i)).blockno ∧
      ((c.decRef (.buf y)).buf (.buf i)).refcnt = (s.cache.buf (.buf i)).refcnt := by
    intro i ne
    have ne' : Node.buf (H := nbuckets) i ≠ .buf y := by simpa using ne
    rw [(spec' _).2.1, (spec' _).2.2, (spec _).2.1, (spec _).2.2, Cache.moveTo_buf, Cache.assign_other ne,
      if_neg ne']
    simp
  refine ⟨_, y, (packed.reach.called took small).called gave small, packed.idle, packed.free, ?_, ?_, ?_, ?_, ?_⟩
  · show (s₁.refs.erase (0, .buf y)).length < _
    rw [erased]
    omega
  · intro i ne
    have ne' : Node.buf (H := nbuckets) i ≠ .buf y := by simpa using ne
    obtain ⟨one, mine, ref⟩ := packed.held i (rest i ne)
    show bucketOf ((c.drop _ (.buf y)).buf (.buf i)).blockno = 0 ∧
      ((c.drop _ (.buf y)).buf (.buf i)).refcnt = 1 ∧ _ ∧ (0, .buf i) ∈ s₁.refs.erase (0, .buf y)
    rw [Cache.drop_buf, (others i ne).1, (others i ne).2, erased]
    refine ⟨packed.home i, one, ?_, ref⟩
    simpa [s₁, ne'] using mine
  · show ((c.drop _ (.buf y)).buf (.buf y)).dev = 1 ∧ ((c.drop _ (.buf y)).buf (.buf y)).blockno = 2
    rw [Cache.drop_buf, (spec' _).1, (spec' _).2.1, (spec _).1, (spec _).2.1]
    simp [Cache.assign]
  · refine ⟨?_, by simp⟩
    show ((c.drop _ (.buf y)).buf (.buf y)).refcnt = 0
    rw [Cache.drop_buf, (spec' _).2.2, (spec _).2.2]
    simp [Cache.assign]
  · intro cached
    have cached : (c.drop _ (.buf y)).Cached 1 1 := cached
    have old : (s.cache.assign (.buf y) 1 2).Cached 1 1 := cached.congr
      (fun j => by rw [Cache.drop_buf, (spec' _).1, (spec _).1, Cache.moveTo_buf])
      fun j => by rw [Cache.drop_buf, (spec' _).2.1, (spec _).2.1, Cache.moveTo_buf]
    rcases Cache.cached_of_assign old with old | ⟨-, two⟩
    · exact uncached 1 (by decide) (by decide) old
    · exact absurd two (by decide)

/-- A few references are outstanding and some buffer has none. -/
def NotFull (c : Cache nbuckets D) (refs : List (Tid × Node)) : Prop :=
  refs.length ≤ nbuf ∧ ∃ i, (c.buf (.buf i)).refcnt = 0

/-- `During` for the runs below, with all states since the call in `NotFull`. -/
def Lacking (s : State D) : Prop :=
  ∃ seen, During 1 BoundedReachable (fun a b => Step a b ∧ Bounded b) seen s ∧
    ∀ x ∈ seen, NotFull x.cache x.refs

theorem NotFull.bounded {a b : State D} (h : Step a b) (ok : NotFull b.cache b.refs) : Step a b ∧ Bounded b :=
  ⟨h, fun n => ((refCount_le b n).trans ok.1).trans_lt (by decide)⟩

theorem Lacking.solo (h : Lacking s) (busy : s.pc 1 ≠ .idle)
    (steps : Relation.ReflTransGen (Solo u NotFull) s s') : Lacking s' := by
  obtain ⟨seen, run, ok⟩ := h
  obtain ⟨seen', run', old⟩ := run.solo busy steps fun a b solo => NotFull.bounded (.run u solo.1) solo.2
  exact ⟨seen', run', fun x member => (old x member).elim (ok x) id⟩

theorem Lacking.called {call : Call} (h : Lacking s) (busy : s.pc 1 ≠ .idle) (ne : u ≠ 1)
    (steps : Called u NotFull call s s') : Lacking s' := by
  obtain ⟨seen, run, ok⟩ := h
  obtain ⟨seen', run', old⟩ := run.called busy ne steps fun _ _ => NotFull.bounded
  exact ⟨seen', run', fun x member => (old x member).elim (ok x) id⟩

theorem Lacking.filed (h : Lacking s) : ∃ l, s.cache.Filed bucketOf l := by
  obtain ⟨seen, run, -⟩ := h
  exact (run.bounded fun _ _ h => h).inv.1.filed

/-- Thread 1 has looked into its own bucket and into bucket 0. -/
theorem Spare.passed {y : Fin nbuf} (spare : Spare s y) :
    Lacking (s.point 1 (Function.update s.lock 1 (some 1)) s.sleep s.cache s.refs (steal 1 1 1)) := by
  obtain ⟨l, filed⟩ := spare.reach.inv.1.filed
  have ok : NotFull s.cache s.refs := ⟨spare.refs.le, y, spare.unused.1⟩
  have busy : ∀ h, h ≠ 2 → s.cache.unused h = some none := by
    refine fun h other => filed.unused_none fun i here => ?_
    have apart : i ≠ y := by
      rintro rfl
      rw [spare.block.2] at here
      exact other here.symm
    rw [(spare.held i apart).2.1]
    decide
  have called : Lacking (s.goto 1 (.acquire 1 1)) := by
    refine ⟨_, .enter ⟨s, 1, 1, spare.reach, spare.idle 1, by decide, rfl⟩, fun x member => ?_⟩
    rw [List.mem_singleton.mp member]
    exact ok
  refine called.solo (u := 1) (by simp [State.goto])
    ((solo_miss ok (spare.free (bucketOf 1)) (filed.lookup_none spare.uncached) (busy _ (by decide))).trans ?_)
  exact solo_round (by decide) (by decide) ok (spare.free 0) (busy 0 (by decide))

/-- Thread 1 passes bucket 0 while all of it is in use. Then a buffer there is released, and the free buffer
of bucket 2 is taken, before thread 1 gets to bucket 2: it panics although one of the two was free at every
instant. -/
theorem bget_misses_free_buffer : ∃ (seen : List (State Block)) (s : State Block),
    During 1 Reachable Step seen s ∧ s.pc 1 = .noBuffers ∧ ∀ x ∈ seen, ¬Full x := by
  obtain ⟨s, y, spare⟩ := spare_exists (D := Block) (fun _ => 0) fun _ _ => 0
  obtain ⟨x, ne⟩ : ∃ x : Fin nbuf, x ≠ y := exists_ne y
  obtain ⟨home, one, mine, ref⟩ := spare.held x ne
  have apart : Node.buf (H := nbuckets) y ≠ .buf x := by simpa using ne.symm
  -- Thread 0 releases `x`.
  let s₃ := s.point 1 (Function.update s.lock 1 (some 1)) s.sleep s.cache s.refs (steal 1 1 1)
  let c := s.cache.drop (bucketOf (s.cache.buf (.buf x)).blockno) (.buf x)
  have spec : ∀ a, (c.buf a).dev = (s.cache.buf a).dev ∧ (c.buf a).blockno = (s.cache.buf a).blockno ∧
      (c.buf a).refcnt = (s.cache.buf a).refcnt - if a = .buf x then 1 else 0 := by
    rw [Cache.drop_buf]
    exact s.cache.decRef_spec (.buf x)
  have few : (s.refs.erase (0, .buf x)).length < nbuf := (List.length_erase_le ..).trans_lt spare.refs
  have freed : (c.buf (.buf x)).refcnt = 0 := by simp [(spec _).2.2, one]
  have relse := solo_brelse (s := s₃) (t := 0) (P := NotFull) (spare.idle 0) ref mine
    (show Function.update s.lock 1 (some 1) (bucketOf (s.cache.buf (.buf x)).blockno) = none by
      rw [home]; exact spare.free 0)
    ⟨spare.refs.le, y, spare.unused.1⟩ ⟨few.le, x, freed⟩
  have here : s₃.pc 1 = steal 1 1 1 := point_pc
  have busy : s₃.pc 1 ≠ .idle := by
    rw [here]
    decide
  have lacking₄ := spare.passed.called busy (by decide) relse
  -- Thread 2 takes `y`.
  obtain ⟨l₄, filed₄⟩ := lacking₄.filed
  have others : ∀ i, i ≠ y → bucketOf (c.buf (.buf i)).blockno = 0 := fun i other => by
    rw [(spec _).2.1, (spare.held i other).1]
  have hit : c.lookup (bucketOf 2) 1 2 = some (some (.buf y)) := by
    rcases filed₄.lookup_spec 1 2 with ⟨i, found, -, block⟩ | ⟨-, miss⟩
    · have same : i = y := by
        by_contra other
        have := others i other
        rw [show (c.buf (.buf i)).blockno = 2 from block] at this
        exact absurd this (by decide)
      rw [← same]
      exact found
    · exact (miss ⟨y, (spec _).1.trans spare.block.1, (spec _).2.1.trans spare.block.2⟩).elim
  let s₄ : State Block := { s₃ with
    sleep := Function.update s₃.sleep (.buf x) none, cache := c, refs := s.refs.erase (0, .buf x) }
  have spec₅ : ∀ a, (((c.incRef (.buf y)).fill (.buf y) s.disk).buf a).blockno = (c.buf a).blockno ∧
      (((c.incRef (.buf y)).fill (.buf y) s.disk).buf a).refcnt =
        (c.buf a).refcnt + if a = .buf y then 1 else 0 := fun a => by
    rw [((c.incRef (.buf y)).fill_spec _ _ a).2.1, ((c.incRef (.buf y)).fill_spec _ _ a).2.2]
    exact (c.incRef_spec (.buf y) a).2
  have freed' : ((c.incRef (.buf y)).buf (.buf x)).refcnt = 0 := by
    rw [(c.incRef_spec _ _).2.2, freed, if_neg apart.symm]
    rfl
  let s₅ : State Block := { s₄ with
    sleep := Function.update s₄.sleep (.buf y) (some 2),
    cache := (c.incRef (.buf y)).fill (.buf y) s.disk, refs := (2, .buf y) :: s₄.refs }
  have read : Called 2 NotFull (.bread 1 2) s₄ s₅ := solo_bread_hit (spare.idle 2) (by decide)
    (show s₄.lock (bucketOf 2) = none from spare.free 2) hit
    (show Function.update s.sleep (.buf x) none (.buf y) = none by
      rw [Function.update_of_ne apart]; exact spare.unused.2)
    ⟨few.le, x, freed⟩ ⟨few, x, freed'⟩ ⟨few, x, (Cache.fill_spec ..).2.2.trans freed'⟩
  have lacking₅ := lacking₄.called busy (by decide) read
  -- Thread 1 finds nothing in the other buckets.
  obtain ⟨l₅, filed₅⟩ := lacking₅.filed
  have found : ∀ h : Fin nbuckets, 1 ≤ h.val →
      ((c.incRef (.buf y)).fill (.buf y) s.disk).unused h = some none := by
    refine fun h above => filed₅.unused_none fun i here => ?_
    have here : bucketOf (((c.incRef (.buf y)).fill (.buf y) s.disk).buf (.buf i)).blockno = h := here
    show (((c.incRef (.buf y)).fill (.buf y) s.disk).buf (.buf i)).refcnt ≠ 0
    by_cases other : i = y
    · subst other
      rw [(spec₅ _).2, if_pos rfl, (spec _).2.2, if_neg apart, spare.unused.1]
      decide
    · rw [(spec₅ _).1, others i other] at here
      subst here
      exact absurd above (by decide)
  have ok : NotFull s₅.cache s₅.refs := ⟨few, x, (Cache.fill_spec ..).2.2.trans freed'⟩
  have last : Relation.ReflTransGen (Solo 1 NotFull) s₅
      (s₅.point 1 s₅.lock s₅.sleep s₅.cache s₅.refs .noBuffers) := by
    have scan : Relation.ReflTransGen (Solo 1 NotFull)
        (s₅.point 1 s₅.lock s₅.sleep s₅.cache s₅.refs (steal 1 1 1))
        (s₅.point 1 s₅.lock s₅.sleep s₅.cache s₅.refs .noBuffers) :=
      solo_panic ok 1 (fun h other => (Function.update_of_ne other _ _).trans (spare.free h))
        fun h _ above => found h above
    rwa [point_self (show s₅.pc 1 = steal 1 1 1 from here)] at scan
  obtain ⟨seen, run, ok'⟩ := lacking₅.solo busy last
  refine ⟨seen, _, run.mono ?_ fun _ _ h => h.1, point_pc, fun z member full => ?_⟩
  · rintro _ ⟨a, dev, blockno, reach, rest⟩
    exact ⟨a, dev, blockno, reach.reachable, rest⟩
  · obtain ⟨-, i, zero⟩ := ok' z member
    exact full i zero

end Xv6Labs.Bio.Hashed
