import Mathlib
import Xv6Labs.Bio.HashedInv

/-!
# Uncontended calls to the Lab 3 buffer cache

`bget` as a function on the cache, for a caller no other thread interferes with. The theorems below
show that a thread that finds the locks it needs free computes exactly this function, and what its
other calls come to. In the result of `bget`, `none` stands for a loop that does not end and
`some none` for `panic("bget: no buffers")`.
-/

namespace Xv6Labs.Bio.Hashed

variable {D : Type}

def stealLoop (c : Cache nbuckets D) (dev blockno : UInt32) :
    List (Fin nbuckets) → Option (Option (Cache nbuckets D × Node))
  | [] => some none
  | i :: rest =>
    if i = bucketOf blockno then stealLoop c dev blockno rest
    else
      match c.unused i with
      | none => none
      | some (some b) => some (some ((c.assign b dev blockno).moveTo (bucketOf blockno) b, b))
      | some none => stealLoop c dev blockno rest

def bget (c : Cache nbuckets D) (dev blockno : UInt32) : Option (Option (Cache nbuckets D × Node)) :=
  match c.lookup (bucketOf blockno) dev blockno with
  | none => none
  | some (some b) => some (some (c.incRef b, b))
  | some none =>
    match c.unused (bucketOf blockno) with
    | none => none
    | some (some b) => some (some (c.assign b dev blockno, b))
    | some none => stealLoop c dev blockno (List.finRange nbuckets)

/-! ### Runs of one thread -/

/-- A step of thread `t` to a state whose cache and references satisfy `P`. -/
def Solo (t : Tid) (P : Cache nbuckets D → List (Tid × Node) → Prop) (s s' : State D) : Prop :=
  step s t = some s' ∧ P s'.cache s'.refs

/-- Thread `t` makes the call `c` and runs alone from then on. -/
structure Called (t : Tid) (P : Cache nbuckets D → List (Tid × Node) → Prop) (c : Call)
    (s s' : State D) : Prop where
  idle : s.pc t = .idle
  allowed : c.Allowed s t
  ok : P s.cache s.refs
  run : Relation.ReflTransGen (Solo t P) (s.goto t c.entry) s'

/-- `s` with the fields that thread `t` changes during a call, and `t` at `pc`. -/
def State.point (s : State D) (t : Tid) (lock : Fin nbuckets → Option Tid) (sleep : Node → Option Tid)
    (c : Cache nbuckets D) (refs : List (Tid × Node)) (pc : Pc) : State D :=
  { s with lock := lock, sleep := sleep, cache := c, refs := refs, pc := Function.update s.pc t pc }

variable {s : State D} {t : Tid} {P : Cache nbuckets D → List (Tid × Node) → Prop}
  {lock : Fin nbuckets → Option Tid} {sleep : Node → Option Tid} {c c' : Cache nbuckets D}
  {refs : List (Tid × Node)} {dev blockno : UInt32} {b : Node} {pc pc' : Pc} {h : Fin nbuckets}

@[simp] theorem point_pc : (s.point t lock sleep c refs pc).pc t = pc := by simp [State.point]

@[simp] theorem point_cache : (s.point t lock sleep c refs pc).cache = c := rfl

@[simp] theorem point_sleep : (s.point t lock sleep c refs pc).sleep = sleep := rfl

@[simp] theorem point_goto :
    (s.point t lock sleep c refs pc).goto t pc' = s.point t lock sleep c refs pc' := by
  simp [State.point, State.goto]

theorem point_acquire (free : lock h = none) :
    (s.point t lock sleep c refs pc).acquire t h pc' =
      some (s.point t (Function.update lock h (some t)) sleep c refs pc') := by
  simp [State.point, State.acquire, State.goto, free]

@[simp] theorem point_release :
    (s.point t lock sleep c refs pc).release t h pc' =
      s.point t (Function.update lock h none) sleep c refs pc' := by
  simp [State.point, State.release, State.goto]

@[simp] theorem point_take :
    (s.point t lock sleep c refs pc).take t b c' pc' = s.point t lock sleep c' ((t, b) :: refs) pc' := by
  simp [State.point, State.take, State.goto]

@[simp] theorem point_give :
    (s.point t lock sleep c refs pc).give t b c' pc' =
      s.point t lock sleep c' (refs.erase (t, b)) pc' := by
  simp [State.point, State.give, State.goto]

theorem point_self (here : s.pc t = pc) : s.point t s.lock s.sleep s.cache s.refs pc = s := by
  subst here
  simp [State.point]

theorem point_idle (idle : s.pc t = .idle) :
    s.point t s.lock sleep c refs .idle = { s with sleep := sleep, cache := c, refs := refs } := by
  rw [State.point, ← idle, Function.update_eq_self]

/-- Giving back a lock that was free when it was taken. -/
theorem update_lock (free : lock h = none) :
    Function.update (Function.update lock h (some t)) h none = lock := by
  rw [Function.update_idem]
  conv_rhs => rw [← Function.update_eq_self h lock, free]

theorem step_others {s' : State D} {u : Tid} (h : step s t = some s') (ne : u ≠ t) : s'.pc u = s.pc u := by
  have moved : ∀ (a : State D) pc, (a.goto t pc).pc u = a.pc u := fun a pc => by simp [State.goto, ne]
  unfold step at h
  simp only [State.acquire, State.release, State.take, State.give] at h
  split at h
  all_goals (repeat' split at h)
  all_goals first | (obtain rfl := Option.some.inj h; exact moved _ _) | cases h

theorem Solo.acquire (pc' : Pc) (free : lock h = none) (ok : P c refs)
    (here : step (s.point t lock sleep c refs pc) t =
      (s.point t lock sleep c refs pc).acquire t h pc') :
    Solo t P (s.point t lock sleep c refs pc)
      (s.point t (Function.update lock h (some t)) sleep c refs pc') :=
  ⟨here.trans (point_acquire free), ok⟩

theorem steal_own {k : ℕ} (own : k = bucketOf blockno) : steal dev blockno k = steal dev blockno (k + 1) := by
  unfold steal
  rw [if_pos own, if_neg (by omega)]

theorem steal_other {k : ℕ} (more : k < nbuckets) (other : k ≠ bucketOf blockno) :
    steal dev blockno k = .stealAcquire dev blockno ⟨k, more⟩ := by
  unfold steal
  rw [if_neg other]
  simp [more]

theorem drop_finRange {k : ℕ} (more : k < nbuckets) :
    (List.finRange nbuckets).drop k = ⟨k, more⟩ :: (List.finRange nbuckets).drop (k + 1) := by
  rw [List.drop_eq_getElem_cons (by simpa using more), List.getElem_finRange]
  rfl

open Relation

/-- A round of the steal loop at a bucket without unreferenced buffers. -/
theorem solo_round {k : ℕ} (more : k < nbuckets) (other : k ≠ bucketOf blockno) (ok : P c refs)
    (free : lock ⟨k, more⟩ = none) (found : c.unused ⟨k, more⟩ = some none) :
    ReflTransGen (Solo t P) (s.point t lock sleep c refs (steal dev blockno k))
      (s.point t lock sleep c refs (steal dev blockno (k + 1))) := by
  rw [steal_other more other]
  refine ReflTransGen.head (Solo.acquire (.stealSearch dev blockno ⟨k, more⟩) free ok
    (by simp only [step, point_pc])) ?_
  refine ReflTransGen.head (b := s.point t (Function.update lock ⟨k, more⟩ (some t)) sleep c refs
    (.stealRelease dev blockno ⟨k, more⟩)) ⟨?_, ok⟩ (ReflTransGen.single ⟨?_, ok⟩)
  · simp only [step, point_pc, point_cache, found, point_goto]
  · simp only [step, point_pc, point_release, update_lock free]

/-- The steal loop from bucket `k` on, the other buckets' locks being free. -/
theorem solo_steal (before : P c refs) (after : P c' ((t, b) :: refs))
    (free : ∀ h, h ≠ bucketOf blockno → lock h = none) (k : ℕ)
    (result : stealLoop c dev blockno ((List.finRange nbuckets).drop k) = some (some (c', b))) :
    ReflTransGen (Solo t P) (s.point t lock sleep c refs (steal dev blockno k))
      (s.point t lock sleep c' ((t, b) :: refs) (.release (bucketOf blockno) b)) := by
  obtain ⟨m, remaining⟩ : ∃ m, nbuckets - k = m := ⟨_, rfl⟩
  induction m generalizing k with
  | zero =>
    rw [List.drop_eq_nil_of_le (by simp; omega)] at result
    simp [stealLoop] at result
  | succ m ih =>
    have more : k < nbuckets := by omega
    rw [drop_finRange more, stealLoop] at result
    by_cases own : k = bucketOf blockno
    · rw [if_pos (Fin.ext own)] at result
      rw [steal_own own]
      exact ih (k + 1) result (by omega)
    · have apart : (⟨k, more⟩ : Fin nbuckets) ≠ bucketOf blockno := fun e => own (congrArg Fin.val e)
      rw [if_neg apart] at result
      cases found : c.unused ⟨k, more⟩ with
      | none => simp [found] at result
      | some taken =>
        cases taken with
        | some a =>
          simp only [found, Option.some.injEq, Prod.mk.injEq] at result
          obtain ⟨rfl, rfl⟩ := result
          rw [steal_other more own]
          refine ReflTransGen.head (Solo.acquire (.stealSearch dev blockno ⟨k, more⟩)
            (free _ apart) before (by simp only [step, point_pc])) ?_
          refine ReflTransGen.head (b := s.point t (Function.update lock ⟨k, more⟩ (some t)) sleep
            ((c.assign a dev blockno).moveTo (bucketOf blockno) a) ((t, a) :: refs)
            (.stolenRelease (bucketOf blockno) ⟨k, more⟩ a)) ⟨?_, after⟩ (ReflTransGen.single ⟨?_, after⟩)
          · simp only [step, point_pc, point_cache, found, point_take]
          · simp only [step, point_pc, point_release, update_lock (free _ apart)]
        | none =>
          simp only [found] at result
          exact (solo_round more own before (free _ apart) found).trans (ih (k + 1) result (by omega))

/-- The rest of the steal loop when no other bucket holds an unreferenced buffer. -/
theorem solo_panic (ok : P c refs) (k : ℕ) (free : ∀ h, h ≠ bucketOf blockno → lock h = none)
    (found : ∀ h : Fin nbuckets, h ≠ bucketOf blockno → k ≤ h → c.unused h = some none) :
    ReflTransGen (Solo t P) (s.point t lock sleep c refs (steal dev blockno k))
      (s.point t lock sleep c refs .noBuffers) := by
  obtain ⟨m, remaining⟩ : ∃ m, nbuckets - k = m := ⟨_, rfl⟩
  induction m generalizing k with
  | zero =>
    have done : steal dev blockno k = .noBuffers := by
      unfold steal
      split <;> exact dif_neg (by omega)
    rw [done]
  | succ m ih =>
    have more : k < nbuckets := by omega
    have rest := ih (k + 1) (fun h other above => found h other (by omega)) (by omega)
    by_cases own : k = bucketOf blockno
    · rw [steal_own own]
      exact rest
    · have apart : (⟨k, more⟩ : Fin nbuckets) ≠ bucketOf blockno := fun e => own (congrArg Fin.val e)
      exact (solo_round more own ok (free _ apart) (found _ apart le_rfl)).trans rest

theorem solo_enter (before : P c refs) (free : lock (bucketOf blockno) = none) :
    Solo t P (s.point t lock sleep c refs (.acquire dev blockno))
      (s.point t (Function.update lock (bucketOf blockno) (some t)) sleep c refs (.search dev blockno)) :=
  Solo.acquire (.search dev blockno) free before (by simp only [step, point_pc])

theorem solo_leave (after : P c refs) (free : lock h = none) :
    Solo t P (s.point t (Function.update lock h (some t)) sleep c refs (.release h b))
      (s.point t lock sleep c refs (.sleepLock b)) := by
  refine ⟨?_, after⟩
  simp only [step, point_pc, point_release, update_lock free]

theorem solo_hit (before : P c refs) (after : P (c.incRef b) ((t, b) :: refs))
    (free : lock (bucketOf blockno) = none) (found : c.lookup (bucketOf blockno) dev blockno = some (some b)) :
    ReflTransGen (Solo t P) (s.point t lock sleep c refs (.acquire dev blockno))
      (s.point t lock sleep (c.incRef b) ((t, b) :: refs) (.sleepLock b)) := by
  refine ReflTransGen.head (solo_enter before free)
    (ReflTransGen.head ⟨?_, after⟩ (ReflTransGen.single (solo_leave after free)))
  simp only [step, point_pc, point_cache, found, point_take]

/-- A `bget` that finds neither its block nor an unreferenced buffer in its own bucket. -/
theorem solo_miss (before : P c refs) (free : lock (bucketOf blockno) = none)
    (found : c.lookup (bucketOf blockno) dev blockno = some none)
    (spare : c.unused (bucketOf blockno) = some none) :
    ReflTransGen (Solo t P) (s.point t lock sleep c refs (.acquire dev blockno))
      (s.point t (Function.update lock (bucketOf blockno) (some t)) sleep c refs (steal dev blockno 0)) := by
  refine ReflTransGen.head (solo_enter before free) (ReflTransGen.single ⟨?_, before⟩)
  simp only [step, point_pc, point_cache, found, spare, point_goto]

/-- An uncontended `bget`, up to the point where it waits for the buffer's sleep-lock. -/
theorem solo_bget (before : P c refs) (after : P c' ((t, b) :: refs)) (free : ∀ h, lock h = none)
    (result : bget c dev blockno = some (some (c', b))) :
    ReflTransGen (Solo t P) (s.point t lock sleep c refs (.acquire dev blockno))
      (s.point t lock sleep c' ((t, b) :: refs) (.sleepLock b)) := by
  unfold bget at result
  cases found : c.lookup (bucketOf blockno) dev blockno with
  | none => simp [found] at result
  | some hit =>
    cases hit with
    | some a =>
      simp only [found, Option.some.injEq, Prod.mk.injEq] at result
      obtain ⟨rfl, rfl⟩ := result
      exact solo_hit before after (free _) found
    | none =>
      simp only [found] at result
      cases spare : c.unused (bucketOf blockno) with
      | none => simp [spare] at result
      | some own =>
        cases own with
        | some a =>
          simp only [spare, Option.some.injEq, Prod.mk.injEq] at result
          obtain ⟨rfl, rfl⟩ := result
          refine ReflTransGen.head (solo_enter before (free _))
            (ReflTransGen.head ⟨?_, after⟩ (ReflTransGen.single (solo_leave after (free (bucketOf blockno)))))
          simp only [step, point_pc, point_cache, found, spare, point_take]
        | none =>
          simp only [spare] at result
          have others : ∀ h, h ≠ bucketOf blockno →
              Function.update lock (bucketOf blockno) (some t) h = none := by
            intro h ne
            rw [Function.update_of_ne ne, free]
          exact (solo_miss before (free _) found spare).trans
            ((solo_steal before after others 0 (by simpa using result)).tail (solo_leave after (free _)))

/-- The rest of `bread` once `bget` has found its buffer. -/
theorem solo_fill (after : P c refs) (filled : P (c.fill b s.disk) refs) (awake : sleep b = none) :
    ReflTransGen (Solo t P) (s.point t lock sleep c refs (.sleepLock b))
      (s.point t lock (Function.update sleep b (some t)) (c.fill b s.disk) refs .idle) := by
  refine ReflTransGen.head (b := s.point t lock (Function.update sleep b (some t)) c refs (.fill b))
    ⟨?_, after⟩ (ReflTransGen.single ⟨?_, filled⟩)
  · simp only [step, point_pc, point_sleep, awake]
    simp [State.point, State.goto]
  · simp only [step, point_pc, point_cache]
    simp [State.point, State.goto]

/-! ### Whole calls -/

theorem solo_bread (idle : s.pc t = .idle) (nonzero : dev ≠ 0) (free : ∀ h, s.lock h = none)
    (result : bget s.cache dev blockno = some (some (c', b))) (awake : s.sleep b = none)
    (before : P s.cache s.refs) (after : P c' ((t, b) :: s.refs))
    (filled : P (c'.fill b s.disk) ((t, b) :: s.refs)) :
    Called t P (.bread dev blockno) s { s with
      sleep := Function.update s.sleep b (some t), cache := c'.fill b s.disk, refs := (t, b) :: s.refs } := by
  rw [← point_idle idle]
  exact ⟨idle, nonzero, before, (solo_bget before after free result).trans (solo_fill after filled awake)⟩

theorem solo_bread_hit (idle : s.pc t = .idle) (nonzero : dev ≠ 0) (free : s.lock (bucketOf blockno) = none)
    (found : s.cache.lookup (bucketOf blockno) dev blockno = some (some b)) (awake : s.sleep b = none)
    (before : P s.cache s.refs) (after : P (s.cache.incRef b) ((t, b) :: s.refs))
    (filled : P ((s.cache.incRef b).fill b s.disk) ((t, b) :: s.refs)) :
    Called t P (.bread dev blockno) s { s with
      sleep := Function.update s.sleep b (some t), cache := (s.cache.incRef b).fill b s.disk,
      refs := (t, b) :: s.refs } := by
  rw [← point_idle idle]
  exact ⟨idle, nonzero, before, (solo_hit before after free found).trans (solo_fill after filled awake)⟩

theorem solo_brelse (idle : s.pc t = .idle) (held : (t, b) ∈ s.refs) (mine : s.sleep b = some t)
    (free : s.lock (bucketOf (s.cache.buf b).blockno) = none) (before : P s.cache s.refs)
    (after : P (s.cache.drop (bucketOf (s.cache.buf b).blockno) b) (s.refs.erase (t, b))) :
    Called t P (.brelse b) s { s with
      sleep := Function.update s.sleep b none,
      cache := s.cache.drop (bucketOf (s.cache.buf b).blockno) b, refs := s.refs.erase (t, b) } := by
  rw [← point_idle idle]
  refine ⟨idle, held, before, ?_⟩
  show ReflTransGen (Solo t P) (s.point t s.lock s.sleep s.cache s.refs (.relse b)) _
  refine ReflTransGen.head (b := s.point t s.lock s.sleep s.cache s.refs
    (.relseSleep b (bucketOf (s.cache.buf b).blockno))) ⟨?_, before⟩ ?_
  · simp only [step, point_pc, point_cache, point_goto]
  refine ReflTransGen.head (b := s.point t s.lock (Function.update s.sleep b none) s.cache s.refs
    (.relseAcquire b (bucketOf (s.cache.buf b).blockno))) ⟨?_, before⟩ ?_
  · simp only [step, point_pc, point_sleep, mine]
    simp [State.point, State.goto]
  refine ReflTransGen.head (Solo.acquire (.relseUpdate b (bucketOf (s.cache.buf b).blockno)) free
    before (by simp only [step, point_pc])) ?_
  refine ReflTransGen.head (b := s.point t
    (Function.update s.lock (bucketOf (s.cache.buf b).blockno) (some t)) (Function.update s.sleep b none)
    (s.cache.drop (bucketOf (s.cache.buf b).blockno) b) (s.refs.erase (t, b))
    (.unlock (bucketOf (s.cache.buf b).blockno))) ⟨?_, after⟩ (ReflTransGen.single ⟨?_, after⟩)
  · simp only [step, point_pc, point_cache, point_give]
  · simp only [step, point_pc, point_release, update_lock free]

theorem solo_bpin (idle : s.pc t = .idle) (held : (t, b) ∈ s.refs)
    (free : s.lock (bucketOf (s.cache.buf b).blockno) = none) (before : P s.cache s.refs)
    (after : P (s.cache.incRef b) ((t, b) :: s.refs)) :
    Called t P (.bpin b) s { s with cache := s.cache.incRef b, refs := (t, b) :: s.refs } := by
  have back : s.point t s.lock s.sleep (s.cache.incRef b) ((t, b) :: s.refs) .idle = { s with
      cache := s.cache.incRef b, refs := (t, b) :: s.refs } := point_idle idle
  rw [← back]
  refine ⟨idle, held, before, ?_⟩
  show ReflTransGen (Solo t P) (s.point t s.lock s.sleep s.cache s.refs (.pin true b)) _
  refine ReflTransGen.head (b := s.point t s.lock s.sleep s.cache s.refs
    (.pinAcquire true b (bucketOf (s.cache.buf b).blockno))) ⟨?_, before⟩ ?_
  · simp only [step, point_pc, point_cache, point_goto]
  refine ReflTransGen.head (Solo.acquire (.pinUpdate true b (bucketOf (s.cache.buf b).blockno)) free
    before (by simp only [step, point_pc])) ?_
  refine ReflTransGen.head (b := s.point t
    (Function.update s.lock (bucketOf (s.cache.buf b).blockno) (some t)) s.sleep (s.cache.incRef b) ((t, b) :: s.refs)
    (.unlock (bucketOf (s.cache.buf b).blockno))) ⟨?_, after⟩ (ReflTransGen.single ⟨?_, after⟩)
  · simp only [step, point_pc, point_cache, point_take]
  · simp only [step, point_pc, point_release, update_lock free]

theorem solo_bread_miss (idle : s.pc t = .idle) (nonzero : dev ≠ 0) (free : s.lock (bucketOf blockno) = none)
    (found : s.cache.lookup (bucketOf blockno) dev blockno = some none)
    (spare : s.cache.unused (bucketOf blockno) = some none) (before : P s.cache s.refs) :
    Called t P (.bread dev blockno) s (s.point t (Function.update s.lock (bucketOf blockno) (some t)) s.sleep
      s.cache s.refs (steal dev blockno 0)) :=
  ⟨idle, nonzero, before, solo_miss before free found spare⟩

theorem refCount_le (s : State D) (b : Node) : s.refCount b ≤ s.refs.length := by
  simpa [State.refCount] using List.count_le_length (a := b) (l := s.refs.map Prod.snd)

theorem Called.steps {call : Call} {s' : State D} (h : Called t P call s s') :
    ReflTransGen (fun a b => Step a b ∧ P b.cache b.refs) s s' :=
  ReflTransGen.head ⟨.call t call h.idle h.allowed, h.ok⟩
    (ReflTransGen.mono (fun _ _ solo => ⟨.run t solo.1, solo.2⟩) _ _ h.run)

theorem BoundedReachable.called {call : Call} {s' : State D} (reach : BoundedReachable s)
    (h : Called t P call s s') (few : ∀ c refs, P c refs → refs.length < 2 ^ 32) :
    BoundedReachable s' := by
  obtain ⟨zero, disk, steps⟩ := reach
  refine ⟨zero, disk, steps.trans (ReflTransGen.mono (fun a b h => ⟨h.1, fun n => ?_⟩) _ _ h.steps)⟩
  exact (refCount_le b n).trans_lt (few _ _ h.2)

theorem Reachable.called {call : Call} {s' : State D} (reach : Reachable s) (h : Called t P call s s') :
    Reachable s' := by
  obtain ⟨zero, disk, steps⟩ := reach
  exact ⟨zero, disk, steps.trans (ReflTransGen.mono (fun _ _ h => h.1) _ _ h.steps)⟩

theorem BoundedReachable.reachable (reach : BoundedReachable s) : Reachable s := by
  obtain ⟨zero, disk, steps⟩ := reach
  exact ⟨zero, disk, ReflTransGen.mono (fun _ _ h => h.1) _ _ steps⟩

/-! ### Filling bucket 0 -/

/-- Thread 0 holds `used`, all of it in bucket 0 and on multiples of 13 below `13 * used.card`; the
other buffers are as `binit` left them. -/
structure Packed (s : State D) (used : Finset (Fin nbuf)) : Prop where
  reach : BoundedReachable s
  idle : ∀ t, s.pc t = .idle
  free : ∀ h, s.lock h = none
  refs : s.refs.length = used.card
  home : ∀ i, bucketOf (s.cache.buf (.buf i)).blockno = 0
  held : ∀ i ∈ used, (s.cache.buf (.buf i)).refcnt = 1 ∧ s.sleep (.buf i) = some 0 ∧ (0, .buf i) ∈ s.refs
  spare : ∀ i, i ∉ used → (s.cache.buf (.buf i)).refcnt = 0 ∧ s.sleep (.buf i) = none
  blocks : ∀ m, s.cache.Cached 1 m → ∃ j < used.card, m = UInt32.ofNat (13 * j)

theorem initial_packed (zero : D) (disk : UInt32 → D) : Packed (initial zero disk) ∅ := by
  refine ⟨⟨zero, disk, .refl⟩, fun _ => rfl, fun _ => rfl, rfl, ?_, by simp, ?_, ?_⟩
  · intro i
    simp [initial, binit, Cache.linkAll_buf, Cache.blank, bucketOf]
  · intro i _
    simp [initial, binit, Cache.linkAll_buf, Cache.blank]
  · intro m cached
    obtain ⟨i, dev, -⟩ := cached
    simp [initial, binit, Cache.linkAll_buf, Cache.blank] at dev

theorem ofNat_mul_inj {j k : ℕ} (hj : j ≤ nbuf) (hk : k ≤ nbuf)
    (same : UInt32.ofNat (13 * j) = UInt32.ofNat (13 * k)) : j = k := by
  have hj : j ≤ 30 := hj
  have hk : k ≤ 30 := hk
  have toNat := congrArg UInt32.toNat same
  rw [UInt32.toNat_ofNat_of_lt' (by simp [UInt32.size]; omega),
    UInt32.toNat_ofNat_of_lt' (by simp [UInt32.size]; omega)] at toNat
  omega

theorem bucketOf_mul {j : ℕ} (hj : j ≤ nbuf) : bucketOf (UInt32.ofNat (13 * j)) = 0 := by
  have hj : j ≤ 30 := hj
  apply Fin.ext
  show (UInt32.ofNat (13 * j)).toNat % 13 = 0
  rw [UInt32.toNat_ofNat_of_lt' (by simp [UInt32.size]; omega)]
  omega

theorem Packed.unused {used : Finset (Fin nbuf)} (packed : Packed s used) {l : Fin nbuckets → List (Fin nbuf)}
    (filed : s.cache.Filed bucketOf l) (more : used.card < nbuf) :
    ∃ i ∉ used, s.cache.unused 0 = some (some (.buf i)) := by
  rcases filed.unused_spec 0 with ⟨i, found, zero, -⟩ | ⟨-, busy⟩
  · refine ⟨i, fun member => ?_, found⟩
    rw [(packed.held i member).1] at zero
    exact absurd zero (by decide)
  · obtain ⟨i, fresh⟩ : ∃ i, i ∉ used := by
      by_contra all
      simp only [not_exists, not_not] at all
      rw [Finset.eq_univ_iff_forall.mpr all, Finset.card_univ, Fintype.card_fin] at more
      exact lt_irrefl _ more
    exact (busy i (packed.home i) (packed.spare i fresh).1).elim

/-- A further `bread` by thread 0 takes one of the remaining buffers of bucket 0. -/
theorem Packed.bread {used : Finset (Fin nbuf)} (packed : Packed s used) (more : used.card < nbuf) :
    ∃ s' : State D, ∃ i ∉ used, Packed s' (insert i used) := by
  obtain ⟨l, filed⟩ := packed.reach.inv.1.filed
  have home := bucketOf_mul more.le
  have miss : ¬s.cache.Cached 1 (UInt32.ofNat (13 * used.card)) := by
    intro cached
    obtain ⟨j, less, same⟩ := packed.blocks _ cached
    exact less.ne (ofNat_mul_inj more.le (less.trans more).le same).symm
  have lookup : s.cache.lookup 0 1 (UInt32.ofNat (13 * used.card)) = some none := by
    rw [← home]
    exact filed.lookup_none miss
  obtain ⟨i, fresh, found⟩ := packed.unused filed more
  have result : bget s.cache 1 (UInt32.ofNat (13 * used.card)) =
      some (some (s.cache.assign (.buf i) 1 (UInt32.ofNat (13 * used.card)), .buf i)) := by
    simp only [bget, home, lookup, found]
  have run := solo_bread (P := fun _ refs => refs.length ≤ used.card + 1) (packed.idle 0) (by decide)
    packed.free result (packed.spare i fresh).2 (by rw [packed.refs]; omega)
    (by rw [List.length_cons, packed.refs]) (by rw [List.length_cons, packed.refs])
  have small : used.card + 1 < 2 ^ 32 := by
    have : used.card < 30 := more
    omega
  have spec := fun a => (s.cache.assign (.buf i) 1 (UInt32.ofNat (13 * used.card))).fill_spec
    (.buf i) s.disk a
  have others : ∀ j, j ≠ i → (Node.buf (H := nbuckets) j) ≠ .buf i := fun j ne => by simpa using ne
  refine ⟨_, i, fresh, packed.reach.called run fun _ _ few => few.trans_lt small, packed.idle, packed.free,
    ?_, ?_, ?_, ?_, ?_⟩
  · show ((0, Node.buf i) :: s.refs).length = _
    rw [List.length_cons, packed.refs, Finset.card_insert_of_notMem fresh]
  · intro j
    rw [(spec _).2.1]
    by_cases eq : j = i
    · subst eq
      simpa [Cache.assign] using home
    · rw [Cache.assign_other eq]
      exact packed.home j
  · intro j member
    rw [(spec _).2.2]
    by_cases eq : j = i
    · subst eq
      exact ⟨by simp [Cache.assign], by simp, List.mem_cons_self⟩
    · obtain ⟨one, mine, ref⟩ := packed.held j ((Finset.mem_insert.mp member).resolve_left eq)
      rw [Cache.assign_other eq]
      exact ⟨one, by simpa [others j eq] using mine, List.mem_cons_of_mem _ ref⟩
  · intro j absent
    obtain ⟨ne, absent⟩ := not_or.mp (mt Finset.mem_insert.mpr absent)
    rw [(spec _).2.2, Cache.assign_other ne]
    exact ⟨(packed.spare j absent).1, by simpa [others j ne] using (packed.spare j absent).2⟩
  · intro m cached
    rw [Finset.card_insert_of_notMem fresh]
    rcases Cache.cached_of_assign (cached.congr (fun j => (spec _).1) fun j => (spec _).2.1) with
      old | ⟨-, new⟩
    · obtain ⟨j, less, same⟩ := packed.blocks m old
      exact ⟨j, by omega, same⟩
    · exact ⟨used.card, by omega, new⟩

theorem packed_many (zero : D) (disk : UInt32 → D) {k : ℕ} (few : k ≤ nbuf) :
    ∃ (s : State D) (used : _), Packed s used ∧ used.card = k := by
  induction k with
  | zero => exact ⟨_, ∅, initial_packed zero disk, rfl⟩
  | succ k ih =>
    obtain ⟨s, used, packed, card⟩ := ih (by omega)
    obtain ⟨s', i, fresh, packed'⟩ := packed.bread (by omega)
    exact ⟨s', _, packed', by rw [Finset.card_insert_of_notMem fresh, card]⟩

end Xv6Labs.Bio.Hashed
