import Mathlib
import Xv6Labs.Bio.Hashed

/-!
# The invariant of the Lab 3 buffer cache

`Inv` holds in every state that the threads reach while no buffer has 2^32 or more outstanding
references. What a thread relies on between two of its steps is `Asserts`: it owns the locks of its
program point, its references are counted, and a `bget` in its steal loop still misses, because a
buffer can only get its block's number under its bucket's lock. `Guarantee u` is what a step of
thread `u` leaves to the others.
-/

namespace Xv6Labs.Bio.Hashed

open LinkedRing

variable {D : Type}

def Asserts (s : State D) (t : Tid) : Pc → Prop
  | .idle | .noBuffers | .notHeld => True
  | .acquire dev _ => dev ≠ 0
  | .search dev blockno => dev ≠ 0 ∧ s.lock (bucketOf blockno) = some t
  | .stealAcquire dev blockno i =>
    dev ≠ 0 ∧ s.lock (bucketOf blockno) = some t ∧ i ≠ bucketOf blockno ∧ ¬s.cache.Cached dev blockno
  | .stealSearch dev blockno i | .stealRelease dev blockno i =>
    dev ≠ 0 ∧ s.lock (bucketOf blockno) = some t ∧ i ≠ bucketOf blockno ∧ s.lock i = some t ∧
      ¬s.cache.Cached dev blockno
  | .stolenRelease bucket i b =>
    s.lock bucket = some t ∧ i ≠ bucket ∧ s.lock i = some t ∧ (t, b) ∈ s.refs
  | .release bucket b => s.lock bucket = some t ∧ (t, b) ∈ s.refs
  | .sleepLock b | .fill b | .relse b | .pin _ b => (t, b) ∈ s.refs
  | .relseSleep b bucket | .relseAcquire b bucket | .pinAcquire _ b bucket =>
    (t, b) ∈ s.refs ∧ bucketOf (s.cache.buf b).blockno = bucket
  | .relseUpdate b bucket | .pinUpdate _ b bucket =>
    (t, b) ∈ s.refs ∧ bucketOf (s.cache.buf b).blockno = bucket ∧ s.lock bucket = some t
  | .unlock bucket => s.lock bucket = some t

structure Inv (s : State D) : Prop where
  filed : ∃ l, s.cache.Filed bucketOf l
  distinct : s.cache.Distinct
  counted : ∀ i, (s.cache.buf (.buf i)).refcnt = UInt32.ofNat (s.refCount (.buf i))
  bufs : ∀ r ∈ s.refs, ∃ i, r.2 = .buf i
  threads : ∀ t, Asserts s t (s.pc t)

/-- No buffer has so many references that `refcnt` wraps around. -/
def Bounded (s : State D) : Prop := ∀ b, s.refCount b < 2 ^ 32

structure Guarantee (u : Tid) (s s' : State D) : Prop where
  pc : ∀ t, t ≠ u → s'.pc t = s.pc t
  lock : ∀ t, t ≠ u → ∀ h, s.lock h = some t → s'.lock h = some t
  refs : ∀ t, t ≠ u → ∀ b, (t, b) ∈ s.refs → (t, b) ∈ s'.refs
  block : ∀ r ∈ s.refs, (s'.cache.buf r.2).blockno = (s.cache.buf r.2).blockno
  cached : ∀ t, t ≠ u → ∀ dev blockno, s.lock (bucketOf blockno) = some t →
    s'.cache.Cached dev blockno → s.cache.Cached dev blockno

variable {s s' : State D} {t u : Tid} {i j : Fin nbuf} {b : Node} {dev blockno : UInt32}

theorem Asserts.stable {pc : Pc} (h : Asserts s t pc) (g : Guarantee u s s') (ne : t ≠ u) :
    Asserts s' t pc := by
  have locked := g.lock t ne
  have held := g.refs t ne
  have miss := g.cached t ne
  cases pc with
  | idle | noBuffers | notHeld => trivial
  | acquire => exact h
  | search => exact ⟨h.1, locked _ h.2⟩
  | stealAcquire => exact ⟨h.1, locked _ h.2.1, h.2.2.1, fun c => h.2.2.2 (miss _ _ h.2.1 c)⟩
  | stealSearch | stealRelease =>
    exact ⟨h.1, locked _ h.2.1, h.2.2.1, locked _ h.2.2.2.1, fun c => h.2.2.2.2 (miss _ _ h.2.1 c)⟩
  | stolenRelease => exact ⟨locked _ h.1, h.2.1, locked _ h.2.2.1, held _ h.2.2.2⟩
  | release => exact ⟨locked _ h.1, held _ h.2⟩
  | sleepLock | fill | relse | pin => exact held _ h
  | relseSleep | relseAcquire | pinAcquire => exact ⟨held _ h.1, by rw [g.block _ h.1]; exact h.2⟩
  | relseUpdate | pinUpdate =>
    exact ⟨held _ h.1, by rw [g.block _ h.1]; exact h.2.1, locked _ h.2.2⟩
  | unlock => exact locked _ h

/-- A step of thread `u` that keeps the lists, the block identities and the counts in order keeps the
invariant, if it leads `u` to a program point it may be at. -/
theorem Inv.next (inv : Inv s) (g : Guarantee u s s') (filed : ∃ l, s'.cache.Filed bucketOf l)
    (distinct : s'.cache.Distinct)
    (counted : ∀ i, (s'.cache.buf (.buf i)).refcnt = UInt32.ofNat (s'.refCount (.buf i)))
    (bufs : ∀ r ∈ s'.refs, ∃ i, r.2 = .buf i) (own : Asserts s' u (s'.pc u)) : Inv s' := by
  refine ⟨filed, distinct, counted, bufs, fun t => ?_⟩
  by_cases eq : t = u
  · subst eq
    exact own
  · rw [g.pc t eq]
    exact (inv.threads t).stable g eq

/-! ### References -/

theorem refCount_pos (held : (t, b) ∈ s.refs) : 0 < s.refCount b :=
  List.count_pos_iff.mpr (List.mem_map_of_mem (f := Prod.snd) held)

theorem refCount_take (c : Cache nbuckets D) (pc : Pc) (a : Node) :
    (s.take t b c pc).refCount a = s.refCount a + if b = a then 1 else 0 := by
  show ((((t, b) :: s.refs).map Prod.snd).count a) = _
  rw [List.map_cons, List.count_cons]
  simp [State.refCount]

theorem refCount_give (c : Cache nbuckets D) (pc : Pc) (held : (t, b) ∈ s.refs) (a : Node) :
    (s.give t b c pc).refCount a + (if b = a then 1 else 0) = s.refCount a := by
  show (((s.refs.erase (t, b)).map Prod.snd).count a) + _ = _
  have perm := (List.perm_cons_erase held).map Prod.snd
  rw [State.refCount, perm.count_eq, List.map_cons, List.count_cons]
  simp

theorem Inv.referenced (inv : Inv s) (bounded : Bounded s) (held : (t, .buf i) ∈ s.refs) :
    (s.cache.buf (.buf i)).refcnt ≠ 0 := by
  rw [inv.counted i, Ne, ← UInt32.toNat_inj, UInt32.toNat_ofNat_of_lt' (bounded _)]
  have := refCount_pos held
  simp only [UInt32.toNat_zero]
  omega

/-! ### What the kinds of steps preserve -/

/-- Steps that leave links, block identities and reference counts alone. -/
theorem Inv.still (inv : Inv s) (links : s'.cache.link = s.cache.link)
    (devs : ∀ j, (s'.cache.buf (.buf j)).dev = (s.cache.buf (.buf j)).dev)
    (blocks : ∀ a, (s'.cache.buf a).blockno = (s.cache.buf a).blockno)
    (counts : ∀ j, (s'.cache.buf (.buf j)).refcnt = (s.cache.buf (.buf j)).refcnt)
    (refs : s'.refs = s.refs) (pc : ∀ t, t ≠ u → s'.pc t = s.pc t)
    (lock : ∀ t, t ≠ u → ∀ h, s.lock h = some t → s'.lock h = some t)
    (own : Asserts s' u (s'.pc u)) : Inv s' := by
  obtain ⟨l, filed⟩ := inv.filed
  have g : Guarantee u s s' :=
    ⟨pc, lock, fun t _ b held => by rw [refs]; exact held, fun r _ => blocks r.2,
      fun t _ dev blockno _ cached => cached.congr devs fun j => blocks _⟩
  refine inv.next g ⟨l, filed.congr links fun j => blocks _⟩
    (inv.distinct.congr devs fun j => blocks _) ?_ ?_ own
  · intro i
    rw [counts, State.refCount, refs]
    exact inv.counted i
  · rw [refs]
    exact inv.bufs

theorem Inv.goto (inv : Inv s) {pc : Pc} (own : Asserts (s.goto u pc) u pc) : Inv (s.goto u pc) := by
  refine inv.still rfl (fun _ => rfl) (fun _ => rfl) (fun _ => rfl) rfl (u := u) ?_ (fun _ _ _ h => h) ?_
  · intro t ne
    simp [State.goto, ne]
  · simpa [State.goto] using own

/-- `acquire` and `release` of a spinlock that no other thread holds. -/
theorem Inv.locking (inv : Inv s) {h : Fin nbuckets} {v : Option Tid} {pc : Pc}
    (mine : ∀ t, s.lock h = some t → t = u)
    (own : Asserts ({ s with lock := Function.update s.lock h v }.goto u pc) u pc) :
    Inv ({ s with lock := Function.update s.lock h v }.goto u pc) := by
  refine inv.still rfl (fun _ => rfl) (fun _ => rfl) (fun _ => rfl) rfl (u := u) ?_ ?_ ?_
  · intro t ne
    simp [State.goto, ne]
  · intro t ne k held
    have : k ≠ h := by
      intro same
      subst same
      exact ne (mine t held)
    simpa [State.goto, this] using held
  · simpa [State.goto] using own

theorem Inv.acquire (inv : Inv s) {h : Fin nbuckets} {pc : Pc} (ok : s.acquire u h pc = some s')
    (own : s'.lock h = some u → (∀ k t, k ≠ h → s.lock k = some t → s'.lock k = some t) →
      s'.cache = s.cache → s'.refs = s.refs → Asserts s' u pc) : Inv s' := by
  unfold State.acquire at ok
  split at ok
  · rename_i free
    obtain rfl := Option.some.inj ok
    refine inv.locking (by simp [free]) (own ?_ ?_ rfl rfl)
    · simp [State.goto]
    · intro k t ne held
      simpa [State.goto, ne] using held
  · cases ok

theorem Inv.release (inv : Inv s) {h : Fin nbuckets} {pc : Pc} (held : s.lock h = some u)
    (own : (∀ k t, k ≠ h → s.lock k = some t → (s.release u h pc).lock k = some t) →
      Asserts (s.release u h pc) u pc) : Inv (s.release u h pc) := by
  refine inv.locking (fun t other => ?_) (own ?_)
  · exact (Option.some.inj (held.symm.trans other)).symm
  · intro k t ne other
    simpa [State.release, State.goto, ne] using other

/-- `refcnt++` by a thread that gets a reference: a lookup hit and `bpin`. -/
theorem Inv.incRef (inv : Inv s) {pc : Pc}
    (own : Asserts (s.take u (.buf i) (s.cache.incRef (.buf i)) pc) u pc) :
    Inv (s.take u (.buf i) (s.cache.incRef (.buf i)) pc) := by
  have same := s.cache.incRef_spec (.buf i)
  obtain ⟨l, filed⟩ := inv.filed
  refine inv.next (u := u) ⟨?_, fun _ _ _ h => h, ?_, fun r _ => (same r.2).2.1, ?_⟩
    ⟨l, filed.congr rfl fun j => (same _).2.1⟩
    (inv.distinct.congr (fun j => (same _).1) fun j => (same _).2.1) ?_ ?_ ?_
  · intro t ne
    simp [State.take, State.goto, ne]
  · intro t _ b held
    exact List.mem_cons_of_mem _ held
  · intro t _ dev blockno _ cached
    exact cached.congr (fun j => (same _).1) fun j => (same _).2.1
  · intro j
    rw [refCount_take]
    show ((s.cache.incRef (.buf i)).buf (.buf j)).refcnt = _
    rw [(same _).2.2, inv.counted j]
    by_cases eq : j = i
    · simp [eq, UInt32.ofNat_add]
    · simp [eq, Ne.symm eq]
  · intro r hr
    rcases List.mem_cons.mp hr with rfl | hr
    · exact ⟨i, rfl⟩
    · exact inv.bufs r hr
  · simpa [State.take, State.goto] using own

/-- Recycling an unreferenced buffer, in place or into another bucket. -/
theorem Inv.recycle (inv : Inv s) (bounded : Bounded s) {c : Cache nbuckets D} {pc : Pc}
    (unused : (s.cache.buf (.buf i)).refcnt = 0) (miss : ¬s.cache.Cached dev blockno)
    (locked : s.lock (bucketOf blockno) = some u)
    (bufs : c.buf = (s.cache.assign (.buf i) dev blockno).buf) (filed : ∃ l, c.Filed bucketOf l)
    (own : Asserts (s.take u (.buf i) c pc) u pc) : Inv (s.take u (.buf i) c pc) := by
  have apart : ∀ r ∈ s.refs, r.2 ≠ .buf i := by
    intro r hr same
    exact inv.referenced bounded (t := r.1) (by rw [← same]; exact hr) unused
  have zero : s.refCount (.buf i) = 0 := by
    rw [State.refCount, List.count_eq_zero]
    intro member
    obtain ⟨r, hr, same⟩ := List.mem_map.mp member
    exact apart r hr same
  refine inv.next (u := u) ⟨?_, fun _ _ _ h => h, ?_, ?_, ?_⟩ filed ?_ ?_ ?_ ?_
  · intro t ne
    simp [State.take, State.goto, ne]
  · intro t _ b held
    exact List.mem_cons_of_mem _ held
  · intro r hr
    show (c.buf r.2).blockno = _
    rw [bufs, Cache.assign, Cache.setBuf_of_ne _ (apart r hr)]
  · intro t ne dev' blockno' held cached
    have cached : (s.cache.assign (.buf i) dev blockno).Cached dev' blockno' := by
      obtain ⟨j, here⟩ := cached
      exact ⟨j, by rw [← bufs]; exact here⟩
    rcases Cache.cached_of_assign cached with old | ⟨rfl, rfl⟩
    · exact old
    · exact (ne (Option.some.inj (held.symm.trans locked))).elim
  · exact (inv.distinct.assign miss (i := i)).congr (fun j => by show (c.buf _).dev = _; rw [bufs])
      fun j => by show (c.buf _).blockno = _; rw [bufs]
  · intro j
    rw [refCount_take]
    show (c.buf (.buf j)).refcnt = _
    rw [bufs]
    by_cases eq : j = i
    · subst eq
      simp [Cache.assign, zero]
    · have ne : Node.buf (H := nbuckets) i ≠ .buf j := by simpa using fun e => eq e.symm
      rw [Cache.assign_other eq, inv.counted j, if_neg ne, Nat.add_zero]
  · intro r hr
    rcases List.mem_cons.mp hr with rfl | hr
    · exact ⟨i, rfl⟩
    · exact inv.bufs r hr
  · simpa [State.take, State.goto] using own

/-- `refcnt--` by a thread that gives a reference up, with any reordering of the lists. -/
theorem Inv.decRef (inv : Inv s) {c : Cache nbuckets D} {pc : Pc} (held : (u, .buf i) ∈ s.refs)
    (bufs : c.buf = (s.cache.decRef (.buf i)).buf) (filed : ∃ l, c.Filed bucketOf l)
    (own : Asserts (s.give u (.buf i) c pc) u pc) : Inv (s.give u (.buf i) c pc) := by
  have same := s.cache.decRef_spec (.buf i)
  rw [← bufs] at same
  refine inv.next (u := u) ⟨?_, fun _ _ _ h => h, ?_, fun r _ => (same r.2).2.1, ?_⟩ filed
    (inv.distinct.congr (fun j => (same _).1) fun j => (same _).2.1) ?_ ?_ ?_
  · intro t ne
    simp [State.give, State.goto, ne]
  · intro t ne b other
    exact (List.mem_erase_of_ne (by simp [ne])).mpr other
  · intro t _ dev blockno _ cached
    exact cached.congr (fun j => (same _).1) fun j => (same _).2.1
  · intro j
    have count := refCount_give c pc held (.buf j)
    show (c.buf (.buf j)).refcnt = _
    rw [(same _).2.2, inv.counted j, ← count]
    by_cases eq : j = i
    · simp [eq, UInt32.ofNat_add]
    · simp [eq, Ne.symm eq]
  · intro r hr
    exact inv.bufs r (List.mem_of_mem_erase hr)
  · simpa [State.give, State.goto] using own

/-! ### Every step -/

/-- The steal loop goes on to the next bucket other than its own, or has been through all of them. -/
theorem steal_cases (dev blockno : UInt32) (k : ℕ) :
    (steal dev blockno k = .noBuffers ∧ ∀ j : Fin nbuckets, k ≤ j → j = bucketOf blockno) ∨
    ∃ i, steal dev blockno k = .stealAcquire dev blockno i ∧ i ≠ bucketOf blockno ∧ k ≤ i ∧
      ∀ j : Fin nbuckets, k ≤ j → j < i → j = bucketOf blockno := by
  have apart : ∀ j : Fin nbuckets, j ≠ bucketOf blockno ↔ j.val ≠ (bucketOf blockno).val :=
    fun j => not_congr Fin.ext_iff
  unfold steal
  by_cases own : k = bucketOf blockno
  · rw [if_pos own]
    by_cases more : k + 1 < nbuckets
    · right
      refine ⟨⟨k + 1, more⟩, by simp [more], (apart _).mpr (by simp only; omega), by simp, ?_⟩
      intro j from_ below
      have : j.val < k + 1 := below
      exact Fin.ext (by omega)
    · left
      refine ⟨by simp [more], fun j from_ => Fin.ext ?_⟩
      have := j.isLt
      omega
  · rw [if_neg own]
    by_cases more : k < nbuckets
    · right
      refine ⟨⟨k, more⟩, by simp [more], (apart _).mpr own, le_rfl, ?_⟩
      intro j from_ below
      have : j.val < k := below
      omega
    · left
      refine ⟨by simp [more], fun j from_ => ?_⟩
      have := j.isLt
      omega

theorem asserts_steal (nonzero : dev ≠ 0) (locked : s.lock (bucketOf blockno) = some t)
    (miss : ¬s.cache.Cached dev blockno) (k : ℕ) : Asserts s t (steal dev blockno k) := by
  rcases steal_cases dev blockno k with ⟨done, -⟩ | ⟨i, more, ne, -⟩
  · rw [done]
    trivial
  · rw [more]
    exact ⟨nonzero, locked, ne, miss⟩

theorem search_inv (inv : Inv s) (bounded : Bounded s) (pc : s.pc u = .search dev blockno)
    (h : step s u = some s') : Inv s' := by
  obtain ⟨nonzero, locked⟩ : dev ≠ 0 ∧ s.lock (bucketOf blockno) = some u := by
    simpa [pc, Asserts] using inv.threads u
  obtain ⟨l, filed⟩ := inv.filed
  simp only [step, pc] at h
  rcases filed.lookup_spec dev blockno with ⟨i, found, -, -⟩ | ⟨found, miss⟩
  · simp only [found, Option.some.injEq] at h
    subst h
    exact inv.incRef ⟨locked, List.mem_cons_self⟩
  · simp only [found] at h
    rcases filed.unused_spec (bucketOf blockno) with ⟨i, free, zero, here⟩ | ⟨free, -⟩
    · simp only [free, Option.some.injEq] at h
      subst h
      exact inv.recycle bounded zero miss locked rfl ⟨l, filed.setBuf here.symm⟩
        ⟨locked, List.mem_cons_self⟩
    · simp only [free, Option.some.injEq] at h
      subst h
      exact inv.goto (asserts_steal nonzero locked miss 0)

theorem stealSearch_inv (inv : Inv s) (bounded : Bounded s) {k : Fin nbuckets}
    (pc : s.pc u = .stealSearch dev blockno k) (h : step s u = some s') : Inv s' := by
  obtain ⟨nonzero, locked, ne, mine, miss⟩ : dev ≠ 0 ∧ s.lock (bucketOf blockno) = some u ∧
      k ≠ bucketOf blockno ∧ s.lock k = some u ∧ ¬s.cache.Cached dev blockno := by
    simpa [pc, Asserts] using inv.threads u
  obtain ⟨l, filed⟩ := inv.filed
  simp only [step, pc] at h
  rcases filed.unused_spec k with ⟨i, free, zero, -⟩ | ⟨free, -⟩
  · simp only [free, Option.some.injEq] at h
    subst h
    have moved := filed.moveTo (i := i) (h := bucketOf blockno) (s.cache.assign (.buf i) dev blockno) rfl
      (fun j ne => by rw [Cache.assign_other ne]) (by simp [Cache.assign])
    exact inv.recycle bounded zero miss locked rfl ⟨_, moved⟩ ⟨locked, ne, mine, List.mem_cons_self⟩
  · simp only [free, Option.some.injEq] at h
    subst h
    exact inv.goto ⟨nonzero, locked, ne, mine, miss⟩

theorem relseUpdate_inv (inv : Inv s) {bucket : Fin nbuckets} (pc : s.pc u = .relseUpdate b bucket)
    (h : step s u = some s') : Inv s' := by
  obtain ⟨held, here, locked⟩ : (u, b) ∈ s.refs ∧ bucketOf (s.cache.buf b).blockno = bucket ∧
      s.lock bucket = some u := by
    simpa [pc, Asserts] using inv.threads u
  obtain ⟨i, rfl⟩ : ∃ i, b = .buf i := inv.bufs _ held
  obtain ⟨l, filed⟩ := inv.filed
  simp only [step, pc, Option.some.injEq] at h
  subst h
  exact inv.decRef held (Cache.drop_buf _ _ _) (filed.drop here) locked

theorem pinUpdate_inv (inv : Inv s) {bucket : Fin nbuckets} {up : Bool}
    (pc : s.pc u = .pinUpdate up b bucket) (h : step s u = some s') : Inv s' := by
  obtain ⟨held, -, locked⟩ : (u, b) ∈ s.refs ∧ bucketOf (s.cache.buf b).blockno = bucket ∧
      s.lock bucket = some u := by
    simpa [pc, Asserts] using inv.threads u
  obtain ⟨i, rfl⟩ : ∃ i, b = .buf i := inv.bufs _ held
  obtain ⟨l, filed⟩ := inv.filed
  cases up with
  | true =>
    simp only [step, pc, Option.some.injEq] at h
    subst h
    exact inv.incRef locked
  | false =>
    simp only [step, pc, Option.some.injEq] at h
    subst h
    exact inv.decRef held rfl ⟨l, filed.setBuf rfl⟩ locked

theorem step_inv (inv : Inv s) (bounded : Bounded s) (h : step s u = some s') : Inv s' := by
  have own := inv.threads u
  cases pc : s.pc u with
  | idle | noBuffers | notHeld => simp [step, pc] at h
  | search => exact search_inv inv bounded pc h
  | stealSearch => exact stealSearch_inv inv bounded pc h
  | relseUpdate => exact relseUpdate_inv inv pc h
  | pinUpdate => exact pinUpdate_inv inv pc h
  | acquire dev blockno =>
    rw [pc] at own
    simp only [step, pc] at h
    exact inv.acquire h fun locked _ _ _ => ⟨own, locked⟩
  | stealAcquire dev blockno k =>
    rw [pc] at own
    obtain ⟨nonzero, locked, ne, miss⟩ := own
    simp only [step, pc] at h
    refine inv.acquire h fun mine keep cache _ => ⟨nonzero, keep _ _ ne.symm locked, ne, mine, ?_⟩
    rw [cache]
    exact miss
  | stealRelease dev blockno k =>
    rw [pc] at own
    obtain ⟨nonzero, locked, ne, mine, miss⟩ := own
    simp only [step, pc, Option.some.injEq] at h
    subst h
    exact inv.release mine fun keep => asserts_steal nonzero (keep _ _ ne.symm locked) miss _
  | stolenRelease bucket k b =>
    rw [pc] at own
    obtain ⟨locked, ne, mine, held⟩ := own
    simp only [step, pc, Option.some.injEq] at h
    subst h
    exact inv.release mine fun keep => ⟨keep _ _ ne.symm locked, held⟩
  | release bucket b =>
    rw [pc] at own
    simp only [step, pc, Option.some.injEq] at h
    subst h
    exact inv.release own.1 fun _ => own.2
  | sleepLock b =>
    rw [pc] at own
    simp only [step, pc] at h
    split at h
    · obtain rfl := Option.some.inj h
      refine inv.still rfl (fun _ => rfl) (fun _ => rfl) (fun _ => rfl) rfl (u := u) ?_
        (fun _ _ _ h => h) ?_
      · intro t ne
        simp [State.goto, ne]
      · simpa [State.goto, Asserts] using own
    · cases h
  | fill b =>
    simp only [step, pc, Option.some.injEq] at h
    subst h
    have same := s.cache.fill_spec b s.disk
    refine inv.still (s.cache.fill_link b s.disk) (fun j => (same _).1) (fun a => (same a).2.1)
      (fun j => (same _).2.2) rfl (u := u) ?_ (fun _ _ _ h => h) ?_
    · intro t ne
      simp [State.goto, ne]
    · simp [State.goto, Asserts]
  | relse b =>
    rw [pc] at own
    simp only [step, pc, Option.some.injEq] at h
    subst h
    exact inv.goto ⟨own, rfl⟩
  | relseSleep b bucket =>
    rw [pc] at own
    simp only [step, pc] at h
    split at h
    · obtain rfl := Option.some.inj h
      refine inv.still rfl (fun _ => rfl) (fun _ => rfl) (fun _ => rfl) rfl (u := u) ?_
        (fun _ _ _ h => h) ?_
      · intro t ne
        simp [State.goto, ne]
      · simpa [State.goto, Asserts] using own
    · obtain rfl := Option.some.inj h
      exact inv.goto trivial
  | relseAcquire b bucket =>
    rw [pc] at own
    simp only [step, pc] at h
    refine inv.acquire h fun locked _ cache refs => ⟨?_, ?_, locked⟩
    · rw [refs]
      exact own.1
    · rw [cache]
      exact own.2
  | pin up b =>
    rw [pc] at own
    simp only [step, pc, Option.some.injEq] at h
    subst h
    exact inv.goto ⟨own, rfl⟩
  | pinAcquire up b bucket =>
    rw [pc] at own
    simp only [step, pc] at h
    refine inv.acquire h fun locked _ cache refs => ⟨?_, ?_, locked⟩
    · rw [refs]
      exact own.1
    · rw [cache]
      exact own.2
  | unlock bucket =>
    rw [pc] at own
    simp only [step, pc, Option.some.injEq] at h
    subst h
    exact inv.release own fun _ => trivial

theorem hand_inv (inv : Inv s) (idle : s.pc t = .idle) (held : (t, b) ∈ s.refs) :
    Inv { s with refs := (u, b) :: s.refs.erase (t, b) } := by
  have perm : (((u, b) :: s.refs.erase (t, b)).map Prod.snd).Perm (s.refs.map Prod.snd) := by
    have := (List.perm_cons_erase held).map Prod.snd
    rw [List.map_cons] at this ⊢
    exact this.symm
  have kept : ∀ v, v ≠ t → ∀ a, (v, a) ∈ s.refs → (v, a) ∈ (u, b) :: s.refs.erase (t, b) := by
    intro v ne a member
    exact List.mem_cons_of_mem _ ((List.mem_erase_of_ne (by simp [ne])).mpr member)
  refine inv.next (u := t) ⟨fun _ _ => rfl, fun _ _ _ h => h, kept, fun _ _ => rfl,
    fun _ _ _ _ _ cached => cached⟩ inv.filed inv.distinct ?_ ?_ ?_
  · intro i
    rw [State.refCount, perm.count_eq]
    exact inv.counted i
  · intro r hr
    rcases List.mem_cons.mp hr with rfl | hr
    · exact inv.bufs (t, b) held
    · exact inv.bufs r (List.mem_of_mem_erase hr)
  · show Asserts _ t (s.pc t)
    rw [idle]
    trivial

theorem Step.inv (inv : Inv s) (bounded : Bounded s) (h : Step s s') : Inv s' := by
  cases h with
  | run t h => exact step_inv inv bounded h
  | call t c idle allowed =>
    cases c with
    | bread dev blockno => exact inv.goto allowed
    | brelse b | bpin b | bunpin b => exact inv.goto allowed
  | hand t u b idle held => exact hand_inv inv idle held

theorem initial_inv (zero : D) (disk : UInt32 → D) : Inv (initial zero disk) := by
  refine ⟨⟨_, Cache.linkAll_filed bucketOf zero⟩, ?_, ?_, by simp [initial], fun _ => trivial⟩
  · intro i j nonzero
    simp [initial, binit, Cache.linkAll_buf, Cache.blank] at nonzero
  · intro i
    simp [initial, binit, Cache.linkAll_buf, Cache.blank, State.refCount]

/-- The states the threads reach while no buffer has 2^32 or more outstanding references. -/
def BoundedReachable (s : State D) : Prop :=
  ∃ zero disk, Relation.ReflTransGen (fun a b => Step a b ∧ Bounded b) (initial zero disk) s

theorem BoundedReachable.inv (h : BoundedReachable s) : Inv s ∧ Bounded s := by
  obtain ⟨zero, disk, steps⟩ := h
  induction steps with
  | refl => exact ⟨initial_inv zero disk, fun b => by simp [initial, State.refCount]⟩
  | tail _ last ih => exact ⟨last.1.inv ih.1 ih.2, last.2⟩

end Xv6Labs.Bio.Hashed
