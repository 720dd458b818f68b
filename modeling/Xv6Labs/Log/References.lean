import Xv6Labs.Log.Recover

/-!
# Buffer references while the file system runs

`refcnt` of a buffer counts the process that holds it, the processes that wait for it or are about to drop it, and
the log's pin. There are at most `NPROC` processes, so it does not wrap around, and a buffer with a reference is
never recycled.
-/

namespace Xv6Labs.Log

open Bio Threads Prog

variable {sb : Superblock} {t u : Tid} {s s' : Kernel} {b i j : Fin nbuf} {blockno : UInt32}

/-- The log pins the buffer: `install_trans` has not got to its block yet. -/
def Pinned (s : Kernel) (i : Fin nbuf) : Prop :=
  (s.buf i).dev = rootdev ∧ ∃ k, s.unpinned ≤ k ∧ k < s.ctl.log.n ∧ s.ctl.log.block k = (s.buf i).blockno

def holds (owner : Option Tid) : ℕ := if owner = none then 0 else 1

def waits (i : Fin nbuf) (busy : Option (Fin nbuf)) : ℕ := if busy = some i then 1 else 0

open Classical in
noncomputable def pins (s : Kernel) (i : Fin nbuf) : ℕ := if Pinned s i then 1 else 0

noncomputable def refCount (s : Kernel) (i : Fin nbuf) : ℕ :=
  holds (s.lock i) + ∑ t, waits i (s.busy t) + pins s i

structure RefInv (s : Kernel) : Prop where
  filed : ∃ l, s.cache.Filed Single.listOf l
  distinct : s.cache.Distinct
  control : Inv s.ctl
  refs : ∀ i, (s.buf i).refcnt = UInt32.ofNat (refCount s i)
  cached : ∀ k, s.unpinned ≤ k → k < s.ctl.log.n → s.cache.Cached rootdev (s.ctl.log.block k)
  pinned : (∀ t, ¬(s.ctl.phase t).Committing) → s.unpinned = 0

theorem refCount_lt (s : Kernel) (i : Fin nbuf) : refCount s i < 2 ^ 32 := by
  have most : ∑ t, waits i (s.busy t) ≤ ∑ _t : Tid, 1 := by
    apply Finset.sum_le_sum
    intro t _
    unfold waits
    split <;> omega
  simp only [Finset.sum_const, Finset.card_univ, Fintype.card_fin, nsmul_eq_mul, Nat.cast_id, Nat.mul_one] at most
  unfold refCount holds pins
  unfold nproc at most
  split <;> split <;> omega

theorem RefInv.refcnt_zero (inv : RefInv s) (i : Fin nbuf) : (s.buf i).refcnt = 0 ↔ refCount s i = 0 := by
  rw [inv.refs, ← UInt32.toNat_inj, UInt32.toNat_ofNat_of_lt' (refCount_lt s i), UInt32.toNat_zero]

theorem waits_le (s : Kernel) (t : Tid) (i : Fin nbuf) : waits i (s.busy t) ≤ ∑ t, waits i (s.busy t) :=
  Finset.single_le_sum (f := fun t => waits i (s.busy t)) (fun _ _ => Nat.zero_le _) (Finset.mem_univ t)

/-- A buffer with a reference is not recycled. -/
theorem RefInv.used (inv : RefInv s) (some : (∃ t, s.lock i = some t) ∨ (∃ t, s.busy t = some i) ∨ Pinned s i) :
    (s.buf i).refcnt ≠ 0 := by
  rw [Ne, inv.refcnt_zero]
  unfold refCount
  rcases some with ⟨t, held⟩ | ⟨t, waiting⟩ | pinned
  · have : holds (s.lock i) = 1 := by
      rw [held]
      rfl
    omega
  · have one := waits_le s t i
    have : waits i (s.busy t) = 1 := by
      rw [waiting]
      exact if_pos rfl
    omega
  · have : pins s i = 1 := if_pos pinned
    omega

/-! ### Changes of the cache, the locks and the waiting processes -/

/-- What carries over to a memory in which a reference may have moved or changed, but not the log. -/
theorem RefInv.change (inv : RefInv s) (filed : ∃ l, s'.cache.Filed Single.listOf l) (distinct : s'.cache.Distinct)
    (ctl : s'.ctl = s.ctl) (unpinned : s'.unpinned = s.unpinned)
    (refs : ∀ i, (s'.buf i).refcnt = UInt32.ofNat (refCount s' i))
    (kept : ∀ i, Pinned s i → (s'.buf i).dev = (s.buf i).dev ∧ (s'.buf i).blockno = (s.buf i).blockno) :
    RefInv s' := by
  refine ⟨filed, distinct, by rw [ctl]; exact inv.control, refs, fun k low high => ?_, ?_⟩
  · rw [unpinned] at low
    rw [ctl] at high ⊢
    obtain ⟨i, root, there⟩ := inv.cached k low high
    obtain ⟨devs, blocks⟩ := kept i ⟨root, k, low, high, there.symm⟩
    exact ⟨i, devs.trans root, blocks.trans there⟩
  · rw [ctl, unpinned]
    exact inv.pinned

theorem pinned_congr (log : s'.ctl.log = s.ctl.log) (unpinned : s'.unpinned = s.unpinned)
    (devs : (s'.buf i).dev = (s.buf i).dev) (blocks : (s'.buf i).blockno = (s.buf i).blockno) :
    Pinned s' i ↔ Pinned s i := by
  unfold Pinned
  rw [log, unpinned, devs, blocks]

theorem Pinned.of (pinned : Pinned s' i) (log : s'.ctl.log = s.ctl.log) (unpinned : s'.unpinned = s.unpinned)
    (devs : (s'.buf i).dev = (s.buf i).dev) (blocks : (s'.buf i).blockno = (s.buf i).blockno) : Pinned s i :=
  (pinned_congr log unpinned devs blocks).mp pinned

theorem pins_congr (same : Pinned s' i ↔ Pinned s i) : pins s' i = pins s i := by
  classical exact if_congr same rfl rfl

theorem waits_update (s : Kernel) (t : Tid) (x : Option (Fin nbuf)) (i : Fin nbuf) :
    ∑ u, waits i (Function.update s.busy t x u) + waits i (s.busy t) = ∑ u, waits i (s.busy u) + waits i x :=
  sum_update (waits i) s.busy t x

theorem waits_none (i : Fin nbuf) : waits i none = 0 := rfl

theorem waits_self (i : Fin nbuf) : waits i (some i) = 1 := if_pos rfl

theorem waits_other (ne : i ≠ b) : waits i (some b) = 0 := if_neg (by simpa using Ne.symm ne)

/-- A reference that passes between the sleep-lock and a process that waits or is about to drop it. -/
theorem RefInv.move (inv : RefInv s) (owner : Option Tid) (x : Option (Fin nbuf))
    (here : holds owner + waits b x = holds (s.lock b) + waits b (s.busy t))
    (others : ∀ i, i ≠ b → waits i x = waits i (s.busy t)) :
    RefInv { s with lock := Function.update s.lock b owner, busy := Function.update s.busy t x } := by
  refine inv.change inv.filed inv.distinct rfl rfl (fun i => (inv.refs i).trans (congrArg UInt32.ofNat ?_))
    fun i _ => ⟨rfl, rfl⟩
  have moved := waits_update s t x i
  have pinned : pins { s with
      lock := Function.update s.lock b owner, busy := Function.update s.busy t x } i = pins s i := rfl
  unfold refCount
  rw [pinned]
  simp only
  by_cases same : i = b
  · subst same
    rw [Function.update_self]
    omega
  · rw [Function.update_of_ne same]
    have := others i same
    omega

theorem RefInv.acquiresleep (inv : RefInv s) (waiting : s.busy t = some b) (free : s.lock b = none) :
    RefInv { s with lock := Function.update s.lock b (some t), busy := Function.update s.busy t none } := by
  apply inv.move
  · rw [waiting, free, waits_self]
    rfl
  · intro i other
    rw [waiting, waits_other other, waits_none]

theorem RefInv.releasesleep (inv : RefInv s) (idle : s.busy t = none) (held : s.lock b = some t) :
    RefInv { s with lock := Function.update s.lock b none, busy := Function.update s.busy t (some b) } := by
  apply inv.move
  · rw [idle, held, waits_self]
    rfl
  · intro i other
    rw [idle, waits_other other, waits_none]

/-- A process that gets or gives up one reference. -/
theorem refCount_busy {c : Cache Single.heads Block} (x : Option (Fin nbuf))
    (same : (c.buf (.buf i)).dev = (s.buf i).dev ∧ (c.buf (.buf i)).blockno = (s.buf i).blockno) :
    refCount { s with cache := c, busy := Function.update s.busy t x } i + waits i (s.busy t) =
      refCount s i + waits i x := by
  have moved := waits_update s t x i
  have pinned : pins { s with cache := c, busy := Function.update s.busy t x } i = pins s i :=
    pins_congr (pinned_congr rfl rfl same.1 same.2)
  unfold refCount
  rw [pinned]
  simp only
  omega

theorem drop_spec (c : Cache Single.heads Block) (b i : Fin nbuf) :
    ((c.drop 0 (.buf b)).buf (.buf i)).dev = (c.buf (.buf i)).dev ∧
      ((c.drop 0 (.buf b)).buf (.buf i)).blockno = (c.buf (.buf i)).blockno ∧
      ((c.drop 0 (.buf b)).buf (.buf i)).refcnt = (c.buf (.buf i)).refcnt - if i = b then 1 else 0 := by
  have dec := c.decRef_spec (.buf b) (.buf i)
  rw [Cache.drop_buf]
  simpa using dec

theorem RefInv.drop (inv : RefInv s) (waiting : s.busy t = some b) :
    RefInv { s with cache := s.cache.drop 0 (.buf b), busy := Function.update s.busy t none } := by
  obtain ⟨l, filed⟩ := inv.filed
  have spec := drop_spec s.cache b
  refine inv.change (filed.drop rfl) (inv.distinct.congr (fun i => (spec i).1) fun i => (spec i).2.1) rfl rfl
    (fun i => ?_) fun i _ => ⟨(spec i).1, (spec i).2.1⟩
  have count := refCount_busy (t := t) none ⟨(spec i).1, (spec i).2.1⟩
  rw [waiting, waits_none] at count
  rw [Kernel.buf, (spec i).2.2, show (s.cache.buf (.buf i)).refcnt = _ from inv.refs i, ← Nat.add_zero (refCount s i),
    ← count]
  by_cases here : i = b
  · subst here
    rw [waits_self, if_pos rfl, UInt32.ofNat_add]
    simp
  · rw [waits_other here, if_neg here, UInt32.sub_zero, Nat.add_zero]

/-- A step that changes the contents of buffers only. -/
theorem RefInv.data (inv : RefInv s) (filed : ∃ l, s'.cache.Filed Single.listOf l)
    (same : ∀ i, (s'.buf i).dev = (s.buf i).dev ∧ (s'.buf i).blockno = (s.buf i).blockno ∧
      (s'.buf i).refcnt = (s.buf i).refcnt)
    (ctl : s'.ctl = s.ctl) (unpinned : s'.unpinned = s.unpinned) (lock : s'.lock = s.lock) (busy : s'.busy = s.busy) :
    RefInv s' := by
  refine inv.change filed (inv.distinct.congr (fun i => (same i).1) fun i => (same i).2.1) ctl unpinned (fun i => ?_)
    fun i _ => ⟨(same i).1, (same i).2.1⟩
  have pinned : pins s' i = pins s i := pins_congr (pinned_congr (by rw [ctl]) unpinned (same i).1 (same i).2.1)
  have count : refCount s' i = refCount s i := by
    unfold refCount
    rw [lock, busy, pinned]
  rw [(same i).2.2, inv.refs i, count]

theorem RefInv.hit (inv : RefInv s) (idle : s.busy t = none) (b : Fin nbuf) :
    RefInv { s with cache := s.cache.incRef (.buf b), busy := Function.update s.busy t (some b) } := by
  obtain ⟨l, filed⟩ := inv.filed
  have spec : ∀ i, _ := fun i => s.cache.incRef_spec (.buf b) (.buf i)
  simp only [Node.buf.injEq] at spec
  refine inv.change ⟨l, filed.setBuf rfl⟩ (inv.distinct.congr (fun i => (spec i).1) fun i => (spec i).2.1) rfl rfl
    (fun i => ?_) fun i _ => ⟨(spec i).1, (spec i).2.1⟩
  have count := refCount_busy (t := t) (some b) ⟨(spec i).1, (spec i).2.1⟩
  rw [idle, waits_none, Nat.add_zero] at count
  rw [Kernel.buf, (spec i).2.2, show (s.cache.buf (.buf i)).refcnt = _ from inv.refs i, count, UInt32.ofNat_add]
  by_cases here : i = b
  · subst here
    rw [waits_self, if_pos rfl]
    rfl
  · rw [waits_other here, if_neg here]
    rfl

theorem RefInv.recycled (inv : RefInv s) (idle : s.busy t = none) (miss : ¬s.cache.Cached rootdev blockno)
    (unused : (s.buf b).refcnt = 0) {c : Cache Single.heads Block}
    (bufs : c.buf = (s.cache.assign (.buf b) rootdev blockno).buf) (filed : ∃ l, c.Filed Single.listOf l) :
    RefInv { s with cache := c, busy := Function.update s.busy t (some b) } := by
  have others : ∀ i, i ≠ b → c.buf (.buf i) = s.buf i := by
    intro i other
    rw [bufs, Cache.assign_other other]
  have here : c.buf (.buf b) = { s.buf b with dev := rootdev, blockno := blockno, valid := false, refcnt := 1 } := by
    rw [bufs, Cache.assign, Cache.setBuf_self]
  have zero := (inv.refcnt_zero b).mp unused
  refine inv.change filed ((inv.distinct.assign miss).congr (fun i => by rw [bufs]) fun i => by rw [bufs]) rfl rfl
    (fun i => ?_) fun i pinned => ?_
  · by_cases same : i = b
    · subst same
      have moved := waits_update s t (some i) i
      have unlisted : pins { s with cache := c, busy := Function.update s.busy t (some i) } i = 0 := by
        apply if_neg
        rintro ⟨-, k, low, high, there⟩
        simp only [Kernel.buf, here] at there
        have cached := inv.cached k low high
        rw [show s.ctl.log.block k = blockno from there] at cached
        exact miss cached
      have one : refCount { s with cache := c, busy := Function.update s.busy t (some i) } i = 1 := by
        unfold refCount at zero ⊢
        rw [idle, waits_none, waits_self] at moved
        rw [unlisted]
        simp only
        omega
      rw [Kernel.buf, here, one]
      rfl
    · have count := refCount_busy (s := s) (t := t) (i := i) (c := c) (some b) (by rw [others i same]; exact ⟨rfl, rfl⟩)
      rw [idle, waits_none, waits_other same, Nat.add_zero, Nat.add_zero] at count
      rw [Kernel.buf, others i same, count, inv.refs i]
  · have other : i ≠ b := by
      rintro rfl
      exact inv.used (.inr (.inr pinned)) unused
    rw [Kernel.buf, others i other]
    exact ⟨rfl, rfl⟩

/-! ### Changes of the log -/

theorem RefInv.bunpin (inv : RefInv s) (busy : (s.ctl.phase t).Committing) (root : (s.buf b).dev = rootdev)
    (more : s.unpinned < s.ctl.log.n) (next : s.ctl.log.block s.unpinned = (s.buf b).blockno) :
    RefInv { s with cache := s.cache.decRef (.buf b), unpinned := s.unpinned + 1 } := by
  obtain ⟨l, filed⟩ := inv.filed
  have spec : ∀ i, _ := fun i => s.cache.decRef_spec (.buf b) (.buf i)
  simp only [Node.buf.injEq] at spec
  have same : ∀ i, Pinned { s with cache := s.cache.decRef (.buf b), unpinned := s.unpinned + 1 } i ↔
      Pinned s i ∧ i ≠ b := by
    intro i
    unfold Pinned
    simp only [Kernel.buf, (spec i).1, (spec i).2.1]
    constructor
    · rintro ⟨devs, k, low, high, there⟩
      refine ⟨⟨devs, k, by omega, high, there⟩, ?_⟩
      rintro rfl
      have := inv.control.distinct k high s.unpinned more (there.trans next.symm)
      omega
    · rintro ⟨⟨devs, k, low, high, there⟩, other⟩
      have later : k ≠ s.unpinned := by
        rintro rfl
        exact other (inv.distinct i b (by rw [devs]; decide) (devs.trans root.symm) (there.symm.trans next))
      exact ⟨devs, k, by omega, high, there⟩
  refine ⟨⟨l, filed.setBuf rfl⟩, inv.distinct.congr (fun i => (spec i).1) fun i => (spec i).2.1, inv.control,
    fun i => ?_, fun k low high => ?_, fun calm => (calm t busy).elim⟩
  · have count : refCount { s with cache := s.cache.decRef (.buf b), unpinned := s.unpinned + 1 } i +
        (if i = b then 1 else 0) = refCount s i := by
      unfold refCount
      simp only
      by_cases here : i = b
      · subst here
        have before : pins s i = 1 := if_pos ⟨root, s.unpinned, Nat.le_refl _, more, next⟩
        have after : pins { s with cache := s.cache.decRef (.buf i), unpinned := s.unpinned + 1 } i = 0 :=
          if_neg fun pinned => ((same i).mp pinned).2 rfl
        rw [before, after, if_pos rfl]
      · rw [if_neg here, pins_congr ((same i).trans (and_iff_left here)), Nat.add_zero]
    rw [Kernel.buf, (spec i).2.2, show (s.cache.buf (.buf i)).refcnt = _ from inv.refs i, ← count, UInt32.ofNat_add]
    by_cases here : i = b
    · rw [if_pos here, if_pos here]
      simp
    · rw [if_neg here, if_neg here]
      simp
  · obtain ⟨i, devs, there⟩ := inv.cached k (Nat.le_of_succ_le low) high
    exact ⟨i, by rw [(spec i).1, devs], by rw [(spec i).2.1, there]⟩

/-- A step of the control state that leaves the list alone. -/
theorem RefInv.phases (inv : RefInv s) (control : Inv s'.ctl) (cache : s'.cache = s.cache) (lock : s'.lock = s.lock)
    (busy : s'.busy = s.busy) (unpinned : s'.unpinned = s.unpinned) (count : s'.ctl.log.n = s.ctl.log.n)
    (block : s'.ctl.log.block = s.ctl.log.block)
    (pinned : (∀ t, ¬(s'.ctl.phase t).Committing) → s.unpinned = 0) : RefInv s' := by
  refine ⟨by rw [cache]; exact inv.filed, by rw [cache]; exact inv.distinct, control, fun i => ?_,
    fun k low high => ?_, fun calm => by rw [unpinned]; exact pinned calm⟩
  · have pins : pins s' i = pins s i := by
      apply pins_congr
      unfold Pinned
      rw [unpinned, count, block, Kernel.buf, cache]
    have same : refCount s' i = refCount s i := by
      unfold refCount
      rw [lock, busy, pins]
    rw [Kernel.buf, cache, same]
    exact inv.refs i
  · rw [unpinned] at low
    rw [count] at high
    rw [cache, block]
    exact inv.cached k low high

theorem RefInv.clear (inv : RefInv s) (phase : s.ctl.phase t = .commit) (all : s.unpinned = s.ctl.log.n) :
    RefInv (s.clear t) := by
  have control : Inv (s.clear t).ctl := by
    have step : next 0 s.ctl t .clear = some (s.clear t).ctl := by
      unfold next Kernel.clear State.goto
      simp only [phase, if_true]
    exact next_inv inv.control step
  refine ⟨inv.filed, inv.distinct, control, fun i => ?_, fun k _ high => (Nat.not_lt_zero k high).elim, fun _ => rfl⟩
  have before : pins s i = 0 := by
    apply if_neg
    rintro ⟨-, k, low, high, -⟩
    omega
  have after : pins (s.clear t) i = 0 := by
    apply if_neg
    rintro ⟨-, k, -, high, -⟩
    exact Nat.not_lt_zero k high
  have count : refCount (s.clear t) i = refCount s i := by
    unfold refCount
    rw [before, after]
    rfl
  rw [count]
  exact inv.refs i

/-- The log lists and pins one more block. -/
theorem RefInv.pin (inv : RefInv s) (control : Inv s'.ctl) (root : (s.buf b).dev = rootdev)
    (absent : ¬s.ctl.log.Listed (s.buf b).blockno) (zero : s.unpinned = 0)
    (cache : s'.cache = s.cache.incRef (.buf b)) (lock : s'.lock = s.lock) (busy : s'.busy = s.busy)
    (unpinned : s'.unpinned = 0) (grown : s'.ctl.log.n = s.ctl.log.n + 1)
    (block : s'.ctl.log.block = Function.update s.ctl.log.block s.ctl.log.n (s.buf b).blockno) : RefInv s' := by
  obtain ⟨l, filed⟩ := inv.filed
  have spec : ∀ i, _ := fun i => s.cache.incRef_spec (.buf b) (.buf i)
  simp only [Node.buf.injEq, ← cache] at spec
  have pinned : ∀ i, Pinned s' i ↔ Pinned s i ∨ i = b := by
    intro i
    unfold Pinned
    rw [Kernel.buf, (spec i).1, (spec i).2.1, unpinned, zero, grown, block]
    constructor
    · rintro ⟨devs, k, low, high, there⟩
      by_cases new : k = s.ctl.log.n
      · subst new
        rw [Function.update_self] at there
        exact .inr (inv.distinct i b (by rw [devs]; decide) (devs.trans root.symm) there.symm)
      · rw [Function.update_of_ne new] at there
        exact .inl ⟨devs, k, low, by omega, there⟩
    · rintro (⟨devs, k, low, high, there⟩ | rfl)
      · exact ⟨devs, k, low, by omega, by rwa [Function.update_of_ne (Nat.ne_of_lt high)]⟩
      · exact ⟨root, s.ctl.log.n, Nat.zero_le _, Nat.lt_succ_self _, Function.update_self _ _ _⟩
  have fresh : ¬Pinned s b := by
    rintro ⟨-, k, -, high, there⟩
    exact absent ⟨k, high, there⟩
  have count : ∀ i, refCount s' i = refCount s i + if i = b then 1 else 0 := by
    intro i
    unfold refCount
    rw [lock, busy]
    by_cases here : i = b
    · subst here
      have before : pins s i = 0 := if_neg fresh
      have after : pins s' i = 1 := if_pos ((pinned i).mpr (.inr rfl))
      rw [before, after, if_pos rfl]
    · rw [if_neg here, pins_congr ((pinned i).trans (or_iff_left here)), Nat.add_zero]
  refine ⟨by rw [cache]; exact ⟨l, filed.setBuf rfl⟩,
    inv.distinct.congr (fun i => (spec i).1) fun i => (spec i).2.1, control, fun i => ?_, fun k low high => ?_,
    fun _ => unpinned⟩
  · rw [Kernel.buf, (spec i).2.2, show (s.cache.buf (.buf i)).refcnt = _ from inv.refs i, count, UInt32.ofNat_add]
    by_cases here : i = b
    · rw [if_pos here, if_pos here]
      rfl
    · rw [if_neg here, if_neg here]
      rfl
  · rw [grown] at high
    rw [block]
    by_cases new : k = s.ctl.log.n
    · subst new
      rw [Function.update_self]
      exact ⟨b, (spec b).1.trans root, (spec b).2.1⟩
    · rw [Function.update_of_ne new]
      obtain ⟨i, devs, there⟩ := inv.cached k (by omega) (by omega)
      exact ⟨i, (spec i).1.trans devs, (spec i).2.1.trans there⟩

theorem append_next {logged : Finset UInt32} (phase : s.ctl.phase t = .checked logged blockno) :
    next sb.nlog s.ctl t .append = some ({ s.ctl with
      log := s.ctl.log.append blockno, trans := insert blockno s.ctl.trans }.goto t
        (.inOp (insert blockno logged))) := by
  unfold next
  rw [phase]

theorem RefInv.append (sb : Superblock) (inv : RefInv s) {logged : Finset UInt32} (root : (s.buf b).dev = rootdev)
    (phase : s.ctl.phase t = .checked logged (s.buf b).blockno) {ctl : State}
    (step : next sb.nlog s.ctl t .append = some ctl) : RefInv (s.append t b ctl) := by
  have control := next_inv inv.control step
  have appended : ctl.log = s.ctl.log.append (s.buf b).blockno := by
    rw [append_next phase] at step
    cases step
    rfl
  have zero : s.unpinned = 0 := inv.pinned (inv.control.quiet (inv.control.calm (t := t) (by rw [phase]; rfl)))
  rcases s.ctl.log.slot_spec (s.buf b).blockno with ⟨small, there⟩ | ⟨last, absent⟩
  · -- A block that is listed is not pinned again.
    have log := append_listed ⟨_, small, there⟩
    apply inv.phases control
    · simp only [Kernel.append, if_neg (Nat.ne_of_lt small)]
    · rfl
    · rfl
    · rfl
    · change ctl.log.n = _
      rw [appended, log]
    · change ctl.log.block = _
      rw [appended, log]
    · exact fun _ => zero
  · apply inv.pin control root absent zero
    · exact if_pos last
    · rfl
    · rfl
    · exact zero
    · change ctl.log.n = _
      rw [appended, append_new absent]
    · change ctl.log.block = _
      rw [appended, append_new absent]

end Xv6Labs.Log
