import Xv6Labs.Log.Durable

/-!
# What processes owe each other

A process relies on the buffers it has locked, on the buffer it waits for, and, while it commits, on the log, the
disk and the history. `rules` is the invariant together with these; this module shows that `bread`, `brelse` and the
single actions keep them.
-/

namespace Xv6Labs.Log

open Bio Threads Prog

variable {sb : Superblock} {disk₀ : UInt32 → Block} {t u : Tid} {s s' s'' : Kernel} {b i j : Fin nbuf}
  {blockno n : UInt32}

structure Same (x y : Buf Block) : Prop where
  dev : y.dev = x.dev
  blockno : y.blockno = x.blockno
  valid : y.valid = x.valid
  data : y.data = x.data

theorem Same.refl (x : Buf Block) : Same x x := ⟨rfl, rfl, rfl, rfl⟩

theorem Same.trans {x y z : Buf Block} (left : Same x y) (right : Same y z) : Same x z :=
  ⟨right.dev.trans left.dev, right.blockno.trans left.blockno, right.valid.trans left.valid,
    right.data.trans left.data⟩

structure Frozen (s s' : Kernel) : Prop where
  log : s'.ctl.log = s.ctl.log
  disk : s'.disk = s.disk
  writes : s'.writes = s.writes
  unpinned : s'.unpinned = s.unpinned
  ops : s'.ops = s.ops
  durable : s'.durable = s.durable
  short : s'.short = s.short

theorem Frozen.refl (s : Kernel) : Frozen s s := ⟨rfl, rfl, rfl, rfl, rfl, rfl, rfl⟩

theorem Frozen.trans (left : Frozen s s') (right : Frozen s' s'') : Frozen s s'' :=
  ⟨right.log.trans left.log, right.disk.trans left.disk, right.writes.trans left.writes,
    right.unpinned.trans left.unpinned, right.ops.trans left.ops, right.durable.trans left.durable,
    right.short.trans left.short⟩

/-- What process `t` finds again after steps of others, or after calls of its own that do not concern it. -/
structure Keeps (t : Tid) (s s' : Kernel) : Prop where
  held : ∀ i, s.lock i = some t → s'.lock i = some t ∧ s'.dirty i = s.dirty i ∧ Same (s.buf i) (s'.buf i)
  phase : s'.ctl.phase t = s.ctl.phase t
  frozen : (s.ctl.phase t).Committing → Frozen s s'
  short : s'.short = false → s.short = false

theorem Keeps.refl (t : Tid) (s : Kernel) : Keeps t s s :=
  ⟨fun _ held => ⟨held, rfl, .refl _⟩, rfl, fun _ => .refl s, id⟩

theorem Keeps.trans (left : Keeps t s s') (right : Keeps t s' s'') : Keeps t s s'' := by
  refine ⟨fun i held => ?_, right.phase.trans left.phase, fun busy => ?_, fun fits => left.short (right.short fits)⟩
  · obtain ⟨held', dirty, same⟩ := left.held i held
    obtain ⟨held'', dirty', same'⟩ := right.held i held'
    exact ⟨held'', dirty'.trans dirty, same.trans same'⟩
  · exact (left.frozen busy).trans (right.frozen (by rw [left.phase]; exact busy))

structure Frame (t : Tid) (s s' : Kernel) : Prop extends Keeps t s s' where
  mine : ∀ i, s'.lock i = some t → s.lock i = some t
  busy : s'.busy t = s.busy t
  waiting : ∀ i, s.busy t = some i → (s'.buf i).dev = (s.buf i).dev ∧ (s'.buf i).blockno = (s.buf i).blockno

theorem Frame.refl (t : Tid) (s : Kernel) : Frame t s s :=
  ⟨.refl t s, fun _ held => held, rfl, fun _ _ => ⟨rfl, rfl⟩⟩

theorem Frame.trans (left : Frame t s s') (right : Frame t s' s'') : Frame t s s'' := by
  refine ⟨left.toKeeps.trans right.toKeeps, fun i held => left.mine i (right.mine i held),
    right.busy.trans left.busy, fun i waiting => ?_⟩
  obtain ⟨devs, blocks⟩ := left.waiting i waiting
  obtain ⟨devs', blocks'⟩ := right.waiting i (left.busy.trans waiting)
  exact ⟨devs'.trans devs, blocks'.trans blocks⟩

/-- Pinned buffers are valid, and a commit that has cleared the list leaves it empty. -/
structure PinInv (s : Kernel) : Prop where
  valid : ∀ i, Pinned s i → (s.buf i).valid = true
  cleared : ∀ t, s.ctl.phase t = .cleared → s.ctl.log.n = 0

theorem PinInv.buffers (inv : PinInv s) (ctl : s'.ctl = s.ctl)
    (kept : ∀ i, Pinned s' i → Pinned s i ∧ ((s.buf i).valid = true → (s'.buf i).valid = true)) : PinInv s' := by
  constructor
  · intro i pinned
    obtain ⟨before, valid⟩ := kept i pinned
    exact valid (inv.valid i before)
  · rw [ctl]
    exact inv.cleared

theorem PinInv.same (inv : PinInv s) (ctl : s'.ctl = s.ctl) (unpinned : s'.unpinned = s.unpinned)
    (same : ∀ i, Same (s.buf i) (s'.buf i)) : PinInv s' := by
  apply inv.buffers ctl
  intro i pinned
  exact ⟨pinned.of (by rw [ctl]) unpinned (same i).dev (same i).blockno, fun valid => (same i).valid.trans valid⟩

theorem PinInv.phases (inv : PinInv s) {phase : Phase}
    (phases : s'.ctl.phase = Function.update s.ctl.phase t phase) (other : phase ≠ .cleared)
    (count : s'.ctl.log.n = s.ctl.log.n) (block : s'.ctl.log.block = s.ctl.log.block) (cache : s'.cache = s.cache)
    (unpinned : s'.unpinned = s.unpinned) : PinInv s' := by
  constructor
  · intro i pinned
    unfold Pinned at pinned
    rw [unpinned, count, block, Kernel.buf, cache] at pinned
    rw [Kernel.buf, cache]
    exact inv.valid i pinned
  · intro u cleared
    rw [phases] at cleared
    rw [count]
    by_cases same : u = t
    · rw [same, Function.update_self] at cleared
      exact (other cleared).elim
    · rw [Function.update_of_ne same] at cleared
      exact inv.cleared u cleared

/-- A buffer that was changed and not logged yet is locked by a process that writes; any other buffer agrees with the
disk, unless the log still pins it. -/
structure CleanInv (s : Kernel) : Prop where
  dirty : ∀ i, s.dirty i = true → ∃ t, s.lock i = some t ∧ (s.ctl.phase t).Writing
  agree : ∀ i, (s.buf i).dev = rootdev → (s.buf i).valid = true → s.dirty i = false → ¬Pinned s i →
    (s.buf i).data = s.disk (s.buf i).blockno

theorem CleanInv.unlocked (inv : CleanInv s) (free : s.lock i = none) : s.dirty i = false := by
  by_contra dirty
  obtain ⟨t, held, -⟩ := inv.dirty i (by simpa using dirty)
  rw [free] at held
  cases held

/-- A step that changes locks and phases only. -/
theorem CleanInv.same (inv : CleanInv s) (same : ∀ i, Same (s.buf i) (s'.buf i)) (disk : s'.disk = s.disk)
    (dirt : s'.dirty = s.dirty) (pinned : ∀ i, Pinned s i → Pinned s' i)
    (held : ∀ i t, s.dirty i = true → s.lock i = some t → (s.ctl.phase t).Writing →
      s'.lock i = some t ∧ (s'.ctl.phase t).Writing) : CleanInv s' := by
  constructor
  · intro i dirty
    rw [dirt] at dirty
    obtain ⟨t, mine, writing⟩ := inv.dirty i dirty
    exact ⟨t, held i t dirty mine writing⟩
  · intro i root valid clean unpinned
    rw [(same i).dev] at root
    rw [(same i).valid] at valid
    rw [dirt] at clean
    rw [(same i).data, (same i).blockno, disk]
    exact inv.agree i root valid clean fun before => unpinned (pinned i before)

theorem CleanInv.phases (inv : CleanInv s) {phase : Phase} (cache : s'.cache = s.cache) (disk : s'.disk = s.disk)
    (dirt : s'.dirty = s.dirty) (lock : s'.lock = s.lock)
    (phases : s'.ctl.phase = Function.update s.ctl.phase t phase) (count : s'.ctl.log.n = s.ctl.log.n)
    (block : s'.ctl.log.block = s.ctl.log.block) (unpinned : s'.unpinned = s.unpinned)
    (released : phase.Writing ∨ ∀ i, s.lock i = some t → s.dirty i = false) : CleanInv s' := by
  apply inv.same _ disk dirt
  · intro i pinned
    unfold Pinned at pinned ⊢
    rw [unpinned, count, block, Kernel.buf, cache]
    exact pinned
  · intro i u dirty mine writing
    rw [lock, phases]
    refine ⟨mine, ?_⟩
    by_cases same : u = t
    · subst same
      rw [Function.update_self]
      rcases released with now | clean
      · exact now
      · rw [clean i mine] at dirty
        cases dirty
    · rw [Function.update_of_ne same]
      exact writing
  · intro i
    rw [Kernel.buf, Kernel.buf, cache]
    exact .refl _

structure Good (sb : Superblock) (disk₀ : UInt32 → Block) (s : Kernel) : Prop where
  refs : RefInv s
  pins : PinInv s
  clean : CleanInv s
  data : s.short = false → DataInv sb disk₀ s

def rules (sb : Superblock) (disk₀ : UInt32 → Block) : Rules Tid Kernel :=
  ⟨Good sb disk₀, Frame, Frame.refl, fun _ => Frame.trans⟩

abbrev Wp (sb : Superblock) (disk₀ : UInt32 → Block) {α : Type} (t : Tid) (p : Code α) (post : α → Kernel → Prop)
    (s : Kernel) : Prop :=
  wp (rules sb disk₀) (exec sb) t p post s

/-! ### Actions on buffers -/

/-- A step of `t` that leaves the log and the disk alone. -/
theorem frame_of_buffers (lock : ∀ i, s.lock i = some u ↔ s'.lock i = some u)
    (held : ∀ i, s.lock i = some u → s'.dirty i = s.dirty i ∧ Same (s.buf i) (s'.buf i))
    (busy : s'.busy u = s.busy u)
    (waiting : ∀ i, s.busy u = some i → (s'.buf i).dev = (s.buf i).dev ∧ (s'.buf i).blockno = (s.buf i).blockno)
    (ctl : s'.ctl = s.ctl) (frozen : Frozen s s') : Frame u s s' :=
  ⟨⟨fun i mine => ⟨(lock i).mp mine, held i mine⟩, by rw [ctl], fun _ => frozen, fun fits => frozen.short ▸ fits⟩,
    fun i mine => (lock i).mpr mine, busy, waiting⟩

theorem incRef_same (c : Cache Single.heads Block) (b i : Fin nbuf) :
    Same (c.buf (.buf i)) ((c.incRef (.buf b)).buf (.buf i)) := by
  by_cases here : i = b
  · subst here
    simp only [Cache.incRef, Cache.setBuf_self]
    exact ⟨rfl, rfl, rfl, rfl⟩
  · rw [Cache.incRef, Cache.setBuf_of_ne _ (by simpa using here)]
    exact .refl _

theorem decRef_same (c : Cache Single.heads Block) (b i : Fin nbuf) :
    Same (c.buf (.buf i)) ((c.decRef (.buf b)).buf (.buf i)) := by
  by_cases here : i = b
  · subst here
    simp only [Cache.decRef, Cache.setBuf_self]
    exact ⟨rfl, rfl, rfl, rfl⟩
  · rw [Cache.decRef, Cache.setBuf_of_ne _ (by simpa using here)]
    exact .refl _

/-- `bget` leaves alone every buffer that is referenced. -/
theorem bget_step (good : Good sb disk₀ s) (idle : s.busy t = none)
    (h : exec sb t (.bget blockno) s = some (b, s')) :
    Good sb disk₀ s' ∧ (∀ u, u ≠ t → Frame u s s') ∧ Keeps t s s' ∧ s'.lock = s.lock ∧ s'.busy t = some b ∧
      (s'.buf b).dev = rootdev ∧ (s'.buf b).blockno = blockno := by
  -- The frame is the same whichever buffer was found.
  have rest : ∀ c, (∀ i, (s.buf i).refcnt ≠ 0 → Same (s.buf i) (c.buf (.buf i))) →
      (∀ u, u ≠ t → Frame u s { s with cache := c, busy := Function.update s.busy t (some b) }) ∧
        Keeps t s { s with cache := c, busy := Function.update s.busy t (some b) } := by
    intro c same
    constructor
    · intro u other
      refine frame_of_buffers (fun _ => .rfl) (fun i held => ⟨rfl, ?_⟩) (Function.update_of_ne other _ _)
        (fun i waits => ?_) rfl ⟨rfl, rfl, rfl, rfl, rfl, rfl, rfl⟩
      · exact same i (good.refs.used (.inl ⟨u, held⟩))
      · have kept := same i (good.refs.used (.inr (.inl ⟨u, waits⟩)))
        exact ⟨kept.dev, kept.blockno⟩
    · refine ⟨fun i held => ⟨held, rfl, ?_⟩, rfl, fun _ => ⟨rfl, rfl, rfl, rfl, rfl, rfl, rfl⟩, id⟩
      exact same i (good.refs.used (.inl ⟨t, held⟩))
  rcases exec_bget good.refs.filed sb t blockno with ⟨i, devs, blocks, found⟩ |
    ⟨miss, i, c, unused, bufs, filed, found⟩ | ⟨-, -, found⟩
  · rw [found] at h
    cases h
    have same := incRef_same s.cache b
    obtain ⟨frames, keeps⟩ := rest (s.cache.incRef (.buf b)) fun i _ => same i
    refine ⟨⟨good.refs.hit idle b, good.pins.same rfl rfl same, ?_, fun fits => ?_⟩, frames, keeps, rfl,
      Function.update_self _ _ _,
      (same b).dev.trans devs, (same b).blockno.trans blocks⟩
    · exact good.clean.same same rfl rfl (fun i pinned => pinned.of rfl rfl (same i).dev.symm (same i).blockno.symm)
        fun i t _ mine writing => ⟨mine, writing⟩
    exact (good.data fits).locks (fun i => ⟨(same i).dev, (same i).blockno, (same i).valid, (same i).data⟩)
      fun _ _ => rfl
  · rw [found] at h
    cases h
    have here : c.buf (.buf b) = { s.buf b with dev := rootdev, blockno := blockno, valid := false, refcnt := 1 } := by
      rw [bufs, Cache.assign, Cache.setBuf_self]
    obtain ⟨frames, keeps⟩ := rest c fun i used => by
      have other : i ≠ b := by
        rintro rfl
        exact used unused
      rw [bufs, Cache.assign_other other]
      exact .refl _
    refine ⟨⟨good.refs.recycled idle miss unused bufs filed, good.pins.buffers rfl fun i pinned => ?_,
      ⟨good.clean.dirty, fun i root valid clean unpinned => ?_⟩, fun fits => ?_⟩,
      frames, keeps, rfl, Function.update_self _ _ _, ?_, ?_⟩
    · obtain ⟨root, k, low, high, there⟩ := pinned
      by_cases same : i = b
      · have cached := good.refs.cached k low high
        rw [same, Kernel.buf, here] at there
        rw [show s.ctl.log.block k = blockno from there] at cached
        exact (miss cached).elim
      · have kept : c.buf (.buf i) = s.buf i := by
          rw [bufs, Cache.assign_other same]
        simp only [Kernel.buf, kept] at root there ⊢
        exact ⟨⟨root, k, low, high, there⟩, id⟩
    · by_cases same : i = b
      · rw [same, Kernel.buf, here] at valid
        cases valid
      · have kept : c.buf (.buf i) = s.buf i := by
          rw [bufs, Cache.assign_other same]
        simp only [Kernel.buf, kept] at root valid ⊢
        apply good.clean.agree i root valid clean
        intro pinned
        apply unpinned
        unfold Pinned at pinned ⊢
        simp only [Kernel.buf, kept]
        exact pinned
    · exact (good.data fits).recycled good.refs miss bufs
    · rw [Kernel.buf, here]
    · rw [Kernel.buf, here]
  · rw [found] at h
    cases h

theorem acquiresleep_step (good : Good sb disk₀ s) (waiting : s.busy t = some b)
    (h : exec sb t (.acquiresleep b) s = some ((), s')) :
    Good sb disk₀ s' ∧ (∀ u, u ≠ t → Frame u s s') ∧ Keeps t s s' ∧ s.lock b = none ∧
      s' = { s with lock := Function.update s.lock b (some t), busy := Function.update s.busy t none } := by
  simp only [exec] at h
  by_cases free : s.lock b = none
  case neg =>
    rw [if_neg free] at h
    cases h
  rw [if_pos free] at h
  cases h
  have ne : ∀ i u, s.lock i = some u → i ≠ b := by
    rintro i u held rfl
    rw [free] at held
    cases held
  refine ⟨⟨good.refs.acquiresleep waiting free, good.pins.same rfl rfl fun _ => .refl _, ?_, fun fits => ?_⟩,
    fun u other => ?_, ⟨fun i held => ?_, rfl, fun _ => ⟨rfl, rfl, rfl, rfl, rfl, rfl, rfl⟩, id⟩, free, rfl⟩
  · refine good.clean.same (fun _ => .refl _) rfl rfl (fun _ pinned => pinned) fun i u _ held writing => ?_
    exact ⟨(Function.update_of_ne (ne i u held) _ _).trans held, writing⟩
  · apply (good.data fits).locks fun i => ⟨rfl, rfl, rfl, rfl⟩
    intro i dirty
    obtain ⟨u, held, -⟩ := (good.data fits).dirty i dirty
    exact Function.update_of_ne (ne i u held) _ _
  · refine frame_of_buffers (fun i => ?_) (fun i _ => ⟨rfl, .refl _⟩) (Function.update_of_ne other _ _)
      (fun i _ => ⟨rfl, rfl⟩) rfl ⟨rfl, rfl, rfl, rfl, rfl, rfl, rfl⟩
    by_cases here : i = b
    · subst here
      simp only [free, Function.update_self, reduceCtorEq, Option.some.injEq, false_iff]
      exact Ne.symm other
    · simp only [Function.update_of_ne here]
  · exact ⟨(Function.update_of_ne (ne i t held) _ _).trans held, rfl, .refl _⟩

/-- A step of `t` that changes a buffer it has locked. -/
theorem frames_of_locked (held : s.lock b = some t) (lock : s'.lock = s.lock) (busy : s'.busy = s.busy)
    (ids : ∀ i, (s'.buf i).dev = (s.buf i).dev ∧ (s'.buf i).blockno = (s.buf i).blockno)
    (others : ∀ i, i ≠ b → s'.dirty i = s.dirty i ∧ Same (s.buf i) (s'.buf i)) (ctl : s'.ctl = s.ctl)
    (frozen : Frozen s s') (u : Tid) (other : u ≠ t) : Frame u s s' := by
  refine frame_of_buffers (fun i => by rw [lock]) (fun i mine => others i ?_) (by rw [busy]) (fun i _ => ids i) ctl
    frozen
  rintro rfl
  rw [held] at mine
  exact other (Option.some.inj mine).symm

theorem fill_same (c : Cache Single.heads Block) (disk : UInt32 → Block) (other : i ≠ b) :
    Same (c.buf (.buf i)) ((c.fill (.buf b) disk).buf (.buf i)) := by
  rw [Cache.fill_other _ _ (by simpa using other)]
  exact .refl _

theorem fill_step (good : Good sb disk₀ s) (held : s.lock b = some t) :
    Good sb disk₀ { s with cache := s.cache.fill (.buf b) s.disk } ∧
      ∀ u, u ≠ t → Frame u s { s with cache := s.cache.fill (.buf b) s.disk } := by
  have spec := fun i : Fin nbuf => s.cache.fill_spec (.buf b) s.disk (.buf i)
  obtain ⟨l, filed⟩ := good.refs.filed
  have filled := s.cache.fill_self (.buf b) s.disk
  refine ⟨⟨?_, good.pins.buffers rfl fun i pinned => ?_,
    ⟨good.clean.dirty, fun i root valid clean unpinned => ?_⟩, fun fits => (good.data fits).fill b⟩, ?_⟩
  · exact good.refs.data ⟨l, filed.fill _ _⟩ spec rfl rfl rfl rfl
  · refine ⟨pinned.of rfl rfl (spec i).1 (spec i).2.1, fun valid => ?_⟩
    by_cases here : i = b
    · rw [here]
      exact filled.1
    · exact (fill_same s.cache s.disk here).valid.trans valid
  · have before : ¬Pinned s i := by
      intro pinned
      exact unpinned (pinned.of rfl rfl (spec i).1.symm (spec i).2.1.symm)
    simp only [Kernel.buf, (spec i).1, (spec i).2.1] at root ⊢
    by_cases here : i = b
    · subst here
      rw [filled.2]
      split
      case isTrue old => exact good.clean.agree i root old clean before
      case isFalse => rfl
    · have same := fill_same s.cache s.disk here
      rw [same.data]
      exact good.clean.agree i root (same.valid.symm.trans valid) clean before
  · exact frames_of_locked held rfl rfl (fun i => ⟨(spec i).1, (spec i).2.1⟩)
      (fun i other => ⟨rfl, fill_same _ _ other⟩) rfl ⟨rfl, rfl, rfl, rfl, rfl, rfl, rfl⟩

theorem setData_same (s : Kernel) (data : Block) (other : i ≠ b) :
    (s.setData b data).dirty i = s.dirty i ∧ Same (s.buf i) ((s.setData b data).buf i) := by
  refine ⟨Function.update_of_ne other _ _, ?_⟩
  rw [show (s.setData b data).buf i = s.buf i from Cache.setBuf_of_ne _ (by simpa using other)]
  exact .refl _

theorem setData_step (good : Good sb disk₀ s) (held : s.lock b = some t) (writing : (s.ctl.phase t).Writing)
    (data : Block) :
    Good sb disk₀ (s.setData b data) ∧ ∀ u, u ≠ t → Frame u s (s.setData b data) := by
  have spec := fun i => setData_spec s b i data
  obtain ⟨l, filed⟩ := good.refs.filed
  refine ⟨⟨?_, good.pins.buffers rfl fun i pinned => ⟨pinned.of rfl rfl (spec i).1 (spec i).2.1,
    fun valid => (spec i).2.2.2.trans valid⟩, ⟨fun i dirty => ?_, fun i root valid clean unpinned => ?_⟩,
    fun fits => (good.data fits).setData held writing data⟩, ?_⟩
  · exact good.refs.data ⟨l, filed.setBuf rfl⟩ (fun i => ⟨(spec i).1, (spec i).2.1, (spec i).2.2.1⟩) rfl rfl rfl rfl
  · by_cases here : i = b
    · rw [here]
      exact ⟨t, held, writing⟩
    · rw [(setData_same s data here).1] at dirty
      exact good.clean.dirty i dirty
  · have other : i ≠ b := by
      rintro rfl
      simp [Kernel.setData] at clean
    obtain ⟨dirt, same⟩ := setData_same s data other
    rw [same.data, same.blockno]
    apply good.clean.agree i (same.dev.symm.trans root) (same.valid.symm.trans valid) (dirt.symm.trans clean)
    intro pinned
    exact unpinned (pinned.of rfl rfl same.dev.symm same.blockno.symm)
  · exact frames_of_locked held rfl rfl (fun i => ⟨(spec i).1, (spec i).2.1⟩)
      (fun i other => setData_same s data other) rfl ⟨rfl, rfl, rfl, rfl, rfl, rfl, rfl⟩

theorem releasesleep_step (good : Good sb disk₀ s) (idle : s.busy t = none)
    (clean : s.dirty b = false) (h : exec sb t (.releasesleep b) s = some ((), s')) :
    Good sb disk₀ s' ∧ (∀ u, u ≠ t → Frame u s s') ∧ s.lock b = some t ∧
      s' = { s with lock := Function.update s.lock b none, busy := Function.update s.busy t (some b) } := by
  simp only [exec] at h
  by_cases held : s.lock b = some t
  case neg =>
    rw [if_neg held] at h
    cases h
  rw [if_pos held] at h
  cases h
  have kept : ∀ i, s.dirty i = true → Function.update s.lock b none i = s.lock i := by
    intro i dirty
    apply Function.update_of_ne
    rintro rfl
    rw [clean] at dirty
    cases dirty
  refine ⟨⟨good.refs.releasesleep idle held, good.pins.same rfl rfl fun _ => .refl _, ?_, fun fits => ?_⟩,
    fun u other => ?_, held, rfl⟩
  · refine good.clean.same (fun _ => .refl _) rfl rfl (fun _ pinned => pinned) fun i u dirty mine writing => ?_
    exact ⟨(kept i dirty).trans mine, writing⟩
  · exact (good.data fits).locks (fun i => ⟨rfl, rfl, rfl, rfl⟩) kept
  · refine frame_of_buffers (fun i => ?_) (fun i _ => ⟨rfl, .refl _⟩) (Function.update_of_ne other _ _)
      (fun i _ => ⟨rfl, rfl⟩) rfl ⟨rfl, rfl, rfl, rfl, rfl, rfl, rfl⟩
    by_cases here : i = b
    · subst here
      simp only [held, Function.update_self, reduceCtorEq, Option.some.injEq, iff_false]
      exact Ne.symm other
    · simp only [Function.update_of_ne here]

theorem drop_same (c : Cache Single.heads Block) (b i : Fin nbuf) :
    Same (c.buf (.buf i)) ((c.drop 0 (.buf b)).buf (.buf i)) := by
  rw [Cache.drop_buf]
  exact decRef_same c b i

theorem drop_step (good : Good sb disk₀ s) (waiting : s.busy t = some b) :
    Good sb disk₀ { s with cache := s.cache.drop 0 (.buf b), busy := Function.update s.busy t none } ∧
      ∀ u, u ≠ t → Frame u s { s with cache := s.cache.drop 0 (.buf b), busy := Function.update s.busy t none } := by
  have same := drop_same s.cache b
  refine ⟨⟨good.refs.drop waiting, good.pins.same rfl rfl same, ?_, fun fits => ?_⟩, fun u other => ?_⟩
  · exact good.clean.same same rfl rfl (fun i pinned => pinned.of rfl rfl (same i).dev.symm (same i).blockno.symm)
      fun i t _ mine writing => ⟨mine, writing⟩
  · exact (good.data fits).locks (fun i => ⟨(same i).dev, (same i).blockno, (same i).valid, (same i).data⟩)
      fun _ _ => rfl
  · exact frame_of_buffers (fun _ => .rfl) (fun i _ => ⟨rfl, same i⟩) (Function.update_of_ne other _ _)
      (fun i _ => ⟨(same i).dev, (same i).blockno⟩) rfl ⟨rfl, rfl, rfl, rfl, rfl, rfl, rfl⟩

/-! ### Actions on the log -/

/-- A step of the only process that commits. -/
theorem frames_of_commit (refs : RefInv s) (busy : (s.ctl.phase t).Committing) (lock : s'.lock = s.lock)
    (waits : s'.busy = s.busy) (ids : ∀ i, (s'.buf i).dev = (s.buf i).dev ∧ (s'.buf i).blockno = (s.buf i).blockno)
    (others : ∀ i, s.lock i ≠ some t → s'.dirty i = s.dirty i ∧ Same (s.buf i) (s'.buf i))
    (phases : ∀ u, u ≠ t → s'.ctl.phase u = s.ctl.phase u) (short : s'.short = s.short) (u : Tid) (other : u ≠ t) :
    Frame u s s' := by
  refine ⟨⟨fun i mine => ⟨by rw [lock]; exact mine, others i ?_⟩, phases u other, fun busy' => ?_,
    fun fits => short ▸ fits⟩, fun i mine => by rwa [lock] at mine, by rw [waits], fun i _ => ids i⟩
  · rw [mine]
    simpa using other
  · exact (other (refs.control.one u t busy' busy)).elim

theorem write_step (good : Good sb disk₀ s) (busy : (s.ctl.phase t).Committing) (held : s.lock b = some t)
    (rooted : (s.buf b).dev = rootdev) (data : s.short = false → DataInv sb disk₀ (s.write sb t b)) :
    Good sb disk₀ (s.write sb t b) ∧ ∀ u, u ≠ t → Frame u s (s.write sb t b) := by
  refine ⟨⟨good.refs.data good.refs.filed (fun i => ⟨rfl, rfl, rfl⟩) rfl rfl rfl rfl,
    good.pins.same rfl rfl fun _ => .refl _, ⟨fun i dirty => ?_, fun i root valid clean unpinned => ?_⟩, data⟩, ?_⟩
  · change Function.update s.dirty b false i = true at dirty
    by_cases here : i = b
    · rw [here, Function.update_self] at dirty
      cases dirty
    · rw [Function.update_of_ne here] at dirty
      exact good.clean.dirty i dirty
  · change Function.update s.dirty b false i = false at clean
    change (s.buf i).data = Function.update s.disk (s.buf b).blockno (s.buf b).data (s.buf i).blockno
    by_cases here : i = b
    · rw [here, Function.update_self]
    · rw [Function.update_of_ne here] at clean
      rw [Function.update_of_ne]
      · exact good.clean.agree i root valid clean unpinned
      · intro same
        have nonzero : (s.buf i).dev ≠ 0 := by
          rw [show (s.buf i).dev = rootdev from root]
          decide
        exact here (good.refs.distinct i b nonzero (root.trans rooted.symm) same)
  refine frames_of_commit good.refs busy rfl rfl (fun i => ⟨rfl, rfl⟩) (fun i free => ⟨?_, .refl _⟩)
    (fun _ _ => rfl) rfl
  apply Function.update_of_ne
  rintro rfl
  exact free held

theorem bunpin_step (good : Good sb disk₀ s) (busy : (s.ctl.phase t).Committing) (root : (s.buf b).dev = rootdev)
    (more : s.unpinned < s.ctl.log.n) (next : s.ctl.log.block s.unpinned = (s.buf b).blockno)
    (written : (s.buf b).data = s.disk (s.buf b).blockno)
    (installed : s.short = false →
      s.disk (s.ctl.log.block s.unpinned) = replay disk₀ s.writes (s.ctl.log.block s.unpinned)) :
    Good sb disk₀ { s with cache := s.cache.decRef (.buf b), unpinned := s.unpinned + 1 } ∧
      ∀ u, u ≠ t → Frame u s { s with cache := s.cache.decRef (.buf b), unpinned := s.unpinned + 1 } := by
  have same := decRef_same s.cache b
  have pins : PinInv { s with cache := s.cache.decRef (.buf b), unpinned := s.unpinned + 1 } := by
    refine good.pins.buffers rfl fun i pinned => ?_
    obtain ⟨rooted, k, low, high, there⟩ := pinned
    refine ⟨⟨(same i).dev.symm.trans rooted, k, Nat.le_of_succ_le low, high, there.trans (same i).blockno⟩,
      fun valid => ?_⟩
    exact (same i).valid.trans valid
  have clean : CleanInv { s with cache := s.cache.decRef (.buf b), unpinned := s.unpinned + 1 } := by
    refine ⟨good.clean.dirty, fun i rooted valid clean unpinned => ?_⟩
    simp only [Kernel.buf, (same i).data, (same i).blockno]
    by_cases here : i = b
    · rw [here]
      exact written
    · apply good.clean.agree i ((same i).dev.symm.trans rooted) ((same i).valid.symm.trans valid) clean
      rintro ⟨-, k, low, high, there⟩
      apply unpinned
      have later : k ≠ s.unpinned := by
        rintro rfl
        have nonzero : (s.buf i).dev ≠ 0 := by
          rw [show (s.buf i).dev = rootdev from (same i).dev.symm.trans rooted]
          decide
        exact here (good.refs.distinct i b nonzero (((same i).dev.symm.trans rooted).trans root.symm)
          (there.symm.trans next))
      exact ⟨rooted, k, by change s.unpinned + 1 ≤ k; omega, high, there.trans (same i).blockno.symm⟩
  refine ⟨⟨good.refs.bunpin busy root more next, pins, clean, fun fits => (good.data fits).bunpin (installed fits)⟩, ?_⟩
  exact frames_of_commit good.refs busy rfl rfl (fun i => ⟨(same i).dev, (same i).blockno⟩)
    (fun i _ => ⟨rfl, same i⟩) (fun _ _ => rfl) rfl

theorem clear_step (good : Good sb disk₀ s) (phase : s.ctl.phase t = .commit) (all : s.unpinned = s.ctl.log.n) :
    Good sb disk₀ (s.clear t) ∧ ∀ u, u ≠ t → Frame u s (s.clear t) := by
  have busy : (s.ctl.phase t).Committing := by
    rw [phase]
    trivial
  have pins : PinInv (s.clear t) := by
    refine ⟨fun i pinned => ?_, fun _ _ => rfl⟩
    obtain ⟨-, k, -, high, -⟩ := pinned
    exact (Nat.not_lt_zero k high).elim
  have phases : (s.clear t).ctl.phase = Function.update s.ctl.phase t .cleared := if_pos phase
  have clean : CleanInv (s.clear t) := by
    refine good.clean.same (fun _ => .refl _) rfl rfl (fun i pinned => ?_) fun i u _ held writing => ?_
    · obtain ⟨-, k, low, high, -⟩ := pinned
      omega
    · refine ⟨held, ?_⟩
      rw [phases]
      by_cases same : u = t
      · rw [same, Function.update_self]
        trivial
      · rw [Function.update_of_ne same]
        exact writing
  refine ⟨⟨good.refs.clear phase all, pins, clean, fun fits => (good.data fits).clear phase all⟩, ?_⟩
  refine frames_of_commit good.refs busy rfl rfl (fun i => ⟨rfl, rfl⟩) (fun i _ => ⟨rfl, .refl _⟩)
    (fun u other => ?_) rfl
  change (if s.ctl.phase t = .commit then Function.update s.ctl.phase t .cleared else s.ctl.phase) u = _
  rw [if_pos phase, Function.update_of_ne other]

/-- A step of an operation: nobody commits at that time, or the log does not change. -/
theorem frames_of_control (lock : s'.lock = s.lock) (waits : s'.busy = s.busy)
    (same : ∀ i, Same (s.buf i) (s'.buf i)) (others : ∀ i, s.lock i ≠ some t → s'.dirty i = s.dirty i)
    (phases : ∀ u, u ≠ t → s'.ctl.phase u = s.ctl.phase u)
    (frozen : ∀ u, (s.ctl.phase u).Committing → Frozen s s') (short : s'.short = false → s.short = false) (u : Tid)
    (other : u ≠ t) : Frame u s s' := by
  refine ⟨⟨fun i mine => ⟨by rw [lock]; exact mine, others i ?_, same i⟩, phases u other, frozen u, short⟩,
    fun i mine => by rwa [lock] at mine, by rw [waits], fun i _ => ⟨(same i).dev, (same i).blockno⟩⟩
  rw [mine]
  simpa using other

theorem begin_op_step (good : Good sb disk₀ s) (h : exec sb t .begin_op s = some ((), s')) :
    Good sb disk₀ s' ∧ (∀ u, u ≠ t → Frame u s s') ∧ s'.lock = s.lock ∧ s'.busy = s.busy ∧
      (∀ i, Same (s.buf i) (s'.buf i)) ∧ ¬(s'.ctl.phase t).Committing := by
  simp only [exec] at h
  cases step : next sb.nlog s.ctl t .begin_op with
  | none =>
    rw [step] at h
    cases h
  | some ctl =>
    rw [step] at h
    cases h
    have control := next_inv good.refs.control step
    unfold next at step
    cases phase : s.ctl.phase t <;> simp only [phase] at step <;> try cases step
    split at step
    case isFalse => cases step
    case isTrue admitted =>
      cases step
      have idle : s.ctl.log.committing = false := by
        unfold admits at admitted
        simp only [Bool.and_eq_true, Bool.not_eq_true'] at admitted
        exact admitted.1
      have calm := good.refs.control.quiet idle
      have phases : ∀ u, u ≠ t → Function.update s.ctl.phase t (.inOp ∅) u = s.ctl.phase u :=
        fun u other => Function.update_of_ne other _ _
      have now : Function.update s.ctl.phase t (.inOp ∅) t = .inOp ∅ := Function.update_self _ _ _
      refine ⟨⟨?_, good.pins.phases rfl Phase.noConfusion rfl rfl rfl rfl,
          good.clean.phases rfl rfl rfl rfl rfl rfl rfl rfl (.inl trivial),
          fun fits => (good.data fits).begin_op phase calm rfl rfl rfl⟩,
        frames_of_control rfl rfl (fun _ => .refl _) (fun _ _ => rfl) phases (fun u busy => (calm u busy).elim) id, rfl,
        rfl, fun _ => .refl _, ?_⟩
      · exact good.refs.phases control rfl rfl rfl rfl rfl rfl fun _ => good.refs.pinned calm
      · change ¬(Function.update s.ctl.phase t (.inOp ∅) t).Committing
        rw [now]
        exact id

theorem check_step (good : Good sb disk₀ s) (h : exec sb t (.check b) s = some ((), s')) :
    Good sb disk₀ s' ∧ (∀ u, u ≠ t → Frame u s s') ∧ s'.lock = s.lock ∧ s'.busy = s.busy ∧
      (∀ i, s'.buf i = s.buf i) ∧ ∃ logged, s'.ctl.phase t = .checked logged (s.buf b).blockno := by
  simp only [exec] at h
  cases step : next sb.nlog s.ctl t (.log_write (s.buf b).blockno) with
  | none =>
    rw [step] at h
    cases h
  | some ctl =>
    rw [step] at h
    have control := next_inv good.refs.control step
    unfold next at step
    cases phase : s.ctl.phase t <;> simp only [phase] at step <;> try cases step
    rename_i logged
    split at step
    case isFalse => cases step
    -- Both panics stop the process.
    have panic : ∀ why, (s.ctl.goto t (.panicked why)).phase t = .panicked why := fun why => Function.update_self _ _ _
    split at step
    case isTrue.isTrue =>
      cases step
      simp only [panic] at h
      cases h
    split at step
    case isTrue.isFalse.isTrue =>
      cases step
      simp only [panic] at h
      cases h
    cases step
    have now : (s.ctl.goto t (.checked logged (s.buf b).blockno)).phase t = .checked logged (s.buf b).blockno :=
      Function.update_self _ _ _
    simp only [now] at h
    cases h
    have running : (s.ctl.phase t).running = 1 := by
      rw [phase]
      rfl
    have calm := good.refs.control.quiet (good.refs.control.calm running)
    refine ⟨⟨?_, good.pins.phases rfl Phase.noConfusion rfl rfl rfl rfl,
      good.clean.phases rfl rfl rfl rfl rfl rfl rfl rfl (.inl trivial), fun fits => ?_⟩,
      frames_of_control rfl rfl (fun _ => .refl _) (fun _ _ => rfl)
      (fun u other => Function.update_of_ne other _ _) (fun u busy => (calm u busy).elim) id, rfl, rfl, fun _ => rfl,
      logged, now⟩
    · exact good.refs.phases control rfl rfl rfl rfl rfl rfl fun _ => good.refs.pinned calm
    · have phases : (s.ctl.goto t (.checked logged (s.buf b).blockno)).phase =
          Function.update s.ctl.phase t (.checked logged (s.buf b).blockno) := rfl
      exact (good.data fits).phases phases rfl rfl (.inl trivial) (fun _ busy => (calm t busy).elim)
        (fun _ => (good.data fits).active t running) fun busy => busy.elim

theorem append_same (s : Kernel) (ctl : State) (i : Fin nbuf) : Same (s.buf i) ((s.append t b ctl).buf i) := by
  simp only [Kernel.append, Kernel.buf]
  split
  · exact incRef_same s.cache b i
  · exact .refl _

theorem CleanInv.append (inv : CleanInv s) {ctl : State} {logged : Finset UInt32} (zero : s.unpinned = 0)
    (root : (s.buf b).dev = rootdev) (log : ctl.log = s.ctl.log.append (s.buf b).blockno)
    (phases : ctl.phase = Function.update s.ctl.phase t (.inOp logged)) : CleanInv (s.append t b ctl) := by
  have same : ∀ i, Same (s.buf i) ((s.append t b ctl).buf i) := append_same s ctl
  have listed : ∀ i, i = b ∨ s.ctl.log.Listed (s.buf i).blockno → (s.buf i).dev = rootdev →
      Pinned (s.append t b ctl) i := by
    intro i which there
    have now : (s.ctl.log.append (s.buf b).blockno).Listed (s.buf i).blockno := by
      apply (listed_append s.ctl.log _ _).mpr
      rcases which with rfl | before
      · exact .inl rfl
      · exact .inr before
    rw [← log] at now
    obtain ⟨k, less, block⟩ := now
    refine ⟨(same i).dev.trans there, k, ?_, less, block.trans (same i).blockno.symm⟩
    change s.unpinned ≤ k
    omega
  constructor
  · intro i dirty
    change Function.update s.dirty b false i = true at dirty
    have other : i ≠ b := by
      rintro rfl
      rw [Function.update_self] at dirty
      cases dirty
    rw [Function.update_of_ne other] at dirty
    obtain ⟨u, mine, writing⟩ := inv.dirty i dirty
    refine ⟨u, mine, ?_⟩
    change (ctl.phase u).Writing
    rw [phases]
    by_cases same : u = t
    · rw [same, Function.update_self]
      trivial
    · rw [Function.update_of_ne same]
      exact writing
  · intro i rooted usable clean unpinned
    rw [(same i).dev] at rooted
    rw [(same i).valid] at usable
    have other : i ≠ b := by
      rintro rfl
      exact unpinned (listed i (.inl rfl) rooted)
    rw [(same i).data, (same i).blockno]
    apply inv.agree i rooted usable
    · change Function.update s.dirty b false i = false at clean
      rwa [Function.update_of_ne other] at clean
    · rintro ⟨-, k, -, high, there⟩
      exact unpinned (listed i (.inr ⟨k, high, there⟩) rooted)

theorem append_step (good : Good sb disk₀ s) {logged : Finset UInt32} (held : s.lock b = some t)
    (root : (s.buf b).dev = rootdev) (valid : (s.buf b).valid = true) (home : Home sb (s.buf b).blockno)
    (phase : s.ctl.phase t = .checked logged (s.buf b).blockno) (h : exec sb t (.append b) s = some ((), s')) :
    Good sb disk₀ s' ∧ (∀ u, u ≠ t → Frame u s s') ∧ s'.lock = s.lock ∧ s'.busy = s.busy ∧
      (∀ i, Same (s.buf i) (s'.buf i)) ∧ ¬(s'.ctl.phase t).Committing := by
  simp only [exec, append_next phase] at h
  cases h
  have running : (s.ctl.phase t).running = 1 := by
    rw [phase]
    rfl
  have calm := good.refs.control.quiet (good.refs.control.calm running)
  have same := append_same (t := t) (b := b) s
  have pins : PinInv (s.append t b ({ s.ctl with
      log := s.ctl.log.append (s.buf b).blockno
      trans := insert (s.buf b).blockno s.ctl.trans }.goto t (.inOp (insert (s.buf b).blockno logged)))) := by
    constructor
    · rintro i ⟨rooted, k, low, high, there⟩
      rw [(same _ i).valid]
      rw [(same _ i).dev] at rooted
      rw [(same _ i).blockno] at there
      rcases (listed_append s.ctl.log _ _).mp ⟨k, high, there⟩ with blocks | ⟨j, less, old⟩
      · have here : i = b := by
          apply good.refs.distinct i b _ (rooted.trans root.symm) blocks
          rw [show (s.cache.buf (.buf i)).dev = _ from rooted]
          decide
        rw [here]
        exact valid
      · have zero := good.refs.pinned calm
        exact good.pins.valid i ⟨rooted, j, by omega, less, old⟩
    · intro u cleared
      change Function.update s.ctl.phase t (.inOp _) u = .cleared at cleared
      by_cases same : u = t
      · rw [same, Function.update_self] at cleared
        cases cleared
      · rw [Function.update_of_ne same] at cleared
        have busy := calm u
        rw [cleared] at busy
        exact (busy trivial).elim
  have clean : CleanInv (s.append t b ({ s.ctl with
      log := s.ctl.log.append (s.buf b).blockno
      trans := insert (s.buf b).blockno s.ctl.trans }.goto t (.inOp (insert (s.buf b).blockno logged)))) :=
    good.clean.append (good.refs.pinned calm) root rfl rfl
  refine ⟨⟨good.refs.append sb root phase (append_next phase), pins, clean, fun fits =>
    (good.data fits).append good.refs root valid home phase (append_next phase)⟩, ?_, rfl, rfl, same _, ?_⟩
  · refine frames_of_control rfl rfl (same _) (fun i free => ?_) (fun u other => Function.update_of_ne other _ _)
      (fun u busy => (calm u busy).elim) id
    apply Function.update_of_ne
    rintro rfl
    exact free held
  · change ¬(Function.update s.ctl.phase t (.inOp _) t).Committing
    rw [Function.update_self]
    exact id

theorem end_op_next {ctl : State} (control : Inv s.ctl) (step : next sb.nlog s.ctl t .end_op = some ctl) :
    (s.ctl.phase t).running = 1 ∧ ctl = { s.ctl with log := s.ctl.log.leave }.goto t
      (if s.ctl.log.outstanding - 1 = 0 then .commit else .out) := by
  unfold next at step
  cases phase : s.ctl.phase t <;> simp only [phase] at step <;> try cases step
  have running : (s.ctl.phase t).running = 1 := by
    rw [phase]
    rfl
  simp only [control.calm running, Bool.false_eq_true, if_false] at step
  cases step
  exact ⟨rfl, rfl⟩

/-- `end_op` up to `commit`: either the operation is over, or this process commits. -/
theorem leave_step (good : Good sb disk₀ s) (released : ∀ i, s.lock i = some t → s.dirty i = false)
    {last : Bool} (h : exec sb t .leave s = some (last, s')) :
    Good sb disk₀ s' ∧ (∀ u, u ≠ t → Frame u s s') ∧ s'.lock = s.lock ∧ s'.busy = s.busy ∧
      (∀ i, s'.buf i = s.buf i) ∧ s'.dirty = s.dirty ∧
      (last = false ∧ s'.ctl.phase t = .out ∨ last = true ∧ s'.ctl.phase t = .commit ∧ s'.unpinned = 0 ∧
        (s'.short = false → s.short = false ∧ s'.ctl.log.n < sb.nlog.toNat ∧ headN (s'.disk sb.logstart) = 0)) := by
  simp only [exec] at h
  cases step : next sb.nlog s.ctl t .end_op with
  | none =>
    rw [step] at h
    cases h
  | some ctl =>
    rw [step] at h
    have control := next_inv good.refs.control step
    obtain ⟨running, result⟩ := end_op_next good.refs.control step
    have calm := good.refs.control.quiet (good.refs.control.calm running)
    have zero := good.refs.pinned calm
    by_cases final : s.ctl.log.outstanding - 1 = 0
    · rw [if_pos final] at result
      have phases : ctl.phase = Function.update s.ctl.phase t .commit := by
        rw [result]
        rfl
      have now : ctl.phase t = .commit := by
        rw [phases, Function.update_self]
      simp only [now] at h
      cases h
      have fits : (s.short || decide (sb.nlog.toNat ≤ s.ctl.log.n)) = false →
          s.short = false ∧ s.ctl.log.n < sb.nlog.toNat := by
        intro both
        simp only [Bool.or_eq_false_iff, decide_eq_false_iff_not, not_le] at both
        exact both
      have log : ctl.log.n = s.ctl.log.n ∧ ctl.log.block = s.ctl.log.block := by
        rw [result]
        exact ⟨rfl, rfl⟩
      refine ⟨⟨?_, good.pins.phases phases Phase.noConfusion log.1 log.2 rfl rfl,
        good.clean.phases rfl rfl rfl rfl phases log.1 log.2 rfl (.inl trivial), fun short => ?_⟩, ?_, rfl, rfl,
        fun _ => rfl, rfl, .inr ⟨rfl, now, zero, fun short => ?_⟩⟩
      · exact good.refs.phases control rfl rfl rfl rfl log.1 log.2 fun _ => zero
      · exact (good.data (fits short).1).leave phases log.1 log.2 running
      · refine frames_of_control rfl rfl (fun _ => .refl _) (fun _ _ => rfl) (fun u other => ?_)
          (fun u busy => (calm u busy).elim) fun both => (fits both).1
        simp only [phases, Function.update_of_ne other]
      · obtain ⟨before, small⟩ := fits short
        exact ⟨before, by rw [log.1]; exact small, (good.data before).header calm⟩
    · rw [if_neg final] at result
      have phases : ctl.phase = Function.update s.ctl.phase t .out := by
        rw [result]
        rfl
      have now : ctl.phase t = .out := by
        rw [phases, Function.update_self]
      simp only [now] at h
      cases h
      have log : ctl.log.n = s.ctl.log.n ∧ ctl.log.block = s.ctl.log.block := by
        rw [result]
        exact ⟨rfl, rfl⟩
      refine ⟨⟨?_, good.pins.phases phases Phase.noConfusion log.1 log.2 rfl rfl,
        good.clean.phases rfl rfl rfl rfl phases log.1 log.2 rfl (.inr released), fun fits => ?_⟩, ?_, rfl, rfl,
        fun _ => rfl, rfl, .inl ⟨rfl, now⟩⟩
      · exact good.refs.phases control rfl rfl rfl rfl log.1 log.2 fun _ => zero
      · exact (good.data fits).phases phases log.1 log.2 (.inr released) (fun _ busy => (calm t busy).elim)
          (fun run => by cases run) fun busy => busy.elim
      · refine frames_of_control rfl rfl (fun _ => .refl _) (fun _ _ => rfl) (fun u other => ?_)
          (fun u busy => (calm u busy).elim) id
        simp only [phases, Function.update_of_ne other]

theorem finish_step (good : Good sb disk₀ s) (busy : (s.ctl.phase t).Committing) (pinned : s.unpinned = 0)
    (released : ∀ i, s.lock i = some t → s.dirty i = false)
    (done : s.short = false → s.ctl.log.n = 0 ∧ headN (s.disk sb.logstart) = 0)
    (h : exec sb t .finish s = some ((), s')) :
    Good sb disk₀ s' ∧ (∀ u, u ≠ t → Frame u s s') ∧ s'.lock = s.lock ∧ s'.busy = s.busy ∧
      (∀ i, s'.buf i = s.buf i) ∧ s'.ctl.phase t = .out := by
  simp only [exec] at h
  cases step : next sb.nlog s.ctl t .finish with
  | none =>
    rw [step] at h
    cases h
  | some ctl =>
    rw [step] at h
    cases h
    have control := next_inv good.refs.control step
    have result : ctl = { s.ctl with log := { s.ctl.log with committing := false } }.goto t .out := by
      unfold next at step
      cases phase : s.ctl.phase t <;> simp only [phase] at step <;> try cases step
      · split at step
        · cases step
          rfl
        · cases step
      · rfl
    have phases : ctl.phase = Function.update s.ctl.phase t .out := by
      rw [result]
      rfl
    have log : ctl.log.n = s.ctl.log.n ∧ ctl.log.block = s.ctl.log.block := by
      rw [result]
      exact ⟨rfl, rfl⟩
    refine ⟨⟨?_, good.pins.phases phases Phase.noConfusion log.1 log.2 rfl rfl,
      good.clean.phases rfl rfl rfl rfl phases log.1 log.2 rfl (.inr released), fun fits => ?_⟩, ?_, rfl, rfl,
      fun _ => rfl, by rw [phases, Function.update_self]⟩
    · exact good.refs.phases control rfl rfl rfl rfl log.1 log.2 fun _ => pinned
    · exact (good.data fits).finish good.refs busy phases log.1 log.2 released (done fits).1 (done fits).2
    · refine frames_of_commit good.refs busy rfl rfl (fun i => ⟨rfl, rfl⟩) (fun i _ => ⟨rfl, .refl _⟩)
        (fun u other => ?_) rfl
      simp only [phases, Function.update_of_ne other]

end Xv6Labs.Log
