import Xv6Labs.Log.Rules

/-!
# Code that keeps the rules

What `bread` and `brelse` do for their caller, and the steps of a process that commits. Nobody else touches the log,
the disk or the buffers it holds, so each of these rules says what the process finds afterwards.
-/

namespace Xv6Labs.Log

open Bio Threads Prog

variable {sb : Superblock} {disk₀ : UInt32 → Block} {α : Type} {t u : Tid} {s s' : Kernel} {b i j : Fin nbuf}
  {blockno n : UInt32}

theorem wp_act {a : Action} {f : a.Result → Code α} {post : α → Kernel → Prop}
    (h : ∀ s', Frame t s s' → Good sb disk₀ s' → ∀ r s'', exec sb t a s' = some (r, s'') →
      Good sb disk₀ s'' ∧ (∀ u, u ≠ t → Frame u s' s'') ∧ Wp sb disk₀ t (f r) post s'') :
    Wp sb disk₀ t (act a >>= f) post s := h

/-! ### `bread` and `brelse` -/

/-- Buffer `b` with block `blockno` is what `bread` has returned to process `t`. -/
structure Got (t : Tid) (b : Fin nbuf) (blockno : UInt32) (s s' : Kernel) : Prop where
  fresh : s.lock b ≠ some t
  held : s'.lock b = some t
  idle : s'.busy t = none
  mine : ∀ i, s'.lock i = some t → i = b ∨ s.lock i = some t
  dev : (s'.buf b).dev = rootdev
  block : (s'.buf b).blockno = blockno
  valid : (s'.buf b).valid = true
  clean : s'.dirty b = false

theorem wp_bread {post : Fin nbuf → Kernel → Prop} (idle : s.busy t = none)
    (next : ∀ b s', Keeps t s s' → Got t b blockno s s' → post b s') : Wp sb disk₀ t (bread blockno) post s := by
  unfold bread
  apply wp_act
  intro s₁ frame₁ good₁ b s₂ found
  obtain ⟨good₂, others₂, keeps₂, lock₂, busy₂, dev₂, block₂⟩ := bget_step good₁ (frame₁.busy.trans idle) found
  refine ⟨good₂, others₂, ?_⟩
  apply wp_act
  intro s₃ frame₃ good₃ _ s₄ locks
  obtain ⟨good₄, others₄, keeps₄, free, rfl⟩ := acquiresleep_step good₃ (frame₃.busy.trans busy₂) locks
  refine ⟨good₄, others₄, ?_⟩
  apply wp_act
  intro s₅ frame₅ good₅ _ s₆ filled
  simp only [exec] at filled
  cases filled
  obtain ⟨held₅, dirty₅, same₅⟩ := frame₅.held b (Function.update_self _ _ _)
  obtain ⟨good₆, others₆⟩ := fill_step good₅ held₅
  refine ⟨good₆, others₆, ?_⟩
  apply wp_ret
  intro s₇ frame₇ good₇
  obtain ⟨held₇, dirty₇, same₇⟩ := frame₇.held b held₅
  have until₃ : Keeps t s s₃ := (frame₁.toKeeps.trans keeps₂).trans frame₃.toKeeps
  have until₅ : Keeps t s s₅ := (until₃.trans keeps₄).trans frame₅.toKeeps
  have apart : ∀ i, s.lock i = some t → i ≠ b := by
    rintro i held rfl
    have := (until₃.held i held).1
    rw [free] at this
    cases this
  have until₆ : Keeps t s { s₅ with cache := s₅.cache.fill (.buf b) s₅.disk } := by
    refine ⟨fun i held => ?_, until₅.phase, fun busy => ?_, until₅.short⟩
    · obtain ⟨held', dirty, same⟩ := until₅.held i held
      exact ⟨held', dirty, same.trans (fill_same _ _ (apart i held))⟩
    · exact (until₅.frozen busy).trans ⟨rfl, rfl, rfl, rfl, rfl, rfl, rfl⟩
  have ids₃ := frame₃.waiting b busy₂
  have spec := s₅.cache.fill_spec (.buf b) s₅.disk (.buf b)
  apply next b s₇ (until₆.trans frame₇.toKeeps)
  refine ⟨?_, held₇, ?_, fun i mine => ?_, ?_, ?_, ?_, ?_⟩
  · intro held
    exact apart b held rfl
  · rw [frame₇.busy]
    exact frame₅.busy.trans (Function.update_self _ _ _)
  · by_cases here : i = b
    · exact .inl here
    · right
      have mine₄ := frame₅.mine i (frame₇.mine i mine)
      change Function.update s₃.lock b (some t) i = some t at mine₄
      rw [Function.update_of_ne here] at mine₄
      have mine₂ := frame₃.mine i mine₄
      rw [lock₂] at mine₂
      exact frame₁.mine i mine₂
  · rw [same₇.dev]
    exact (spec.1.trans same₅.dev).trans (ids₃.1.trans dev₂)
  · rw [same₇.blockno]
    exact (spec.2.1.trans same₅.blockno).trans (ids₃.2.trans block₂)
  · rw [same₇.valid]
    exact (s₅.cache.fill_self (.buf b) s₅.disk).1
  · rw [dirty₇]
    change s₅.dirty b = false
    rw [dirty₅]
    exact good₃.clean.unlocked free

/-- After `brelse` the process has given up the buffer and nothing else. -/
structure Gave (t : Tid) (b : Fin nbuf) (s s' : Kernel) : Prop where
  idle : s'.busy t = none
  mine : ∀ i, s'.lock i = some t → i ≠ b ∧ s.lock i = some t
  held : ∀ i, i ≠ b → s.lock i = some t → s'.lock i = some t ∧ s'.dirty i = s.dirty i ∧ Same (s.buf i) (s'.buf i)
  phase : s'.ctl.phase t = s.ctl.phase t
  frozen : (s.ctl.phase t).Committing → Frozen s s'
  short : s'.short = false → s.short = false

theorem wp_brelse {post : Unit → Kernel → Prop} (idle : s.busy t = none) (held : s.lock b = some t)
    (clean : s.dirty b = false) (next : ∀ s', Gave t b s s' → post () s') :
    Wp sb disk₀ t (brelse b) post s := by
  unfold brelse
  apply wp_act
  intro s₁ frame₁ good₁ _ s₂ unlocks
  have clean₁ : s₁.dirty b = false := by
    rw [(frame₁.held b held).2.1]
    exact clean
  obtain ⟨good₂, others₂, held₁, rfl⟩ := releasesleep_step good₁ (frame₁.busy.trans idle) clean₁ unlocks
  refine ⟨good₂, others₂, ?_⟩
  apply wp_lift
  intro s₃ frame₃ good₃ _ s₄ dropped
  simp only [exec] at dropped
  cases dropped
  have waiting₃ : s₃.busy t = some b := frame₃.busy.trans (Function.update_self _ _ _)
  obtain ⟨good₄, others₄⟩ := drop_step good₃ waiting₃
  refine ⟨good₄, others₄, ?_⟩
  intro s₅ frame₅ good₅
  have same := drop_same s₃.cache b
  apply next
  refine ⟨?_, fun i mine => ?_, fun i other mine => ?_, ?_, fun busy => ?_, fun fits => ?_⟩
  · exact frame₅.busy.trans (Function.update_self _ _ _)
  · have mine₂ := frame₃.mine i (frame₅.mine i mine)
    change Function.update s₁.lock b none i = some t at mine₂
    have other : i ≠ b := by
      rintro rfl
      rw [Function.update_self] at mine₂
      cases mine₂
    rw [Function.update_of_ne other] at mine₂
    exact ⟨other, frame₁.mine i mine₂⟩
  · obtain ⟨mine₁, dirty₁, same₁⟩ := frame₁.held i mine
    obtain ⟨mine₃, dirty₃, same₃⟩ := frame₃.held i ((Function.update_of_ne other _ _).trans mine₁)
    obtain ⟨mine₅, dirty₅, same₅⟩ := frame₅.held i mine₃
    exact ⟨mine₅, dirty₅.trans (dirty₃.trans dirty₁), same₁.trans (same₃.trans ((same i).trans same₅))⟩
  · exact frame₅.phase.trans (frame₃.phase.trans frame₁.phase)
  · have frozen₁ := frame₁.frozen busy
    have busy₁ : (s₁.ctl.phase t).Committing := by
      rw [frame₁.phase]
      exact busy
    have frozen₃ := frame₃.frozen busy₁
    have busy₃ : (s₃.ctl.phase t).Committing := by
      rw [frame₃.phase]
      exact busy₁
    have frozen₅ := frame₅.frozen busy₃
    have step₂ : Frozen s₁ { s₁ with
      lock := Function.update s₁.lock b none
      busy := Function.update s₁.busy t (some b) } := ⟨rfl, rfl, rfl, rfl, rfl, rfl, rfl⟩
    have step₄ : Frozen s₃ { s₃ with
      cache := s₃.cache.drop 0 (.buf b)
      busy := Function.update s₃.busy t none } := ⟨rfl, rfl, rfl, rfl, rfl, rfl, rfl⟩
    exact ((frozen₁.trans step₂).trans (frozen₃.trans step₄)).trans frozen₅
  · exact frame₁.short (frame₃.short (frame₅.short fits))

/-! ### The process that commits -/

/-- Process `t` is in `phase`, and every buffer it holds is valid and, except for those in `touched`, clean. -/
structure Stage (t : Tid) (phase : Phase) (touched : Set (Fin nbuf)) (s : Kernel) : Prop where
  phase : s.ctl.phase t = phase
  idle : s.busy t = none
  valid : ∀ i, s.lock i = some t → (s.buf i).dev = rootdev ∧ (s.buf i).valid = true
  clean : ∀ i, s.lock i = some t → i ∉ touched → s.dirty i = false

structure Has (t : Tid) (b : Fin nbuf) (blockno : UInt32) (data : Block) (s : Kernel) : Prop where
  held : s.lock b = some t
  block : (s.buf b).blockno = blockno
  data : (s.buf b).data = data

variable {phase : Phase} {touched : Set (Fin nbuf)} {data : Block} {m : ℕ}

theorem Has.keeps (has : Has t b n data s) (keeps : Keeps t s s') : Has t b n data s' := by
  obtain ⟨held, -, same⟩ := keeps.held b has.held
  exact ⟨held, same.blockno.trans has.block, same.data.trans has.data⟩

theorem Stage.frame (stage : Stage t phase touched s) (frame : Frame t s s') : Stage t phase touched s' := by
  refine ⟨frame.phase.trans stage.phase, frame.busy.trans stage.idle, fun i mine => ?_, fun i mine out => ?_⟩
  · obtain ⟨-, -, same⟩ := frame.held i (frame.mine i mine)
    rw [same.dev, same.valid]
    exact stage.valid i (frame.mine i mine)
  · obtain ⟨-, dirty, -⟩ := frame.held i (frame.mine i mine)
    rw [dirty]
    exact stage.clean i (frame.mine i mine) out

theorem Stage.committing (stage : Stage t phase touched s) (busy : phase.Committing) :
    (s.ctl.phase t).Committing := by
  rw [stage.phase]
  exact busy

theorem stage_bread {post : Fin nbuf → Kernel → Prop} (stage : Stage t phase ∅ s) (busy : phase.Committing)
    (next : ∀ b s', Stage t phase ∅ s' → Frozen s s' → Keeps t s s' → Has t b blockno (s'.buf b).data s' →
      s.lock b ≠ some t → post b s') : Wp sb disk₀ t (bread blockno) post s := by
  apply wp_bread stage.idle
  intro b s' keeps got
  refine next b s' ⟨keeps.phase.trans stage.phase, got.idle, fun i mine => ?_, fun i mine out => ?_⟩
    (keeps.frozen (stage.committing busy)) keeps ⟨got.held, got.block, rfl⟩ got.fresh
  · rcases got.mine i mine with rfl | old
    · exact ⟨got.dev, got.valid⟩
    · obtain ⟨-, -, same⟩ := keeps.held i old
      rw [same.dev, same.valid]
      exact stage.valid i old
  · rcases got.mine i mine with rfl | old
    · exact got.clean
    · obtain ⟨-, dirty, -⟩ := keeps.held i old
      rw [dirty]
      exact stage.clean i old out

theorem stage_brelse {post : Unit → Kernel → Prop} (stage : Stage t phase ∅ s) (busy : phase.Committing)
    (held : s.lock b = some t)
    (next : ∀ s', Stage t phase ∅ s' → Frozen s s' →
      (∀ i n data, i ≠ b → Has t i n data s → Has t i n data s') → post () s') :
    Wp sb disk₀ t (brelse b) post s := by
  apply wp_brelse stage.idle held (stage.clean b held (Set.notMem_empty b))
  intro s' gave
  refine next s' ⟨gave.phase.trans stage.phase, gave.idle, fun i mine => ?_, fun i mine out => ?_⟩
    (gave.frozen (stage.committing busy)) fun i n data other has => ?_
  · obtain ⟨other, old⟩ := gave.mine i mine
    obtain ⟨-, -, same⟩ := gave.held i other old
    rw [same.dev, same.valid]
    exact stage.valid i old
  · obtain ⟨other, old⟩ := gave.mine i mine
    obtain ⟨-, dirty, -⟩ := gave.held i other old
    rw [dirty]
    exact stage.clean i old out
  · obtain ⟨mine, -, same⟩ := gave.held i other has.held
    exact ⟨mine, same.blockno.trans has.block, same.data.trans has.data⟩

/-- Actions that only read fields of `log.lh`. -/
theorem stage_read {a : Action} {f : a.Result → Code α} {post : α → Kernel → Prop} {read : Kernel → a.Result}
    (reads : ∀ s, exec sb t a s = some (read s, s)) (stage : Stage t phase touched s) (busy : phase.Committing)
    (next : ∀ s', Stage t phase touched s' → Frozen s s' → Keeps t s s' → Wp sb disk₀ t (f (read s')) post s') :
    Wp sb disk₀ t (act a >>= f) post s := by
  apply wp_act
  intro s₁ frame good r s₂ done
  rw [reads] at done
  cases done
  exact ⟨good, fun u _ => .refl u s₁, next s₁ (stage.frame frame) (frame.frozen (stage.committing busy)) frame.toKeeps⟩

theorem Phase.Committing.writing (busy : phase.Committing) : phase.Writing := by
  cases phase <;> trivial

/-- Actions that change the data of one buffer. -/
theorem stage_setData {a : Action} {f : a.Result → Code α} {post : α → Kernel → Prop} {r : a.Result}
    (stores : ∀ s', Frame t s s' → exec sb t a s' = some (r, s'.setData b data)) (stage : Stage t phase ∅ s)
    (busy : phase.Committing) (held : s.lock b = some t)
    (next : ∀ s', Stage t phase {b} s' → Frozen s s' → Has t b (s.buf b).blockno data s' →
      (∀ i n data, i ≠ b → Has t i n data s → Has t i n data s') → Wp sb disk₀ t (f r) post s') :
    Wp sb disk₀ t (act a >>= f) post s := by
  apply wp_act
  intro s₁ frame good r s₂ done
  rw [stores s₁ frame] at done
  cases done
  have stage₁ := stage.frame frame
  obtain ⟨held₁, -, same₁⟩ := frame.held b held
  obtain ⟨good₂, others⟩ := setData_step good held₁ (stage₁.committing busy |>.writing) data
  have spec := fun i => setData_spec s₁ b i data
  refine ⟨good₂, others, next _ ⟨stage₁.phase, stage₁.idle, fun i mine => ?_, fun i mine out => ?_⟩ ?_ ?_ ?_⟩
  · rw [(spec i).1, (spec i).2.2.2]
    exact stage₁.valid i mine
  · rw [(setData_same s₁ data out).1]
    exact stage₁.clean i mine (Set.notMem_empty i)
  · exact (frame.frozen (stage.committing busy)).trans ⟨rfl, rfl, rfl, rfl, rfl, rfl, rfl⟩
  · refine ⟨held₁, (spec b).2.1.trans same₁.blockno, ?_⟩
    simp only [Kernel.setData, Kernel.buf, Cache.setBuf_self]
  · intro i n data' other has
    have has₁ := has.keeps frame.toKeeps
    have same := (setData_same s₁ data other).2
    exact ⟨has₁.held, same.blockno.trans has₁.block, same.data.trans has₁.data⟩

theorem stage_memmove {f : Unit → Code α} {post : α → Kernel → Prop} {old : Block} {m : UInt32}
    (stage : Stage t phase ∅ s) (busy : phase.Committing) (dst : Has t b n old s) (src : Has t i m data s)
    (next : ∀ s', Stage t phase {b} s' → Frozen s s' → Has t b n data s' →
      (∀ j n data, j ≠ b → Has t j n data s → Has t j n data s') → Wp sb disk₀ t (f ()) post s') :
    Wp sb disk₀ t (act (.memmove b i) >>= f) post s := by
  have stores : ∀ s', Frame t s s' → exec sb t (.memmove b i) s' = some ((), s'.setData b data) := by
    intro s' frame
    rw [← (src.keeps frame.toKeeps).data]
    rfl
  apply stage_setData stores stage busy dst.held
  rw [dst.block]
  exact next

theorem stage_putHead {f : Unit → Code α} {post : α → Kernel → Prop} (stage : Stage t phase ∅ s)
    (busy : phase.Committing) (has : Has t b n data s)
    (next : ∀ s', Stage t phase {b} s' → Frozen s s' → Has t b n (putHead s.ctl.log data) s' →
      Wp sb disk₀ t (f ()) post s') :
    Wp sb disk₀ t (act (.putHead b) >>= f) post s := by
  have stores : ∀ s', Frame t s s' →
      exec sb t (.putHead b) s' = some ((), s'.setData b (putHead s.ctl.log data)) := by
    intro s' frame
    rw [← (has.keeps frame.toKeeps).data, ← (frame.frozen (stage.committing busy)).log]
    rfl
  apply stage_setData stores stage busy has.held
  rw [has.block]
  intro s' stage' frozen has' _
  exact next s' stage' frozen has'

/-- What a write changes. -/
structure Wrote (sb : Superblock) (phase : Phase) (blockno : UInt32) (data : Block) (s s' : Kernel) : Prop where
  log : s'.ctl.log = s.ctl.log
  disk : s'.disk = Function.update s.disk blockno data
  writes : s'.writes = s.writes
  unpinned : s'.unpinned = s.unpinned
  ops : s'.ops = s.ops
  durable : s'.durable = if phase = .commit ∧ blockno = sb.logstart then s.ops else s.durable
  short : s'.short = s.short

theorem stage_write {f : Unit → Code α} {post : α → Kernel → Prop} (stage : Stage t phase touched s)
    (busy : phase.Committing) (only : touched ⊆ {b}) (has : Has t b n data s)
    (safe : ∀ s', Good sb disk₀ s' → Frozen s s' → s'.ctl.phase t = phase → (s'.buf b).dev = rootdev →
      (s'.buf b).blockno = n → (s'.buf b).data = data → s'.short = false → DataInv sb disk₀ (s'.write sb t b))
    (next : ∀ s', Stage t phase ∅ s' → Wrote sb phase n data s s' →
      (∀ i n data, Has t i n data s → Has t i n data s') → Wp sb disk₀ t (f ()) post s') :
    Wp sb disk₀ t (bwrite b >>= f) post s := by
  apply wp_act
  intro s₁ frame good _ s₂ done
  have stage₁ := stage.frame frame
  have frozen := frame.frozen (stage.committing busy)
  have has₁ := has.keeps frame.toKeeps
  simp only [exec] at done
  rw [if_pos has₁.held] at done
  cases done
  obtain ⟨good₂, others⟩ := write_step good (stage₁.committing busy) has₁.held (stage₁.valid b has₁.held).1
    (safe s₁ good frozen stage₁.phase (stage₁.valid b has₁.held).1 has₁.block has₁.data)
  refine ⟨good₂, others, next _ ⟨stage₁.phase, stage₁.idle, stage₁.valid, fun i mine _ => ?_⟩ ?_ ?_⟩
  · change Function.update s₁.dirty b false i = false
    by_cases here : i = b
    · rw [here, Function.update_self]
    · rw [Function.update_of_ne here]
      exact stage₁.clean i mine fun inside => here (only inside)
  · refine ⟨frozen.log, ?_, frozen.writes, frozen.unpinned, frozen.ops, ?_, frozen.short⟩
    · change Function.update s₁.disk (s₁.buf b).blockno (s₁.buf b).data = _
      rw [has₁.block, has₁.data, frozen.disk]
    · change (if s₁.ctl.phase t = .commit ∧ (s₁.buf b).blockno = sb.logstart then s₁.ops else s₁.durable) = _
      rw [stage₁.phase, has₁.block, frozen.ops, frozen.durable]
  · intro i n data has
    exact ⟨(has.keeps frame.toKeeps).held, (has.keeps frame.toKeeps).block, (has.keeps frame.toKeeps).data⟩

theorem stage_bunpin {f : Unit → Code α} {post : α → Kernel → Prop} (stage : Stage t phase ∅ s)
    (busy : phase.Committing) (has : Has t b n data s) (more : s.unpinned < s.ctl.log.n)
    (first : s.ctl.log.block s.unpinned = n) (written : s.disk n = data)
    (installed : s.short = false → s.disk n = replay disk₀ s.writes n)
    (next : ∀ s', Stage t phase ∅ s' → s'.unpinned = s.unpinned + 1 → Frozen { s with unpinned := s'.unpinned } s' →
      (∀ i n data, Has t i n data s → Has t i n data s') → Wp sb disk₀ t (f ()) post s') :
    Wp sb disk₀ t (bunpin b >>= f) post s := by
  apply wp_act
  intro s₁ frame good _ s₂ done
  have stage₁ := stage.frame frame
  have frozen := frame.frozen (stage.committing busy)
  have has₁ := has.keeps frame.toKeeps
  simp only [exec] at done
  cases done
  have first₁ : s₁.ctl.log.block s₁.unpinned = n := by
    rw [frozen.log, frozen.unpinned]
    exact first
  obtain ⟨good₂, others⟩ := bunpin_step good (stage₁.committing busy) (stage₁.valid b has₁.held).1
    (by rw [frozen.log, frozen.unpinned]; exact more) (first₁.trans has₁.block.symm)
    (by rw [has₁.data, has₁.block, frozen.disk, written]) fun fits => by
      rw [first₁, frozen.disk, frozen.writes]
      exact installed (frame.short fits)
  have same := decRef_same s₁.cache b
  refine ⟨good₂, others, next _ ⟨stage₁.phase, stage₁.idle, fun i mine => ?_, stage₁.clean⟩ ?_ ?_ ?_⟩
  · simp only [Kernel.buf]
    rw [(same i).dev, (same i).valid]
    exact stage₁.valid i mine
  · simp only [frozen.unpinned]
  · exact ⟨frozen.log, frozen.disk, frozen.writes, rfl, frozen.ops, frozen.durable, frozen.short⟩
  · intro i n data has
    have has₁ := has.keeps frame.toKeeps
    exact ⟨has₁.held, (same i).blockno.trans has₁.block, (same i).data.trans has₁.data⟩

/-- The loops over the list; `P` is what holds before the block with number `tail`. -/
theorem wp_forTail {T : Type} {R : Rules T Kernel} {exec : T → (a : Action) → Kernel → Option (a.Result × Kernel)}
    {t : T} {body : ℕ → Code Unit} {P : ℕ → Kernel → Prop} {post : Unit → Kernel → Prop}
    (reads : ∀ s, exec t .lhN s = some (s.ctl.log.n, s)) (stuck : ∀ s, exec t .diverge s = none)
    (stable : ∀ tail s s', R.frame t s s' → P tail s → P tail s' ∧ s'.ctl.log.n = s.ctl.log.n)
    (step : ∀ tail s, R.inv s → P tail s → tail < s.ctl.log.n → wp R exec t (body tail) (fun _ => P (tail + 1)) s)
    (done : ∀ tail s, R.inv s → P tail s → s.ctl.log.n ≤ tail → post () s) (fuel tail : ℕ) (start : P tail s) :
    wp R exec t (forTail body fuel tail) post s := by
  induction fuel generalizing tail s with
  | zero =>
    intro s₁ _ _ r s₂ next
    rw [stuck] at next
    cases next
  | succ fuel ih =>
    intro s₁ frame inv r s₂ read
    rw [reads] at read
    cases read
    refine ⟨inv, fun u _ => R.refl u s₁, ?_⟩
    have now := (stable tail s s₁ frame start).1
    by_cases more : tail < s₁.ctl.log.n
    · simp only [Prog.bind, if_pos more]
      apply wp_bind
      apply wp_mono (step tail s₁ inv now more)
      intro _ s₂ _ next
      exact ih (tail + 1) next
    · simp only [Prog.bind, if_neg more]
      apply wp_ret
      intro s₂ frame₂ inv₂
      obtain ⟨now₂, count⟩ := stable tail s₁ s₂ frame₂ now
      apply done tail s₂ inv₂ now₂
      rw [count]
      exact Nat.not_lt.mp more

theorem stage_forTail {body : ℕ → Code Unit} {P : ℕ → Kernel → Prop} {post : Unit → Kernel → Prop}
    (busy : phase.Committing) (stable : ∀ tail s s', Frozen s s' → P tail s → P tail s')
    (step : ∀ tail s, Good sb disk₀ s → Stage t phase ∅ s → P tail s → tail < s.ctl.log.n →
      Wp sb disk₀ t (body tail) (fun _ s' => Stage t phase ∅ s' ∧ P (tail + 1) s') s)
    (done : ∀ tail s, Good sb disk₀ s → Stage t phase ∅ s → P tail s → s.ctl.log.n ≤ tail → post () s)
    (fuel tail : ℕ) (stage : Stage t phase ∅ s) (start : P tail s) :
    Wp sb disk₀ t (forTail body fuel tail) post s := by
  apply wp_forTail (P := fun tail s => Stage t phase ∅ s ∧ P tail s) (fun _ => rfl) (fun _ => rfl) _ _ _ fuel tail
    ⟨stage, start⟩
  · rintro tail s s' frame ⟨stage, now⟩
    have frozen := frame.frozen (stage.committing busy)
    exact ⟨⟨stage.frame frame, stable tail s s' frozen now⟩, by rw [frozen.log]⟩
  · rintro tail s good ⟨stage, now⟩ more
    exact step tail s good stage now more
  · rintro tail s good ⟨stage, now⟩ all
    exact done tail s good stage now all

end Xv6Labs.Log
