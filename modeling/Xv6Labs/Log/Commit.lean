import Xv6Labs.Log.Stage

/-!
# Every call keeps the rules

A commit writes the log blocks, the header, the home blocks and the header again. What it knows about the disk at
each point it knows only as long as its blocks fit into the log.
-/

namespace Xv6Labs.Log

open Bio Threads Prog

variable {sb : Superblock} {disk₀ : UInt32 → Block} {t : Tid} {s s' : Kernel} {b : Fin nbuf} {n : UInt32}
  {phase : Phase} {touched : Set (Fin nbuf)} {data : Block}

/-! ### `write_log` -/

/-- The first `k` blocks are in the log, and the header on the disk is still empty. -/
structure Copied (sb : Superblock) (disk₀ : UInt32 → Block) (k : ℕ) (s : Kernel) : Prop where
  pinned : s.unpinned = 0
  fits : s.short = false → s.ctl.log.n < sb.nlog.toNat
  head : s.short = false → headN (s.disk sb.logstart) = 0
  logged : s.short = false → ∀ j < k, s.disk (logBlock sb j) = replay disk₀ s.writes (s.ctl.log.block j)

theorem Copied.frozen {k : ℕ} (copied : Copied sb disk₀ k s) (frozen : Frozen s s') : Copied sb disk₀ k s' := by
  obtain ⟨pinned, fits, head, logged⟩ := copied
  constructor
  · rw [frozen.unpinned, pinned]
  · rw [frozen.short, frozen.log]
    exact fits
  · rw [frozen.short, frozen.disk]
    exact head
  · rw [frozen.short, frozen.disk, frozen.writes, frozen.log]
    exact logged

/-- A buffer of a home block that this process has not changed holds what the file system has written. -/
theorem Stage.current (stage : Stage t phase touched s) (good : Good sb disk₀ s) (has : Has t b n data s)
    (out : b ∉ touched) (fits : s.short = false) : data = current sb disk₀ s n := by
  obtain ⟨root, valid⟩ := stage.valid b has.held
  rw [← has.data, ← has.block]
  exact (good.data fits).clean b root valid (stage.clean b has.held out)

theorem listed_small (good : Good sb disk₀ s) {k : ℕ} (less : k < s.ctl.log.n) : k < logSize :=
  Nat.lt_of_lt_of_le less ((Nat.le_add_right _ _).trans good.refs.control.room)

theorem wp_copy_log {k : ℕ} (good : Good sb disk₀ s) (stage : Stage t .commit ∅ s) (copied : Copied sb disk₀ k s)
    (less : k < s.ctl.log.n) :
    Wp sb disk₀ t (copy_log sb k) (fun _ s' => Stage t .commit ∅ s' ∧ Copied sb disk₀ (k + 1) s') s := by
  have small := listed_small good less
  unfold copy_log
  apply wp_bind
  apply stage_bread stage trivial
  intro dst s₁ stage₁ frozen₁ keeps₁ dst₁ _
  apply stage_read (fun _ => rfl) stage₁ trivial
  intro s₂ stage₂ frozen₂ keeps₂
  apply wp_bind
  apply stage_bread stage₂ trivial
  intro src s₃ stage₃ frozen₃ keeps₃ src₃ fresh
  have dst₂ := dst₁.keeps keeps₂
  have dst₃ := dst₂.keeps keeps₃
  have apart : src ≠ dst := by
    rintro rfl
    exact fresh dst₂.held
  apply wp_intro
  intro s₄ frame₄ good₄
  have stage₄ := stage₃.frame frame₄
  have frozen₄ : Frozen s s₄ :=
    ((frozen₁.trans frozen₂).trans frozen₃).trans (frame₄.frozen (stage₃.committing trivial))
  have src₄ := src₃.keeps frame₄.toKeeps
  have dst₄ := dst₃.keeps frame₄.toKeeps
  have block : s₂.ctl.log.block k = s.ctl.log.block k := by
    rw [frozen₂.log, frozen₁.log]
  rw [block] at src₄
  have written : s.short = false → (s₃.buf src).data = replay disk₀ s.writes (s.ctl.log.block k) := by
    intro fits
    rw [← frozen₄.short] at fits
    have home := (good₄.data fits).homes k (by rw [frozen₄.log]; exact less)
    rw [frozen₄.log] at home
    rw [stage₄.current good₄ src₄ (Set.notMem_empty src) fits, current_home home, frozen₄.writes]
  apply stage_memmove stage₄ trivial dst₄ src₄
  intro s₅ stage₅ frozen₅ dst₅ others₅
  have frozen₅ := frozen₄.trans frozen₅
  apply stage_write stage₅ trivial (Set.Subset.refl _) dst₅
  · intro s₆ good₆ frozen₆ phase₆ root block _ fits
    have frozen₆ := frozen₅.trans frozen₆
    rw [frozen₆.short] at fits
    have inside := copied.fits fits
    apply (good₆.data (frozen₆.short.trans fits)).write_log good₆.refs (by rw [phase₆]; trivial) root
    · rw [block]
      exact logBlock_not_home (by omega)
    · rw [block]
      exact logBlock_ne_logstart small
    · rw [frozen₆.disk]
      exact copied.head fits
  intro s₆ stage₆ wrote others₆
  have src₆ := others₆ _ _ _ (others₅ _ _ _ apart src₄)
  apply wp_bind
  apply stage_brelse stage₆ trivial src₆.held
  intro s₇ stage₇ frozen₇ others₇
  have dst₇ := others₇ _ _ _ (Ne.symm apart) (others₆ _ _ _ dst₅)
  apply stage_brelse stage₇ trivial dst₇.held
  intro s₈ stage₈ frozen₈ _
  have frozen₈ := frozen₇.trans frozen₈
  refine ⟨stage₈, Copied.frozen ?_ frozen₈⟩
  have short : s₆.short = s.short := wrote.short.trans frozen₅.short
  constructor
  · rw [wrote.unpinned, frozen₅.unpinned, copied.pinned]
  · rw [short, wrote.log, frozen₅.log]
    exact copied.fits
  · rw [short, wrote.disk, Function.update_of_ne (Ne.symm (logBlock_ne_logstart small)), frozen₅.disk]
    exact copied.head
  · intro fits j upTo
    rw [short] at fits
    rw [wrote.disk, wrote.writes, wrote.log, frozen₅.disk, frozen₅.writes, frozen₅.log]
    by_cases here : j = k
    · rw [here, Function.update_self]
      exact written fits
    · have earlier : j < k := by omega
      rw [Function.update_of_ne fun same => here (logBlock_inj (by omega) small same)]
      exact copied.logged fits j earlier

theorem wp_write_log {post : Unit → Kernel → Prop} (stage : Stage t .commit ∅ s) (copied : Copied sb disk₀ 0 s)
    (next : ∀ s', Good sb disk₀ s' → Stage t .commit ∅ s' → Copied sb disk₀ s'.ctl.log.n s' → post () s') :
    Wp sb disk₀ t (write_log sb) post s := by
  have busy : Phase.commit.Committing := trivial
  unfold write_log
  apply stage_forTail busy (fun _ _ _ frozen copied => copied.frozen frozen) _ _ _ _ stage copied
  · intro k s' good stage' copied' less
    exact wp_copy_log good stage' copied' less
  · intro k s' good stage' copied' all
    exact next s' good stage' { copied' with logged := fun fits j less => copied'.logged fits j (by omega) }

/-! ### `write_head` -/

theorem wp_write_head {post : Unit → Kernel → Prop} (stage : Stage t phase ∅ s) (busy : phase.Committing)
    (safe : ∀ b s' old, Good sb disk₀ s' → Frozen s s' → s'.ctl.phase t = phase → (s'.buf b).dev = rootdev →
      (s'.buf b).blockno = sb.logstart → (s'.buf b).data = putHead s.ctl.log old → s'.short = false →
      DataInv sb disk₀ (s'.write sb t b))
    (next : ∀ s' old, Stage t phase ∅ s' → Wrote sb phase sb.logstart (putHead s.ctl.log old) s s' → post () s') :
    Wp sb disk₀ t (write_head sb) post s := by
  unfold write_head
  apply wp_bind
  apply stage_bread stage busy
  intro b s₁ stage₁ frozen₁ _ has₁ _
  apply stage_putHead stage₁ busy has₁
  intro s₂ stage₂ frozen₂ has₂
  have frozen₂ := frozen₁.trans frozen₂
  rw [frozen₁.log] at has₂
  apply stage_write stage₂ busy (Set.Subset.refl _) has₂
  · intro s₃ good frozen₃ phase₃ root block data fits
    exact safe b s₃ _ good (frozen₂.trans frozen₃) phase₃ root block data fits
  intro s₃ stage₃ wrote others₃
  apply stage_brelse stage₃ busy (others₃ _ _ _ has₂).held
  intro s₄ stage₄ frozen₄ _
  apply next s₄ (s₁.buf b).data stage₄
  constructor
  · rw [frozen₄.log, wrote.log, frozen₂.log]
  · rw [frozen₄.disk, wrote.disk, frozen₂.disk]
  · rw [frozen₄.writes, wrote.writes, frozen₂.writes]
  · rw [frozen₄.unpinned, wrote.unpinned, frozen₂.unpinned]
  · rw [frozen₄.ops, wrote.ops, frozen₂.ops]
  · rw [frozen₄.durable, wrote.durable, frozen₂.ops, frozen₂.durable]
  · rw [frozen₄.short, wrote.short, frozen₂.short]

/-! ### `install_trans` -/

/-- The header is on the disk, and the first `k` blocks are installed and unpinned. -/
structure Installed (sb : Superblock) (disk₀ : UInt32 → Block) (k : ℕ) (s : Kernel) : Prop where
  pinned : s.unpinned = k
  most : k ≤ s.ctl.log.n
  fits : s.short = false → s.ctl.log.n < sb.nlog.toNat
  durable : s.short = false → s.durable = s.ops
  head : s.short = false → headN (s.disk sb.logstart) = s.ctl.log.n
  blocks : s.short = false → ∀ j < s.ctl.log.n, headBlock (s.disk sb.logstart) j = s.ctl.log.block j
  logged : s.short = false → ∀ j < s.ctl.log.n, s.disk (logBlock sb j) = replay disk₀ s.writes (s.ctl.log.block j)

theorem Installed.frozen {k : ℕ} (installed : Installed sb disk₀ k s) (frozen : Frozen s s') :
    Installed sb disk₀ k s' := by
  obtain ⟨pinned, most, fits, durable, head, blocks, logged⟩ := installed
  constructor
  · rw [frozen.unpinned, pinned]
  · rw [frozen.log]
    exact most
  · rw [frozen.short, frozen.log]
    exact fits
  · rw [frozen.short, frozen.durable, frozen.ops]
    exact durable
  · rw [frozen.short, frozen.disk, frozen.log]
    exact head
  · rw [frozen.short, frozen.disk, frozen.log]
    exact blocks
  · rw [frozen.short, frozen.disk, frozen.writes, frozen.log]
    exact logged

theorem wp_install {k : ℕ} (good : Good sb disk₀ s) (stage : Stage t .commit ∅ s) (installed : Installed sb disk₀ k s)
    (less : k < s.ctl.log.n) :
    Wp sb disk₀ t (install sb k) (fun _ s' => Stage t .commit ∅ s' ∧ Installed sb disk₀ (k + 1) s') s := by
  have home : s.short = false → Home sb (s.ctl.log.block k) := fun fits => (good.data fits).homes k less
  unfold install
  apply wp_bind
  apply stage_bread stage trivial
  intro lbuf s₁ stage₁ frozen₁ keeps₁ log₁ _
  apply stage_read (fun _ => rfl) stage₁ trivial
  intro s₂ stage₂ frozen₂ keeps₂
  apply wp_bind
  apply stage_bread stage₂ trivial
  intro dbuf s₃ stage₃ frozen₃ keeps₃ home₃ fresh
  have log₂ := log₁.keeps keeps₂
  have apart : dbuf ≠ lbuf := by
    rintro rfl
    exact fresh log₂.held
  apply wp_intro
  intro s₄ frame₄ good₄
  have stage₄ := stage₃.frame frame₄
  have frozen₄ : Frozen s s₄ :=
    ((frozen₁.trans frozen₂).trans frozen₃).trans (frame₄.frozen (stage₃.committing trivial))
  have log₄ := (log₂.keeps keeps₃).keeps frame₄.toKeeps
  have home₄ := home₃.keeps frame₄.toKeeps
  have block : s₂.ctl.log.block k = s.ctl.log.block k := by
    rw [frozen₂.log, frozen₁.log]
  rw [block] at home₄
  -- The log block on the disk is what `write_log` has put there.
  have written : s.short = false → (s₁.buf lbuf).data = replay disk₀ s.writes (s.ctl.log.block k) := by
    intro fits
    have inside := installed.fits fits
    rw [stage₄.current good₄ log₄ (Set.notMem_empty lbuf) (frozen₄.short.trans fits),
      current_log (logBlock_not_home (by omega)), frozen₄.disk]
    exact installed.logged fits k less
  apply stage_memmove stage₄ trivial home₄ log₄
  intro s₅ stage₅ frozen₅ home₅ others₅
  have frozen₅ := frozen₄.trans frozen₅
  apply stage_write stage₅ trivial (Set.Subset.refl _) home₅
  · intro s₆ good₆ frozen₆ phase₆ root block data fits
    have frozen₆ := frozen₅.trans frozen₆
    have fits₀ := frozen₆.short ▸ fits
    apply (good₆.data fits).write_home good₆.refs (by rw [phase₆]; trivial) root (by rw [block]; exact home fits₀)
    · rw [data, block, frozen₆.writes]
      exact written fits₀
    · rw [frozen₆.disk, installed.head fits₀]
      exact less
    · rw [frozen₆.disk, block]
      exact installed.blocks fits₀ k less
    · rw [frozen₆.disk, installed.head fits₀]
      exact installed.fits fits₀
  intro s₆ stage₆ wrote others₆
  have home₆ := others₆ _ _ _ home₅
  have log₆ := others₆ _ _ _ (others₅ _ _ _ (Ne.symm apart) log₄)
  have unpinned₆ : s₆.unpinned = k := by
    rw [wrote.unpinned, frozen₅.unpinned, installed.pinned]
  have list₆ : s₆.ctl.log = s.ctl.log := wrote.log.trans frozen₅.log
  have writes₆ : s₆.writes = s.writes := wrote.writes.trans frozen₅.writes
  have short₆ : s₆.short = s.short := wrote.short.trans frozen₅.short
  apply stage_bunpin stage₆ trivial home₆
  · rw [unpinned₆, list₆]
    exact less
  · rw [unpinned₆, list₆]
  · rw [wrote.disk, Function.update_self]
  · intro fits
    rw [wrote.disk, Function.update_self, writes₆]
    exact written (short₆ ▸ fits)
  intro s₇ stage₇ unpinned₇ frozen₇ others₇
  apply wp_bind
  apply stage_brelse stage₇ trivial (others₇ _ _ _ log₆).held
  intro s₈ stage₈ frozen₈ others₈
  apply stage_brelse stage₈ trivial (others₈ _ _ _ apart (others₇ _ _ _ home₆)).held
  intro s₉ stage₉ frozen₉ _
  have frozen₉ := frozen₇.trans (frozen₈.trans frozen₉)
  refine ⟨stage₉, Installed.frozen ?_ frozen₉⟩
  have disk₆ : s₆.disk = Function.update s.disk (s.ctl.log.block k) (s₁.buf lbuf).data := by
    rw [wrote.disk, frozen₅.disk]
  have header : s.short = false → s₆.disk sb.logstart = s.disk sb.logstart := by
    intro fits
    have inside := installed.fits fits
    rw [disk₆, Function.update_of_ne]
    intro same
    have home := home fits
    rw [← same] at home
    exact logstart_not_home (by omega) home
  constructor
  · simp only [unpinned₇, unpinned₆]
  · simp only [list₆]
    exact less
  · simp only [list₆, short₆]
    exact installed.fits
  · simp only [short₆, wrote.durable, wrote.ops, frozen₅.ops, frozen₅.durable]
    intro fits
    split
    · rfl
    · exact installed.durable fits
  · simp only [list₆, short₆]
    intro fits
    rw [header fits]
    exact installed.head fits
  · simp only [list₆, short₆]
    intro fits
    rw [header fits]
    exact installed.blocks fits
  · simp only [list₆, short₆, writes₆]
    intro fits j more
    have inside := installed.fits fits
    rw [disk₆, Function.update_of_ne]
    · exact installed.logged fits j more
    · intro same
      have home := home fits
      rw [← same] at home
      exact logBlock_not_home (by omega) home

theorem wp_install_trans {post : Unit → Kernel → Prop} (stage : Stage t .commit ∅ s)
    (installed : Installed sb disk₀ 0 s)
    (next : ∀ s', Good sb disk₀ s' → Stage t .commit ∅ s' → Installed sb disk₀ s'.ctl.log.n s' → post () s') :
    Wp sb disk₀ t (install_trans sb) post s := by
  have busy : Phase.commit.Committing := trivial
  unfold install_trans
  apply stage_forTail busy (fun _ _ _ frozen installed => installed.frozen frozen) _ _ _ _ stage installed
  · intro k s' good stage' installed' less
    exact wp_install good stage' installed' less
  · intro k s' good stage' installed' all
    apply next s' good stage'
    rw [Nat.le_antisymm all installed'.most]
    exact installed'

/-! ### `commit` -/

/-- `commit` is done: nothing is pinned, and if the blocks fitted, the header on the disk is empty again. -/
structure Done (sb : Superblock) (s : Kernel) : Prop where
  pinned : s.unpinned = 0
  empty : s.ctl.log.n = 0
  head : s.short = false → headN (s.disk sb.logstart) = 0

theorem Done.frozen (done : Done sb s) (frozen : Frozen s s') : Done sb s' := by
  obtain ⟨pinned, empty, head⟩ := done
  constructor
  · rw [frozen.unpinned, pinned]
  · rw [frozen.log, empty]
  · rw [frozen.short, frozen.disk]
    exact head

theorem wp_commit {post : Unit → Kernel → Prop} (nonempty : 0 < sb.nlog.toNat) (stage : Stage t .commit ∅ s)
    (copied : Copied sb disk₀ 0 s)
    (next : ∀ s' phase, phase.Committing → Stage t phase ∅ s' → Done sb s' → post () s') :
    Wp sb disk₀ t (commit sb) post s := by
  unfold commit
  apply stage_read (fun _ => rfl) stage trivial
  intro s₁ stage₁ frozen₁ _
  have copied₁ := copied.frozen frozen₁
  by_cases some : 0 < s₁.ctl.log.n
  · simp only [if_pos some]
    apply wp_bind
    apply wp_write_log stage₁ copied₁
    intro s₂ good₂ stage₂ copied₂
    have small : s₂.ctl.log.n ≤ logSize := (Nat.le_add_right _ _).trans good₂.refs.control.room
    apply wp_bind
    apply wp_write_head stage₂ trivial
    · intro b s₃ old good₃ frozen₃ phase₃ root block data fits
      have fits₂ := frozen₃.short ▸ fits
      apply (good₃.data fits).write_commit good₃.refs phase₃ root block
      · rw [frozen₃.log]
        exact copied₂.fits fits₂
      · rw [data, frozen₃.log, headN_putHead old small]
      · intro k less
        rw [frozen₃.log] at less ⊢
        rw [data, headBlock_putHead old small less]
      · rw [frozen₃.log, frozen₃.disk, frozen₃.writes]
        exact copied₂.logged fits₂
    intro s₃ old stage₃ wrote
    apply wp_bind
    apply wp_install_trans stage₃
    · constructor
      · rw [wrote.unpinned, copied₂.pinned]
      · exact Nat.zero_le _
      · rw [wrote.short, wrote.log]
        exact copied₂.fits
      · intro _
        rw [wrote.durable, wrote.ops, if_pos ⟨rfl, rfl⟩]
      · intro _
        rw [wrote.disk, wrote.log, Function.update_self, headN_putHead old small]
      · intro _ j less
        rw [wrote.log] at less
        rw [wrote.disk, wrote.log, Function.update_self, headBlock_putHead old small less]
      · intro fits j less
        rw [wrote.log] at less
        rw [wrote.disk, wrote.log, wrote.writes,
          Function.update_of_ne (logBlock_ne_logstart (Nat.lt_of_lt_of_le less small))]
        exact copied₂.logged (wrote.short ▸ fits) j less
    intro s₄ good₄ stage₄ installed
    apply wp_act
    intro s₅ frame₅ good₅ _ s₆ cleared
    have stage₅ := stage₄.frame frame₅
    have frozen₅ := frame₅.frozen (stage₄.committing trivial)
    have installed₅ := installed.frozen frozen₅
    simp only [exec] at cleared
    cases cleared
    obtain ⟨good₆, others₆⟩ := clear_step good₅ stage₅.phase (installed₅.pinned.trans (by rw [frozen₅.log]))
    refine ⟨good₆, others₆, ?_⟩
    have stage₆ : Stage t .cleared ∅ (s₅.clear t) := by
      refine ⟨?_, stage₅.idle, stage₅.valid, stage₅.clean⟩
      change (if s₅.ctl.phase t = .commit then Function.update s₅.ctl.phase t .cleared else s₅.ctl.phase) t = .cleared
      rw [if_pos stage₅.phase, Function.update_self]
    apply wp_write_head stage₆ trivial
    · intro b s₇ old good₇ frozen₇ phase₇ root block data fits
      apply (good₇.data fits).write_clear good₇.refs phase₇ root block nonempty
      · rw [data, headN_putHead old (Nat.zero_le _)]
        rfl
      · rw [frozen₇.log]
        rfl
      · rw [frozen₇.durable, frozen₇.ops]
        exact installed₅.durable (frozen₇.short.symm.trans fits)
    intro s₇ old stage₇ wrote₇
    refine next s₇ .cleared trivial stage₇ ⟨?_, ?_, fun _ => ?_⟩
    · rw [wrote₇.unpinned]
      rfl
    · rw [wrote₇.log]
      rfl
    · rw [wrote₇.disk, Function.update_self, headN_putHead old (Nat.zero_le _)]
      rfl
  · simp only [if_neg some]
    apply wp_ret
    intro s₂ frame₂ good₂
    refine next s₂ .commit trivial (stage₁.frame frame₂) (Done.frozen ?_ (frame₂.frozen (stage₁.committing trivial)))
    exact ⟨copied₁.pinned, Nat.eq_zero_of_not_pos some, copied₁.head⟩

/-! ### All calls -/

/-- A process between two calls. -/
structure Idle (t : Tid) (s : Kernel) : Prop where
  calm : ¬(s.ctl.phase t).Committing
  idle : s.busy t = none
  valid : ∀ i, s.lock i = some t → (s.buf i).dev = rootdev ∧ (s.buf i).valid = true

theorem Idle.frame (idle : Idle t s) (frame : Frame t s s') : Idle t s' := by
  refine ⟨by rw [frame.phase]; exact idle.calm, frame.busy.trans idle.idle, fun i mine => ?_⟩
  obtain ⟨-, -, same⟩ := frame.held i (frame.mine i mine)
  rw [same.dev, same.valid]
  exact idle.valid i (frame.mine i mine)

/-- A process between two calls has logged whatever it has changed. -/
structure Settled (t : Tid) (s : Kernel) : Prop extends Idle t s where
  clean : ∀ i, s.lock i = some t → s.dirty i = false

theorem Settled.frame (settled : Settled t s) (frame : Frame t s s') : Settled t s' := by
  refine ⟨settled.toIdle.frame frame, fun i mine => ?_⟩
  rw [(frame.held i (frame.mine i mine)).2.1]
  exact settled.clean i (frame.mine i mine)

theorem finish_dirty (h : exec sb t .finish s = some ((), s')) : s'.dirty = s.dirty := by
  simp only [exec] at h
  split at h
  · cases h
    rfl
  · cases h

theorem wp_end_op (nonempty : 0 < sb.nlog.toNat) (settled : Settled t s) :
    Wp sb disk₀ t (end_op sb) (fun _ => Settled t) s := by
  unfold end_op
  apply wp_act
  intro s₁ frame₁ good₁ last s₂ step
  have settled₁ := settled.frame frame₁
  obtain ⟨good₂, others₂, lock, busy, bufs, dirty, result⟩ := leave_step good₁ settled₁.clean step
  refine ⟨good₂, others₂, ?_⟩
  have idle₂ : s₂.busy t = none := by
    rw [busy]
    exact settled₁.idle
  have valid₂ : ∀ i, s₂.lock i = some t → (s₂.buf i).dev = rootdev ∧ (s₂.buf i).valid = true := by
    intro i mine
    rw [bufs]
    exact settled₁.valid i (by rw [← lock]; exact mine)
  have clean₂ : ∀ i, s₂.lock i = some t → s₂.dirty i = false := by
    intro i mine
    rw [dirty]
    exact settled₁.clean i (by rw [← lock]; exact mine)
  rcases result with ⟨rfl, phase⟩ | ⟨rfl, phase, pinned, small⟩
  · apply wp_ret
    intro s₃ frame₃ _
    apply Settled.frame _ frame₃
    exact ⟨⟨by rw [phase]; exact id, idle₂, valid₂⟩, clean₂⟩
  · have stage₂ : Stage t .commit ∅ s₂ := ⟨phase, idle₂, valid₂, fun i mine _ => clean₂ i mine⟩
    apply wp_bind
    apply wp_commit nonempty stage₂
    · exact ⟨pinned, fun fits => (small fits).2.1, fun fits => (small fits).2.2,
        fun _ j less => (Nat.not_lt_zero j less).elim⟩
    intro s₃ phase₃ busy₃ stage₃ done₃
    apply wp_lift
    intro s₄ frame₄ good₄ _ s₅ finish
    have stage₄ := stage₃.frame frame₄
    have done₄ := done₃.frozen (frame₄.frozen (stage₃.committing busy₃))
    obtain ⟨good₅, others₅, lock₅, waits₅, bufs₅, phase₅⟩ := finish_step good₄ (stage₄.committing busy₃) done₄.pinned
      (fun i mine => stage₄.clean i mine (Set.notMem_empty i)) (fun fits => ⟨done₄.empty, done₄.head fits⟩)
      finish
    refine ⟨good₅, others₅, ?_⟩
    intro s₆ frame₆ _
    apply Settled.frame _ frame₆
    refine ⟨⟨by rw [phase₅]; exact id, by rw [waits₅]; exact stage₄.idle, fun i mine => ?_⟩, fun i mine => ?_⟩
    · rw [bufs₅]
      exact stage₄.valid i (by rw [← lock₅]; exact mine)
    · rw [finish_dirty finish]
      exact stage₄.clean i (by rw [← lock₅]; exact mine) (Set.notMem_empty i)

/-- After `log_write` the buffer is clean, and the process has the same buffers. -/
structure Logged (t : Tid) (b : Fin nbuf) (s s' : Kernel) : Prop where
  idle : Idle t s'
  held : s'.lock b = some t
  mine : ∀ i, s'.lock i = some t → s.lock i = some t
  clean : s'.dirty b = false
  others : ∀ i, i ≠ b → s.lock i = some t → s'.dirty i = s.dirty i

theorem check_dirty (h : exec sb t (.check b) s = some ((), s')) : s'.dirty = s.dirty := by
  simp only [exec] at h
  split at h
  · split at h
    · cases h
      rfl
    · cases h
  · cases h

theorem append_dirty (h : exec sb t (.append b) s = some ((), s')) : s'.dirty = Function.update s.dirty b false := by
  simp only [exec] at h
  split at h
  · cases h
    rfl
  · cases h

theorem wp_log_write (idle : Idle t s) (held : s.lock b = some t)
    (home : Home sb (s.buf b).blockno) : Wp sb disk₀ t (log_write b) (fun _ => Logged t b s) s := by
  unfold log_write
  apply wp_act
  intro s₁ frame₁ good₁ _ s₂ step
  have idle₁ := idle.frame frame₁
  obtain ⟨held₁, -, same₁⟩ := frame₁.held b held
  obtain ⟨good₂, others₂, lock₂, waits₂, bufs₂, logged, phase₂⟩ := check_step good₁ step
  refine ⟨good₂, others₂, ?_⟩
  apply wp_lift
  intro s₃ frame₃ good₃ _ s₄ append
  obtain ⟨held₃, -, same₃⟩ := frame₃.held b (by rw [lock₂]; exact held₁)
  have valid₃ := idle₁.valid b held₁
  rw [← bufs₂, ← same₃.dev, ← same₃.valid] at valid₃
  have block₃ : (s₃.buf b).blockno = (s₁.buf b).blockno := by
    rw [same₃.blockno, bufs₂]
  obtain ⟨good₄, others₄, lock₄, waits₄, same₄, calm₄⟩ := append_step good₃ held₃ valid₃.1 valid₃.2
    (by rw [block₃, same₁.blockno]; exact home) (by rw [frame₃.phase, phase₂, block₃]) append
  refine ⟨good₄, others₄, ?_⟩
  intro s₅ frame₅ _
  have held₄ : s₄.lock b = some t := by
    rw [lock₄]
    exact held₃
  refine ⟨Idle.frame ?_ frame₅, (frame₅.held b held₄).1, fun i mine => ?_, ?_, fun i other mine => ?_⟩
  · refine ⟨calm₄, ?_, fun i mine => ?_⟩
    · rw [waits₄, frame₃.busy, waits₂]
      exact idle₁.idle
    · rw [lock₄] at mine
      have mine₂ := frame₃.mine i mine
      obtain ⟨-, -, same⟩ := frame₃.held i mine₂
      rw [(same₄ i).dev, (same₄ i).valid, same.dev, same.valid, bufs₂]
      exact idle₁.valid i (by rw [← lock₂]; exact mine₂)
  · have mine₄ := frame₅.mine i mine
    rw [lock₄] at mine₄
    have mine₂ := frame₃.mine i mine₄
    rw [lock₂] at mine₂
    exact frame₁.mine i mine₂
  · rw [(frame₅.held b held₄).2.1, append_dirty append, Function.update_self]
  · obtain ⟨mine₁, dirty₁, -⟩ := frame₁.held i mine
    obtain ⟨mine₃, dirty₃, -⟩ := frame₃.held i (by rw [lock₂]; exact mine₁)
    obtain ⟨-, dirty₅, -⟩ := frame₅.held i (by rw [lock₄]; exact mine₃)
    rw [dirty₅, append_dirty append, Function.update_of_ne other, dirty₃, check_dirty step, dirty₁]

/-- Whatever a process may call keeps the rules. -/
theorem offered_wp (nonempty : 0 < sb.nlog.toNat) (idle : Idle t s) {code : Code Unit}
    (offered : Offered sb t s code) : Wp sb disk₀ t code (fun _ => Idle t) s := by
  cases offered with
  | bread blockno =>
    apply wp_bind
    apply wp_bread idle.idle
    intro b s₁ keeps got
    apply wp_ret
    intro s₂ frame _
    apply Idle.frame _ frame
    refine ⟨by rw [keeps.phase]; exact idle.calm, got.idle, fun i mine => ?_⟩
    rcases got.mine i mine with rfl | old
    · exact ⟨got.dev, got.valid⟩
    · obtain ⟨-, -, same⟩ := keeps.held i old
      rw [same.dev, same.valid]
      exact idle.valid i old
  | brelse b held logged =>
    apply wp_brelse idle.idle held logged
    intro s₁ gave
    refine ⟨by rw [gave.phase]; exact idle.calm, gave.idle, fun i mine => ?_⟩
    obtain ⟨other, old⟩ := gave.mine i mine
    obtain ⟨-, -, same⟩ := gave.held i other old
    rw [same.dev, same.valid]
    exact idle.valid i old
  | change b f held home inOp =>
    apply wp_lift
    intro s₁ frame₁ good₁ _ s₂ step
    simp only [exec] at step
    cases step
    have idle₁ := idle.frame frame₁
    have writing : (s₁.ctl.phase t).Writing := by
      obtain ⟨logged, phase⟩ := inOp
      rw [frame₁.phase, phase]
      trivial
    obtain ⟨good₂, others₂⟩ := setData_step good₁ (frame₁.held b held).1 writing (f (s₁.buf b).data)
    refine ⟨good₂, others₂, ?_⟩
    intro s₃ frame₃ _
    apply Idle.frame _ frame₃
    refine ⟨idle₁.calm, idle₁.idle, fun i mine => ?_⟩
    rw [(setData_spec s₁ b i _).1, (setData_spec s₁ b i _).2.2.2]
    exact idle₁.valid i mine
  | log_write b held home inOp => exact wp_mono (wp_log_write idle held home) fun _ _ _ logged => logged.idle
  | begin_op =>
    apply wp_lift
    intro s₁ frame₁ good₁ _ s₂ step
    have idle₁ := idle.frame frame₁
    obtain ⟨good₂, others₂, lock₂, waits₂, same₂, calm₂⟩ := begin_op_step good₁ step
    refine ⟨good₂, others₂, ?_⟩
    intro s₃ frame₃ _
    apply Idle.frame _ frame₃
    refine ⟨calm₂, by rw [waits₂]; exact idle₁.idle, fun i mine => ?_⟩
    rw [(same₂ i).dev, (same₂ i).valid]
    exact idle₁.valid i (by rw [← lock₂]; exact mine)
  | end_op logged =>
    exact wp_mono (wp_end_op nonempty ⟨idle, logged⟩) fun _ _ _ settled => settled.toIdle

end Xv6Labs.Log
