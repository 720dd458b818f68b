import Xv6Labs.Log.Code

/-!
# Recovery on its own

What `recover_from_log` does when nobody else is running, call by call.
-/

namespace Xv6Labs.Log

open Bio Threads Prog

variable {sb : Superblock} {t : Tid} {s s' : Kernel} {blockno : UInt32} {b i j : Fin nbuf}

/-! ### The search of `bget` -/

/-- The buffer of the block, an unreferenced buffer that now has the block, or a panic. -/
theorem exec_bget (filed : ∃ l, s.cache.Filed Single.listOf l) (sb : Superblock) (t : Tid) (blockno : UInt32) :
    (∃ i, (s.buf i).dev = rootdev ∧ (s.buf i).blockno = blockno ∧ exec sb t (.bget blockno) s =
      some (i, { s with cache := s.cache.incRef (.buf i), busy := Function.update s.busy t (some i) })) ∨
    (¬s.cache.Cached rootdev blockno ∧ ∃ i c, (s.buf i).refcnt = 0 ∧
      c.buf = (s.cache.assign (.buf i) rootdev blockno).buf ∧ (∃ l, c.Filed Single.listOf l) ∧
      exec sb t (.bget blockno) s = some (i, { s with cache := c, busy := Function.update s.busy t (some i) })) ∨
    (¬s.cache.Cached rootdev blockno ∧ (∀ i, (s.buf i).refcnt ≠ 0) ∧ exec sb t (.bget blockno) s = none) := by
  obtain ⟨l, filed⟩ := filed
  have found := Single.sound s.cache l rootdev blockno filed
  change Found _ _ _ _ (Single.bget s.cache rootdev blockno) at found
  simp only [exec]
  generalize Single.bget s.cache rootdev blockno = result at found
  cases found with
  | hit i devs blocks => exact .inl ⟨i, devs, blocks, rfl⟩
  | recycled c i miss unused bufs filed => exact .inr (.inl ⟨miss, i, c, unused, bufs, filed, rfl⟩)
  | full miss busy => exact .inr (.inr ⟨miss, busy, rfl⟩)

/-- What `bread` makes of the cache. -/
structure Reads (s : Kernel) (blockno : UInt32) (i : Fin nbuf) (c : Cache Single.heads Block) : Prop where
  filed : ∃ l, c.Filed Single.listOf l
  distinct : c.Distinct
  others : ∀ j, j ≠ i → c.buf (.buf j) = s.buf j
  dev : (c.buf (.buf i)).dev = rootdev
  block : (c.buf (.buf i)).blockno = blockno
  valid : (c.buf (.buf i)).valid = true
  refcnt : (s.buf i).dev = rootdev ∧ (s.buf i).blockno = blockno ∧
      (c.buf (.buf i)).refcnt = (s.buf i).refcnt + 1 ∨
    ¬s.cache.Cached rootdev blockno ∧ (s.buf i).refcnt = 0 ∧ (c.buf (.buf i)).refcnt = 1
  data : (c.buf (.buf i)).data = s.disk blockno ∨
    (s.buf i).dev = rootdev ∧ (s.buf i).blockno = blockno ∧ (s.buf i).valid = true ∧
      (c.buf (.buf i)).data = (s.buf i).data

theorem bget_reads (filed : ∃ l, s.cache.Filed Single.listOf l) (distinct : s.cache.Distinct)
    (h : exec sb t (.bget blockno) s = some (i, s')) :
    ∃ c, s' = { s with cache := c, busy := Function.update s.busy t (some i) } ∧
      Reads s blockno i (c.fill (.buf i) s.disk) := by
  rcases exec_bget filed sb t blockno with ⟨j, devs, blocks, found⟩ | ⟨miss, j, c, unused, bufs, filed', found⟩ |
    ⟨-, -, found⟩ <;> rw [found] at h <;> cases h
  · refine ⟨_, rfl, ?_⟩
    obtain ⟨l, filed⟩ := filed
    have filed' : (s.cache.incRef (.buf i)).Filed Single.listOf l := filed.setBuf rfl
    have spec := (s.cache.incRef (.buf i)).fill_spec (.buf i) s.disk (.buf i)
    have same := s.cache.incRef_spec (.buf i) (.buf i)
    have content : (s.cache.incRef (.buf i)).buf (.buf i) =
        { s.buf i with refcnt := (s.buf i).refcnt + 1 } := Cache.setBuf_self _ _ _
    have filled := (s.cache.incRef (.buf i)).fill_self (.buf i) s.disk
    rw [content] at filled
    refine ⟨⟨l, filed'.fill _ _⟩, ?_, ?_, ?_, ?_, filled.1, ?_, ?_⟩
    · exact (distinct.congr (fun j => (s.cache.incRef_spec (.buf i) (.buf j)).1)
        fun j => (s.cache.incRef_spec (.buf i) (.buf j)).2.1).fill _ _
    · intro j ne
      rw [Cache.fill_other _ _ (by simpa using ne)]
      exact Cache.setBuf_of_ne _ (by simpa using ne)
    · rw [spec.1, same.1, devs]
    · rw [spec.2.1, same.2.1, blocks]
    · left
      refine ⟨devs, blocks, ?_⟩
      rw [spec.2.2, same.2.2, if_pos rfl]
    · rw [filled.2]
      by_cases valid : (s.buf i).valid = true
      · right
        exact ⟨devs, blocks, valid, if_pos valid⟩
      · left
        rw [if_neg valid, ← blocks]
  · refine ⟨c, rfl, ?_⟩
    obtain ⟨l, filed'⟩ := filed'
    have spec := c.fill_spec (.buf i) s.disk (.buf i)
    have content : c.buf (.buf i) =
        { s.buf i with dev := rootdev, blockno := blockno, valid := false, refcnt := 1 } := by
      rw [bufs, Cache.assign, Cache.setBuf_self]
    have filled := c.fill_self (.buf i) s.disk
    rw [content] at filled spec
    refine ⟨⟨l, filed'.fill _ _⟩, ?_, ?_, spec.1, spec.2.1, filled.1, .inr ⟨miss, unused, spec.2.2⟩, .inl filled.2⟩
    · exact ((distinct.assign miss).congr (fun j => by rw [bufs]) fun j => by rw [bufs]).fill _ _
    · intro j ne
      rw [Cache.fill_other _ _ (by simpa using ne), bufs, Cache.assign_other ne]

theorem bread_run (sb : Superblock) (t : Tid) (blockno : UInt32) (filed : ∃ l, s.cache.Filed Single.listOf l)
    (distinct : s.cache.Distinct) (room : s.cache.Cached rootdev blockno ∨ ∃ j, (s.buf j).refcnt = 0)
    (awake : ∀ i, (s.buf i).dev = rootdev ∧ (s.buf i).blockno = blockno ∨ (s.buf i).refcnt = 0 → s.lock i = none) :
    ∃ i c, (bread blockno).run (exec sb t) s = some (i, { s with
        cache := c
        lock := Function.update s.lock i (some t)
        busy := Function.update s.busy t none }) ∧ s.lock i = none ∧ Reads s blockno i c := by
  have found : ∃ i s', exec sb t (.bget blockno) s = some (i, s') ∧ s.lock i = none := by
    rcases exec_bget filed sb t blockno with ⟨i, devs, blocks, found⟩ | ⟨-, i, c, unused, -, -, found⟩ | ⟨miss, busy, -⟩
    · exact ⟨i, _, found, awake i (.inl ⟨devs, blocks⟩)⟩
    · exact ⟨i, _, found, awake i (.inr unused)⟩
    · rcases room with cached | ⟨j, unused⟩
      · exact (miss cached).elim
      · exact (busy j unused).elim
  obtain ⟨i, s', found, free⟩ := found
  obtain ⟨c, rfl, reads⟩ := bget_reads filed distinct found
  refine ⟨i, _, ?_, free, reads⟩
  unfold bread
  rw [act, run_lift_of found]
  have locks : exec sb t (.acquiresleep i) { s with cache := c, busy := Function.update s.busy t (some i) } =
      some ((), { s with
        cache := c
        lock := Function.update s.lock i (some t)
        busy := Function.update s.busy t none }) := by
    simp [exec, free]
  rw [act, run_lift_of locks]
  rfl

theorem brelse_run (held : s.lock b = some t) : (brelse b).run (exec sb t) s = some ((), { s with
    cache := s.cache.drop 0 (.buf b)
    lock := Function.update s.lock b none
    busy := Function.update s.busy t none }) := by
  have unlocks : exec sb t (.releasesleep b) s = some ((), { s with
      lock := Function.update s.lock b none
      busy := Function.update s.busy t (some b) }) := by
    simp [exec, held]
  unfold brelse
  rw [act, run_lift_of unlocks, act, run_lift]
  simp [exec]

/-! ### Stray references

`install_trans` unpins the blocks it has installed, which nobody has pinned during recovery. Each of them keeps a
buffer whose `refcnt` is one less than 0. -/

theorem setData_spec (s : Kernel) (b j : Fin nbuf) (data : Block) :
    ((s.setData b data).buf j).dev = (s.buf j).dev ∧ ((s.setData b data).buf j).blockno = (s.buf j).blockno ∧
      ((s.setData b data).buf j).refcnt = (s.buf j).refcnt ∧
      ((s.setData b data).buf j).valid = (s.buf j).valid := by
  by_cases same : j = b
  · subst same
    simp [Kernel.setData, Kernel.buf]
  · have other : (s.setData b data).buf j = s.buf j := Cache.setBuf_of_ne _ (by simpa using same)
    rw [other]
    exact ⟨rfl, rfl, rfl, rfl⟩

variable {blk : ℕ → UInt32} {n k : ℕ}

def Stray (blk : ℕ → UInt32) (k : ℕ) (s : Kernel) (i : Fin nbuf) : Prop :=
  (s.buf i).dev = rootdev ∧ ∃ j < k, (s.buf i).blockno = blk j

/-- The first `k` of the `n` listed blocks are installed. -/
structure Strays (blk : ℕ → UInt32) (n k : ℕ) (s : Kernel) : Prop where
  filed : ∃ l, s.cache.Filed Single.listOf l
  distinct : s.cache.Distinct
  free : ∀ i, s.lock i = none
  count : s.ctl.log.n = n
  block : ∀ j < n, s.ctl.log.block j = blk j
  stray : ∀ i, Stray blk k s i → (s.buf i).refcnt = -1
  other : ∀ i, ¬Stray blk k s i → (s.buf i).refcnt = 0
  cached : ∀ j < k, s.cache.Cached rootdev (blk j)

open Classical in
theorem Strays.card_le (strays : Strays blk n k s) :
    (Finset.univ.filter fun i => (s.buf i).refcnt ≠ 0).card ≤ k := by
  have image : ∀ i ∈ Finset.univ.filter (fun i => (s.buf i).refcnt ≠ 0),
      (s.buf i).blockno ∈ (Finset.range k).image blk := by
    intro i used
    by_contra out
    apply (Finset.mem_filter.mp used).2
    apply strays.other
    rintro ⟨-, j, small, same⟩
    exact out (Finset.mem_image.mpr ⟨j, Finset.mem_range.mpr small, same.symm⟩)
  have injective : Set.InjOn (fun i => (s.buf i).blockno)
      (Finset.univ.filter fun i => (s.buf i).refcnt ≠ 0 : Finset (Fin nbuf)) := by
    intro i used i' used' same
    have rooted : ∀ i ∈ (Finset.univ.filter fun i => (s.buf i).refcnt ≠ 0 : Finset (Fin nbuf)),
        (s.buf i).dev = rootdev := by
      intro i used
      by_contra out
      exact (Finset.mem_filter.mp used).2 (strays.other i fun stray => out stray.1)
    have left := rooted i used
    have right := rooted i' used'
    exact strays.distinct i i' (by rw [left]; decide) (left.trans right.symm) same
  calc (Finset.univ.filter fun i => (s.buf i).refcnt ≠ 0).card
      ≤ ((Finset.range k).image blk).card := Finset.card_le_card_of_injOn _ image injective
    _ ≤ (Finset.range k).card := Finset.card_image_le
    _ = k := Finset.card_range k

open Classical in
theorem exists_unused (few : (Finset.univ.filter fun i => (s.buf i).refcnt ≠ 0).card < nbuf) :
    ∃ i, (s.buf i).refcnt = 0 := by
  by_contra none
  push Not at none
  have all : (Finset.univ.filter fun i => (s.buf i).refcnt ≠ 0) = Finset.univ :=
    Finset.filter_true_of_mem fun i _ => none i
  rw [all, Finset.card_univ, Fintype.card_fin] at few
  exact Nat.lt_irrefl _ few

/-- Reading a block that is not listed among the first `k`, with no buffer locked. -/
theorem Strays.read (sb : Superblock) (t : Tid) (blockno : UInt32) (strays : Strays blk n k s) (small : k < nbuf)
    (fresh : ∀ j < k, blockno ≠ blk j) :
    ∃ i c, (bread blockno).run (exec sb t) s = some (i, { s with
        cache := c
        lock := Function.update s.lock i (some t)
        busy := Function.update s.busy t none }) ∧ s.lock i = none ∧ Reads s blockno i c ∧
      ¬Stray blk k s i ∧ (c.buf (.buf i)).refcnt = 1 := by
  have unused := exists_unused (s := s) (Nat.lt_of_le_of_lt strays.card_le small)
  obtain ⟨i, c, run, free, reads⟩ := bread_run sb t blockno strays.filed strays.distinct
    (.inr unused) fun i _ => strays.free i
  have clean : ¬Stray blk k s i := by
    intro stray
    rcases reads.refcnt with ⟨-, same, -⟩ | ⟨-, zero, -⟩
    · obtain ⟨j, small, there⟩ := stray.2
      exact fresh j small (same.symm.trans there)
    · rw [strays.stray i stray] at zero
      exact absurd zero (by decide)
  refine ⟨i, c, run, free, reads, clean, ?_⟩
  rcases reads.refcnt with ⟨-, -, more⟩ | ⟨-, -, one⟩
  · rw [more, strays.other i clean]
    rfl
  · exact one

open Classical in
/-- Reading the home block while the log block is locked. -/
theorem Strays.read_home (sb : Superblock) (t : Tid) (blockno : UInt32) (s' : Kernel) (strays : Strays blk n k s)
    (small : k + 1 < nbuf) {l : Fin nbuf}
    {c : Cache Single.heads Block} {log : UInt32} (reads : Reads s log l c) (one : (c.buf (.buf l)).refcnt = 1)
    (apart : log ≠ blockno) (fresh : ∀ j < k, blockno ≠ blk j) (cache : s'.cache = c)
    (lock : s'.lock = Function.update s.lock l (some t)) :
    ∃ d c', (bread blockno).run (exec sb t) s' = some (d, { s' with
        cache := c'
        lock := Function.update s'.lock d (some t)
        busy := Function.update s'.busy t none }) ∧ d ≠ l ∧ Reads s' blockno d c' ∧ ¬Stray blk k s d ∧
      (c'.buf (.buf d)).refcnt = 1 := by
  have others : ∀ j, j ≠ l → s'.buf j = s.buf j := by
    intro j ne
    rw [Kernel.buf, cache]
    exact reads.others j ne
  have here : s'.buf l = c.buf (.buf l) := by
    rw [Kernel.buf, cache]
  have few : (Finset.univ.filter fun i => (s'.buf i).refcnt ≠ 0).card < nbuf := by
    have sub : (Finset.univ.filter fun i => (s'.buf i).refcnt ≠ 0) ⊆
        insert l (Finset.univ.filter fun i => (s.buf i).refcnt ≠ 0) := by
      intro i used
      rw [Finset.mem_insert, Finset.mem_filter]
      by_cases same : i = l
      · exact .inl same
      · right
        rw [Finset.mem_filter, others i same] at used
        exact used
    have bound := (Finset.card_le_card sub).trans (Finset.card_insert_le _ _)
    have := strays.card_le
    omega
  have awake : ∀ i, i ≠ l → s'.lock i = none := by
    intro i ne
    rw [lock, Function.update_of_ne ne]
    exact strays.free i
  have elsewhere : ∀ i, (s'.buf i).dev = rootdev ∧ (s'.buf i).blockno = blockno ∨ (s'.buf i).refcnt = 0 →
      i ≠ l := by
    rintro i wanted rfl
    rcases wanted with ⟨-, same⟩ | zero
    · rw [here, reads.block] at same
      exact apart same
    · rw [here, one] at zero
      exact absurd zero (by decide)
  obtain ⟨d, c', run, -, reads'⟩ := bread_run (s := s') sb t blockno
    (by rw [cache]; exact reads.filed) (by rw [cache]; exact reads.distinct) (.inr (exists_unused few))
    fun i wanted => awake i (elsewhere i wanted)
  rcases reads'.refcnt with ⟨devs, same, more⟩ | ⟨-, zero, one'⟩
  · have ne := elsewhere d (.inl ⟨devs, same⟩)
    rw [others d ne] at same more
    have clean : ¬Stray blk k s d := by
      rintro ⟨-, j, small, there⟩
      exact fresh j small (same.symm.trans there)
    refine ⟨d, c', run, ne, reads', clean, ?_⟩
    rw [more, strays.other d clean]
    rfl
  · have ne := elsewhere d (.inr zero)
    refine ⟨d, c', run, ne, reads', ?_, one'⟩
    intro stray
    rw [others d ne, strays.stray d stray] at zero
    exact absurd zero (by decide)

theorem Strays.installed (strays : Strays blk n k s) {l d : Fin nbuf} (distinct : ∀ j < k, blk k ≠ blk j)
    (log : ∀ j < n, logBlock sb k ≠ blk j) (more : k < n) (clean : ¬Stray blk k s l) (clean' : ¬Stray blk k s d)
    (filed : ∃ l, s'.cache.Filed Single.listOf l) (unique : s'.cache.Distinct) (free : ∀ i, s'.lock i = none)
    (ctl : s'.ctl = s.ctl) (others : ∀ i, i ≠ l → i ≠ d → (s'.buf i).dev = (s.buf i).dev ∧
      (s'.buf i).blockno = (s.buf i).blockno ∧ (s'.buf i).refcnt = (s.buf i).refcnt)
    (left : (s'.buf l).blockno = logBlock sb k ∧ (s'.buf l).refcnt = 0)
    (right : (s'.buf d).dev = rootdev ∧ (s'.buf d).blockno = blk k ∧ (s'.buf d).refcnt = -1) :
    Strays blk n (k + 1) s' := by
  have apart : ∀ i, i ≠ d → (s'.buf i).dev = rootdev → (s'.buf i).blockno ≠ blk k := by
    intro i ne devs same
    exact ne (unique i d (by rw [devs]; decide) (devs.trans right.1.symm) (same.trans right.2.1.symm))
  have outside : ¬Stray blk (k + 1) s' l := by
    rintro ⟨-, j, small, same⟩
    rw [left.1] at same
    exact log j (by omega) same
  have same : ∀ i, i ≠ l → i ≠ d → (Stray blk (k + 1) s' i ↔ Stray blk k s i) := by
    intro i ne ne'
    obtain ⟨devs, blocks, -⟩ := others i ne ne'
    constructor
    · rintro ⟨root, j, small, there⟩
      have earlier : j ≠ k := by
        rintro rfl
        exact apart i ne' root there
      exact ⟨by rw [← devs, root], j, by omega, by rw [← blocks, there]⟩
    · rintro ⟨root, j, small, there⟩
      exact ⟨by rw [devs, root], j, by omega, by rw [blocks, there]⟩
  refine ⟨filed, unique, free, by rw [ctl]; exact strays.count, fun j small => by rw [ctl]; exact strays.block j small,
    fun i stray => ?_, fun i other => ?_, fun j small => ?_⟩
  · by_cases here : i = d
    · rw [here, right.2.2]
    · have ne : i ≠ l := by
        rintro rfl
        exact outside stray
      rw [(others i ne here).2.2, strays.stray i ((same i ne here).mp stray)]
  · by_cases here : i = l
    · rw [here, left.2]
    · have ne : i ≠ d := by
        rintro rfl
        exact other ⟨right.1, k, by omega, right.2.1⟩
      rw [(others i here ne).2.2, strays.other i fun stray => other ((same i here ne).mpr stray)]
  · by_cases last : j = k
    · subst last
      exact ⟨d, right.1, right.2.1⟩
    · obtain ⟨i, root, there⟩ := strays.cached j (by omega)
      have stray : Stray blk k s i := ⟨root, j, by omega, there⟩
      have ne : i ≠ l := by
        rintro rfl
        exact clean stray
      have ne' : i ≠ d := by
        rintro rfl
        exact clean' stray
      obtain ⟨devs, blocks, -⟩ := others i ne ne'
      exact ⟨i, by rw [← root]; exact devs, by rw [← there]; exact blocks⟩

/-- The rest of a round, once both buffers are locked. -/
theorem install_rest (sb : Superblock) {l d : Fin nbuf} (filed : ∃ f, s.cache.Filed Single.listOf f)
    (distinct : s.cache.Distinct) (held : s.lock l = some t) (held' : s.lock d = some t) (ne : d ≠ l) :
    ∃ s', (do act (.memmove d l); bwrite d; bunpin d; brelse l; brelse d : Code Unit).run (exec sb t) s =
      some ((), s') ∧
      (∃ f, s'.cache.Filed Single.listOf f) ∧ s'.cache.Distinct ∧ s'.ctl = s.ctl ∧
      s'.lock = Function.update (Function.update s.lock l none) d none ∧
      ∀ i, (s'.buf i).dev = (s.buf i).dev ∧ (s'.buf i).blockno = (s.buf i).blockno ∧ (s'.buf i).refcnt =
        (s.buf i).refcnt - (if i = d then 1 else 0) - (if i = l then 1 else 0) - if i = d then 1 else 0 := by
  have writes : exec sb t (.bwrite d) (s.setData d (s.buf l).data) =
      some ((), (s.setData d (s.buf l).data).write sb t d) := if_pos held'
  rw [act, run_lift_of rfl, bwrite, act, run_lift_of writes, bunpin, act, run_lift_of rfl,
    run_bind_of (brelse_run (by exact held)), brelse_run (by simpa [Kernel.write, Kernel.setData, ne] using held')]
  refine ⟨_, rfl, ?_⟩
  have spec : ∀ c : Cache Single.heads Block, ∀ b i : Fin nbuf,
      ((c.drop 0 (.buf b)).buf (.buf i)).dev = (c.buf (.buf i)).dev ∧
      ((c.drop 0 (.buf b)).buf (.buf i)).blockno = (c.buf (.buf i)).blockno ∧
      ((c.drop 0 (.buf b)).buf (.buf i)).refcnt = (c.buf (.buf i)).refcnt - if i = b then 1 else 0 := by
    intro c b i
    have dec := c.decRef_spec (.buf b) (.buf i)
    rw [Cache.drop_buf]
    simpa using dec
  obtain ⟨f, filed⟩ := filed
  have bufs : ∀ i,
      let v := (((((s.setData d (s.buf l).data).cache.decRef (.buf d)).drop 0 (.buf l)).drop 0 (.buf d)).buf (.buf i))
      v.dev = (s.buf i).dev ∧ v.blockno = (s.buf i).blockno ∧ v.refcnt =
        (s.buf i).refcnt - (if i = d then 1 else 0) - (if i = l then 1 else 0) - if i = d then 1 else 0 := by
    intro i
    have data := setData_spec s d i (s.buf l).data
    have unpin := (s.setData d (s.buf l).data).cache.decRef_spec (.buf d) (.buf i)
    have drop := spec ((s.setData d (s.buf l).data).cache.decRef (.buf d)) l i
    have drop' := spec (((s.setData d (s.buf l).data).cache.decRef (.buf d)).drop 0 (.buf l)) d i
    simp only [Node.buf.injEq] at unpin
    rw [drop.1, unpin.1, data.1, drop.2.1, unpin.2.1, data.2.1, drop.2.2, unpin.2.2, data.2.2.1] at drop'
    exact drop'
  have first : ((s.setData d (s.buf l).data).cache.decRef (.buf d)).Filed Single.listOf f := by
    apply filed.congr
    · rfl
    · intro i
      rw [(Cache.decRef_spec _ _ _).2.1]
      exact (setData_spec s d i _).2.1
  obtain ⟨f', second⟩ := first.drop (i := l) (h := 0) rfl
  exact ⟨second.drop (i := d) rfl, distinct.congr (fun i => (bufs i).1) fun i => (bufs i).2.1, rfl, rfl, bufs⟩

/-- One round of `install_trans`. -/
theorem install_run (strays : Strays blk n k s) (more : k < n) (small : k + 1 < nbuf)
    (distinct : ∀ j < k, blk k ≠ blk j) (log : ∀ j < n, logBlock sb k ≠ blk j) :
    ∃ s', (install sb k).run (exec sb t) s = some ((), s') ∧ Strays blk n (k + 1) s' := by
  obtain ⟨l, c, run, -, reads, clean, one⟩ := strays.read sb t (logBlock sb k)
    (by omega) fun j less => log j (by omega)
  obtain ⟨d, c', run', ne, reads', clean', one'⟩ := strays.read_home sb t (blk k) { s with
      cache := c
      lock := Function.update s.lock l (some t)
      busy := Function.update s.busy t none } small reads one (log k more) distinct rfl rfl
  unfold install
  rw [run_bind_of run, act, run_lift_of rfl, strays.block k more, run_bind_of run']
  obtain ⟨s', rest, filed, unique, ctl, locks, bufs⟩ := install_rest (t := t) (l := l) (d := d) sb
    (s := { s with
      cache := c'
      lock := Function.update (Function.update s.lock l (some t)) d (some t)
      busy := Function.update (Function.update s.busy t none) t none })
    reads'.filed reads'.distinct (by simp [Ne.symm ne]) (by simp) ne
  refine ⟨s', rest, strays.installed (l := l) (d := d) distinct log more clean clean' filed unique ?_ ctl
    ?_ ?_ ?_⟩
  · intro i
    rw [locks]
    by_cases right : i = d
    · rw [right, Function.update_self]
    · rw [Function.update_of_ne right]
      by_cases left : i = l
      · rw [left, Function.update_self]
      · simp [left, right, strays.free]
  · intro i other other'
    have same : c'.buf (.buf i) = s.buf i := (reads'.others i other').trans (reads.others i other)
    obtain ⟨devs, blocks, refcnt⟩ := bufs i
    rw [devs, blocks, refcnt]
    simp only [Kernel.buf, same, if_neg other, if_neg other', UInt32.sub_zero]
    exact ⟨trivial, trivial, trivial⟩
  · have same : c'.buf (.buf l) = c.buf (.buf l) := reads'.others l (Ne.symm ne)
    obtain ⟨-, blocks, refcnt⟩ := bufs l
    rw [blocks, refcnt]
    simp only [Kernel.buf, same, if_neg (Ne.symm ne), if_true, reads.block, one]
    exact ⟨trivial, rfl⟩
  · obtain ⟨devs, blocks, refcnt⟩ := bufs d
    rw [devs, blocks, refcnt]
    simp only [Kernel.buf, if_neg ne, if_true, reads'.dev, reads'.block, one']
    exact ⟨trivial, trivial, rfl⟩

theorem forTail_run {body : ℕ → Code Unit} {J : ℕ → Kernel → Prop} (count : ∀ k s, J k s → s.ctl.log.n = n)
    (round : ∀ k s, k < n → J k s → ∃ s', (body k).run (exec sb t) s = some ((), s') ∧ J (k + 1) s')
    (fuel k : ℕ) (more : k ≤ n) (enough : n < fuel + k) (s : Kernel) (start : J k s) :
    ∃ s', (forTail body fuel k).run (exec sb t) s = some ((), s') ∧ J n s' := by
  induction fuel generalizing k s with
  | zero => omega
  | succ fuel ih =>
    unfold forTail
    rw [act, run_lift_of rfl, count k s start]
    by_cases last : k = n
    · subst last
      rw [if_neg (Nat.lt_irrefl _)]
      exact ⟨s, rfl, start⟩
    · rw [if_pos (Nat.lt_of_le_of_ne more last)]
      obtain ⟨middle, ran, next⟩ := round k s (Nat.lt_of_le_of_ne more last) start
      rw [run_bind_of ran]
      exact ih (k + 1) (by omega) (by omega) middle next

theorem Strays.install_trans (t : Tid) (strays : Strays blk n 0 s) (small : n < nbuf)
    (distinct : ∀ i < n, ∀ j < n, blk i = blk j → i = j) (log : ∀ k < n, ∀ j < n, logBlock sb k ≠ blk j) :
    ∃ s', (install_trans sb).run (exec sb t) s = some ((), s') ∧ Strays blk n n s' := by
  apply forTail_run (J := Strays blk n) (fun _ _ strays => strays.count) ?_ _ 0 (Nat.zero_le _) ?_ s strays
  · intro k s more strays
    apply install_run strays more (by omega) ?_ (log k more)
    intro j less same
    have := distinct k more j (by omega) same
    omega
  · unfold logSize maxOpBlocks
    unfold nbuf maxOpBlocks at small
    omega

/-- A block outside of the list is read, its buffer is used in some way that leaves the references alone, and
released. -/
theorem Strays.released (sb : Superblock) (t : Tid) (s' : Kernel) {m : ℕ} {l : Fin nbuf} {c : Cache Single.heads Block}
    (strays : Strays blk m k s)
    (reads : Reads s blockno l c) (clean : ¬Stray blk k s l) (one : (c.buf (.buf l)).refcnt = 1)
    (fresh : ∀ j < k, blockno ≠ blk j) (filed : ∃ f, s'.cache.Filed Single.listOf f)
    (same : ∀ i, (s'.buf i).dev = (c.buf (.buf i)).dev ∧ (s'.buf i).blockno = (c.buf (.buf i)).blockno ∧
      (s'.buf i).refcnt = (c.buf (.buf i)).refcnt)
    (lock : s'.lock = Function.update s.lock l (some t)) (count : s'.ctl.log.n = n)
    (block : ∀ j < n, s'.ctl.log.block j = blk j) :
    ∃ s'', (brelse l).run (exec sb t) s' = some ((), s'') ∧ s''.disk = s'.disk ∧ Strays blk n k s'' := by
  have held : s'.lock l = some t := by
    rw [lock, Function.update_self]
  refine ⟨_, brelse_run held, rfl, ?_⟩
  have bufs : ∀ i, ((s'.cache.drop 0 (.buf l)).buf (.buf i)).dev = (c.buf (.buf i)).dev ∧
      ((s'.cache.drop 0 (.buf l)).buf (.buf i)).blockno = (c.buf (.buf i)).blockno ∧
      ((s'.cache.drop 0 (.buf l)).buf (.buf i)).refcnt = (c.buf (.buf i)).refcnt - if i = l then 1 else 0 := by
    intro i
    have dec := s'.cache.decRef_spec (.buf l) (.buf i)
    simp only [Node.buf.injEq] at dec
    rw [Cache.drop_buf, dec.1, dec.2.1, dec.2.2, ← (same i).1, ← (same i).2.1, ← (same i).2.2]
    exact ⟨rfl, rfl, rfl⟩
  have outside : ∀ i, (∃ j < k, (c.buf (.buf i)).blockno = blk j) → i ≠ l := by
    rintro i ⟨j, small, there⟩ rfl
    rw [reads.block] at there
    exact fresh j small there
  obtain ⟨f, filed⟩ := filed
  refine ⟨filed.drop rfl, reads.distinct.congr (fun i => (bufs i).1) fun i => (bufs i).2.1, fun i => ?_, count, block,
    fun i stray => ?_, fun i other => ?_, fun j small => ?_⟩
  · simp only [lock]
    by_cases here : i = l
    · rw [here, Function.update_self]
    · rw [Function.update_of_ne here, Function.update_of_ne here, strays.free]
  · obtain ⟨root, j, small, there⟩ := stray
    rw [Kernel.buf, (bufs i).1] at root
    rw [Kernel.buf, (bufs i).2.1] at there
    have ne := outside i ⟨j, small, there⟩
    rw [reads.others i ne] at root there
    rw [Kernel.buf, (bufs i).2.2, if_neg ne, reads.others i ne, strays.stray i ⟨root, j, small, there⟩]
    rfl
  · rw [Kernel.buf, (bufs i).2.2]
    by_cases here : i = l
    · rw [if_pos here, here, one]
      rfl
    · rw [if_neg here, reads.others i here, strays.other i, UInt32.sub_zero]
      rintro ⟨root, j, small, there⟩
      apply other
      rw [← reads.others i here] at root there
      exact ⟨by rw [Kernel.buf, (bufs i).1, root], j, small, by rw [Kernel.buf, (bufs i).2.1, there]⟩
  · obtain ⟨i, root, there⟩ := strays.cached j small
    have ne : i ≠ l := by
      rintro rfl
      exact clean ⟨root, j, small, there⟩
    have kept : c.buf (.buf i) = s.buf i := reads.others i ne
    exact ⟨i, by rw [(bufs i).1, kept]; exact root, by rw [(bufs i).2.1, kept]; exact there⟩

theorem Strays.write_head (t : Tid) (strays : Strays blk n k s) (small : k < nbuf)
    (head : ∀ j < k, sb.logstart ≠ blk j) :
    ∃ s', (write_head sb).run (exec sb t) s = some ((), s') ∧ Strays blk n k s' := by
  obtain ⟨l, c, run, -, reads, clean, one⟩ := strays.read sb t _ small head
  unfold Log.write_head
  rw [run_bind_of run, act, run_lift_of rfl]
  have writes : ∀ s : Kernel, s.lock l = some t → exec sb t (.bwrite l) s = some ((), s.write sb t l) := by
    intro s held
    exact if_pos held
  rw [bwrite, act, run_lift_of (writes _ (by simp [Kernel.setData]))]
  obtain ⟨f, filed⟩ := reads.filed
  have same := fun i => setData_spec { s with
      cache := c
      lock := Function.update s.lock l (some t)
      busy := Function.update s.busy t none } l i (putHead s.ctl.log (c.buf (.buf l)).data)
  obtain ⟨s', ran, -, strays'⟩ := strays.released sb t (Kernel.write sb (Kernel.setData { s with
      cache := c
      lock := Function.update s.lock l (some t)
      busy := Function.update s.busy t none } l (putHead s.ctl.log (c.buf (.buf l)).data)) t l)
    reads clean one head ⟨f, filed.setBuf rfl⟩ (fun i => ⟨(same i).1, (same i).2.1, (same i).2.2.1⟩) rfl strays.count
    strays.block
  exact ⟨s', ran, strays'⟩

theorem boot_buf (disk : UInt32 → Block) (i : Fin nbuf) : (boot disk).buf i = { data := fun _ => 0 } := by
  change ((Cache.blank _).linkAll 0 _).buf (.buf i) = _
  rw [Cache.linkAll_buf]
  rfl

theorem boot_strays (blk : ℕ → UInt32) (disk : UInt32 → Block) : Strays blk 0 0 (boot disk) := by
  refine ⟨⟨_, Cache.linkAll_filed Single.listOf _⟩, ?_, fun _ => rfl, rfl,
    fun j small => (Nat.not_lt_zero j small).elim,
    fun i stray => ?_, fun i _ => by rw [boot_buf], fun j small => (Nat.not_lt_zero j small).elim⟩
  · intro i j assigned
    rw [show (boot disk).cache.buf (.buf i) = _ from boot_buf disk i] at assigned
    exact (assigned rfl).elim
  · obtain ⟨-, j, small, -⟩ := stray
    exact (Nat.not_lt_zero j small).elim

theorem read_head_run (sb : Superblock) (t : Tid) (disk : UInt32 → Block) :
    ∃ s', (read_head sb).run (exec sb t) (boot disk) = some ((), s') ∧
      Strays (headBlock (disk sb.logstart)) (headN (disk sb.logstart)) 0 s' := by
  have start := boot_strays (headBlock (disk sb.logstart)) disk
  obtain ⟨l, c, run, -, reads, clean, one⟩ := start.read sb t sb.logstart (by decide)
    (fun j small => (Nat.not_lt_zero j small).elim)
  have data : (c.buf (.buf l)).data = disk sb.logstart := by
    rcases reads.data with data | ⟨root, -⟩
    · exact data
    · rw [boot_buf] at root
      exact absurd root (by decide)
  unfold read_head
  rw [run_bind_of run, act, run_lift_of rfl]
  obtain ⟨s', ran, -, strays⟩ := start.released (n := headN (disk sb.logstart)) sb t { boot disk with
      cache := c
      lock := Function.update (boot disk).lock l (some t)
      busy := Function.update (boot disk).busy t none
      ctl := { (boot disk).ctl with log := getHead (boot disk).ctl.log (c.buf (.buf l)).data } }
    reads clean one (fun j small => (Nat.not_lt_zero j small).elim) reads.filed (fun i => ⟨rfl, rfl, rfl⟩) rfl
    (by rw [data]; rfl) (fun j small => by rw [data]; simp [getHead, small])
  exact ⟨s', ran, strays⟩

/-- Recovery of a well-formed log returns, and leaves one stray reference for each block it has installed. -/
theorem recover_run (sb : Superblock) (t : Tid) (disk : UInt32 → Block) (small : headN (disk sb.logstart) < nbuf)
    (distinct : ∀ i < headN (disk sb.logstart), ∀ j < headN (disk sb.logstart),
      headBlock (disk sb.logstart) i = headBlock (disk sb.logstart) j → i = j)
    (log : ∀ k ≤ headN (disk sb.logstart), ∀ j < headN (disk sb.logstart),
      sb.logstart + UInt32.ofNat k ≠ headBlock (disk sb.logstart) j) :
    ∃ s', (recover_from_log sb).run (exec sb t) (boot disk) = some ((), s') ∧
      Strays (headBlock (disk sb.logstart)) 0 (headN (disk sb.logstart)) s' := by
  have blocks : ∀ k < headN (disk sb.logstart), ∀ j < headN (disk sb.logstart),
      logBlock sb k ≠ headBlock (disk sb.logstart) j := by
    intro k less j less'
    have next := log (k + 1) less j less'
    rwa [UInt32.ofNat_add, ← UInt32.add_assoc] at next
  have head : ∀ j < headN (disk sb.logstart), sb.logstart ≠ headBlock (disk sb.logstart) j := by
    intro j less
    have zero := log 0 (Nat.zero_le _) j less
    rwa [show UInt32.ofNat 0 = 0 from rfl, UInt32.add_zero] at zero
  obtain ⟨s₁, read, strays₁⟩ := read_head_run sb t disk
  obtain ⟨s₂, installed, strays₂⟩ := strays₁.install_trans t small distinct blocks
  have cleared : Strays (headBlock (disk sb.logstart)) 0 (headN (disk sb.logstart)) (s₂.clear t) :=
    ⟨strays₂.filed, strays₂.distinct, strays₂.free, rfl, fun j less => (Nat.not_lt_zero j less).elim, strays₂.stray,
      strays₂.other, strays₂.cached⟩
  obtain ⟨s₃, wrote, strays₃⟩ := cleared.write_head t small head
  refine ⟨s₃, ?_, strays₃⟩
  unfold recover_from_log
  rw [run_bind_of read, run_bind_of installed, act, run_lift_of rfl]
  exact wrote

/-- No stray reference is left exactly if there was nothing to install. -/
theorem Strays.none_iff (strays : Strays blk 0 n s) : (∀ i, (s.buf i).refcnt = 0) ↔ n = 0 := by
  constructor
  · intro zero
    by_contra some
    obtain ⟨i, root, there⟩ := strays.cached 0 (Nat.pos_of_ne_zero some)
    have stray := strays.stray i ⟨root, 0, Nat.pos_of_ne_zero some, there⟩
    rw [zero i] at stray
    exact absurd stray (by decide)
  · rintro rfl i
    apply strays.other
    rintro ⟨-, j, small, -⟩
    exact Nat.not_lt_zero j small

end Xv6Labs.Log
