import Xv6Labs.Log.Commit

/-!
# Recovery

Recovery runs alone, before there are any processes. Each of its writes leaves `recovered` as it is, so it may crash
and start again any number of times; once it is through, the home blocks are what `recovered` says. After the first
boot the rules of the running system hold.
-/

namespace Xv6Labs.Log

open Bio Threads Prog

variable {sb : Superblock} {disk disk₀ : UInt32 → Block} {α : Type} {s s' : Kernel} {b i : Fin nbuf}
  {blockno n : UInt32} {touched : Set (Fin nbuf)} {J : (UInt32 → Block) → Prop} {k : ℕ}

/-! ### Actions of recovery -/

abbrev Solo (sb : Superblock) (J : (UInt32 → Block) → Prop) (p : Code α) (post : α → Kernel → Prop)
    (s : Kernel) : Prop :=
  wp (solo fun s => J s.disk) (fun _ => exec sb 0) () p post s

theorem solo_act {a : Action} {f : a.Result → Code α} {post : α → Kernel → Prop}
    (h : J s.disk → ∀ r s', exec sb 0 a s = some (r, s') → J s'.disk ∧ Solo sb J (f r) post s') :
    Solo sb J (act a >>= f) post s := by
  rintro _ rfl keeps r s' step
  obtain ⟨keeps', rest⟩ := h keeps r s' step
  exact ⟨keeps', fun u other => (other rfl).elim, rest⟩

theorem solo_ret {a : α} {post : α → Kernel → Prop} (h : J s.disk → post a s) : Solo sb J (pure a) post s := by
  rintro _ rfl keeps
  exact h keeps

/-- No operation has begun, and buffers that recovery has not changed hold what is on the disk. -/
structure Recovering (touched : Set (Fin nbuf)) (s : Kernel) : Prop where
  filed : ∃ l, s.cache.Filed Single.listOf l
  distinct : s.cache.Distinct
  held : ∀ i, s.lock i ≠ none → (s.buf i).dev = rootdev
  idle : ∀ t, s.busy t = none
  clean : ∀ i, i ∉ touched → s.dirty i = false
  backed : ∀ i, i ∉ touched → (s.buf i).dev = rootdev → (s.buf i).valid = true →
    (s.buf i).data = s.disk (s.buf i).blockno
  phase : ∀ t, s.ctl.phase t = .out
  counts : s.ctl.log.outstanding = 0 ∧ s.ctl.log.committing = false
  trans : s.ctl.trans = ∅
  writes : s.writes = []
  numbers : s.ops = 0 ∧ s.durable = 0 ∧ s.finished = 0
  short : s.short = false

theorem idle_again {busy : Tid → Option (Fin nbuf)} (idle : ∀ t, busy t = none) (x : Option (Fin nbuf)) (t : Tid) :
    Function.update (Function.update busy 0 x) 0 none t = none := by
  rw [Function.update_idem]
  by_cases here : t = 0
  · rw [here, Function.update_self]
  · rw [Function.update_of_ne here, idle]

theorem solo_bread {post : Fin nbuf → Kernel → Prop} (calm : Recovering ∅ s)
    (next : ∀ b s', Recovering ∅ s' → Frozen s s' → Has 0 b blockno (s.disk blockno) s' →
      (∀ i n data, Has 0 i n data s → i ≠ b ∧ Has 0 i n data s') → post b s') :
    Solo sb J (bread blockno) post s := by
  unfold bread
  apply solo_act
  intro keeps b s₁ found
  obtain ⟨c, rfl, reads⟩ := bget_reads calm.filed calm.distinct found
  refine ⟨keeps, solo_act fun _ _ s₂ locks => ?_⟩
  simp only [exec] at locks
  by_cases free : s.lock b = none
  case neg =>
    rw [if_neg free] at locks
    cases locks
  rw [if_pos free] at locks
  cases locks
  refine ⟨keeps, solo_act fun _ _ s₃ filled => ?_⟩
  simp only [exec] at filled
  cases filled
  refine ⟨keeps, solo_ret fun _ => ?_⟩
  have data : ((c.fill (.buf b) s.disk).buf (.buf b)).data = s.disk blockno := by
    rcases reads.data with data | ⟨root, block, valid, data⟩
    · exact data
    · rw [data, calm.backed b (Set.notMem_empty b) root valid, block]
  apply next
  · refine { calm with
      filed := reads.filed
      distinct := reads.distinct
      held := fun i held => ?_
      idle := idle_again calm.idle _
      backed := fun i out root valid => ?_ }
    · by_cases here : i = b
      · rw [here]
        exact reads.dev
      · simp only [Function.update_of_ne here] at held
        simp only [Kernel.buf, reads.others i here]
        exact calm.held i held
    · by_cases here : i = b
      · rw [here]
        simp only [Kernel.buf]
        rw [reads.block, data]
      · simp only [Kernel.buf, reads.others i here] at root valid ⊢
        exact calm.backed i out root valid
  · exact ⟨rfl, rfl, rfl, rfl, rfl, rfl, rfl⟩
  · exact ⟨Function.update_self _ _ _, reads.block, data⟩
  · intro i n data has
    have other : i ≠ b := by
      rintro rfl
      rw [has.held] at free
      cases free
    refine ⟨other, (Function.update_of_ne other _ _).trans has.held, ?_, ?_⟩
    · rw [← has.block]
      exact congrArg _ (reads.others i other)
    · rw [← has.data]
      exact congrArg _ (reads.others i other)

theorem solo_brelse {post : Unit → Kernel → Prop} (calm : Recovering ∅ s) (held : s.lock b = some 0)
    (next : ∀ s', Recovering ∅ s' → Frozen s s' → (∀ i n data, i ≠ b → Has 0 i n data s → Has 0 i n data s') →
      post () s') : Solo sb J (brelse b) post s := by
  unfold brelse
  apply solo_act
  intro keeps _ s₁ unlocks
  simp only [exec, if_pos held] at unlocks
  cases unlocks
  refine ⟨keeps, ?_⟩
  rintro _ rfl _ _ s₂ dropped
  simp only [exec] at dropped
  cases dropped
  refine ⟨keeps, fun u other => (other rfl).elim, ?_⟩
  rintro _ rfl _
  have same := drop_same s.cache b
  obtain ⟨l, filed⟩ := calm.filed
  apply next
  · refine { calm with
      filed := filed.drop rfl
      distinct := calm.distinct.congr (fun i => (same i).dev) fun i => (same i).blockno
      held := fun i held' => ?_
      idle := idle_again calm.idle _
      backed := fun i out root valid => ?_ }
    · simp only [Kernel.buf]
      rw [(same i).dev]
      apply calm.held
      by_cases here : i = b
      · rw [here, held]
        exact Option.some_ne_none _
      · simpa only [Function.update_of_ne here] using held'
    · simp only [Kernel.buf] at root valid ⊢
      rw [(same i).data, (same i).blockno]
      exact calm.backed i out ((same i).dev.symm.trans root) ((same i).valid.symm.trans valid)
  · exact ⟨rfl, rfl, rfl, rfl, rfl, rfl, rfl⟩
  · intro i n data other has
    exact ⟨(Function.update_of_ne other _ _).trans has.held, (same i).blockno.trans has.block,
      (same i).data.trans has.data⟩

theorem Recovering.setData (calm : Recovering ∅ s) (b : Fin nbuf) (data : Block) :
    Recovering {b} (s.setData b data) := by
  have spec := fun i => setData_spec s b i data
  obtain ⟨l, filed⟩ := calm.filed
  refine { calm with
    filed := ⟨l, filed.setBuf rfl⟩
    distinct := calm.distinct.congr (fun i => (spec i).1) fun i => (spec i).2.1
    held := fun i held => (spec i).1.trans (calm.held i held)
    clean := fun i out => ?_
    backed := fun i out root valid => ?_ }
  · rw [(setData_same s data out).1]
    exact calm.clean i (Set.notMem_empty i)
  · have same := (setData_same s data out).2
    rw [same.data, same.blockno]
    exact calm.backed i (Set.notMem_empty i) (same.dev.symm.trans root) (same.valid.symm.trans valid)

theorem Recovering.write (calm : Recovering {b} s) (held : s.lock b = some 0) : Recovering ∅ (s.write sb 0 b) := by
  have root : (s.buf b).dev = rootdev := calm.held b (by rw [held]; exact Option.some_ne_none _)
  have durable : (s.write sb 0 b).durable = s.durable := if_neg fun both => by
    rw [calm.phase] at both
    cases both.1
  refine { calm with
    clean := fun i _ => ?_
    backed := fun i _ rooted valid => ?_
    numbers := by rw [durable]; exact calm.numbers }
  · change Function.update s.dirty b false i = false
    by_cases here : i = b
    · rw [here, Function.update_self]
    · rw [Function.update_of_ne here]
      exact calm.clean i here
  · change (s.buf i).data = Function.update s.disk (s.buf b).blockno (s.buf b).data (s.buf i).blockno
    by_cases here : i = b
    · rw [here, Function.update_self]
    · rw [Function.update_of_ne]
      · exact calm.backed i here rooted valid
      · intro blocks
        apply here
        apply calm.distinct i b _ (rooted.trans root.symm) blocks
        rw [show (s.cache.buf (.buf i)).dev = _ from rooted]
        decide

theorem Has.setData (held : s.lock b = some 0) (block : (s.buf b).blockno = n) (data : Block) :
    Has 0 b n data (s.setData b data) := by
  refine ⟨held, (setData_spec s b b data).2.1.trans block, ?_⟩
  simp only [Kernel.setData, Kernel.buf, Cache.setBuf_self]

theorem Has.other {data : Block} (has : Has 0 i n data s) (data' : Block) (other : i ≠ b) :
    Has 0 i n data (s.setData b data') := by
  have same := (setData_same s data' other).2
  exact ⟨has.held, same.blockno.trans has.block, same.data.trans has.data⟩

/-- A buffer is filled with new data and written to the disk. -/
theorem solo_write {a : Action} {f : Unit → Code α} {r : a.Result} {post : α → Kernel → Prop} {data : Block}
    (stores : exec sb 0 a s = some (r, s.setData b data)) (calm : Recovering ∅ s) (held : s.lock b = some 0)
    (block : (s.buf b).blockno = n) (safe : J s.disk → J (Function.update s.disk n data))
    (next : ∀ s', Recovering ∅ s' → s'.disk = Function.update s.disk n data → s'.ctl.log = s.ctl.log →
      s'.unpinned = s.unpinned → (∀ i n data, i ≠ b → Has 0 i n data s → Has 0 i n data s') → s'.lock b = some 0 →
      Solo sb J (f ()) post s') :
    Solo sb J (act a >>= fun _ => bwrite b >>= f) post s := by
  apply solo_act
  intro keeps r' s₁ stored
  rw [stores] at stored
  cases stored
  refine ⟨keeps, solo_act fun _ _ s₂ wrote => ?_⟩
  have has := Has.setData held block data
  simp only [exec, if_pos has.held] at wrote
  cases wrote
  have disk : ((s.setData b data).write sb 0 b).disk = Function.update s.disk n data := by
    simp only [Kernel.write]
    rw [has.block, has.data]
    rfl
  refine ⟨by rw [disk]; exact safe keeps, ?_⟩
  apply next _ ((calm.setData b data).write has.held) disk rfl rfl
  · intro i n data' other has'
    obtain ⟨held, block, same⟩ := has'.other data other
    exact ⟨held, block, same⟩
  · exact has.held

theorem Recovering.bunpin (calm : Recovering ∅ s) (b : Fin nbuf) :
    Recovering ∅ { s with cache := s.cache.decRef (.buf b), unpinned := s.unpinned + 1 } := by
  have same := decRef_same s.cache b
  obtain ⟨l, filed⟩ := calm.filed
  refine { calm with
    filed := ⟨l, filed.setBuf rfl⟩
    distinct := calm.distinct.congr (fun i => (same i).dev) fun i => (same i).blockno
    held := fun i held => (same i).dev.trans (calm.held i held)
    backed := fun i out root valid => ?_ }
  simp only [Kernel.buf] at root valid ⊢
  rw [(same i).data, (same i).blockno]
  exact calm.backed i out ((same i).dev.symm.trans root) ((same i).valid.symm.trans valid)

/-! ### `recover_from_log` -/

/-- Recovery of `disk'` gives the same as recovery of `disk`. -/
structure Recoverable (sb : Superblock) (disk disk' : UInt32 → Block) : Prop where
  sound : Sound sb disk'
  same : ∀ n, Home sb n → recovered sb disk' n = recovered sb disk n

theorem solo_read_head {post : Unit → Kernel → Prop} (calm : Recovering ∅ s)
    (next : ∀ s', Recovering ∅ s' → s'.disk = s.disk → s'.ctl.log.n = headN (s.disk sb.logstart) →
      (∀ j < headN (s.disk sb.logstart), s'.ctl.log.block j = headBlock (s.disk sb.logstart) j) → post () s') :
    Solo sb J (read_head sb) post s := by
  unfold read_head
  apply wp_bind
  apply solo_bread calm
  intro b s₁ calm₁ frozen₁ has₁ _
  apply solo_act
  intro keeps _ s₂ read
  simp only [exec] at read
  cases read
  refine ⟨keeps, ?_⟩
  have calm₂ : Recovering ∅ { s₁ with ctl := { s₁.ctl with log := getHead s₁.ctl.log (s₁.buf b).data } } :=
    { calm₁ with }
  apply solo_brelse calm₂ has₁.held
  intro s₃ calm₃ frozen₃ _
  apply next s₃ calm₃ (frozen₃.disk.trans frozen₁.disk)
  · rw [frozen₃.log, has₁.data]
    rfl
  · intro j less
    rw [frozen₃.log, has₁.data]
    exact if_pos less

/-- The first `k` blocks are installed; writing the others gives what recovery promises. -/
structure Installing (sb : Superblock) (disk : UInt32 → Block) (k : ℕ) (s : Kernel) : Prop where
  calm : Recovering ∅ s
  header : s.disk sb.logstart = disk sb.logstart
  logs : ∀ j < headN (disk sb.logstart), s.disk (logBlock sb j) = disk (logBlock sb j)
  count : s.ctl.log.n = headN (disk sb.logstart)
  block : ∀ j < headN (disk sb.logstart), s.ctl.log.block j = headBlock (disk sb.logstart) j
  most : k ≤ headN (disk sb.logstart)
  rest : ∀ n, Home sb n → (List.range' k (headN (disk sb.logstart) - k)).foldl
    (fun d j => Function.update d (headBlock (disk sb.logstart) j) (disk (logBlock sb j))) s.disk n =
      recovered sb disk n

theorem solo_install (sound : Sound sb disk) (installing : Installing sb disk k s)
    (less : k < headN (disk sb.logstart)) :
    Solo sb (Recoverable sb disk) (install sb k) (fun _ => Installing sb disk (k + 1)) s := by
  have home := sound.homes k less
  have fits := sound.fits
  have head : headBlock (disk sb.logstart) k ≠ sb.logstart := by
    intro same
    rw [same] at home
    exact logstart_not_home (by omega) home
  have apart : ∀ j < headN (disk sb.logstart), logBlock sb j ≠ headBlock (disk sb.logstart) k := by
    intro j less' same
    rw [← same] at home
    exact logBlock_not_home (by omega) home
  unfold install
  apply wp_bind
  apply solo_bread installing.calm
  intro lbuf s₁ calm₁ frozen₁ log₁ _
  apply solo_act
  intro keeps _ s₂ read
  simp only [exec] at read
  cases read
  refine ⟨keeps, ?_⟩
  rw [frozen₁.log, installing.block k less]
  apply wp_bind
  apply solo_bread calm₁
  intro dbuf s₃ calm₃ frozen₃ home₃ others₃
  obtain ⟨ne, log₃⟩ := others₃ _ _ _ log₁
  have stores : exec sb 0 (.memmove dbuf lbuf) s₃ = some ((), s₃.setData dbuf (disk (logBlock sb k))) := by
    rw [← installing.logs k less, ← log₃.data]
    rfl
  have disk₃ : s₃.disk = s.disk := frozen₃.disk.trans frozen₁.disk
  have header₃ : s₃.disk sb.logstart = disk sb.logstart := by
    rw [disk₃, installing.header]
  apply solo_write stores calm₃ home₃.held home₃.block
  · intro keeps
    refine ⟨keeps.sound.congr (Function.update_of_ne (Ne.symm head) _ _), fun n home' => ?_⟩
    rw [← keeps.same n home']
    apply recovered_update (k := k) _ _ head
    · rw [header₃]
      exact fun j less' same => apart j less' same.symm
    · rw [header₃]
      exact less
    · rw [header₃]
  intro s₄ calm₄ disk₄ log₄ _ others₄ held₄
  apply solo_act
  intro keeps _ s₅ unpinned
  simp only [exec] at unpinned
  cases unpinned
  refine ⟨keeps, ?_⟩
  have calm₅ := calm₄.bunpin dbuf
  apply wp_bind
  apply solo_brelse calm₅ (others₄ _ _ _ ne log₃).held
  intro s₆ calm₆ frozen₆ others₆
  have held₆ : s₆.lock dbuf = some 0 := (others₆ dbuf _ _ (Ne.symm ne) ⟨held₄, rfl, rfl⟩).held
  apply solo_brelse calm₆ held₆
  intro s₇ calm₇ frozen₇ _
  have disk₇ : s₇.disk = Function.update s.disk (headBlock (disk sb.logstart) k) (disk (logBlock sb k)) := by
    rw [frozen₇.disk, frozen₆.disk]
    exact disk₄.trans (by rw [disk₃])
  have log₇ : s₇.ctl.log = s.ctl.log := by
    rw [frozen₇.log, frozen₆.log]
    exact log₄.trans (frozen₃.log.trans frozen₁.log)
  refine ⟨calm₇, ?_, fun j less' => ?_, ?_, ?_, less, fun n home' => ?_⟩
  · rw [disk₇, Function.update_of_ne (Ne.symm head), installing.header]
  · rw [disk₇, Function.update_of_ne (apart j less'), installing.logs j less']
  · rw [log₇, installing.count]
  · rw [log₇]
    exact installing.block
  · rw [← installing.rest n home', disk₇]
    have split : headN (disk sb.logstart) - k = (headN (disk sb.logstart) - (k + 1)) + 1 := by omega
    rw [split, List.range'_succ, List.foldl_cons]

theorem solo_write_head {post : Unit → Kernel → Prop} (calm : Recovering ∅ s)
    (safe : ∀ old, J s.disk → J (Function.update s.disk sb.logstart (putHead s.ctl.log old)))
    (next : ∀ s' old, Recovering ∅ s' → s'.disk = Function.update s.disk sb.logstart (putHead s.ctl.log old) →
      s'.ctl.log = s.ctl.log → s'.unpinned = s.unpinned → post () s') : Solo sb J (write_head sb) post s := by
  unfold write_head
  apply wp_bind
  apply solo_bread calm
  intro b s₁ calm₁ frozen₁ has₁ _
  have stores : exec sb 0 (.putHead b) s₁ = some ((), s₁.setData b (putHead s.ctl.log (s₁.buf b).data)) := by
    rw [← frozen₁.log]
    rfl
  apply solo_write stores calm₁ has₁.held has₁.block
  · rw [frozen₁.disk]
    exact safe _
  intro s₂ calm₂ disk₂ log₂ unpinned₂ _ held₂
  apply solo_brelse calm₂ held₂
  intro s₃ calm₃ frozen₃ _
  apply next s₃ (s₁.buf b).data calm₃
  · rw [frozen₃.disk, disk₂, frozen₁.disk]
  · rw [frozen₃.log, log₂, frozen₁.log]
  · rw [frozen₃.unpinned, unpinned₂, frozen₁.unpinned]

/-- What is there when recovery is through. -/
structure Recovered (sb : Superblock) (disk : UInt32 → Block) (s : Kernel) : Prop where
  calm : Recovering ∅ s
  empty : s.ctl.log.n = 0
  unpinned : s.unpinned = 0
  header : headN (s.disk sb.logstart) = 0
  homes : ∀ n, Home sb n → s.disk n = recovered sb disk n

theorem boot_recovering (disk : UInt32 → Block) : Recovering ∅ (boot disk) := by
  have strays := boot_strays (fun _ => 0) disk
  refine ⟨strays.filed, strays.distinct, fun i held => (held rfl).elim, fun _ => rfl, fun _ _ => rfl,
    fun i _ root => ?_, fun _ => rfl, ⟨rfl, rfl⟩, rfl, rfl, ⟨rfl, rfl, rfl⟩, rfl⟩
  rw [boot_buf] at root
  exact absurd root (by decide)

theorem solo_recover (sound : Sound sb disk) :
    Solo sb (Recoverable sb disk) (recover_from_log sb) (fun _ => Recovered sb disk) (boot disk) := by
  have nonempty : 0 < sb.nlog.toNat := Nat.lt_of_le_of_lt (Nat.zero_le _) sound.fits
  unfold recover_from_log
  apply wp_bind
  apply solo_read_head (boot_recovering disk)
  intro s₁ calm₁ disk₁ count₁ block₁
  change s₁.disk = disk at disk₁
  have start : Installing sb disk 0 s₁ := by
    refine ⟨calm₁, by rw [disk₁], fun j _ => by rw [disk₁], count₁, block₁, Nat.zero_le _, fun n _ => ?_⟩
    rw [disk₁, Nat.sub_zero, ← List.range_eq_range']
    rfl
  apply wp_bind
  unfold install_trans
  apply wp_forTail (P := Installing sb disk) (fun _ => rfl) (fun _ => rfl) _ _ _ _ _ start
  · rintro k s _ rfl now
    exact ⟨now, rfl⟩
  · intro k s _ installing more
    rw [installing.count] at more
    exact solo_install sound installing more
  intro k s₂ keeps installing all
  rw [installing.count] at all
  have last : k = headN (disk sb.logstart) := Nat.le_antisymm installing.most all
  have homes : ∀ n, Home sb n → s₂.disk n = recovered sb disk n := by
    intro n home
    rw [← installing.rest n home, last, Nat.sub_self]
    rfl
  apply solo_act
  intro keeps _ s₃ cleared
  simp only [exec] at cleared
  cases cleared
  refine ⟨keeps, ?_⟩
  have calm₃ : Recovering ∅ (s₂.clear 0) := by
    refine { installing.calm with phase := fun t => ?_, trans := rfl }
    change (if s₂.ctl.phase 0 = .commit then Function.update s₂.ctl.phase 0 .cleared else s₂.ctl.phase) t = .out
    rw [if_neg (by rw [installing.calm.phase]; exact Phase.noConfusion), installing.calm.phase]
  have outside : ∀ n, Home sb n → n ≠ sb.logstart := by
    rintro n home rfl
    exact logstart_not_home nonempty home
  have blank : ∀ old,
      headN (Function.update (s₂.clear 0).disk sb.logstart (putHead (s₂.clear 0).ctl.log old) sb.logstart) = 0 := by
    intro old
    rw [Function.update_self, headN_putHead old (Nat.zero_le _)]
    rfl
  apply solo_write_head calm₃
  · intro old keeps
    refine ⟨Sound.empty nonempty (blank old), fun n home => ?_⟩
    rw [recovered_empty (blank old), Function.update_of_ne (outside n home)]
    exact homes n home
  intro s₄ old calm₄ disk₄ log₄ unpinned₄
  refine ⟨calm₄, ?_, unpinned₄, ?_, fun n home => ?_⟩
  · rw [log₄]
    rfl
  · rw [disk₄]
    exact blank old
  · rw [disk₄, Function.update_of_ne (outside n home)]
    exact homes n home

end Xv6Labs.Log
