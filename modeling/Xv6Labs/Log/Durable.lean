import Xv6Labs.Log.References

/-!
# What is on the disk

`replay` is what the file system has written, `recovered` what a recovery makes of a disk. A buffer that is not
dirty holds the current contents of its block. A home block on the disk is current unless the log still pins it.
Recovery always gives the writes of the first `durable` operations.
-/

namespace Xv6Labs.Log

open Bio Threads Prog

variable {sb : Superblock} {disk₀ disk : UInt32 → Block} {t u : Tid} {s s' : Kernel} {b i j : Fin nbuf}
  {blockno n : UInt32}

def replay (disk : UInt32 → Block) (writes : List Write) : UInt32 → Block :=
  writes.foldl (fun disk w => Function.update disk w.blockno w.data) disk

def upTo (m : ℕ) (writes : List Write) : List Write := writes.filter fun w => w.op < m

def recovered (sb : Superblock) (disk : UInt32 → Block) : UInt32 → Block :=
  (List.range (headN (disk sb.logstart))).foldl
    (fun d k => Function.update d (headBlock (disk sb.logstart) k) (disk (logBlock sb k))) disk

open Classical in
noncomputable def current (sb : Superblock) (disk₀ : UInt32 → Block) (s : Kernel) (n : UInt32) : Block :=
  if Home sb n then replay disk₀ s.writes n else s.disk n

theorem current_home (home : Home sb n) : current sb disk₀ s n = replay disk₀ s.writes n := if_pos home

theorem current_log (outside : ¬Home sb n) : current sb disk₀ s n = s.disk n := if_neg outside

def Phase.Writing : Phase → Prop
  | .inOp _ | .checked _ _ | .commit | .cleared => True
  | _ => False

/-- The header fits into the log, and lists only home blocks. -/
structure Sound (sb : Superblock) (disk : UInt32 → Block) : Prop where
  fits : headN (disk sb.logstart) < sb.nlog.toNat
  homes : ∀ k < headN (disk sb.logstart), Home sb (headBlock (disk sb.logstart) k)

theorem Sound.congr (sound : Sound sb disk) {disk' : UInt32 → Block} (same : disk' sb.logstart = disk sb.logstart) :
    Sound sb disk' := by
  obtain ⟨fits, homes⟩ := sound
  rw [← same] at fits homes
  exact ⟨fits, homes⟩

theorem Sound.empty (nonempty : 0 < sb.nlog.toNat) (none : headN (disk sb.logstart) = 0) : Sound sb disk := by
  refine ⟨by rw [none]; exact nonempty, fun k less => ?_⟩
  rw [none] at less
  exact (Nat.not_lt_zero k less).elim

structure DataInv (sb : Superblock) (disk₀ : UInt32 → Block) (s : Kernel) : Prop where
  dirty : ∀ i, s.dirty i = true → ∃ t, s.lock i = some t ∧ (s.ctl.phase t).Writing
  clean : ∀ i, (s.buf i).dev = rootdev → (s.buf i).valid = true → s.dirty i = false →
    (s.buf i).data = current sb disk₀ s (s.buf i).blockno
  backed : ∀ n, Home sb n → (∀ k, s.unpinned ≤ k → k < s.ctl.log.n → s.ctl.log.block k ≠ n) →
    s.disk n = replay disk₀ s.writes n
  valid : ∀ i, Pinned s i → (s.buf i).valid = true
  homes : ∀ k < s.ctl.log.n, Home sb (s.ctl.log.block k)
  header : (∀ t, ¬(s.ctl.phase t).Committing) → headN (s.disk sb.logstart) = 0
  sound : Sound sb s.disk
  durable : ∀ n, Home sb n → recovered sb s.disk n = replay disk₀ (upTo s.durable s.writes) n
  begun : ∀ w ∈ s.writes, w.op < s.ops
  active : ∀ t, (s.ctl.phase t).running = 1 → s.durable ≤ s.op t ∧ s.op t < s.ops
  bounds : s.finished ≤ s.durable ∧ s.durable ≤ s.ops
  member : s.durable ∈ 0 :: s.commits
  covered : ∀ t, (s.ctl.phase t).Committing → s.ops ∈ s.commits

/-! ### Recovered disks -/

theorem replay_append (disk : UInt32 → Block) (writes : List Write) (w : Write) :
    replay disk (writes ++ [w]) = Function.update (replay disk writes) w.blockno w.data := by
  simp [replay]

theorem upTo_all {m : ℕ} {writes : List Write} (all : ∀ w ∈ writes, w.op < m) : upTo m writes = writes := by
  unfold upTo
  rw [List.filter_eq_self]
  intro w member
  simpa using all w member

theorem upTo_append {m : ℕ} (writes : List Write) {w : Write} (later : m ≤ w.op) :
    upTo m (writes ++ [w]) = upTo m writes := by
  simp [upTo, Nat.not_lt.mpr later]

/-- Two overlays with the same data for a block give it the same contents, unless they leave it alone. -/
theorem overlay_congr (base base' : UInt32 → Block) (block : ℕ → UInt32) (data data' : ℕ → Block) (m : ℕ) (n : UInt32)
    (same : ∀ k < m, block k = n → data k = data' k) (some : base n = base' n ∨ ∃ k < m, block k = n) :
    (List.range m).foldl (fun d k => Function.update d (block k) (data k)) base n =
      (List.range m).foldl (fun d k => Function.update d (block k) (data' k)) base' n := by
  induction m with
  | zero =>
    rcases some with done | ⟨k, less, -⟩
    · exact done
    · exact (Nat.not_lt_zero k less).elim
  | succ m ih =>
    rw [List.range_succ, List.foldl_append, List.foldl_append, List.foldl_cons, List.foldl_nil, List.foldl_cons,
      List.foldl_nil]
    by_cases last : block m = n
    · rw [last, Function.update_self, Function.update_self]
      exact same m (Nat.lt_succ_self m) last
    · rw [Function.update_of_ne (Ne.symm last), Function.update_of_ne (Ne.symm last)]
      apply ih (fun k less => same k (Nat.lt_succ_of_lt less))
      rcases some with done | ⟨k, less, there⟩
      · exact .inl done
      · right
        have earlier : k ≠ m := by
          rintro rfl
          exact last there
        exact ⟨k, by omega, there⟩

theorem overlay_self (base : UInt32 → Block) (block : ℕ → UInt32) (m : ℕ) (n : UInt32) :
    (List.range m).foldl (fun d k => Function.update d (block k) (base n)) base n = base n := by
  induction m with
  | zero => rfl
  | succ m ih =>
    rw [List.range_succ, List.foldl_append, List.foldl_cons, List.foldl_nil]
    by_cases last : block m = n
    · rw [last, Function.update_self]
    · rw [Function.update_of_ne (Ne.symm last), ih]

theorem recovered_empty (empty : headN (disk sb.logstart) = 0) : recovered sb disk = disk := by
  unfold recovered
  rw [empty]
  rfl

theorem recovered_listed {k : ℕ} {x : Block} (less : k < headN (disk sb.logstart))
    (there : headBlock (disk sb.logstart) k = n)
    (same : ∀ j < headN (disk sb.logstart), headBlock (disk sb.logstart) j = n → disk (logBlock sb j) = x) :
    recovered sb disk n = x :=
  (overlay_congr disk (fun _ => x) _ _ (fun _ => x) _ n same (.inr ⟨k, less, there⟩)).trans
    (overlay_self (fun _ => x) _ _ n)

theorem recovered_unlisted (absent : ∀ k < headN (disk sb.logstart), headBlock (disk sb.logstart) k ≠ n) :
    recovered sb disk n = disk n :=
  (overlay_congr disk disk _ _ (fun _ => disk n) _ n (fun k less there => (absent k less there).elim)
    (.inl rfl)).trans (overlay_self disk _ _ n)

/-- Recovery does not care what the listed blocks hold. -/
theorem recovered_update {k : ℕ} {data : Block} (less : k < headN (disk sb.logstart))
    (there : headBlock (disk sb.logstart) k = blockno) (head : blockno ≠ sb.logstart)
    (log : ∀ j < headN (disk sb.logstart), blockno ≠ logBlock sb j) (n : UInt32) :
    recovered sb (Function.update disk blockno data) n = recovered sb disk n := by
  have header : Function.update disk blockno data sb.logstart = disk sb.logstart :=
    Function.update_of_ne (Ne.symm head) _ _
  unfold recovered
  rw [header]
  apply overlay_congr
  · intro j less _
    rw [Function.update_of_ne (Ne.symm (log j less))]
  · by_cases same : n = blockno
    · exact .inr ⟨k, less, there.trans same.symm⟩
    · exact .inl (Function.update_of_ne same _ _)

/-! ### The blocks of the log -/

theorem logBlock_eq (sb : Superblock) (k : ℕ) : logBlock sb k = sb.logstart + UInt32.ofNat (k + 1) := by
  unfold logBlock
  rw [UInt32.ofNat_add, ← UInt32.add_assoc]
  rfl

theorem logBlock_not_home {k : ℕ} (inside : k + 1 < sb.nlog.toNat) : ¬Home sb (logBlock sb k) := fun home =>
  home (k + 1) inside (logBlock_eq sb k)

theorem logstart_not_home (inside : 0 < sb.nlog.toNat) : ¬Home sb sb.logstart := fun home =>
  home 0 inside (UInt32.add_zero _).symm

theorem logBlock_ne_logstart {k : ℕ} (small : k < logSize) : logBlock sb k ≠ sb.logstart := by
  intro same
  rw [logBlock_eq] at same
  have zero : UInt32.ofNat (k + 1) = 0 := by
    simpa using same
  unfold logSize maxOpBlocks at small
  have values := congrArg UInt32.toNat zero
  rw [UInt32.toNat_ofNat_of_lt' (show k + 1 < 2 ^ 32 by omega), UInt32.toNat_zero] at values
  omega

theorem logBlock_inj {k m : ℕ} (left : k < logSize) (right : m < logSize) (same : logBlock sb k = logBlock sb m) :
    k = m := by
  rw [logBlock_eq, logBlock_eq, UInt32.add_right_inj] at same
  unfold logSize maxOpBlocks at left right
  have values := congrArg UInt32.toNat same
  rw [UInt32.toNat_ofNat_of_lt' (show k + 1 < 2 ^ 32 by omega),
    UInt32.toNat_ofNat_of_lt' (show m + 1 < 2 ^ 32 by omega)] at values
  omega

theorem headN_putHead {l : Log} (d : Block) (small : l.n ≤ logSize) : headN (putHead l d) = l.n := by
  unfold headN putHead
  unfold logSize maxOpBlocks at small
  rw [if_pos rfl]
  change (Int32.ofNat l.n).toInt.toNat = l.n
  rw [Int32.toInt_ofNat_of_lt (by omega), Int.toNat_natCast]

theorem headBlock_putHead {l : Log} (d : Block) (small : l.n ≤ logSize) {k : ℕ} (less : k < l.n) :
    headBlock (putHead l d) k = l.block k := by
  unfold headBlock putHead
  unfold logSize maxOpBlocks at small
  have inside : k + 1 < bsize / 4 := by
    unfold bsize
    omega
  rw [dif_pos inside]
  simp only [Nat.add_eq_zero_iff, Nat.one_ne_zero, and_false, if_false, Nat.add_sub_cancel]
  exact if_pos less

/-! ### Steps that leave the disk and the log alone -/

theorem DataInv.locks (inv : DataInv sb disk₀ s) {c : Cache Single.heads Block} {lock : Fin nbuf → Option Tid}
    {busy : Tid → Option (Fin nbuf)}
    (same : ∀ i, (c.buf (.buf i)).dev = (s.buf i).dev ∧ (c.buf (.buf i)).blockno = (s.buf i).blockno ∧
      (c.buf (.buf i)).valid = (s.buf i).valid ∧ (c.buf (.buf i)).data = (s.buf i).data)
    (owners : ∀ i, s.dirty i = true → lock i = s.lock i) :
    DataInv sb disk₀ { s with cache := c, lock := lock, busy := busy } := by
  refine { inv with dirty := fun i dirty => ?_, clean := fun i root valid clean => ?_, valid := fun i pinned => ?_ }
  · obtain ⟨t, held, writing⟩ := inv.dirty i dirty
    exact ⟨t, (owners i dirty).trans held, writing⟩
  · obtain ⟨devs, blocks, valids, datas⟩ := same i
    simp only [Kernel.buf] at root valid ⊢
    rw [datas, blocks]
    exact inv.clean i (devs.symm.trans root) (valids.symm.trans valid) clean
  · obtain ⟨devs, blocks, valids, -⟩ := same i
    simp only [Kernel.buf]
    rw [valids]
    exact inv.valid i (pinned.of rfl rfl devs blocks)

theorem DataInv.recycled (inv : DataInv sb disk₀ s) (refs : RefInv s) (miss : ¬s.cache.Cached rootdev blockno)
    {c : Cache Single.heads Block} {busy : Tid → Option (Fin nbuf)}
    (bufs : c.buf = (s.cache.assign (.buf b) rootdev blockno).buf) :
    DataInv sb disk₀ { s with cache := c, busy := busy } := by
  have others : ∀ i, i ≠ b → c.buf (.buf i) = s.buf i := by
    intro i other
    rw [bufs, Cache.assign_other other]
  have here : c.buf (.buf b) = { s.buf b with dev := rootdev, blockno := blockno, valid := false, refcnt := 1 } := by
    rw [bufs, Cache.assign, Cache.setBuf_self]
  refine { inv with clean := fun i root valid clean => ?_, valid := fun i pinned => ?_ }
  · by_cases same : i = b
    · subst same
      simp only [Kernel.buf, here] at valid
      cases valid
    · simp only [Kernel.buf, others i same] at root valid ⊢
      exact inv.clean i root valid clean
  · by_cases same : i = b
    · subst same
      obtain ⟨-, k, low, high, there⟩ := pinned
      simp only [Kernel.buf, here] at there
      exact (miss (there ▸ refs.cached k low high)).elim
    · simp only [Kernel.buf, others i same]
      apply inv.valid i
      exact pinned.of rfl rfl (by simp only [Kernel.buf, others i same]) (by simp only [Kernel.buf, others i same])

/-- A block that is read from the disk is current: if the log had it pinned, its buffer would be valid. -/
theorem DataInv.disk_current (inv : DataInv sb disk₀ s) (root : (s.buf b).dev = rootdev)
    (invalid : (s.buf b).valid = false) : s.disk (s.buf b).blockno = current sb disk₀ s (s.buf b).blockno := by
  by_cases home : Home sb (s.buf b).blockno
  · rw [current_home home]
    apply inv.backed _ home
    intro k low high there
    have valid := inv.valid b ⟨root, k, low, high, there⟩
    rw [invalid] at valid
    cases valid
  · rw [current_log home]

theorem DataInv.fill (inv : DataInv sb disk₀ s) (b : Fin nbuf) :
    DataInv sb disk₀ { s with cache := s.cache.fill (.buf b) s.disk } := by
  have spec := s.cache.fill_spec (.buf b) s.disk
  by_cases valid : (s.buf b).valid = true
  · have same : s.cache.fill (.buf b) s.disk = s.cache := by
      unfold Cache.fill
      exact if_pos valid
    rw [same]
    exact inv
  · have invalid : (s.buf b).valid = false := Bool.not_eq_true _ ▸ valid
    have filled := s.cache.fill_self (.buf b) s.disk
    have others : ∀ i, i ≠ b → (s.cache.fill (.buf b) s.disk).buf (.buf i) = s.buf i :=
      fun i other => s.cache.fill_other s.disk (by simpa using other)
    refine { inv with clean := fun i root filled' clean => ?_, valid := fun i pinned => ?_ }
    · by_cases same : i = b
      · subst same
        simp only [Kernel.buf, (spec (.buf i)).1, (spec (.buf i)).2.1, filled.2, if_neg valid] at root ⊢
        exact inv.disk_current root invalid
      · simp only [Kernel.buf, others i same] at root filled' ⊢
        exact inv.clean i root filled' clean
    · by_cases same : i = b
      · subst same
        exact filled.1
      · simp only [Kernel.buf, others i same]
        apply inv.valid i
        exact pinned.of rfl rfl (spec _).1 (spec _).2.1

theorem DataInv.setData (inv : DataInv sb disk₀ s) (held : s.lock b = some t) (writing : (s.ctl.phase t).Writing)
    (data : Block) : DataInv sb disk₀ (s.setData b data) := by
  have spec := fun i => setData_spec s b i data
  refine { inv with dirty := fun i dirty => ?_, clean := fun i root valid clean => ?_, valid := fun i pinned => ?_ }
  · by_cases same : i = b
    · subst same
      exact ⟨t, held, writing⟩
    · apply inv.dirty i
      rw [← dirty]
      exact (Function.update_of_ne same _ _).symm
  · by_cases same : i = b
    · subst same
      change Function.update s.dirty i true i = false at clean
      rw [Function.update_self] at clean
      cases clean
    · have other : (s.setData b data).buf i = s.buf i := Cache.setBuf_of_ne _ (by simpa using same)
      have clean : s.dirty i = false := by
        rw [← clean]
        exact (Function.update_of_ne same _ _).symm
      rw [other] at root valid ⊢
      exact inv.clean i root valid clean
  · rw [(spec i).2.2.2]
    exact inv.valid i (pinned.of rfl rfl (spec i).1 (spec i).2.1)

/-! ### Writes of a commit -/

theorem none_running (refs : RefInv s) (busy : (s.ctl.phase t).Committing) (u : Tid) :
    (s.ctl.phase u).running ≠ 1 := by
  have most := refs.control.running_le u
  have zero := refs.control.alone t busy
  omega

/-- What a write to the disk must show. -/
theorem DataInv.write (inv : DataInv sb disk₀ s) (refs : RefInv s) (busy : (s.ctl.phase t).Committing)
    (root : (s.buf b).dev = rootdev)
    (data : Home sb (s.buf b).blockno → (s.buf b).data = replay disk₀ s.writes (s.buf b).blockno)
    (sound : Sound sb (s.write sb t b).disk)
    (durable : ∀ n, Home sb n → recovered sb (s.write sb t b).disk n =
      replay disk₀ (upTo (s.write sb t b).durable s.writes) n)
    (bounds : s.finished ≤ (s.write sb t b).durable ∧ (s.write sb t b).durable ≤ s.ops)
    (member : (s.write sb t b).durable ∈ 0 :: s.commits) : DataInv sb disk₀ (s.write sb t b) := by
  refine { inv with
    dirty := fun i dirty => ?_
    clean := fun i rooted valid clean => ?_
    backed := fun n home unlisted => ?_
    header := fun calm => (calm t busy).elim
    sound := sound
    durable := durable
    active := fun u running => (none_running refs busy u running).elim
    bounds := bounds
    member := member }
  · by_cases same : i = b
    · subst same
      change Function.update s.dirty i false i = true at dirty
      rw [Function.update_self] at dirty
      cases dirty
    · apply inv.dirty i
      rw [← dirty]
      exact (Function.update_of_ne same _ _).symm
  · change (s.buf i).data = current sb disk₀ (s.write sb t b) (s.buf i).blockno
    by_cases same : i = b
    · subst same
      by_cases home : Home sb (s.buf i).blockno
      · rw [current_home home]
        exact data home
      · rw [current_log home]
        exact (Function.update_self (s.buf i).blockno _ s.disk).symm
    · have apart : (s.buf i).blockno ≠ (s.buf b).blockno := by
        intro blocks
        exact same (refs.distinct i b (by rw [show (s.cache.buf (.buf i)).dev = _ from rooted]; decide)
          (rooted.trans root.symm) blocks)
      have clean : s.dirty i = false := by
        rw [← clean]
        exact (Function.update_of_ne same _ _).symm
      rw [inv.clean i rooted valid clean]
      by_cases home : Home sb (s.buf i).blockno
      · rw [current_home home, current_home home]
        rfl
      · rw [current_log home, current_log home]
        exact (Function.update_of_ne apart _ _).symm
  · change Function.update s.disk (s.buf b).blockno (s.buf b).data n = _
    by_cases same : n = (s.buf b).blockno
    · subst same
      rw [Function.update_self]
      exact data home
    · rw [Function.update_of_ne same]
      exact inv.backed n home unlisted

/-- `write_log`: the header on the disk is still empty. -/
theorem DataInv.write_log (inv : DataInv sb disk₀ s) (refs : RefInv s) (busy : (s.ctl.phase t).Committing)
    (root : (s.buf b).dev = rootdev) (outside : ¬Home sb (s.buf b).blockno)
    (head : (s.buf b).blockno ≠ sb.logstart) (empty : headN (s.disk sb.logstart) = 0) :
    DataInv sb disk₀ (s.write sb t b) := by
  have same : (s.write sb t b).durable = s.durable := if_neg fun both => head both.2
  apply inv.write refs busy root (fun home => (outside home).elim)
  · exact inv.sound.congr (Function.update_of_ne (Ne.symm head) _ _)
  · intro n home
    have other : n ≠ (s.buf b).blockno := by
      rintro rfl
      exact outside home
    have still : headN (Function.update s.disk (s.buf b).blockno (s.buf b).data sb.logstart) = 0 := by
      rw [Function.update_of_ne (Ne.symm head), empty]
    have before := inv.durable n home
    rw [recovered_empty empty] at before
    rw [same]
    change recovered sb (Function.update s.disk (s.buf b).blockno (s.buf b).data) n = _
    rw [recovered_empty still, Function.update_of_ne other, before]
  · rw [same]
    exact inv.bounds
  · rw [same]
    exact inv.member

/-- The first `write_head`: from here on the transaction is durable. -/
theorem DataInv.write_commit (inv : DataInv sb disk₀ s) (refs : RefInv s) (phase : s.ctl.phase t = .commit)
    (root : (s.buf b).dev = rootdev) (block : (s.buf b).blockno = sb.logstart) (fits : s.ctl.log.n < sb.nlog.toNat)
    (count : headN (s.buf b).data = s.ctl.log.n)
    (blocks : ∀ k < s.ctl.log.n, headBlock (s.buf b).data k = s.ctl.log.block k)
    (logged : ∀ k < s.ctl.log.n, s.disk (logBlock sb k) = replay disk₀ s.writes (s.ctl.log.block k)) :
    DataInv sb disk₀ (s.write sb t b) := by
  have busy : (s.ctl.phase t).Committing := by
    rw [phase]
    trivial
  have now : (s.write sb t b).durable = s.ops := if_pos ⟨phase, block⟩
  have outside : ¬Home sb sb.logstart := logstart_not_home (by omega)
  apply inv.write refs busy root
  · intro home
    rw [block] at home
    exact (outside home).elim
  · have header : (s.write sb t b).disk sb.logstart = (s.buf b).data := by
      rw [← block]
      exact Function.update_self _ _ _
    constructor
    · rw [header, count]
      exact fits
    · rw [header, count]
      intro k less
      rw [blocks k less]
      exact inv.homes k less
  · intro n home
    have other : n ≠ sb.logstart := by
      rintro rfl
      exact outside home
    rw [now, upTo_all inv.begun]
    change recovered sb (Function.update s.disk (s.buf b).blockno (s.buf b).data) n = _
    rw [block]
    have header : Function.update s.disk sb.logstart (s.buf b).data sb.logstart = (s.buf b).data :=
      Function.update_self _ _ _
    have logBlocks : ∀ k < s.ctl.log.n, Function.update s.disk sb.logstart (s.buf b).data (logBlock sb k) =
        s.disk (logBlock sb k) := by
      intro k less
      have small := refs.control.room
      exact Function.update_of_ne (logBlock_ne_logstart (by omega)) _ _
    by_cases listed : ∃ k < s.ctl.log.n, s.ctl.log.block k = n
    · obtain ⟨k, less, there⟩ := listed
      apply recovered_listed (k := k)
      · rw [header, count]
        exact less
      · rw [header, blocks k less, there]
      · intro j less' there'
        rw [header, count] at less'
        rw [header, blocks j less'] at there'
        rw [logBlocks j less', logged j less', there']
    · push Not at listed
      rw [recovered_unlisted, Function.update_of_ne other]
      · exact inv.backed n home fun k _ high => listed k high
      · intro k less
        rw [header] at less ⊢
        rw [count] at less
        rw [blocks k less]
        exact listed k less
  · rw [now]
    exact ⟨inv.bounds.1.trans inv.bounds.2, Nat.le_refl _⟩
  · rw [now]
    exact List.mem_cons_of_mem _ (inv.covered t busy)

/-- `install_trans`: a listed block, which recovery would install as well. -/
theorem DataInv.write_home (inv : DataInv sb disk₀ s) (refs : RefInv s) (busy : (s.ctl.phase t).Committing)
    (root : (s.buf b).dev = rootdev) (home : Home sb (s.buf b).blockno)
    (data : (s.buf b).data = replay disk₀ s.writes (s.buf b).blockno) {k : ℕ}
    (less : k < headN (s.disk sb.logstart)) (there : headBlock (s.disk sb.logstart) k = (s.buf b).blockno)
    (fits : headN (s.disk sb.logstart) < sb.nlog.toNat) : DataInv sb disk₀ (s.write sb t b) := by
  have head : (s.buf b).blockno ≠ sb.logstart := by
    intro same
    rw [same] at home
    exact logstart_not_home (by omega) home
  have same : (s.write sb t b).durable = s.durable := if_neg fun both => head both.2
  apply inv.write refs busy root (fun _ => data)
  · exact inv.sound.congr (Function.update_of_ne (Ne.symm head) _ _)
  · intro n home'
    rw [same, ← inv.durable n home']
    apply recovered_update less there head
    intro j less' log
    rw [log] at home
    exact logBlock_not_home (by omega) home
  · rw [same]
    exact inv.bounds
  · rw [same]
    exact inv.member

/-- The second `write_head`: everything is installed. -/
theorem DataInv.write_clear (inv : DataInv sb disk₀ s) (refs : RefInv s) (phase : s.ctl.phase t = .cleared)
    (root : (s.buf b).dev = rootdev) (block : (s.buf b).blockno = sb.logstart) (nonempty : 0 < sb.nlog.toNat)
    (count : headN (s.buf b).data = 0) (cleared : s.ctl.log.n = 0) (durable : s.durable = s.ops) :
    DataInv sb disk₀ (s.write sb t b) := by
  have busy : (s.ctl.phase t).Committing := by
    rw [phase]
    trivial
  have same : (s.write sb t b).durable = s.durable := if_neg fun both => by
    rw [phase] at both
    cases both.1
  have outside := logstart_not_home nonempty
  apply inv.write refs busy root
  · intro home
    rw [block] at home
    exact (outside home).elim
  · apply Sound.empty nonempty
    change headN (Function.update s.disk (s.buf b).blockno (s.buf b).data sb.logstart) = 0
    rw [block, Function.update_self, count]
  · intro n home
    have other : n ≠ sb.logstart := by
      rintro rfl
      exact outside home
    rw [same, durable, upTo_all inv.begun]
    change recovered sb (Function.update s.disk (s.buf b).blockno (s.buf b).data) n = _
    rw [block, recovered_empty (by rw [Function.update_self]; exact count), Function.update_of_ne other]
    apply inv.backed n home
    intro k _ high
    omega
  · rw [same]
    exact inv.bounds
  · rw [same]
    exact inv.member

theorem DataInv.bunpin (inv : DataInv sb disk₀ s)
    (installed : s.disk (s.ctl.log.block s.unpinned) = replay disk₀ s.writes (s.ctl.log.block s.unpinned)) :
    DataInv sb disk₀ { s with cache := s.cache.decRef (.buf b), unpinned := s.unpinned + 1 } := by
  have same : ∀ i, ((s.cache.decRef (.buf b)).buf (.buf i)).dev = (s.buf i).dev ∧
      ((s.cache.decRef (.buf b)).buf (.buf i)).blockno = (s.buf i).blockno ∧
      ((s.cache.decRef (.buf b)).buf (.buf i)).valid = (s.buf i).valid ∧
      ((s.cache.decRef (.buf b)).buf (.buf i)).data = (s.buf i).data := by
    intro i
    by_cases here : i = b
    · subst here
      simp [Cache.decRef]
    · rw [show (s.cache.decRef (.buf b)).buf (.buf i) = s.buf i from Cache.setBuf_of_ne _ (by simpa using here)]
      exact ⟨rfl, rfl, rfl, rfl⟩
  refine { inv with
    clean := fun i root valid clean => ?_
    backed := fun n home unlisted => ?_
    valid := fun i pinned => ?_ }
  · obtain ⟨devs, blocks, valids, datas⟩ := same i
    simp only [Kernel.buf] at root valid ⊢
    rw [datas, blocks]
    exact inv.clean i (devs.symm.trans root) (valids.symm.trans valid) clean
  · by_cases here : s.ctl.log.block s.unpinned = n
    · rw [← here]
      exact installed
    · apply inv.backed n home
      intro k low high
      by_cases first : k = s.unpinned
      · rw [first]
        exact here
      · exact unlisted k (Nat.lt_of_le_of_ne low (Ne.symm first)) high
  · obtain ⟨devs, blocks, valids, -⟩ := same i
    obtain ⟨root, k, low, high, there⟩ := pinned
    simp only [Kernel.buf] at root there ⊢
    rw [valids]
    exact inv.valid i ⟨devs.symm.trans root, k, Nat.le_of_succ_le low, high, there.trans blocks⟩

theorem DataInv.clear (inv : DataInv sb disk₀ s) (phase : s.ctl.phase t = .commit)
    (all : s.unpinned = s.ctl.log.n) : DataInv sb disk₀ (s.clear t) := by
  have phases : (s.clear t).ctl.phase = Function.update s.ctl.phase t .cleared := if_pos phase
  have other : ∀ u, u ≠ t → (s.clear t).ctl.phase u = s.ctl.phase u := by
    intro u ne
    rw [phases, Function.update_of_ne ne]
  have here : (s.clear t).ctl.phase t = .cleared := by
    rw [phases, Function.update_self]
  refine { inv with
    dirty := fun i dirty => ?_
    clean := fun i root valid clean => inv.clean i root valid clean
    backed := fun n home _ => inv.backed n home fun k low high => by omega
    valid := fun i pinned => ?_
    homes := fun k less => (Nat.not_lt_zero k less).elim
    header := fun calm => (calm t (by rw [here]; trivial)).elim
    active := fun u running => ?_
    covered := fun u busy => inv.covered t (by rw [phase]; trivial) }
  · obtain ⟨u, held, writing⟩ := inv.dirty i dirty
    refine ⟨u, held, ?_⟩
    by_cases same : u = t
    · rw [same, here]
      trivial
    · rwa [other u same]
  · obtain ⟨-, k, -, high, -⟩ := pinned
    exact (Nat.not_lt_zero k high).elim
  · by_cases same : u = t
    · rw [same, here] at running
      cases running
    · rw [other u same] at running
      exact inv.active u running

/-! ### Steps of an operation -/

/-- A step that changes the phase of one process, but not the list. -/
theorem DataInv.phases (inv : DataInv sb disk₀ s) {ctl : State} {phase : Phase}
    (phases : ctl.phase = Function.update s.ctl.phase t phase) (count : ctl.log.n = s.ctl.log.n)
    (block : ctl.log.block = s.ctl.log.block)
    (writing : phase.Writing ∨ ∀ i, s.lock i = some t → s.dirty i = false)
    (header : ¬phase.Committing → (s.ctl.phase t).Committing → headN (s.disk sb.logstart) = 0)
    (running : phase.running = 1 → s.durable ≤ s.op t ∧ s.op t < s.ops)
    (covered : phase.Committing → s.ops ∈ s.commits) : DataInv sb disk₀ { s with ctl := ctl } := by
  have other : ∀ u, u ≠ t → ctl.phase u = s.ctl.phase u := by
    intro u ne
    rw [phases, Function.update_of_ne ne]
  have here : ctl.phase t = phase := by
    rw [phases, Function.update_self]
  refine { inv with
    dirty := fun i dirty => ?_
    clean := fun i root valid clean => inv.clean i root valid clean
    backed := fun n home unlisted => ?_
    valid := fun i pinned => ?_
    homes := fun k less => ?_
    header := fun calm => ?_
    active := fun u active => ?_
    covered := fun u busy => ?_ }
  · obtain ⟨u, held, writing'⟩ := inv.dirty i dirty
    refine ⟨u, held, ?_⟩
    by_cases same : u = t
    · subst same
      rw [here]
      rcases writing with writing | clean
      · exact writing
      · rw [clean i held] at dirty
        cases dirty
    · rwa [other u same]
  · simp only [count, block] at unlisted
    exact inv.backed n home unlisted
  · obtain ⟨root, k, low, high, there⟩ := pinned
    simp only [count, block] at high there
    exact inv.valid i ⟨root, k, low, high, there⟩
  · simp only [count, block] at less ⊢
    exact inv.homes k less
  · by_cases busy : (s.ctl.phase t).Committing
    · exact header (by have := calm t; rwa [here] at this) busy
    · apply inv.header
      intro u busy'
      by_cases same : u = t
      · rw [same] at busy'
        exact busy busy'
      · have := calm u
        rw [other u same] at this
        exact this busy'
  · by_cases same : u = t
    · subst same
      simp only [here] at active
      exact running active
    · simp only [other u same] at active
      exact inv.active u active
  · by_cases same : u = t
    · subst same
      simp only [here] at busy
      exact covered busy
    · simp only [other u same] at busy
      exact inv.covered u busy

theorem DataInv.begin_op (inv : DataInv sb disk₀ s) {ctl : State} (out : s.ctl.phase t = .out)
    (calm : ∀ u, ¬(s.ctl.phase u).Committing) (phases : ctl.phase = Function.update s.ctl.phase t (.inOp ∅))
    (count : ctl.log.n = s.ctl.log.n) (block : ctl.log.block = s.ctl.log.block) :
    DataInv sb disk₀ { s with ctl := ctl, op := Function.update s.op t s.ops, ops := s.ops + 1 } := by
  have numbered : DataInv sb disk₀ { s with op := Function.update s.op t s.ops, ops := s.ops + 1 } :=
    { inv with
      begun := fun w member => Nat.lt_succ_of_lt (inv.begun w member)
      active := fun u running => by
        have other : u ≠ t := by
          rintro rfl
          rw [out] at running
          cases running
        simp only [Function.update_of_ne other]
        exact ⟨(inv.active u running).1, Nat.lt_succ_of_lt (inv.active u running).2⟩
      bounds := ⟨inv.bounds.1, Nat.le_succ_of_le inv.bounds.2⟩
      covered := fun u busy => (calm u busy).elim }
  apply numbered.phases phases count block (.inl trivial)
  · exact fun _ busy => (calm t busy).elim
  · intro _
    simp only [Function.update_self]
    exact ⟨inv.bounds.2, Nat.lt_succ_self _⟩
  · exact fun busy => busy.elim

/-- `log_write` has listed the block: its contents are current from here on. -/
theorem DataInv.append (inv : DataInv sb disk₀ s) (refs : RefInv s) {logged : Finset UInt32} {ctl : State}
    (root : (s.buf b).dev = rootdev) (valid : (s.buf b).valid = true) (home : Home sb (s.buf b).blockno)
    (phase : s.ctl.phase t = .checked logged (s.buf b).blockno)
    (step : next sb.nlog s.ctl t .append = some ctl) : DataInv sb disk₀ (s.append t b ctl) := by
  rw [append_next phase] at step
  have log : ctl.log = s.ctl.log.append (s.buf b).blockno := by
    cases step
    rfl
  have phases : ctl.phase = Function.update s.ctl.phase t (.inOp (insert (s.buf b).blockno logged)) := by
    cases step
    rfl
  have other : ∀ u, u ≠ t → ctl.phase u = s.ctl.phase u := by
    intro u ne
    rw [phases, Function.update_of_ne ne]
  have here : ctl.phase t = .inOp (insert (s.buf b).blockno logged) := by
    rw [phases, Function.update_self]
  have running : (s.ctl.phase t).running = 1 := by
    rw [phase]
    rfl
  have quiet := refs.control.quiet (refs.control.calm running)
  have zero : s.unpinned = 0 := refs.pinned quiet
  have active := inv.active t running
  have same : ∀ i, ((s.append t b ctl).buf i).dev = (s.buf i).dev ∧
      ((s.append t b ctl).buf i).blockno = (s.buf i).blockno ∧
      ((s.append t b ctl).buf i).valid = (s.buf i).valid ∧ ((s.append t b ctl).buf i).data = (s.buf i).data := by
    intro i
    simp only [Kernel.append, Kernel.buf]
    split
    · by_cases mine : i = b
      · subst mine
        simp [Cache.incRef]
      · rw [show (s.cache.incRef (.buf b)).buf (.buf i) = s.buf i from Cache.setBuf_of_ne _ (by simpa using mine)]
        exact ⟨rfl, rfl, rfl, rfl⟩
    · exact ⟨rfl, rfl, rfl, rfl⟩
  have written : (s.append t b ctl).writes = s.writes ++ [⟨s.op t, (s.buf b).blockno, (s.buf b).data⟩] := rfl
  have replayed : replay disk₀ (s.append t b ctl).writes =
      Function.update (replay disk₀ s.writes) (s.buf b).blockno (s.buf b).data := by
    rw [written, replay_append]
  have listed : ∀ n, ctl.log.Listed n ↔ n = (s.buf b).blockno ∨ s.ctl.log.Listed n := by
    intro n
    rw [log, listed_append]
  constructor
  · intro i dirty
    have mine : i ≠ b := by
      rintro rfl
      change Function.update s.dirty i false i = true at dirty
      rw [Function.update_self] at dirty
      cases dirty
    obtain ⟨u, held, writing⟩ := inv.dirty i (by rw [← dirty]; exact (Function.update_of_ne mine _ _).symm)
    refine ⟨u, held, ?_⟩
    change (ctl.phase u).Writing
    by_cases same : u = t
    · rw [same, here]
      trivial
    · rwa [other u same]
  · intro i rooted valid' clean
    rw [(same i).1] at rooted
    rw [(same i).2.2.1] at valid'
    rw [(same i).2.2.2, (same i).2.1]
    by_cases mine : i = b
    · rw [mine, current_home home, replayed, Function.update_self]
    · have apart : (s.buf i).blockno ≠ (s.buf b).blockno := by
        intro blocks
        exact mine (refs.distinct i b (by rw [show (s.cache.buf (.buf i)).dev = _ from rooted]; decide)
          (rooted.trans root.symm) blocks)
      have clean : s.dirty i = false := by
        rw [← clean]
        exact (Function.update_of_ne mine _ _).symm
      rw [inv.clean i rooted valid' clean]
      by_cases home' : Home sb (s.buf i).blockno
      · rw [current_home home', current_home home', replayed, Function.update_of_ne apart]
      · rw [current_log home', current_log home']
        rfl
  · intro n home' unlisted
    have absent : ¬ctl.log.Listed n := by
      rintro ⟨k, less, there⟩
      exact unlisted k (by change s.unpinned ≤ k; omega) less there
    rw [listed, not_or] at absent
    rw [replayed, Function.update_of_ne absent.1]
    exact inv.backed n home' fun k _ high there => absent.2 ⟨k, high, there⟩
  · intro i pinned
    rw [(same i).2.2.1]
    by_cases mine : i = b
    · rw [mine]
      exact valid
    · obtain ⟨rooted, k, low, high, there⟩ := pinned
      rw [(same i).1] at rooted
      rw [(same i).2.1] at there
      rcases (listed _).mp ⟨k, high, there⟩ with blocks | ⟨k', high', there'⟩
      · exact (mine (refs.distinct i b (by rw [show (s.cache.buf (.buf i)).dev = _ from rooted]; decide)
          (rooted.trans root.symm) blocks)).elim
      · exact inv.valid i ⟨rooted, k', by omega, high', there'⟩
  · intro k less
    rcases (listed _).mp ⟨k, less, rfl⟩ with new | ⟨k', less', there⟩
    · rw [show (s.append t b ctl).ctl.log.block k = _ from new]
      exact home
    · rw [← show _ = (s.append t b ctl).ctl.log.block k from there]
      exact inv.homes k' less'
  · intro _
    exact inv.header quiet
  · exact inv.sound
  · intro n home'
    rw [written]
    change recovered sb s.disk n = replay disk₀ (upTo s.durable _) n
    rw [upTo_append _ active.1]
    exact inv.durable n home'
  · intro w member
    rw [written, List.mem_append, List.mem_singleton] at member
    rcases member with old | rfl
    · exact inv.begun w old
    · exact active.2
  · intro u run
    by_cases same : u = t
    · rw [same]
      exact active
    · apply inv.active u
      rw [← other u same]
      exact run
  · exact inv.bounds
  · exact inv.member
  · intro u busy
    by_cases same : u = t
    · change (ctl.phase u).Committing at busy
      rw [same, here] at busy
      exact busy.elim
    · change (ctl.phase u).Committing at busy
      rw [other u same] at busy
      exact (quiet u busy).elim

theorem DataInv.leave (inv : DataInv sb disk₀ s) {short : Bool} {ctl : State}
    (phases : ctl.phase = Function.update s.ctl.phase t .commit) (count : ctl.log.n = s.ctl.log.n)
    (block : ctl.log.block = s.ctl.log.block) (running : (s.ctl.phase t).running = 1) :
    DataInv sb disk₀ { s with ctl := ctl, commits := s.commits ++ [s.ops], short := short } := by
  have more : DataInv sb disk₀ { s with commits := s.commits ++ [s.ops], short := short } :=
    { inv with
      member := List.cons_subset_cons 0 (List.subset_append_left _ _) inv.member
      covered := fun u busy => List.mem_append_left _ (inv.covered u busy) }
  apply more.phases phases count block (.inl trivial)
  · exact fun calm => (calm trivial).elim
  · exact fun _ => inv.active t running
  · exact fun _ => List.mem_append_right _ (List.mem_singleton_self _)

theorem DataInv.finish (inv : DataInv sb disk₀ s) (refs : RefInv s) (busy : (s.ctl.phase t).Committing) {ctl : State}
    (phases : ctl.phase = Function.update s.ctl.phase t .out) (count : ctl.log.n = s.ctl.log.n)
    (block : ctl.log.block = s.ctl.log.block) (released : ∀ i, s.lock i = some t → s.dirty i = false)
    (empty : s.ctl.log.n = 0) (header : headN (s.disk sb.logstart) = 0) :
    DataInv sb disk₀ { s with ctl := ctl, durable := s.ops, finished := s.ops } := by
  have out := inv.phases phases count block (.inr released) (fun _ _ => header) (fun run => by cases run)
    (fun commit => commit.elim)
  have quiet : ∀ u, (ctl.phase u).running ≠ 1 := by
    intro u running
    rw [phases] at running
    by_cases same : u = t
    · rw [same, Function.update_self] at running
      cases running
    · rw [Function.update_of_ne same] at running
      exact none_running refs busy u running
  refine { out with
    durable := fun n home => ?_
    active := fun u running => (quiet u running).elim
    bounds := ⟨Nat.le_refl _, Nat.le_refl _⟩
    member := List.mem_cons_of_mem _ (inv.covered t busy) }
  simp only
  rw [recovered_empty header, upTo_all inv.begun]
  exact inv.backed n home fun k _ high => by omega

end Xv6Labs.Log
