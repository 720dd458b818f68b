import Mathlib
import Xv6Labs.Bio.Variants

/-!
# The two buffer caches refine one specification

A caller names buffers by block number: `ptr` holds the pointer that the last `bread` of a block returned.
`Spec` is what a buffer cache is for. It keeps an entry for each block that is in use, with its data, whether
it is held and how often it is pinned; a block that is not in use is on the disk only. There is room for `NBUF`
blocks in use. `Sim` ties a cache to it: the referenced buffers are the blocks in use, and an unreferenced
buffer agrees with the disk, so it does not matter which of them a variant recycles.
-/

namespace Xv6Labs.Bio

variable {H : ℕ} {D : Type}

/-! ### Sequences of calls -/

inductive Op (D : Type) where
  | bread (blockno : UInt32)
  | change (blockno : UInt32) (f : D → D)
  | bwrite (blockno : UInt32)
  | bpin (blockno : UInt32)
  | bunpin (blockno : UInt32)
  | brelse (blockno : UInt32)

structure Session (H : ℕ) (D : Type) where
  sys : Sys H D
  ptr : UInt32 → Option (Node H)

namespace Session

def start (c : Cache H D) (disk : UInt32 → D) : Session H D := ⟨⟨c, fun _ => false, disk⟩, fun _ => none⟩

/-- A call on the buffer that the last `bread` of the block returned. -/
def through (s : Session H D) (blockno : UInt32) (call : Node H → CallM H D Unit) :
    Except Fault (Option D × Session H D) :=
  match s.ptr blockno with
  | none => .error .notHeld
  | some b =>
    match call b s.sys with
    | .error fault => .error fault
    | .ok ((), sys) => .ok (none, { s with sys := sys })

end Session

def Op.run (v : Variant H D) (dev : UInt32) (s : Session H D) : Op D → Except Fault (Option D × Session H D)
  | .bread blockno =>
    match Bio.bread v dev blockno s.sys with
    | .error fault => .error fault
    | .ok (b, sys) => .ok (some (sys.cache.buf b).data, ⟨sys, Function.update s.ptr blockno (some b)⟩)
  | .change blockno f => s.through blockno fun b => setData b f
  | .bwrite blockno => s.through blockno Bio.bwrite
  | .bpin blockno => s.through blockno Bio.bpin
  | .bunpin blockno => s.through blockno Bio.bunpin
  | .brelse blockno => s.through blockno (Bio.brelse v)

/-- The data of every `bread`, the disk at the end, and where and why the sequence stopped early. -/
structure Result (D : Type) where
  reads : List D
  disk : UInt32 → D
  stop : Option (ℕ × Fault)

def Result.after (r : Result D) (read : Option D) : Result D :=
  { r with reads := read.toList ++ r.reads, stop := r.stop.map fun p => (p.1 + 1, p.2) }

def exec (v : Variant H D) (dev : UInt32) : List (Op D) → Session H D → Result D
  | [], s => ⟨[], s.sys.disk, none⟩
  | op :: ops, s =>
    match op.run v dev s with
    | .error fault => ⟨[], s.sys.disk, some (0, fault)⟩
    | .ok (read, s') => (exec v dev ops s').after read

/-! ### The specification -/

structure Entry (D : Type) where
  data : D
  held : Bool
  pins : ℕ

def Entry.refs (e : Entry D) : ℕ := e.pins + e.held.toNat

structure Spec (D : Type) where
  disk : UInt32 → D
  live : UInt32 → Option (Entry D)

namespace Spec

def start (disk : UInt32 → D) : Spec D := ⟨disk, fun _ => none⟩

def Full (a : Spec D) : Prop := {n | a.live n ≠ none}.ncard = nbuf

/-- A block without references is not in use any more. -/
def put (a : Spec D) (blockno : UInt32) (e : Entry D) : Spec D :=
  { a with live := Function.update a.live blockno (if e.refs = 0 then none else some e) }

def onEntry (a : Spec D) (blockno : UInt32) (f : Entry D → Spec D) : Except Fault (Option D × Spec D) :=
  match a.live blockno with
  | none => .error .notHeld
  | some e => .ok (none, f e)

def onHeld (a : Spec D) (blockno : UInt32) (f : Entry D → Spec D) : Except Fault (Option D × Spec D) :=
  match a.live blockno with
  | none => .error .notHeld
  | some e => if e.held then .ok (none, f e) else .error .notHeld

open Classical in
noncomputable def step (a : Spec D) : Op D → Except Fault (Option D × Spec D)
  | .bread n =>
    match a.live n with
    | some e => .ok (some e.data, a.put n { e with held := true })
    | none =>
      if a.Full then .error .noBuffers else .ok (some (a.disk n), a.put n ⟨a.disk n, true, 0⟩)
  | .change n f => a.onEntry n fun e => a.put n { e with data := f e.data }
  | .bwrite n => a.onHeld n fun e => { a with disk := Function.update a.disk n e.data }
  | .bpin n => a.onEntry n fun e => a.put n { e with pins := e.pins + 1 }
  | .bunpin n => a.onEntry n fun e => a.put n { e with pins := e.pins - 1 }
  | .brelse n => a.onHeld n fun e => a.put n { e with held := false }

noncomputable def exec : List (Op D) → Spec D → Result D
  | [], a => ⟨[], a.disk, none⟩
  | op :: ops, a =>
    match a.step op with
    | .error fault => ⟨[], a.disk, some (0, fault)⟩
    | .ok (read, a') => (exec ops a').after read

/-- Fewer than 2^32 references to every block. -/
def Bounded (a : Spec D) : Prop := ∀ n e, a.live n = some e → e.refs < 2 ^ 32

end Spec

/-- No block is read while it is held, the calls that take a buffer are of blocks in use, only held blocks are
changed and only pinned ones unpinned, and the last reference to a block is given up only when its data is on
the disk. -/
def Op.Allowed (a : Spec D) : Op D → Prop
  | .bread n => ∀ e, a.live n = some e → e.held = false
  | .change n _ => ∃ e, a.live n = some e ∧ e.held = true
  | .bwrite n | .bpin n => ∃ e, a.live n = some e
  | .bunpin n => ∃ e, a.live n = some e ∧ 0 < e.pins ∧ (e.refs = 1 → e.data = a.disk n)
  | .brelse n => ∃ e, a.live n = some e ∧ (e.held = true → e.refs = 1 → e.data = a.disk n)

def Disciplined : Spec D → List (Op D) → Prop
  | _, [] => True
  | a, op :: ops =>
    op.Allowed a ∧ ∀ read a', a.step op = .ok (read, a') → a'.Bounded ∧ Disciplined a' ops

/-! ### The simulation -/

/-- Buffer `i` holds the block in use that `e` describes. -/
structure Tracks (dev : UInt32) (s : Session H D) (a : Spec D) (i : Fin nbuf) (e : Entry D) : Prop where
  dev_eq : (s.sys.cache.buf (.buf i)).dev = dev
  valid : (s.sys.cache.buf (.buf i)).valid = true
  refcnt : (s.sys.cache.buf (.buf i)).refcnt = UInt32.ofNat e.refs
  data : (s.sys.cache.buf (.buf i)).data = e.data
  locked : s.sys.locked (.buf i) = e.held
  ptr : s.ptr (s.sys.cache.buf (.buf i)).blockno = some (.buf i)
  live : a.live (s.sys.cache.buf (.buf i)).blockno = some e

structure Sim (v : Variant H D) (dev : UInt32) (s : Session H D) (a : Spec D) : Prop where
  filed : ∃ l, s.sys.cache.Filed v.hash l
  distinct : s.sys.cache.Distinct
  disk : s.sys.disk = a.disk
  used : ∀ i, (s.sys.cache.buf (.buf i)).refcnt ≠ 0 → ∃ e, Tracks dev s a i e
  spare : ∀ i, (s.sys.cache.buf (.buf i)).refcnt = 0 → s.sys.locked (.buf i) = false ∧
    ((s.sys.cache.buf (.buf i)).dev = dev → (s.sys.cache.buf (.buf i)).valid = true →
      (s.sys.cache.buf (.buf i)).data = a.disk (s.sys.cache.buf (.buf i)).blockno)
  live : ∀ n e, a.live n = some e → ∃ i, (s.sys.cache.buf (.buf i)).refcnt ≠ 0 ∧
    (s.sys.cache.buf (.buf i)).blockno = n
  bounded : a.Bounded

variable {v : Variant H D} {dev : UInt32} {s s' : Session H D} {a a' : Spec D} {n : UInt32} {e e' : Entry D}
  {i j : Fin nbuf} {b : Node H}

/-- The buffer of a block in use. -/
theorem Sim.tracks (sim : Sim v dev s a) (live : a.live n = some e) :
    ∃ i, (s.sys.cache.buf (.buf i)).blockno = n ∧ (s.sys.cache.buf (.buf i)).refcnt ≠ 0 ∧ Tracks dev s a i e := by
  obtain ⟨i, used, rfl⟩ := sim.live n e live
  obtain ⟨e', tracks⟩ := sim.used i used
  obtain rfl := Option.some.inj (tracks.live.symm.trans live)
  exact ⟨i, rfl, used, tracks⟩

theorem Sim.same (sim : Sim v dev s a) (nonzero : dev ≠ 0) (left : (s.sys.cache.buf (.buf i)).dev = dev)
    (right : (s.sys.cache.buf (.buf j)).dev = dev)
    (blocks : (s.sys.cache.buf (.buf i)).blockno = (s.sys.cache.buf (.buf j)).blockno) : i = j :=
  sim.distinct i j (by rwa [left]) (left.trans right.symm) blocks

/-- The specification is full when every buffer is referenced. -/
theorem Sim.full_iff (sim : Sim v dev s a) (nonzero : dev ≠ 0) :
    a.Full ↔ ∀ i, (s.sys.cache.buf (.buf i)).refcnt ≠ 0 := by
  have image : {n | a.live n ≠ none} =
      (fun i => (s.sys.cache.buf (.buf i)).blockno) '' {i | (s.sys.cache.buf (.buf i)).refcnt ≠ 0} := by
    ext n
    simp only [Set.mem_ofPred_eq, Set.mem_image, Option.ne_none_iff_exists']
    constructor
    · rintro ⟨e, live⟩
      obtain ⟨i, here, used, -⟩ := sim.tracks live
      exact ⟨i, used, here⟩
    · rintro ⟨i, used, rfl⟩
      obtain ⟨e, tracks⟩ := sim.used i used
      exact ⟨e, tracks.live⟩
  have injective : Set.InjOn (fun i => (s.sys.cache.buf (.buf i)).blockno)
      {i | (s.sys.cache.buf (.buf i)).refcnt ≠ 0} := by
    intro i used j used' blocks
    obtain ⟨e, tracks⟩ := sim.used i used
    obtain ⟨e', tracks'⟩ := sim.used j used'
    exact sim.same nonzero tracks.dev_eq tracks'.dev_eq blocks
  have card : (Set.univ : Set (Fin nbuf)).ncard = nbuf := by simp
  unfold Spec.Full
  rw [image, injective.ncard_image]
  constructor
  · intro all i
    have univ : {i | (s.sys.cache.buf (.buf i)).refcnt ≠ 0} = Set.univ := by
      apply Set.eq_of_subset_of_ncard_le (Set.subset_univ _)
      rw [all, card]
    have member : i ∈ {i | (s.sys.cache.buf (.buf i)).refcnt ≠ 0} := by
      rw [univ]
      exact Set.mem_univ i
    exact member
  · intro all
    have univ : {i | (s.sys.cache.buf (.buf i)).refcnt ≠ 0} = Set.univ := Set.eq_univ_of_forall all
    rw [univ, card]

/-- A step that touches one buffer and its block. -/
theorem Sim.update (sim : Sim v dev s a) (nonzero : dev ≠ 0) (i : Fin nbuf) (n : UInt32)
    (filed : ∃ l, s'.sys.cache.Filed v.hash l) (distinct : s'.sys.cache.Distinct)
    (disk : s'.sys.disk = a'.disk) (bounded : a'.Bounded)
    (bufs : ∀ j, j ≠ i → s'.sys.cache.buf (.buf j) = s.sys.cache.buf (.buf j))
    (locks : ∀ j, j ≠ i → s'.sys.locked (.buf j) = s.sys.locked (.buf j))
    (ptrs : ∀ m, m ≠ n → s'.ptr m = s.ptr m) (lives : ∀ m, m ≠ n → a'.live m = a.live m)
    (disks : ∀ m, m ≠ n → a'.disk m = a.disk m)
    (here : (s'.sys.cache.buf (.buf i)).dev = dev ∧ (s'.sys.cache.buf (.buf i)).blockno = n)
    (before : (s.sys.cache.buf (.buf i)).refcnt ≠ 0 → (s.sys.cache.buf (.buf i)).blockno = n)
    (own : (∃ e, Tracks dev s' a' i e ∧ (s'.sys.cache.buf (.buf i)).refcnt ≠ 0) ∨
      (s'.sys.cache.buf (.buf i)).refcnt = 0 ∧ a'.live n = none ∧ s'.sys.locked (.buf i) = false ∧
        (s'.sys.cache.buf (.buf i)).data = a'.disk n) : Sim v dev s' a' := by
  -- Another buffer of the device cannot hold block `n`.
  have apart : ∀ j, j ≠ i → (s.sys.cache.buf (.buf j)).dev = dev → (s.sys.cache.buf (.buf j)).blockno ≠ n := by
    intro j ne devs blocks
    rw [← bufs j ne] at devs blocks
    exact ne (distinct j i (by rwa [devs]) (devs.trans here.1.symm) (blocks.trans here.2.symm))
  refine ⟨filed, distinct, disk, fun j used => ?_, fun j unused => ?_, fun m e live => ?_, bounded⟩
  · by_cases eq : j = i
    · subst eq
      rcases own with ⟨e, tracks, -⟩ | ⟨unused, -⟩
      · exact ⟨e, tracks⟩
      · exact (used unused).elim
    · rw [bufs j eq] at used
      obtain ⟨e, tracks⟩ := sim.used j used
      have other := apart j eq tracks.dev_eq
      refine ⟨e, ?_, ?_, ?_, ?_, ?_, ?_, ?_⟩
      · rw [bufs j eq, tracks.dev_eq]
      · rw [bufs j eq, tracks.valid]
      · rw [bufs j eq, tracks.refcnt]
      · rw [bufs j eq, tracks.data]
      · rw [locks j eq, tracks.locked]
      · rw [bufs j eq, ptrs _ other, tracks.ptr]
      · rw [bufs j eq, lives _ other, tracks.live]
  · by_cases eq : j = i
    · subst eq
      rcases own with ⟨e, -, used⟩ | ⟨-, -, awake, clean⟩
      · exact (used unused).elim
      · exact ⟨awake, fun _ _ => by rw [clean, here.2]⟩
    · rw [bufs j eq] at unused ⊢
      obtain ⟨awake, clean⟩ := sim.spare j unused
      refine ⟨by rw [locks j eq, awake], fun devs valid => ?_⟩
      rw [clean devs valid, disks _ (apart j eq devs)]
  · by_cases eq : m = n
    · subst eq
      rcases own with ⟨e', -, used⟩ | ⟨-, dead, -⟩
      · exact ⟨i, used, here.2⟩
      · rw [dead] at live
        cases live
    · rw [lives m eq] at live
      obtain ⟨j, used, rfl⟩ := sim.live m e live
      have other : j ≠ i := by
        rintro rfl
        exact eq (before used)
      exact ⟨j, by rwa [bufs j other], by rw [bufs j other]⟩

theorem ofNat_ne_zero {k : ℕ} (small : k < 2 ^ 32) : UInt32.ofNat k ≠ 0 ↔ k ≠ 0 := by
  rw [Ne, ← UInt32.toNat_inj, UInt32.toNat_ofNat_of_lt' small, UInt32.toNat_zero]

theorem held_of_refs (none : e.refs = 0) : e.held = false := by
  unfold Entry.refs at none
  cases held : e.held with
  | false => rfl
  | true => simp [held] at none

/-- A call that changes the data, the pins or the lock of a block in use. -/
theorem Sim.entry (sim : Sim v dev s a) (nonzero : dev ≠ 0) (tracks : Tracks dev s a i e)
    (block : (s.sys.cache.buf (.buf i)).blockno = n) (c : Cache H D) (locked : Node H → Bool) (e' : Entry D)
    (filed : ∃ l, c.Filed v.hash l) (others : ∀ j, j ≠ i → c.buf (.buf j) = s.sys.cache.buf (.buf j))
    (own : c.buf (.buf i) =
      { s.sys.cache.buf (.buf i) with refcnt := UInt32.ofNat e'.refs, data := e'.data })
    (lock : locked (.buf i) = e'.held) (locks : ∀ j, j ≠ i → locked (.buf j) = s.sys.locked (.buf j))
    (bounded : (a.put n e').Bounded) (small : e'.refs < 2 ^ 32) (clean : e'.refs = 0 → e'.data = a.disk n) :
    Sim v dev { s with sys := { s.sys with cache := c, locked := locked } } (a.put n e') := by
  have same : ∀ j, (c.buf (.buf j)).dev = (s.sys.cache.buf (.buf j)).dev ∧
      (c.buf (.buf j)).blockno = (s.sys.cache.buf (.buf j)).blockno := by
    intro j
    by_cases eq : j = i
    · subst eq
      rw [own]
      exact ⟨rfl, rfl⟩
    · rw [others j eq]
      exact ⟨rfl, rfl⟩
  refine sim.update nonzero i n filed (sim.distinct.congr (fun j => (same j).1) fun j => (same j).2) sim.disk
    bounded others locks (fun _ _ => rfl) ?_ (fun _ _ => rfl) ?_ (fun _ => block) ?_
  · intro m ne
    simp [Spec.put, ne]
  · exact ⟨(same i).1.trans tracks.dev_eq, (same i).2.trans block⟩
  · have block' : (c.buf (.buf i)).blockno = n := (same i).2.trans block
    by_cases none : e'.refs = 0
    · right
      refine ⟨?_, by simp [Spec.put, none], lock.trans (held_of_refs none), ?_⟩
      · show (c.buf (.buf i)).refcnt = 0
        rw [own, none]
        rfl
      · show (c.buf (.buf i)).data = _
        rw [own]
        exact clean none
    · left
      refine ⟨e', ⟨?_, ?_, ?_, ?_, lock, ?_, ?_⟩, ?_⟩
      · exact (same i).1.trans tracks.dev_eq
      · show (c.buf (.buf i)).valid = true
        rw [own]
        exact tracks.valid
      · show (c.buf (.buf i)).refcnt = _
        rw [own]
      · show (c.buf (.buf i)).data = _
        rw [own]
      · show s.ptr (c.buf (.buf i)).blockno = _
        rw [block', ← block, tracks.ptr]
      · show (a.put n e').live (c.buf (.buf i)).blockno = _
        rw [block']
        simp [Spec.put, none]
      · show (c.buf (.buf i)).refcnt ≠ 0
        rw [own]
        exact (ofNat_ne_zero small).mpr none

/-! ### Every call -/

inductive Agree (v : Variant H D) (dev : UInt32) :
    Except Fault (Option D × Session H D) → Except Fault (Option D × Spec D) → Prop where
  | stop (fault : Fault) : Agree v dev (.error fault) (.error fault)
  | next (read : Option D) {s : Session H D} {a : Spec D} (sim : Sim v dev s a) :
      Agree v dev (.ok (read, s)) (.ok (read, a))

theorem refs_bounded (bounded : (a.put n e).Bounded) : e.refs < 2 ^ 32 := by
  by_cases none : e.refs = 0
  · omega
  · exact bounded n e (by simp [Spec.put, none])

theorem through_agrees (tracks : Tracks dev s a i e) (block : (s.sys.cache.buf (.buf i)).blockno = n)
    (call : Node H → CallM H D Unit) {sys : Sys H D} (ok : call (.buf i) s.sys = .ok ((), sys))
    (sim : Sim v dev { s with sys := sys } a') :
    Agree v dev (s.through n call) (.ok (none, a')) := by
  unfold Session.through
  rw [← block, tracks.ptr]
  simp only [ok]
  exact .next none sim

theorem onEntry_live {f : Entry D → Spec D} (live : a.live n = some e) : a.onEntry n f = .ok (none, f e) := by
  simp [Spec.onEntry, live]

theorem onHeld_live {f : Entry D → Spec D} (live : a.live n = some e) (held : e.held = true) :
    a.onHeld n f = .ok (none, f e) := by
  simp [Spec.onHeld, live, held]

/-- `bwrite` and `brelse` of a block that is in use but not held panic. -/
theorem unheld_agrees (sim : Sim v dev s a) (op : Op D) (call : Node H → CallM H D Unit) (f : Entry D → Spec D)
    (run : op.run v dev s = s.through n call) (spec : a.step op = a.onHeld n f)
    (panics : ∀ b, s.sys.locked b = false → call b s.sys = .error .notHeld) (live : a.live n = some e)
    (released : e.held = false) : Agree v dev (op.run v dev s) (a.step op) := by
  obtain ⟨i, block, -, tracks⟩ := sim.tracks live
  have stop : a.onHeld n f = .error .notHeld := by simp [Spec.onHeld, live, released]
  rw [run, spec, stop]
  unfold Session.through
  rw [← block, tracks.ptr]
  simp only [panics _ (tracks.locked.trans released)]
  exact .stop _

/-- What the calls that go through a pointer need: they find the block's buffer, and the specification makes
its step. -/
theorem entry_agrees (sim : Sim v dev s a) (op : Op D) (call : Node H → CallM H D Unit) (f : Entry D → Spec D)
    (run : op.run v dev s = s.through n call) (step : a.step op = .ok (none, f e))
    (bounded : ∀ read a', a.step op = .ok (read, a') → a'.Bounded) (live : a.live n = some e)
    (next : ∀ i, (s.sys.cache.buf (.buf i)).blockno = n → (s.sys.cache.buf (.buf i)).refcnt ≠ 0 →
      Tracks dev s a i e → (f e).Bounded → ∃ sys, call (.buf i) s.sys = .ok ((), sys) ∧
        Sim v dev { s with sys := sys } (f e)) : Agree v dev (op.run v dev s) (a.step op) := by
  obtain ⟨i, block, used, tracks⟩ := sim.tracks live
  obtain ⟨sys, ok, sim'⟩ := next i block used tracks (bounded _ _ step)
  rw [run, step]
  exact through_agrees tracks block call ok sim'

section
variable (sim : Sim v dev s a) (nonzero : dev ≠ 0)
include sim nonzero

theorem change_agrees {f : D → D} (allowed : (Op.change n f).Allowed a)
    (bounded : ∀ read a', a.step (.change n f) = .ok (read, a') → a'.Bounded) :
    Agree v dev ((Op.change n f).run v dev s) (a.step (.change n f)) := by
  obtain ⟨e, live, held⟩ := allowed
  refine entry_agrees sim (.change n f) (fun b => setData b f) (fun e => a.put n { e with data := f e.data })
    rfl (onEntry_live live) bounded live ?_
  intro i block used tracks bounded
  refine ⟨_, rfl, ?_⟩
  obtain ⟨l, filed⟩ := sim.filed
  refine sim.entry nonzero tracks block _ _ { e with data := f e.data } ⟨l, filed.setBuf rfl⟩ ?_ ?_ tracks.locked
    (fun _ _ => rfl) bounded (refs_bounded bounded) ?_
  · intro j ne
    exact Cache.setBuf_of_ne _ (by simpa using ne)
  · have same : ({ e with data := f e.data } : Entry D).refs = e.refs := rfl
    rw [Cache.setBuf_self, same, ← tracks.refcnt, ← tracks.data]
  · intro none
    have := held_of_refs none
    simp [held] at this

theorem bpin_agrees (allowed : (Op.bpin n).Allowed a)
    (bounded : ∀ read a', a.step (.bpin n) = .ok (read, a') → a'.Bounded) :
    Agree v dev ((Op.bpin n).run v dev s) (a.step (.bpin n)) := by
  obtain ⟨e, live⟩ := allowed
  refine entry_agrees sim (.bpin n) bpin (fun e => a.put n { e with pins := e.pins + 1 })
    rfl (onEntry_live live) bounded live ?_
  intro i block used tracks bounded
  refine ⟨_, rfl, ?_⟩
  obtain ⟨l, filed⟩ := sim.filed
  have more : ({ e with pins := e.pins + 1 } : Entry D).refs = e.refs + 1 := by
    unfold Entry.refs
    simp only
    omega
  refine sim.entry nonzero tracks block _ _ { e with pins := e.pins + 1 } ⟨l, filed.setBuf rfl⟩ ?_ ?_ tracks.locked
    (fun _ _ => rfl) bounded (refs_bounded bounded) ?_
  · intro j ne
    exact Cache.setBuf_of_ne _ (by simpa using ne)
  · rw [Cache.incRef, Cache.setBuf_self, more, UInt32.ofNat_add, ← tracks.refcnt, ← tracks.data]
    rfl
  · omega

theorem bunpin_agrees (allowed : (Op.bunpin n).Allowed a)
    (bounded : ∀ read a', a.step (.bunpin n) = .ok (read, a') → a'.Bounded) :
    Agree v dev ((Op.bunpin n).run v dev s) (a.step (.bunpin n)) := by
  obtain ⟨e, live, pinned, clean⟩ := allowed
  refine entry_agrees sim (.bunpin n) bunpin (fun e => a.put n { e with pins := e.pins - 1 })
    rfl (onEntry_live live) bounded live ?_
  intro i block used tracks bounded
  refine ⟨_, rfl, ?_⟩
  obtain ⟨l, filed⟩ := sim.filed
  have fewer : e.refs = ({ e with pins := e.pins - 1 } : Entry D).refs + 1 := by
    unfold Entry.refs
    simp only
    omega
  refine sim.entry nonzero tracks block _ _ { e with pins := e.pins - 1 } ⟨l, filed.setBuf rfl⟩ ?_ ?_ tracks.locked
    (fun _ _ => rfl) bounded (refs_bounded bounded) ?_
  · intro j ne
    exact Cache.setBuf_of_ne _ (by simpa using ne)
  · rw [Cache.decRef, Cache.setBuf_self, tracks.refcnt, fewer, UInt32.ofNat_add, ← tracks.data]
    simp
  · intro none
    exact clean (by omega)

theorem brelse_agrees (allowed : (Op.brelse n).Allowed a)
    (bounded : ∀ read a', a.step (.brelse n) = .ok (read, a') → a'.Bounded) :
    Agree v dev ((Op.brelse n).run v dev s) (a.step (.brelse n)) := by
  obtain ⟨e, live, clean⟩ := allowed
  by_cases held : e.held = true; swap
  · exact unheld_agrees sim (.brelse n) (brelse v) _ rfl rfl (fun b awake => brelse_unheld awake) live
      (Bool.not_eq_true _ ▸ held)
  have clean := clean held
  refine entry_agrees sim (.brelse n) (brelse v) (fun e => a.put n { e with held := false })
    rfl (onHeld_live live held) bounded live ?_
  intro i block used tracks bounded
  obtain ⟨l, filed⟩ := sim.filed
  have fewer : e.refs = ({ e with held := false } : Entry D).refs + 1 := by
    unfold Entry.refs
    simp [held]
  have taken : s.sys.locked (.buf i) = true := tracks.locked.trans held
  refine ⟨_, brelse_held taken, ?_⟩
  refine sim.entry nonzero tracks block _ _ { e with held := false } ?_ ?_ ?_ (by simp) ?_ bounded
    (refs_bounded bounded) ?_
  · exact filed.drop rfl
  · intro j ne
    rw [Cache.drop_buf]
    exact Cache.setBuf_of_ne _ (by simpa using ne)
  · rw [Cache.drop_buf, Cache.decRef, Cache.setBuf_self, tracks.refcnt, fewer, UInt32.ofNat_add, ← tracks.data]
    simp
  · intro j ne
    simp [ne]
  · intro none
    exact clean (by omega)

theorem bwrite_agrees (allowed : (Op.bwrite n).Allowed a)
    (bounded : ∀ read a', a.step (.bwrite n) = .ok (read, a') → a'.Bounded) :
    Agree v dev ((Op.bwrite n).run v dev s) (a.step (.bwrite n)) := by
  obtain ⟨e, live⟩ := allowed
  by_cases held : e.held = true; swap
  · exact unheld_agrees sim (.bwrite n) bwrite _ rfl rfl (fun b awake => bwrite_unheld awake) live
      (Bool.not_eq_true _ ▸ held)
  refine entry_agrees sim (.bwrite n) bwrite (fun e => { a with disk := Function.update a.disk n e.data })
    rfl (onHeld_live live held) bounded live ?_
  intro i block used tracks bounded
  have taken : s.sys.locked (.buf i) = true := tracks.locked.trans held
  refine ⟨_, bwrite_held taken, ?_⟩
  refine sim.update nonzero i n sim.filed sim.distinct ?_ bounded (fun _ _ => rfl) (fun _ _ => rfl)
    (fun _ _ => rfl) (fun _ _ => rfl) ?_ ⟨tracks.dev_eq, block⟩ (fun _ => block) ?_
  · simp only
    rw [sim.disk, block, tracks.data]
  · intro m ne
    simp [ne]
  · exact .inl ⟨e, ⟨tracks.dev_eq, tracks.valid, tracks.refcnt, tracks.data, tracks.locked, tracks.ptr,
      tracks.live⟩, used⟩

/-- A `bread` that brings a block into use. -/
theorem Sim.fresh {c : Cache H D}
    (unused : (s.sys.cache.buf (.buf i)).refcnt = 0) (filed : ∃ l, c.Filed v.hash l) (distinct : c.Distinct)
    (others : ∀ j, j ≠ i → c.buf (.buf j) = s.sys.cache.buf (.buf j))
    (own : (c.buf (.buf i)).dev = dev ∧ (c.buf (.buf i)).blockno = n ∧ (c.buf (.buf i)).refcnt = 1)
    (clean : (c.buf (.buf i)).valid = true → (c.buf (.buf i)).data = a.disk n)
    (bounded : (a.put n ⟨a.disk n, true, 0⟩).Bounded) :
    Sim v dev ⟨{ s.sys with
      cache := c.fill (.buf i) s.sys.disk, locked := Function.update s.sys.locked (.buf i) true },
      Function.update s.ptr n (some (.buf i))⟩ (a.put n ⟨a.disk n, true, 0⟩) := by
  have spec := c.fill_spec (.buf i) s.sys.disk (.buf i)
  have refs : (⟨a.disk n, true, 0⟩ : Entry D).refs = 1 := rfl
  have one : ((c.fill (.buf i) s.sys.disk).buf (.buf i)).refcnt = 1 := by rw [spec.2.2, own.2.2]
  obtain ⟨l, filed⟩ := filed
  refine sim.update nonzero i n ⟨l, filed.fill _ _⟩ (distinct.fill _ _) sim.disk bounded ?_ ?_ ?_ ?_
    (fun _ _ => rfl) ⟨spec.1.trans own.1, spec.2.1.trans own.2.1⟩ (fun used => (used unused).elim)
    (.inl ⟨⟨a.disk n, true, 0⟩, ⟨spec.1.trans own.1, (c.fill_self _ _).1, one, ?_, by simp, ?_, ?_⟩, ?_⟩)
  · intro j ne
    rw [← others j ne]
    exact c.fill_other _ (by simpa using ne)
  · intro j ne
    simp [ne]
  · intro m ne
    simp [ne]
  · intro m ne
    simp [Spec.put, ne]
  · simp only
    rw [(c.fill_self _ _).2]
    split
    · exact clean ‹_›
    · rw [own.2.1, sim.disk]
  · simp only
    rw [spec.2.1, own.2.1, Function.update_self]
  · simp only
    rw [spec.2.1, own.2.1]
    simp [Spec.put, refs]
  · rw [one]
    decide

theorem bread_agrees (sound : v.Sound) (allowed : (Op.bread n).Allowed a)
    (bounded : ∀ read a', a.step (.bread n) = .ok (read, a') → a'.Bounded) :
    Agree v dev ((Op.bread n).run v dev s) (a.step (.bread n)) := by
  obtain ⟨l, filed⟩ := sim.filed
  have found := sound _ l dev n filed
  have cached : ∀ e, a.live n = some e → s.sys.cache.Cached dev n := by
    intro e live
    obtain ⟨i, block, -, tracks⟩ := sim.tracks live
    exact ⟨i, tracks.dev_eq, block⟩
  have room : ∀ i, (s.sys.cache.buf (.buf i)).refcnt = 0 → ¬a.Full := fun i unused full =>
    (sim.full_iff nonzero).mp full i unused
  have fresh : a.live n = none → ∀ i, (s.sys.cache.buf (.buf i)).refcnt = 0 →
      a.step (.bread n) = .ok (some (a.disk n), a.put n ⟨a.disk n, true, 0⟩) := by
    intro dead i unused
    simp [Spec.step, dead, room i unused]
  have dead_of_miss : ¬s.sys.cache.Cached dev n → a.live n = none := by
    intro miss
    cases live : a.live n with
    | none => rfl
    | some e => exact (miss (cached e live)).elim
  unfold Op.run
  generalize search : v.search s.sys.cache dev n = result at found
  cases found with
  | full miss busy =>
    have stop : a.step (.bread n) = .error .noBuffers := by
      simp [Spec.step, dead_of_miss miss, (sim.full_iff nonzero).mpr busy]
    rw [stop]
    simp only [bread_full search]
    exact .stop _
  | recycled c i miss unused bufs filed' =>
    have step := fresh (dead_of_miss miss) i unused
    have bounded := bounded _ _ step
    rw [step]
    simp only [bread_found search (sim.spare i unused).1]
    have own : c.buf (.buf i) = { s.sys.cache.buf (.buf i) with
        dev := dev, blockno := n, valid := false, refcnt := 1 } := by
      rw [bufs, Cache.assign, Cache.setBuf_self]
    have sim' := sim.fresh nonzero (c := c) (i := i) (n := n) unused filed' ?_ ?_ (by simp [own]) (by simp [own])
      bounded
    · have read : ((c.fill (.buf i) s.sys.disk).buf (.buf i)).data = a.disk n := by
        rw [(c.fill_self _ _).2, own, sim.disk]
        rfl
      rw [read]
      exact .next _ sim'
    · exact (sim.distinct.assign miss).congr (fun j => by rw [bufs]) fun j => by rw [bufs]
    · intro j ne
      rw [bufs, Cache.assign_other ne]
  | hit i dev_eq block_eq =>
    have filed' : (s.sys.cache.incRef (.buf i)).Filed v.hash l := filed.setBuf rfl
    have others : ∀ j, j ≠ i → (s.sys.cache.incRef (.buf i)).buf (.buf j) = s.sys.cache.buf (.buf j) := by
      intro j ne
      exact Cache.setBuf_of_ne _ (by simpa using ne)
    by_cases used : (s.sys.cache.buf (.buf i)).refcnt = 0
    · obtain ⟨awake, clean⟩ := sim.spare i used
      have dead : a.live n = none := by
        cases live : a.live n with
        | none => rfl
        | some e =>
          obtain ⟨j, block, busy, tracks⟩ := sim.tracks live
          rw [sim.same nonzero tracks.dev_eq dev_eq (block.trans block_eq.symm)] at busy
          exact (busy used).elim
      have step := fresh dead i used
      have bounded := bounded _ _ step
      have own : (s.sys.cache.incRef (.buf i)).buf (.buf i) =
          { s.sys.cache.buf (.buf i) with refcnt := 1 } := by
        rw [Cache.incRef, Cache.setBuf_self, used]
        rfl
      have clean' : (s.sys.cache.buf (.buf i)).valid = true → (s.sys.cache.buf (.buf i)).data = a.disk n := by
        intro valid
        rw [clean dev_eq valid, block_eq]
      rw [step]
      simp only [bread_found search awake]
      have sim' := sim.fresh nonzero (i := i) (n := n) used ⟨l, filed'⟩ ?_ others ?_ ?_ bounded
      · have read : (((s.sys.cache.incRef (.buf i)).fill (.buf i) s.sys.disk).buf (.buf i)).data = a.disk n := by
          rw [(Cache.fill_self _ _ _).2, own]
          split
          · exact clean' ‹_›
          · rw [block_eq, sim.disk]
        rw [read]
        exact .next _ sim'
      · exact sim.distinct.congr (fun j => (Cache.incRef_spec _ _ _).1) fun j => (Cache.incRef_spec _ _ _).2.1
      · rw [own]
        exact ⟨dev_eq, block_eq, rfl⟩
      · rw [own]
        exact clean'
    · obtain ⟨e, tracks⟩ := sim.used i used
      have live : a.live n = some e := block_eq ▸ tracks.live
      have awake := allowed e live
      have step : a.step (.bread n) = .ok (some e.data, a.put n { e with held := true }) := by
        simp [Spec.step, live]
      have bounded := bounded _ _ step
      have more : ({ e with held := true } : Entry D).refs = e.refs + 1 := by
        unfold Entry.refs
        simp [awake]
      have own : (s.sys.cache.incRef (.buf i)).buf (.buf i) = { s.sys.cache.buf (.buf i) with
          refcnt := UInt32.ofNat ({ e with held := true } : Entry D).refs, data := e.data } := by
        rw [Cache.incRef, Cache.setBuf_self, more, UInt32.ofNat_add, ← tracks.refcnt, ← tracks.data]
        rfl
      have cached : (s.sys.cache.incRef (.buf i)).fill (.buf i) s.sys.disk = s.sys.cache.incRef (.buf i) := by
        unfold Cache.fill
        rw [own]
        simp [tracks.valid]
      have ptr : Function.update s.ptr n (some (.buf i)) = s.ptr := by
        rw [← block_eq, ← tracks.ptr]
        exact Function.update_eq_self _ _
      have sim' := sim.entry nonzero tracks block_eq (s.sys.cache.incRef (.buf i))
        (Function.update s.sys.locked (.buf i) true) { e with held := true } ⟨l, filed'⟩ others own (by simp) ?_
        bounded (refs_bounded bounded) (by omega)
      · rw [step]
        simp only [bread_found search (tracks.locked.trans awake), cached, ptr]
        rw [own]
        exact .next _ sim'
      · intro j ne
        simp [ne]

theorem agrees (sound : v.Sound) (op : Op D) (allowed : op.Allowed a)
    (bounded : ∀ read a', a.step op = .ok (read, a') → a'.Bounded) :
    Agree v dev (op.run v dev s) (a.step op) := by
  cases op with
  | bread n => exact bread_agrees sim nonzero sound allowed bounded
  | change n f => exact change_agrees sim nonzero allowed bounded
  | bwrite n => exact bwrite_agrees sim nonzero allowed bounded
  | bpin n => exact bpin_agrees sim nonzero allowed bounded
  | bunpin n => exact bunpin_agrees sim nonzero allowed bounded
  | brelse n => exact brelse_agrees sim nonzero allowed bounded

end

/-! ### Whole sequences -/

theorem exec_refines (sound : v.Sound) (nonzero : dev ≠ 0) (ops : List (Op D)) (sim : Sim v dev s a)
    (disciplined : Disciplined a ops) : exec v dev ops s = Spec.exec ops a := by
  induction ops generalizing s a with
  | nil =>
    unfold exec Spec.exec
    rw [sim.disk]
  | cons op ops ih =>
    obtain ⟨allowed, rest⟩ := disciplined
    have agree := agrees sim nonzero sound op allowed fun read a' step => (rest read a' step).1
    unfold exec Spec.exec
    generalize op.run v dev s = run at agree
    generalize stepped : a.step op = step at agree
    cases agree with
    | stop fault => simp only [sim.disk]
    | next read sim' =>
      simp only
      rw [ih sim' (rest read _ stepped).2]

theorem Sim.start (v : Variant H D) (nonzero : dev ≠ 0) (zero : D) (disk : UInt32 → D) :
    Sim v dev (Session.start ((Cache.blank zero).linkAll (v.hash 0) (List.finRange nbuf)) disk)
      (Spec.start disk) := by
  have bufs : ∀ b, ((Cache.blank zero).linkAll (v.hash 0) (List.finRange nbuf)).buf b = { data := zero } := by
    intro b
    rw [Cache.linkAll_buf]
    rfl
  constructor
  · exact ⟨_, Cache.linkAll_filed v.hash zero⟩
  · intro i j assigned
    simp [Session.start, bufs] at assigned
  · rfl
  · intro i used
    simp [Session.start, bufs] at used
  · intro i _
    refine ⟨rfl, fun own => ?_⟩
    simp only [Session.start, bufs] at own
    exact (nonzero own.symm).elim
  · intro n e live
    simp [Spec.start] at live
  · intro n e live
    simp [Spec.start] at live

theorem single_refines (nonzero : dev ≠ 0) (zero : D) (disk : UInt32 → D) (ops : List (Op D))
    (disciplined : Disciplined (Spec.start disk) ops) :
    exec Single.variant dev ops (.start (Single.binit zero) disk) = Spec.exec ops (.start disk) :=
  exec_refines Single.sound nonzero ops (Sim.start Single.variant nonzero zero disk) disciplined

theorem hashed_refines (nonzero : dev ≠ 0) (zero : D) (disk : UInt32 → D) (ops : List (Op D))
    (disciplined : Disciplined (Spec.start disk) ops) :
    exec Hashed.variant dev ops (.start (Hashed.binit zero) disk) = Spec.exec ops (.start disk) :=
  exec_refines Hashed.sound nonzero ops (Sim.start Hashed.variant nonzero zero disk) disciplined

/-- A caller that keeps to these rules cannot tell the two caches apart: the same data for every `bread`, the same
disk at the end, and the same panic at the same place, if any. -/
theorem hashed_refines_single (nonzero : dev ≠ 0) (zero : D) (disk : UInt32 → D) (ops : List (Op D))
    (disciplined : Disciplined (Spec.start disk) ops) :
    exec Hashed.variant dev ops (.start (Hashed.binit zero) disk) =
      exec Single.variant dev ops (.start (Single.binit zero) disk) := by
  rw [hashed_refines nonzero zero disk ops disciplined, single_refines nonzero zero disk ops disciplined]

def Spec.only (disk : UInt32 → D) (n : UInt32) (e : Entry D) : Spec D :=
  ⟨disk, Function.update (fun _ => none) n (some e)⟩

theorem Spec.only_bounded (disk : UInt32 → D) (small : e.refs < 2 ^ 32) : (only disk n e).Bounded := by
  intro m e' live
  by_cases eq : m = n
  · subst eq
    simp only [only, Function.update_self, Option.some.injEq] at live
    rwa [← live]
  · simp [only, eq] at live

theorem Disciplined.cons {op : Op D} {ops : List (Op D)} (read : Option D) (a' : Spec D)
    (step : a.step op = .ok (read, a'))
    (allowed : op.Allowed a) (bounded : a'.Bounded) (rest : Disciplined a' ops) : Disciplined a (op :: ops) := by
  refine ⟨allowed, fun read' a'' step' => ?_⟩
  rw [step] at step'
  cases step'
  exact ⟨bounded, rest⟩

theorem hashed_refines_single_pinned :
    let ops : List (Op Block) := [.bread 5, .change 5 fun _ _ => 7, .bwrite 5, .bpin 5, .brelse 5, .bunpin 5]
    exec Hashed.variant 1 ops (.start (Hashed.binit fun _ => 0) fun _ _ => 0) =
      exec Single.variant 1 ops (.start (Single.binit fun _ => 0) fun _ _ => 0) := by
  apply hashed_refines_single (by decide)
  have room : ¬(Spec.start fun _ _ => 0 : Spec Block).Full := by
    simp [Spec.Full, Spec.start]
  apply Disciplined.cons (some fun _ => 0) (.only (fun _ _ => 0) 5 ⟨fun _ => 0, true, 0⟩)
  · simp only [Spec.step, if_neg room]
    simp [Spec.start, Spec.put, Entry.refs, Spec.only]
  · simp [Op.Allowed, Spec.start]
  · exact Spec.only_bounded _ (by decide)
  apply Disciplined.cons none (.only (fun _ _ => 0) 5 ⟨fun _ => 7, true, 0⟩)
  · simp [Spec.step, Spec.onEntry, Spec.put, Entry.refs, Spec.only]
  · simp [Op.Allowed, Spec.only]
  · exact Spec.only_bounded _ (by decide)
  apply Disciplined.cons none (.only (Function.update (fun _ _ => 0) 5 fun _ => 7) 5 ⟨fun _ => 7, true, 0⟩)
  · simp [Spec.step, Spec.onHeld, Spec.only]
  · simp [Op.Allowed, Spec.only]
  · exact Spec.only_bounded _ (by decide)
  apply Disciplined.cons none (.only (Function.update (fun _ _ => 0) 5 fun _ => 7) 5 ⟨fun _ => 7, true, 1⟩)
  · simp [Spec.step, Spec.onEntry, Spec.put, Entry.refs, Spec.only]
  · simp [Op.Allowed, Spec.only]
  · exact Spec.only_bounded _ (by decide)
  apply Disciplined.cons none (.only (Function.update (fun _ _ => 0) 5 fun _ => 7) 5 ⟨fun _ => 7, false, 1⟩)
  · simp [Spec.step, Spec.onHeld, Spec.put, Entry.refs, Spec.only]
  · simp [Op.Allowed, Spec.only, Entry.refs]
  · exact Spec.only_bounded _ (by decide)
  apply Disciplined.cons none (.start (Function.update (fun _ _ => 0) 5 fun _ => 7))
  · simp [Spec.step, Spec.onEntry, Spec.put, Entry.refs, Spec.only, Spec.start]
  · simp [Op.Allowed, Spec.only, Entry.refs]
  · simp [Spec.Bounded, Spec.start]
  exact trivial

/-! ### Lost references

`refcnt` has 32 bits and `bunpin` does not ask whether the block is pinned. In both sequences below block 1 is
held while its buffer's `refcnt` is 0. The Lab 2 cache recycles that buffer and waits for its sleep-lock; the
Lab 3 cache looks in another bucket and takes another buffer.
-/

def Session.pin (s : Session H D) (b : Node H) (k : ℕ) : Session H D :=
  let v := s.sys.cache.buf b
  let c := s.sys.cache.setBuf b { v with refcnt := v.refcnt + UInt32.ofNat k }
  { s with sys := { s.sys with cache := c } }

theorem exec_pins (k : ℕ) (ops : List (Op D)) (known : s.ptr n = some b) :
    (exec v dev (List.replicate k (.bpin n) ++ ops) s).stop =
      (exec v dev ops (s.pin b k)).stop.map fun p => (p.1 + k, p.2) := by
  induction k generalizing s with
  | zero =>
    have same : s.pin b 0 = s := by
      simp [Session.pin, Cache.setBuf]
    rw [same]
    simp
  | succ k ih =>
    have step : (Op.bpin n).run v dev s = .ok (none, s.pin b 1) := by
      simp only [Op.run, Session.through, known]
      rfl
    have pins : (s.pin b 1).pin b k = s.pin b (k + 1) := by
      have sum : (s.sys.cache.buf b).refcnt + 1 + UInt32.ofNat k =
          (s.sys.cache.buf b).refcnt + UInt32.ofNat (k + 1) := by
        rw [UInt32.add_assoc, UInt32.add_comm 1, UInt32.ofNat_add]
        rfl
      simp [Session.pin, Cache.setBuf, sum]
    rw [List.replicate_succ, List.cons_append, exec, step]
    simp only [Result.after]
    rw [ih (s := s.pin b 1) known, pins, Option.map_map]
    rfl

theorem exec_read_pins (k : ℕ) (ops : List (Op D)) :
    (exec v dev (.bread n :: (List.replicate k (.bpin n) ++ ops)) s).stop =
      match bread v dev n s.sys with
      | .error fault => some (0, fault)
      | .ok (b, sys) =>
        (exec v dev ops (Session.pin ⟨sys, Function.update s.ptr n (some b)⟩ b k)).stop.map
          fun p => (p.1 + k + 1, p.2) := by
  rw [exec, Op.run]
  cases bread v dev n s.sys with
  | error fault => rfl
  | ok found =>
    simp only [Result.after]
    rw [exec_pins (b := found.1) k ops (by simp), Option.map_map]
    rfl

theorem held_buffer_recycled :
    let lab2 := Session.start (Single.binit fun _ => 0 : Cache _ Block) fun _ _ => 0
    let lab3 := Session.start (Hashed.binit fun _ => 0 : Cache _ Block) fun _ _ => 0
    let unbalanced := [.bread 1, .bunpin 1, .bread 0]
    let wrapped := .bread 1 :: (List.replicate (2 ^ 32 - 1) (.bpin 1) ++ [.bread 0])
    ((exec Single.variant 1 unbalanced lab2).stop = some (2, .hangs) ∧
      (exec Hashed.variant 1 unbalanced lab3).stop = none) ∧
    ((exec Single.variant 1 wrapped lab2).stop = some (2 ^ 32, .hangs) ∧
      (exec Hashed.variant 1 wrapped lab3).stop = none) := by
  intro lab2 lab3 unbalanced wrapped
  refine ⟨⟨?_, ?_⟩, ?_, ?_⟩
  · decide +kernel
  · decide +kernel
  · unfold wrapped
    rw [exec_read_pins]
    decide +kernel
  · unfold wrapped
    rw [exec_read_pins]
    decide +kernel

end Xv6Labs.Bio
