import Xv6Labs.Bio.Variants
import Xv6Labs.Lib.Recency

/-!
# Which buffer the Lab 3 cache recycles

`bread` comes in two parts, so that other calls may come between them while it waits for the buffer's sleep-lock.
`Trace` adds to the memory when each buffer's `refcnt` last became 0, and how many more references were taken than
given up.
-/

namespace Xv6Labs.Bio.Hashed

open Recency

variable {D : Type}

inductive Part where
  -- `bread` up to `acquiresleep`.
  | bget (dev blockno : UInt32)
  -- The rest of `bread`.
  | fill (b : Node)
  | brelse (i : Fin nbuf)
  | bpin (i : Fin nbuf)
  | bunpin (i : Fin nbuf)

def Part.run : Part → Sys nbuckets D → Except Fault (Option Node × Sys nbuckets D)
  | .bget dev blockno, s =>
    match Hashed.bget s.cache dev blockno with
    | none => .error .hangs
    | some none => .error .noBuffers
    | some (some (c, b)) => .ok (some b, { s with cache := c })
  | .fill b, s =>
    if s.locked b then .error .hangs
    else .ok (none, { s with cache := s.cache.fill b s.disk, locked := Function.update s.locked b true })
  | .brelse i, s => (Bio.brelse variant (.buf i) s).map fun r => (none, r.2)
  | .bpin i, s => (Bio.bpin (.buf i) s).map fun r => (none, r.2)
  | .bunpin i, s => (Bio.bunpin (.buf i) s).map fun r => (none, r.2)

/-- What a part does to the number of references to buffer `i`. -/
def Part.change : Part → Option Node → Fin nbuf → ℤ
  | .bget _ _, b, i => if b = some (.buf i) then 1 else 0
  | .fill _, _, _ => 0
  | .bpin j, _, i => if i = j then 1 else 0
  | .brelse j, _, i => if i = j then -1 else 0
  | .bunpin j, _, i => if i = j then -1 else 0

/-- `freed` is the number of parts up to the last one in which the buffer's `refcnt` became 0, and 0 if it never did. -/
structure Trace (D : Type) where
  sys : Sys nbuckets D
  time : ℕ
  freed : Fin nbuf → ℕ
  refs : Fin nbuf → ℤ

def Trace.start (zero : D) (disk : UInt32 → D) : Trace D :=
  ⟨⟨binit zero, fun _ => false, disk⟩, 0, fun _ => 0, fun _ => 0⟩

def refcntOf (s : Sys nbuckets D) (i : Fin nbuf) : UInt32 := (s.cache.buf (.buf i)).refcnt

def Trace.after (x : Trace D) (part : Part) (b : Option Node) (sys : Sys nbuckets D) : Trace D where
  sys := sys
  time := x.time + 1
  freed := fun i => if refcntOf x.sys i ≠ 0 ∧ refcntOf sys i = 0 then x.time + 1 else x.freed i
  refs := fun i => x.refs i + part.change b i

/-- Sequences in which `refcnt` becomes 0 only in `brelse`. -/
inductive Runs : Trace D → Prop
  | start (zero : D) (disk : UInt32 → D) : Runs (.start zero disk)
  | next {x : Trace D} {part : Part} {b : Option Node} {sys : Sys nbuckets D} : Runs x → part.run x.sys = .ok (b, sys) →
      (∀ i, refcntOf x.sys i ≠ 0 → refcntOf sys i = 0 → ∃ j, part = .brelse j) → Runs (x.after part b sys)

/-- `brelse` may leave a buffer without references. -/
def Part.releases : Part → Bool
  | .brelse _ => true
  | _ => false

/-- Some parts in a row, if each of them ends and only `brelse` makes a `refcnt` 0. -/
def play : List Part → Trace D → Option (Trace D)
  | [], x => some x
  | part :: rest, x =>
    match part.run x.sys with
    | .ok (b, sys) =>
      if part.releases = true ∨ ∀ i, refcntOf x.sys i ≠ 0 → refcntOf sys i ≠ 0 then play rest (x.after part b sys)
        else none
    | .error _ => none

theorem play_runs {parts : List Part} {x y : Trace D} (runs : Runs x) (plays : play parts x = some y) : Runs y := by
  induction parts generalizing x with
  | nil =>
    cases plays
    exact runs
  | cons part rest ih =>
    rw [play] at plays
    split at plays
    · rename_i b sys ran
      split at plays
      · rename_i only
        refine ih (runs.next ran fun i busy free => ?_) plays
        rcases only with releases | none
        · cases part with
          | brelse j => exact ⟨j, rfl⟩
          | bget | fill | bpin | bunpin => cases releases
        · exact absurd free (none i busy)
      · cases plays
    · cases plays

def idle (c : Cache nbuckets D) (i : Fin nbuf) : Bool := (c.buf (.buf i)).refcnt == 0

/-- The bucket of a buffer. -/
def home (c : Cache nbuckets D) (i : Fin nbuf) : Fin nbuckets := bucketOf (c.buf (.buf i)).blockno

structure Recent (x : Trace D) : Prop where
  lists : ∃ l, x.sys.cache.Filed bucketOf l ∧ ∀ h, Sorted x.freed (idle x.sys.cache) (l h)
  past : ∀ i, x.freed i ≤ x.time
  counted : ∀ i, ((refcntOf x.sys i).toNat : ℤ) = x.refs i % 2 ^ 32
  bounded : ∀ i, x.refs i < 2 ^ 32

variable {x : Trace D} {c c' : Cache nbuckets D} {l : Fin nbuckets → List (Fin nbuf)} {dev blockno : UInt32}
  {i j : Fin nbuf} {h k : Fin nbuckets} {s sys : Sys nbuckets D} {part : Part} {b : Option Node}

/-! ### What `bget` takes -/

theorem idle_iff : idle c i = true ↔ (c.buf (.buf i)).refcnt = 0 := beq_iff_eq

/-- The recycling loop goes through the list from its end. -/
theorem unused_eq (filed : c.Filed bucketOf l) (h : Fin nbuckets) :
    c.unused h = some (((l h).reverse.find? (idle c)).map .buf) := by
  have found := (filed.ring h).scan_prev (fun b => (c.buf b).refcnt == 0) (filed.length_lt h)
  rw [← List.map_reverse, List.find?_map] at found
  exact found

inductive Taken (c : Cache nbuckets D) (l : Fin nbuckets → List (Fin nbuf)) (dev blockno : UInt32) :
    Cache nbuckets D → Fin nbuf → Prop where
  | hit (i : Fin nbuf) (dev_eq : (c.buf (.buf i)).dev = dev) (block_eq : (c.buf (.buf i)).blockno = blockno) :
      Taken c l dev blockno (c.incRef (.buf i)) i
  | own (i : Fin nbuf) (miss : ¬ c.Cached dev blockno)
      (found : (l (bucketOf blockno)).reverse.find? (idle c) = some i) :
      Taken c l dev blockno (c.assign (.buf i) dev blockno) i
  | stolen (i : Fin nbuf) (h : Fin nbuckets) (miss : ¬ c.Cached dev blockno) (other : h ≠ bucketOf blockno)
      (busy : ∀ j, home c j = bucketOf blockno → idle c j = false) (found : (l h).reverse.find? (idle c) = some i)
      (lower : ∀ k < h, k ≠ bucketOf blockno → ∀ j, home c j = k → idle c j = false) :
      Taken c l dev blockno ((c.assign (.buf i) dev blockno).moveTo (bucketOf blockno) (.buf i)) i

theorem busy_of_none (filed : c.Filed bucketOf l) (none : (l h).reverse.find? (idle c) = none) (here : home c j = h) :
    idle c j = false := by
  have miss := List.find?_eq_none.mp none j (List.mem_reverse.mpr ((filed.mem j h).mpr here))
  simpa using miss

theorem stealLoop_taken (filed : c.Filed bucketOf l) (miss : ¬ c.Cached dev blockno)
    (own : ∀ j, home c j = bucketOf blockno → idle c j = false) {rest : List (Fin nbuckets)}
    (sorted : rest.Pairwise (· < ·))
    (searched : ∀ k, k ∉ rest → k ≠ bucketOf blockno → ∀ j, home c j = k → idle c j = false) :
    (∃ c' i, stealLoop c dev blockno rest = some (some (c', .buf i)) ∧ Taken c l dev blockno c' i) ∨
      (stealLoop c dev blockno rest = some none ∧ ∀ j, idle c j = false) := by
  induction rest with
  | nil =>
    refine .inr ⟨rfl, fun j => ?_⟩
    by_cases mine : home c j = bucketOf blockno
    · exact own j mine
    · exact searched _ List.not_mem_nil mine j rfl
  | cons h rest ih =>
    obtain ⟨least, sorted⟩ := List.pairwise_cons.mp sorted
    unfold stealLoop
    by_cases mine : h = bucketOf blockno
    · rw [if_pos mine]
      refine ih sorted fun k absent other => searched k ?_ other
      rw [List.mem_cons, not_or]
      exact ⟨fun same => other (same.trans mine), absent⟩
    · rw [if_neg mine, unused_eq filed]
      cases found : (l h).reverse.find? (idle c) with
      | some i =>
        refine .inl ⟨_, i, rfl, .stolen i h miss mine own found fun k less other => searched k ?_ other⟩
        rw [List.mem_cons, not_or]
        exact ⟨less.ne, fun mem => absurd (least k mem) (not_lt.mpr less.le)⟩
      | none =>
        refine ih sorted fun k absent other j here => ?_
        by_cases same : k = h
        · subst same
          exact busy_of_none filed found here
        · exact searched k (by rw [List.mem_cons, not_or]; exact ⟨same, absent⟩) other j here

theorem bget_taken (filed : c.Filed bucketOf l) (dev blockno : UInt32) :
    (∃ c' i, Hashed.bget c dev blockno = some (some (c', .buf i)) ∧ Taken c l dev blockno c' i) ∨
      (Hashed.bget c dev blockno = some none ∧ ∀ j, idle c j = false) := by
  unfold Hashed.bget
  rcases filed.lookup_spec dev blockno with ⟨i, found, devs, blocks⟩ | ⟨found, miss⟩
  · rw [found]
    exact .inl ⟨_, i, rfl, .hit i devs blocks⟩
  · rw [found, unused_eq filed]
    cases found : (l (bucketOf blockno)).reverse.find? (idle c) with
    | some i => exact .inl ⟨_, i, rfl, .own i miss found⟩
    | none =>
      exact stealLoop_taken filed miss (fun j here => busy_of_none filed found here)
        (List.pairwise_lt_finRange nbuckets)
        fun k absent => absurd (List.mem_finRange k) absent

/-! ### Every part keeps the order -/

theorem change_le : part.change b i ≤ 1 := by
  cases part <;> simp only [Part.change] <;> (try split) <;> omega

/-- Counts go along with the references. -/
theorem Recent.count (recent : Recent x)
    (run : ∀ i, ((refcntOf sys i).toNat : ℤ) = ((refcntOf x.sys i).toNat + part.change b i) % 2 ^ 32)
    (only : ∀ i, refcntOf x.sys i ≠ 0 → refcntOf sys i = 0 → ∃ j, part = .brelse j) :
    (∀ i, ((refcntOf sys i).toNat : ℤ) = (x.refs i + part.change b i) % 2 ^ 32) ∧
      ∀ i, x.refs i + part.change b i < 2 ^ 32 := by
  have counted : ∀ i, ((refcntOf sys i).toNat : ℤ) = (x.refs i + part.change b i) % 2 ^ 32 := by
    intro i
    rw [run, recent.counted, Int.emod_add_emod]
  refine ⟨counted, fun i => ?_⟩
  have small := recent.bounded i
  have step : part.change b i ≤ 1 := change_le
  by_contra big
  have top : x.refs i = 2 ^ 32 - 1 ∧ part.change b i = 1 := by omega
  have before := recent.counted i
  have after := counted i
  rw [top.1] at before
  rw [top.1, top.2] at after
  have full : refcntOf x.sys i ≠ 0 := by
    intro zero
    rw [zero] at before
    revert before
    decide
  have gone : refcntOf sys i = 0 := by
    rw [← UInt32.toNat_inj]
    have zero : ((refcntOf sys i).toNat : ℤ) = 0 := after.trans (by decide)
    exact Int.ofNat_eq_zero.mp zero
  obtain ⟨j, same⟩ := only i full gone
  subst same
  have down := top.2
  rw [Part.change] at down
  split at down <;> omega

theorem toNat_up (r : UInt32) : ((r + 1).toNat : ℤ) = (r.toNat + 1) % 2 ^ 32 := by
  rw [UInt32.toNat_add, UInt32.toNat_one]
  omega

theorem toNat_down (r : UInt32) : ((r - 1).toNat : ℤ) = (r.toNat + -1) % 2 ^ 32 := by
  have small := r.toNat_lt
  rw [UInt32.toNat_sub, UInt32.toNat_one]
  omega

theorem toNat_same (r : UInt32) : (r.toNat : ℤ) = (r.toNat + 0) % 2 ^ 32 := by
  have small := r.toNat_lt
  omega

theorem incRef_toNat : (((c.incRef (.buf j)).buf (.buf i)).refcnt.toNat : ℤ) =
    ((c.buf (.buf i)).refcnt.toNat + if i = j then 1 else 0) % 2 ^ 32 := by
  rw [(c.incRef_spec (.buf j) (.buf i)).2.2]
  by_cases same : i = j
  · rw [if_pos (by rw [same]), if_pos same, toNat_up]
  · rw [if_neg (by simpa using same), if_neg same, UInt32.add_zero, ← toNat_same]

theorem decRef_toNat : (((c.decRef (.buf j)).buf (.buf i)).refcnt.toNat : ℤ) =
    ((c.buf (.buf i)).refcnt.toNat + if i = j then -1 else 0) % 2 ^ 32 := by
  rw [(c.decRef_spec (.buf j) (.buf i)).2.2]
  by_cases same : i = j
  · rw [if_pos (by rw [same]), if_pos same, toNat_down]
  · rw [if_neg (by simpa using same), if_neg same, UInt32.sub_zero, ← toNat_same]

theorem assign_toNat (free : idle c j = true) : (((c.assign (.buf j) dev blockno).buf (.buf i)).refcnt.toNat : ℤ) =
    ((c.buf (.buf i)).refcnt.toNat + if i = j then 1 else 0) % 2 ^ 32 := by
  by_cases same : i = j
  · subst same
    rw [if_pos rfl, idle_iff.mp free, Cache.assign, Cache.setBuf_self]
    rfl
  · rw [Cache.assign_other same, if_neg same, ← toNat_same]

theorem Recent.past_after (recent : Recent x) (i : Fin nbuf) : (x.after part b sys).freed i ≤ x.time + 1 := by
  change (if _ then x.time + 1 else x.freed i) ≤ x.time + 1
  split
  · exact le_rfl
  · exact (recent.past i).trans (Nat.le_succ _)

/-- A list of a bucket after a part that frees nothing: buffers may have left it, and a busy one may have come in. -/
def Shrinks (c : Cache nbuckets D) (old new : List (Fin nbuf)) : Prop :=
  new.Sublist old ∨ ∃ i rest, idle c i = false ∧ new = i :: rest ∧ rest.Sublist old

theorem Recent.stay {l' : Fin nbuckets → List (Fin nbuf)} (recent : Recent x)
    (sorted : ∀ h, Sorted x.freed (idle x.sys.cache) (l h)) (filed : sys.cache.Filed bucketOf l')
    (sub : ∀ h, Shrinks sys.cache (l h) (l' h)) (less : ∀ i, idle sys.cache i → idle x.sys.cache i)
    (run : ∀ i, ((refcntOf sys i).toNat : ℤ) = ((refcntOf x.sys i).toNat + part.change b i) % 2 ^ 32)
    (only : ∀ i, refcntOf x.sys i ≠ 0 → refcntOf sys i = 0 → ∃ j, part = .brelse j) : Recent (x.after part b sys) := by
  have same : ∀ i, idle sys.cache i → (x.after part b sys).freed i = x.freed i := by
    intro i free
    apply if_neg
    rintro ⟨busy, -⟩
    exact busy (idle_iff.mp (less i free))
  obtain ⟨counted, bounded⟩ := recent.count run only
  refine ⟨⟨l', filed, fun h => ?_⟩, recent.past_after, counted, bounded⟩
  · rcases sub h with shorter | ⟨i, rest, busy, shape, shorter⟩
    · exact (sorted h).fewer shorter (fun i _ => less i) fun i _ => same i
    · rw [shape]
      exact ((sorted h).fewer shorter (fun i _ => less i) fun i _ => same i).cons_busy busy

theorem less_of_only (other : ∀ j, part ≠ .brelse j)
    (only : ∀ i, refcntOf x.sys i ≠ 0 → refcntOf sys i = 0 → ∃ j, part = .brelse j) (i : Fin nbuf)
    (free : idle sys.cache i) :
    idle x.sys.cache i := by
  by_contra busy
  obtain ⟨j, same⟩ := only i (fun zero => busy (idle_iff.mpr zero)) (idle_iff.mp free)
  exact other j same

theorem mem_of_found (found : (l h).reverse.find? (idle c) = some i) : i ∈ l h ∧ idle c i = true :=
  ⟨List.mem_reverse.mp (List.mem_of_find?_eq_some found), List.find?_some found⟩

theorem bget_run (filed : x.sys.cache.Filed bucketOf l) (run : (Part.bget dev blockno).run x.sys = .ok (b, sys)) :
    ∃ c' i, b = some (.buf i) ∧ sys = { x.sys with cache := c' } ∧ Taken x.sys.cache l dev blockno c' i := by
  rw [Part.run] at run
  rcases bget_taken filed dev blockno with ⟨c', i, found, taken⟩ | ⟨found, -⟩
  · rw [found] at run
    cases run
    exact ⟨c', i, rfl, rfl, taken⟩
  · rw [found] at run
    cases run

theorem change_bget : (Part.bget dev blockno).change (some (.buf i)) j = if j = i then 1 else 0 := by
  rw [Part.change]
  by_cases same : j = i
  · rw [if_pos (by rw [same]), if_pos same]
  · rw [if_neg (by simpa using Ne.symm same), if_neg same]

theorem recent_bget (recent : Recent x) (run : (Part.bget dev blockno).run x.sys = .ok (b, sys))
    (only : ∀ i, refcntOf x.sys i ≠ 0 → refcntOf sys i = 0 → ∃ j, Part.bget dev blockno = .brelse j) :
    Recent (x.after (.bget dev blockno) b sys) := by
  obtain ⟨l, filed, sorted⟩ := recent.lists
  obtain ⟨c', i, rfl, rfl, taken⟩ := bget_run filed run
  have less := less_of_only (by simp) only
  cases taken with
  | hit _ dev_eq block_eq =>
    refine recent.stay sorted (filed.setBuf rfl) (fun h => .inl (List.Sublist.refl _)) less (fun j => ?_) only
    rw [change_bget]
    exact incRef_toNat
  | own _ miss found =>
    obtain ⟨mem, free⟩ := mem_of_found found
    refine recent.stay sorted (filed.setBuf ((filed.mem i _).mp mem).symm) (fun h => .inl (List.Sublist.refl _)) less
      (fun j => ?_) only
    rw [change_bget]
    exact assign_toNat free
  | stolen _ h miss other busy found lower =>
    obtain ⟨mem, free⟩ := mem_of_found found
    have moved := filed.moveTo (i := i) (h := bucketOf blockno) (x.sys.cache.assign (.buf i) dev blockno) rfl
      (fun j ne => by rw [Cache.assign_other ne]) (by simp [Cache.assign])
    refine recent.stay sorted moved (fun k => ?_) less (fun j => ?_) only
    · by_cases mine : k = bucketOf blockno
      · refine .inr ⟨i, (l k).filter (· ≠ i), ?_, if_pos mine, List.filter_sublist⟩
        simp [idle, Cache.assign]
      · rw [if_neg mine]
        exact .inl List.filter_sublist
    · rw [change_bget]
      exact assign_toNat free

theorem recent_fill {a : Node} (recent : Recent x) (run : (Part.fill a).run x.sys = .ok (b, sys))
    (only : ∀ i, refcntOf x.sys i ≠ 0 → refcntOf sys i = 0 → ∃ j, Part.fill a = .brelse j) :
    Recent (x.after (.fill a) b sys) := by
  obtain ⟨l, filed, sorted⟩ := recent.lists
  rw [Part.run] at run
  split at run
  · cases run
  · cases run
    refine recent.stay sorted (filed.fill a x.sys.disk) (fun h => .inl (List.Sublist.refl _))
      (less_of_only (by simp) only)
      (fun i => ?_) only
    unfold refcntOf
    rw [(x.sys.cache.fill_spec a x.sys.disk (.buf i)).2.2]
    exact toNat_same _

theorem recent_bpin (recent : Recent x) (run : (Part.bpin j).run x.sys = .ok (b, sys))
    (only : ∀ i, refcntOf x.sys i ≠ 0 → refcntOf sys i = 0 → ∃ k, Part.bpin j = .brelse k) :
    Recent (x.after (.bpin j) b sys) := by
  obtain ⟨l, filed, sorted⟩ := recent.lists
  cases run
  exact recent.stay sorted (filed.setBuf rfl) (fun h => .inl (List.Sublist.refl _)) (less_of_only (by simp) only)
    (fun i => incRef_toNat) only

theorem recent_bunpin (recent : Recent x) (run : (Part.bunpin j).run x.sys = .ok (b, sys))
    (only : ∀ i, refcntOf x.sys i ≠ 0 → refcntOf sys i = 0 → ∃ k, Part.bunpin j = .brelse k) :
    Recent (x.after (.bunpin j) b sys) := by
  obtain ⟨l, filed, sorted⟩ := recent.lists
  cases run
  exact recent.stay sorted (filed.setBuf rfl) (fun h => .inl (List.Sublist.refl _)) (less_of_only (by simp) only)
    (fun i => decRef_toNat) only

theorem freed_other (same : refcntOf sys i = refcntOf x.sys i) : (x.after part b sys).freed i = x.freed i := by
  apply if_neg
  rw [same]
  exact fun both => both.1 both.2

/-- The last reference moves the buffer to the front of its list. -/
theorem recent_freed (recent : Recent x) (filed : x.sys.cache.Filed bucketOf l)
    (sorted : ∀ h, Sorted x.freed (idle x.sys.cache) (l h))
    (shape : sys.cache = (x.sys.cache.decRef (.buf j)).moveTo (home x.sys.cache j) (.buf j)) (last : refcntOf sys j = 0)
    (only : ∀ i, refcntOf x.sys i ≠ 0 → refcntOf sys i = 0 → ∃ k, Part.brelse j = .brelse k) :
    Recent (x.after (.brelse j) b sys) := by
  have counts : ∀ k, refcntOf sys k = ((x.sys.cache.decRef (.buf j)).buf (.buf k)).refcnt := by
    intro k
    unfold refcntOf
    rw [shape, Cache.moveTo_buf]
  have moved := filed.moveTo (i := j) (h := home x.sys.cache j) (x.sys.cache.decRef (.buf j)) rfl
    (fun k _ => (x.sys.cache.decRef_spec (.buf j) (.buf k)).2.1) (by rw [(x.sys.cache.decRef_spec _ _).2.1]; rfl)
  rw [← shape] at moved
  have run : ∀ i, ((refcntOf sys i).toNat : ℤ) = ((refcntOf x.sys i).toNat + (Part.brelse j).change b i) % 2 ^ 32 := by
    intro i
    rw [counts]
    exact decRef_toNat
  obtain ⟨counted, bounded⟩ := recent.count run only
  have others : ∀ k ≠ j, refcntOf sys k = refcntOf x.sys k := by
    intro k ne
    rw [counts, (x.sys.cache.decRef_spec _ _).2.2, if_neg (by simpa using ne), UInt32.sub_zero]
    rfl
  have busy : refcntOf x.sys j ≠ 0 := by
    intro zero
    change (x.sys.cache.buf (.buf j)).refcnt = 0 at zero
    rw [counts, (x.sys.cache.decRef_spec _ _).2.2, if_pos rfl, zero] at last
    revert last
    decide
  have rest : ∀ h, Sorted (x.after (.brelse j) b sys).freed (idle sys.cache) ((l h).filter (· ≠ j)) := by
    intro h
    refine (sorted h).fewer List.filter_sublist ?_ ?_
    · intro k mem free
      have ne : k ≠ j := by simpa using (List.mem_filter.mp mem).2
      exact idle_iff.mpr ((others k ne).symm.trans (idle_iff.mp free))
    · intro k mem _
      have ne : k ≠ j := by simpa using (List.mem_filter.mp mem).2
      exact freed_other (others k ne)
  refine ⟨⟨_, moved, fun h => ?_⟩, recent.past_after, counted, bounded⟩
  by_cases mine : h = home x.sys.cache j
  · rw [if_pos mine]
    refine (rest h).cons_newest fun k mem => ?_
    have ne : k ≠ j := by simpa using (List.mem_filter.mp mem).2
    have stamp : (x.after (.brelse j) b sys).freed j = x.time + 1 := if_pos ⟨busy, last⟩
    rw [stamp, freed_other (others k ne)]
    exact Nat.lt_succ_of_le (recent.past k)
  · rw [if_neg mine]
    exact rest h

theorem recent_brelse (recent : Recent x) (run : (Part.brelse j).run x.sys = .ok (b, sys))
    (only : ∀ i, refcntOf x.sys i ≠ 0 → refcntOf sys i = 0 → ∃ k, Part.brelse j = .brelse k) :
    Recent (x.after (.brelse j) b sys) := by
  obtain ⟨l, filed, sorted⟩ := recent.lists
  rw [Part.run] at run
  cases held : x.sys.locked (.buf j) with
  | false =>
    rw [brelse_unheld held] at run
    cases run
  | true =>
    rw [brelse_held held] at run
    cases run
    by_cases last : ((x.sys.cache.decRef (.buf j)).buf (.buf j)).refcnt = 0
    · have shape : x.sys.cache.drop (home x.sys.cache j) (.buf j) =
          (x.sys.cache.decRef (.buf j)).moveTo (home x.sys.cache j) (.buf j) := if_pos last
      refine recent_freed recent filed sorted shape ?_ only
      unfold refcntOf
      rwa [Cache.drop_buf]
    · have shape : x.sys.cache.drop (home x.sys.cache j) (.buf j) = x.sys.cache.decRef (.buf j) := if_neg last
      have kept : (x.sys.cache.drop (home x.sys.cache j) (.buf j)).Filed bucketOf l := by
        rw [shape]
        exact filed.setBuf rfl
      refine recent.stay sorted kept (fun h => .inl (List.Sublist.refl _)) (fun i free => ?_) (fun i => ?_) only
      · change idle (x.sys.cache.drop (home x.sys.cache j) (.buf j)) i = true at free
        rw [shape, idle_iff] at free
        rw [idle_iff]
        by_cases same : i = j
        · subst same
          exact absurd free last
        · rwa [(x.sys.cache.decRef_spec _ _).2.2, if_neg (by simpa using same), UInt32.sub_zero] at free
      · unfold refcntOf
        rw [Cache.drop_buf]
        exact decRef_toNat

theorem recent_start (zero : D) (disk : UInt32 → D) : Recent (.start zero disk) := by
  have blank : ∀ i, refcntOf (Trace.start zero disk).sys i = 0 := by
    intro i
    change ((binit zero).buf (.buf i)).refcnt = 0
    unfold binit
    rw [Cache.linkAll_buf]
    rfl
  refine ⟨⟨_, Cache.linkAll_filed bucketOf zero, fun h => sorted_fresh fun _ => rfl⟩, fun i => le_rfl, fun i => ?_,
    fun i => by norm_num [Trace.start]⟩
  rw [blank]
  rfl

theorem Runs.recent (runs : Runs x) : Recent x := by
  induction runs with
  | start zero disk => exact recent_start zero disk
  | next before run only ih =>
    rename_i part b sys
    cases part with
    | bget dev blockno => exact recent_bget ih run only
    | fill a => exact recent_fill ih run only
    | brelse j => exact recent_brelse ih run only
    | bpin j => exact recent_bpin ih run only
    | bunpin j => exact recent_bunpin ih run only

/-! ### The choice -/

/-- Buffer `i` was recycled for the block: it had no references, and it was the oldest such buffer of the block's own
bucket, or if that bucket had none, of the first bucket that had one. -/
structure Recycled (x : Trace D) (dev blockno : UInt32) (c' : Cache nbuckets D) (i : Fin nbuf) : Prop where
  unreferenced : refcntOf x.sys i = 0
  unpinned : x.refs i ≤ 0
  own : (∃ j, refcntOf x.sys j = 0 ∧ home x.sys.cache j = bucketOf blockno) → home x.sys.cache i = bucketOf blockno
  lowest : (¬ ∃ j, refcntOf x.sys j = 0 ∧ home x.sys.cache j = bucketOf blockno) →
    ∀ j, refcntOf x.sys j = 0 → home x.sys.cache i ≤ home x.sys.cache j
  oldest : ∀ j ≠ i, refcntOf x.sys j = 0 → home x.sys.cache j = home x.sys.cache i → Older x.freed i j
  assigned : (c'.buf (.buf i)).dev = dev ∧ (c'.buf (.buf i)).blockno = blockno
  others : ∀ j ≠ i, c'.buf (.buf j) = x.sys.cache.buf (.buf j)

theorem Recent.unpinned (recent : Recent x) (free : idle x.sys.cache i = true) : x.refs i ≤ 0 := by
  have counted := recent.counted i
  have small := recent.bounded i
  have zero : refcntOf x.sys i = 0 := idle_iff.mp free
  rw [zero, UInt32.toNat_zero] at counted
  omega

theorem oldest_of_found (filed : x.sys.cache.Filed bucketOf l)
    (sorted : ∀ h, Sorted x.freed (idle x.sys.cache) (l h)) (found : (l h).reverse.find? (idle x.sys.cache) = some i)
    (ne : j ≠ i)
    (free : refcntOf x.sys j = 0) (here : home x.sys.cache j = home x.sys.cache i) : Older x.freed i j := by
  have place := (filed.mem i h).mp (mem_of_found found).1
  exact (sorted h).oldest found ((filed.mem j h).mpr (here.trans place)) (idle_iff.mpr free) ne

theorem recycled_of_taken (recent : Recent x) (filed : x.sys.cache.Filed bucketOf l)
    (sorted : ∀ h, Sorted x.freed (idle x.sys.cache) (l h)) (miss : ¬ x.sys.cache.Cached dev blockno)
    (taken : Taken x.sys.cache l dev blockno c' i) : Recycled x dev blockno c' i := by
  have assigned : ((x.sys.cache.assign (.buf i) dev blockno).buf (.buf i)).dev = dev ∧
      ((x.sys.cache.assign (.buf i) dev blockno).buf (.buf i)).blockno = blockno := by simp [Cache.assign]
  cases taken with
  | hit _ dev_eq block_eq => exact absurd ⟨i, dev_eq, block_eq⟩ miss
  | own _ _ found =>
    obtain ⟨mem, free⟩ := mem_of_found found
    have here : home x.sys.cache i = bucketOf blockno := (filed.mem i _).mp mem
    exact {
      unreferenced := idle_iff.mp free
      unpinned := recent.unpinned free
      own := fun _ => here
      lowest := fun none => absurd ⟨i, idle_iff.mp free, here⟩ none
      oldest := fun j ne => oldest_of_found filed sorted found ne
      assigned := assigned
      others := fun j ne => Cache.assign_other ne }
  | stolen _ h _ other busy found lower =>
    obtain ⟨mem, free⟩ := mem_of_found found
    have here : home x.sys.cache i = h := (filed.mem i _).mp mem
    have away : ∀ j, refcntOf x.sys j = 0 → home x.sys.cache j ≠ bucketOf blockno := by
      intro j zero mine
      have taken := busy j mine
      rw [idle_iff.mpr zero] at taken
      cases taken
    exact {
      unreferenced := idle_iff.mp free
      unpinned := recent.unpinned free
      own := by
        rintro ⟨j, zero, mine⟩
        exact absurd mine (away j zero)
      lowest := by
        intro _ j zero
        rw [here]
        by_contra less
        have taken := lower _ (not_le.mp less) (away j zero) j rfl
        rw [idle_iff.mpr zero] at taken
        cases taken
      oldest := fun j ne => oldest_of_found filed sorted found ne
      assigned := assigned
      others := fun j ne => Cache.assign_other ne }

/-- The lists are the buckets, and a `bget` that misses recycles the least recently freed buffer, unless all are
referenced. -/
theorem bget_recycles (runs : Runs x) (miss : ¬ x.sys.cache.Cached dev blockno) : (∃ l, x.sys.cache.Filed bucketOf l) ∧
    ((∃ c' i, Hashed.bget x.sys.cache dev blockno = some (some (c', .buf i)) ∧ Recycled x dev blockno c' i) ∨
      (Hashed.bget x.sys.cache dev blockno = some none ∧ ∀ j, refcntOf x.sys j ≠ 0)) := by
  have recent := runs.recent
  obtain ⟨l, filed, sorted⟩ := recent.lists
  refine ⟨⟨l, filed⟩, ?_⟩
  rcases bget_taken filed dev blockno with ⟨c', i, found, taken⟩ | ⟨found, busy⟩
  · exact .inl ⟨c', i, found, recycled_of_taken recent filed sorted miss taken⟩
  · refine .inr ⟨found, fun j zero => ?_⟩
    have taken := busy j
    rw [idle_iff.mpr zero] at taken
    cases taken

/-- Blocks 5 and 18 are in one bucket. -/
def exampleParts : List Part := [.bget 1 5, .bget 1 18, .fill (.buf 0), .fill (.buf 1), .brelse 1, .brelse 0]

/-- Of two buffers in the bucket of block 31, the one that was released first. -/
theorem bget_recycles_older : ∃ x : Trace ℕ, Runs x ∧ (x.freed 1 = 5 ∧ x.freed 0 = 6) ∧
    (home x.sys.cache 0 = bucketOf 31 ∧ home x.sys.cache 1 = bucketOf 31) ∧
    ∃ c', Hashed.bget x.sys.cache 1 31 = some (some (c', .buf 1)) ∧ Recycled x 1 31 c' 1 := by
  have played : ((play exampleParts (.start 0 fun _ => 0)).any fun x => decide ((x.freed 1 = 5 ∧ x.freed 0 = 6) ∧
      (home x.sys.cache 0 = bucketOf 31 ∧ home x.sys.cache 1 = bucketOf 31) ∧
      (∀ i : Fin nbuf, ¬ ((x.sys.cache.buf (.buf i)).dev = 1 ∧ (x.sys.cache.buf (.buf i)).blockno = 31)) ∧
      (Hashed.bget x.sys.cache 1 31).map (fun r => r.map Prod.snd) = some (some (.buf 1)))) = true := by decide +kernel
  obtain ⟨x, plays, found⟩ := (Option.any_eq_true ..).mp played
  obtain ⟨freed, here, miss, taken⟩ := of_decide_eq_true found
  have runs := play_runs (.start 0 fun _ => 0) plays
  have absent : ¬ x.sys.cache.Cached 1 31 := by
    rintro ⟨i, cached⟩
    exact miss i cached
  rcases bget_recycles runs absent with ⟨-, ⟨c', i, bget, recycled⟩ | ⟨none, -⟩⟩
  · rw [bget] at taken
    obtain rfl : i = 1 := Node.buf.inj (Option.some.inj (Option.some.inj taken))
    exact ⟨x, runs, freed, here, c', bget, recycled⟩
  · rw [none] at taken
    cases Option.some.inj taken

end Xv6Labs.Bio.Hashed
