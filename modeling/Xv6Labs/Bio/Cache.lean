import Mathlib
import Xv6Labs.Lib.Ring
import Xv6Labs.Param

/-!
# The buffer cache's memory

Both buffer caches keep `NBUF` buffers on circular lists through list heads that are themselves
`struct buf`s: the Lab 2 cache has one head, the Lab 3 cache thirteen. `Cache H` is that memory for
`H` heads, with the loops and field updates `bio.c` makes on it. `Filed` says that list `h` holds
exactly the buffers whose block number `hash` sends to `h`.
-/

namespace Xv6Labs.Bio

open LinkedRing

inductive Node (H : ℕ) where
  | buf (i : Fin nbuf)
  | head (h : Fin H)
  deriving DecidableEq

/-- The fields of `struct buf` apart from its links, its sleep-lock and the driver's `disk` flag.
`D` is the type of a block's contents. -/
structure Buf (D : Type) where
  valid : Bool := false
  dev : UInt32 := 0
  blockno : UInt32 := 0
  refcnt : UInt32 := 0
  data : D

structure Cache (H : ℕ) (D : Type) where
  buf : Node H → Buf D
  link : Links (Node H)

variable {H : ℕ} {D : Type}

namespace Cache

/-! ### The loops and field updates of `bio.c`

`lookup` is `for(b = head.next; b != &head; b = b->next) if(b->dev == dev && b->blockno == blockno)` and `unused` is
`for(b = head.prev; b != &head; b = b->prev) if(b->refcnt == 0)`. A loop that is still running after `nodes` steps
has met some node twice and never ends; that is the outcome `none`. `assign` sets the fields of a recycled buffer,
`moveTo` unlinks a buffer and puts it behind a head, and `drop` is the critical section of `brelse`: `b->refcnt--`,
and to the front if that gave 0. `fill` is `if(!b->valid) { virtio_disk_rw(b, 0); b->valid = 1; }` of `bread`; the
driver takes only the block number from the buffer. `linkAll` is the loop of `binit` over `bcache.buf`, started on a
zeroed cache whose heads point at themselves.
-/

abbrev nodes (H : ℕ) : ℕ := nbuf + H + 1

def lookup (c : Cache H D) (h : Fin H) (dev blockno : UInt32) : Option (Option (Node H)) :=
  c.link.scan (fun b => (c.buf b).dev == dev && (c.buf b).blockno == blockno) (.head h) (nodes H)
    (c.link.next (.head h))

def unused (c : Cache H D) (h : Fin H) : Option (Option (Node H)) :=
  c.link.flip.scan (fun b => (c.buf b).refcnt == 0) (.head h) (nodes H) (c.link.prev (.head h))

def setBuf (c : Cache H D) (b : Node H) (v : Buf D) : Cache H D :=
  { c with buf := Function.update c.buf b v }

def incRef (c : Cache H D) (b : Node H) : Cache H D :=
  c.setBuf b { c.buf b with refcnt := (c.buf b).refcnt + 1 }

def decRef (c : Cache H D) (b : Node H) : Cache H D :=
  c.setBuf b { c.buf b with refcnt := (c.buf b).refcnt - 1 }

def assign (c : Cache H D) (b : Node H) (dev blockno : UInt32) : Cache H D :=
  c.setBuf b { c.buf b with dev := dev, blockno := blockno, valid := false, refcnt := 1 }

def moveTo (c : Cache H D) (h : Fin H) (b : Node H) : Cache H D :=
  { c with link := (c.link.unlink b).pushFront (.head h) b }

def drop (c : Cache H D) (h : Fin H) (b : Node H) : Cache H D :=
  let c := c.decRef b
  if (c.buf b).refcnt = 0 then c.moveTo h b else c

def fill (c : Cache H D) (b : Node H) (disk : UInt32 → D) : Cache H D :=
  let v := c.buf b
  if v.valid then c else c.setBuf b { v with data := disk v.blockno, valid := true }

def blank (zero : D) : Cache H D := ⟨fun _ => { data := zero }, ⟨id, id⟩⟩

def linkAll (c : Cache H D) (h : Fin H) : List (Fin nbuf) → Cache H D
  | [] => c
  | i :: rest => linkAll { c with link := c.link.pushFront (.head h) (.buf i) } h rest

/-! ### What the lists hold -/

/-- List `h` is the ring `l h`, and a buffer is on it when `hash` sends its block number to `h`. -/
structure Filed (c : Cache H D) (hash : UInt32 → Fin H) (l : Fin H → List (Fin nbuf)) : Prop where
  ring : ∀ h, c.link.Ring (.head h) ((l h).map .buf)
  mem : ∀ i h, i ∈ l h ↔ hash (c.buf (.buf i)).blockno = h

def Distinct (c : Cache H D) : Prop :=
  ∀ i j, (c.buf (.buf i)).dev ≠ 0 → (c.buf (.buf i)).dev = (c.buf (.buf j)).dev →
    (c.buf (.buf i)).blockno = (c.buf (.buf j)).blockno → i = j

def Cached (c : Cache H D) (dev blockno : UInt32) : Prop :=
  ∃ i, (c.buf (.buf i)).dev = dev ∧ (c.buf (.buf i)).blockno = blockno

variable {c : Cache H D} {hash : UInt32 → Fin H} {l : Fin H → List (Fin nbuf)} {h : Fin H}
  {i j : Fin nbuf} {b : Node H} {dev blockno : UInt32}

@[simp] theorem setBuf_self (c : Cache H D) (b : Node H) (v : Buf D) : (c.setBuf b v).buf b = v := by
  simp [setBuf]

theorem setBuf_of_ne {a : Node H} (v : Buf D) (ne : a ≠ b) : (c.setBuf b v).buf a = c.buf a := by
  simp [setBuf, ne]

@[simp] theorem setBuf_link (c : Cache H D) (b : Node H) (v : Buf D) : (c.setBuf b v).link = c.link := rfl

@[simp] theorem moveTo_buf (c : Cache H D) (h : Fin H) (b : Node H) : (c.moveTo h b).buf = c.buf := rfl

theorem incRef_spec (c : Cache H D) (b a : Node H) :
    ((c.incRef b).buf a).dev = (c.buf a).dev ∧ ((c.incRef b).buf a).blockno = (c.buf a).blockno ∧
      ((c.incRef b).buf a).refcnt = (c.buf a).refcnt + if a = b then 1 else 0 := by
  by_cases eq : a = b
  · subst eq
    simp [incRef]
  · simp [incRef, setBuf_of_ne _ eq, eq]

theorem decRef_spec (c : Cache H D) (b a : Node H) :
    ((c.decRef b).buf a).dev = (c.buf a).dev ∧ ((c.decRef b).buf a).blockno = (c.buf a).blockno ∧
      ((c.decRef b).buf a).refcnt = (c.buf a).refcnt - if a = b then 1 else 0 := by
  by_cases eq : a = b
  · subst eq
    simp [decRef]
  · simp [decRef, setBuf_of_ne _ eq, eq]

@[simp] theorem drop_buf (c : Cache H D) (h : Fin H) (b : Node H) : (c.drop h b).buf = (c.decRef b).buf := by
  unfold drop
  by_cases last : ((c.decRef b).buf b).refcnt = 0 <;> simp [last]

theorem fill_spec (c : Cache H D) (b : Node H) (disk : UInt32 → D) (a : Node H) :
    ((c.fill b disk).buf a).dev = (c.buf a).dev ∧ ((c.fill b disk).buf a).blockno = (c.buf a).blockno ∧
      ((c.fill b disk).buf a).refcnt = (c.buf a).refcnt := by
  unfold fill
  by_cases valid : (c.buf b).valid = true
  · simp [valid]
  · by_cases eq : a = b
    · subst eq
      simp [valid]
    · simp [valid, setBuf_of_ne _ eq]

theorem fill_other (c : Cache H D) {a b : Node H} (disk : UInt32 → D) (ne : a ≠ b) :
    (c.fill b disk).buf a = c.buf a := by
  unfold fill
  by_cases valid : (c.buf b).valid = true
  · simp [valid]
  · simp [valid, setBuf_of_ne _ ne]

theorem fill_self (c : Cache H D) (b : Node H) (disk : UInt32 → D) :
    ((c.fill b disk).buf b).valid = true ∧
      ((c.fill b disk).buf b).data =
        if (c.buf b).valid = true then (c.buf b).data else disk (c.buf b).blockno := by
  unfold fill
  by_cases valid : (c.buf b).valid = true <;> simp [valid]

@[simp] theorem fill_link (c : Cache H D) (b : Node H) (disk : UInt32 → D) :
    (c.fill b disk).link = c.link := by
  unfold fill
  by_cases valid : (c.buf b).valid = true <;> simp [valid]

theorem Filed.length_lt (f : c.Filed hash l) (h : Fin H) :
    ((l h).map (Node.buf (H := H))).length < nodes H := by
  have short := (List.Nodup.of_map _ (f.ring h).nodup).length_le_card
  rw [List.length_map]
  simp only [Fintype.card_fin] at short
  exact Nat.lt_succ_of_le (short.trans (Nat.le_add_right _ _))

theorem Filed.notMem (f : c.Filed hash l) (ne : hash (c.buf (.buf i)).blockno ≠ h) :
    Node.buf i ∉ Node.head h :: (l h).map Node.buf := by
  simp only [List.mem_cons, reduceCtorEq, List.mem_map, Node.buf.injEq, exists_eq_right, false_or]
  rwa [f.mem i h]

/-- What the first loop of `bget` finds: the buffer assigned to the block, if there is one. -/
theorem Filed.lookup_spec (f : c.Filed hash l) (dev blockno : UInt32) :
    (∃ i, c.lookup (hash blockno) dev blockno = some (some (.buf i)) ∧
      (c.buf (.buf i)).dev = dev ∧ (c.buf (.buf i)).blockno = blockno) ∨
    (c.lookup (hash blockno) dev blockno = some none ∧ ¬c.Cached dev blockno) := by
  have found := (f.ring (hash blockno)).scan_next
    (fun b => (c.buf b).dev == dev && (c.buf b).blockno == blockno) (f.length_lt _)
  rw [List.find?_map] at found
  cases first : (l (hash blockno)).find?
      ((fun b => (c.buf b).dev == dev && (c.buf b).blockno == blockno) ∘ Node.buf) with
  | some i =>
    left
    rw [first] at found
    have hit := List.find?_some first
    simp only [Function.comp_apply, Bool.and_eq_true, beq_iff_eq] at hit
    exact ⟨i, found, hit⟩
  | none =>
    right
    rw [first] at found
    refine ⟨found, ?_⟩
    rintro ⟨i, sameDev, sameBlock⟩
    have miss := List.find?_eq_none.mp first i ((f.mem i _).mpr (by rw [sameBlock]))
    simp [sameDev, sameBlock] at miss

/-- What a recycling loop finds: an unreferenced buffer of the list, if there is one. -/
theorem Filed.unused_spec (f : c.Filed hash l) (h : Fin H) :
    (∃ i, c.unused h = some (some (.buf i)) ∧ (c.buf (.buf i)).refcnt = 0 ∧
      hash (c.buf (.buf i)).blockno = h) ∨
    (c.unused h = some none ∧ ∀ i, hash (c.buf (.buf i)).blockno = h → (c.buf (.buf i)).refcnt ≠ 0) := by
  have found := (f.ring h).scan_prev (fun b => (c.buf b).refcnt == 0) (f.length_lt h)
  rw [← List.map_reverse, List.find?_map] at found
  cases first : (l h).reverse.find? ((fun b => (c.buf b).refcnt == 0) ∘ Node.buf) with
  | some i =>
    left
    rw [first] at found
    have hit := List.find?_some first
    simp only [Function.comp_apply, beq_iff_eq] at hit
    exact ⟨i, found, hit, (f.mem i h).mp (List.mem_reverse.mp (List.mem_of_find?_eq_some first))⟩
  | none =>
    right
    rw [first] at found
    refine ⟨found, fun i here zero => ?_⟩
    have miss := List.find?_eq_none.mp first i (List.mem_reverse.mpr ((f.mem i h).mpr here))
    simp [zero] at miss

theorem Filed.lookup_none (f : c.Filed hash l) (miss : ¬c.Cached dev blockno) :
    c.lookup (hash blockno) dev blockno = some none := by
  rcases f.lookup_spec dev blockno with ⟨i, -, hit⟩ | ⟨found, -⟩
  · exact (miss ⟨i, hit⟩).elim
  · exact found

theorem Filed.unused_none (f : c.Filed hash l)
    (busy : ∀ i, hash (c.buf (.buf i)).blockno = h → (c.buf (.buf i)).refcnt ≠ 0) :
    c.unused h = some none := by
  rcases f.unused_spec h with ⟨i, -, zero, here⟩ | ⟨found, -⟩
  · exact (busy i here zero).elim
  · exact found

theorem Filed.setBuf (f : c.Filed hash l) {v : Buf D}
    (same : hash v.blockno = hash (c.buf (.buf i)).blockno) : (c.setBuf (.buf i) v).Filed hash l := by
  refine ⟨f.ring, fun j h => ?_⟩
  by_cases eq : j = i
  · subst eq
    rw [setBuf_self, same, f.mem]
  · rw [setBuf_of_ne v (by simpa using eq), f.mem]

theorem Filed.unlink_ring (f : c.Filed hash l) (i : Fin nbuf) (k : Fin H) :
    (c.link.unlink (.buf i)).Ring (.head k) (((l k).filter (· ≠ i)).map .buf) := by
  have home : i ∈ l (hash (c.buf (.buf i)).blockno) := (f.mem i _).mpr rfl
  by_cases mine : hash (c.buf (.buf i)).blockno = k
  · subst mine
    obtain ⟨s, t, split⟩ := List.append_of_mem home
    have ring := f.ring (hash (c.buf (.buf i)).blockno)
    have distinct := List.Nodup.of_map _ ring.nodup
    rw [split] at distinct ring ⊢
    rw [List.map_append, List.map_cons] at ring
    have rest : (s ++ i :: t).filter (· ≠ i) = s ++ t := by
      rw [List.nodup_middle, List.nodup_cons] at distinct
      have keep : ∀ j ∈ s ++ t, decide (j ≠ i) = true := by
        intro j hj
        rw [decide_eq_true_eq]
        rintro rfl
        exact distinct.1 hj
      rw [List.filter_append, List.filter_cons_of_neg (by simp), ← List.filter_append,
        List.filter_eq_self.mpr keep]
    rw [rest, List.map_append]
    exact ring.unlink
  · have keep : ∀ j ∈ l k, decide (j ≠ i) = true := by
      intro j hj
      rw [decide_eq_true_eq]
      rintro rfl
      exact mine ((f.mem j k).mp hj)
    rw [List.filter_eq_self.mpr keep]
    exact (f.ring _).unlink_other (List.mem_map_of_mem home) (f.ring k) (f.notMem mine)

/-- Moving a buffer to the front of list `h`, in memory in which only its own block number may
have changed. -/
theorem Filed.moveTo (f : c.Filed hash l) (c' : Cache H D) (links : c'.link = c.link)
    (others : ∀ j ≠ i, (c'.buf (.buf j)).blockno = (c.buf (.buf j)).blockno)
    (here : hash (c'.buf (.buf i)).blockno = h) :
    (c'.moveTo h (.buf i)).Filed hash
      (fun k => if k = h then i :: (l k).filter (· ≠ i) else (l k).filter (· ≠ i)) := by
  have fresh : ∀ k, Node.buf i ∉ Node.head k :: ((l k).filter (· ≠ i)).map Node.buf := by
    intro k
    simp
  refine ⟨fun k => ?_, fun j k => ?_⟩
  · show ((c'.link.unlink (.buf i)).pushFront (.head h) (.buf i)).Ring _ _
    rw [links]
    by_cases eq : k = h
    · subst eq
      rw [if_pos rfl, List.map_cons]
      exact (f.unlink_ring i k).pushFront (fresh k)
    · rw [if_neg eq]
      refine (f.unlink_ring i h).pushFront_other (by simp) (f.unlink_ring i k) (fresh k) ?_
      simpa using fun e => eq e.symm
  · rw [moveTo_buf]
    by_cases eq : j = i
    · subst eq
      by_cases target : k = h
      · simp [target, here]
      · simp [target, here, Ne.symm target]
    · rw [others j eq, ← f.mem]
      by_cases target : k = h <;> simp [target, eq]

/-! ### Block identities -/

theorem Filed.congr (f : c.Filed hash l) {c' : Cache H D} (links : c'.link = c.link)
    (same : ∀ j, (c'.buf (.buf j)).blockno = (c.buf (.buf j)).blockno) : c'.Filed hash l :=
  ⟨fun h => by rw [links]; exact f.ring h, fun j h => by rw [same, f.mem]⟩

theorem Filed.drop (f : c.Filed hash l) (here : hash (c.buf (.buf i)).blockno = h) :
    ∃ l', (c.drop h (.buf i)).Filed hash l' := by
  have same := fun j => (c.decRef_spec (.buf i) (.buf j)).2.1
  unfold Cache.drop
  by_cases last : ((c.decRef (.buf i)).buf (.buf i)).refcnt = 0
  · simp only [last, if_true]
    exact ⟨_, f.moveTo (i := i) (h := h) (c.decRef (.buf i)) rfl (fun j _ => same j) (by rw [same, here])⟩
  · simp only [last, if_false]
    exact ⟨l, f.congr rfl same⟩

theorem Filed.fill (f : c.Filed hash l) (b : Node H) (disk : UInt32 → D) : (c.fill b disk).Filed hash l :=
  f.congr (c.fill_link b disk) fun j => (c.fill_spec b disk (.buf j)).2.1

theorem Distinct.congr (d : c.Distinct) {c' : Cache H D}
    (sameDev : ∀ j, (c'.buf (.buf j)).dev = (c.buf (.buf j)).dev)
    (same : ∀ j, (c'.buf (.buf j)).blockno = (c.buf (.buf j)).blockno) : c'.Distinct := by
  intro j k nonzero devs blocks
  simp only [sameDev, same] at nonzero devs blocks
  exact d j k nonzero devs blocks

theorem Cached.congr {c' : Cache H D} (cached : c'.Cached dev blockno)
    (sameDev : ∀ j, (c'.buf (.buf j)).dev = (c.buf (.buf j)).dev)
    (same : ∀ j, (c'.buf (.buf j)).blockno = (c.buf (.buf j)).blockno) : c.Cached dev blockno := by
  obtain ⟨j, devs, blocks⟩ := cached
  exact ⟨j, by rw [← sameDev, devs], by rw [← same, blocks]⟩

theorem Distinct.fill (d : c.Distinct) (b : Node H) (disk : UInt32 → D) : (c.fill b disk).Distinct :=
  d.congr (fun j => (c.fill_spec b disk (.buf j)).1) fun j => (c.fill_spec b disk (.buf j)).2.1

theorem assign_other (ne : j ≠ i) : (c.assign (.buf i) dev blockno).buf (.buf j) = c.buf (.buf j) :=
  setBuf_of_ne _ (by simpa using ne)

theorem Distinct.assign (d : c.Distinct) (miss : ¬c.Cached dev blockno) :
    (c.assign (.buf i) dev blockno).Distinct := by
  intro j k nonzero devs blocks
  by_cases hj : j = i <;> by_cases hk : k = i
  · rw [hj, hk]
  · subst hj
    rw [assign_other hk] at devs blocks
    exact (miss ⟨k, by simpa [Cache.assign] using devs.symm, by simpa [Cache.assign] using blocks.symm⟩).elim
  · subst hk
    rw [assign_other hj] at devs blocks
    exact (miss ⟨j, by simpa [Cache.assign] using devs, by simpa [Cache.assign] using blocks⟩).elim
  · rw [assign_other hj] at nonzero devs blocks
    rw [assign_other hk] at devs blocks
    exact d j k nonzero devs blocks

/-- Assigning a buffer caches its new block and no other. -/
theorem cached_of_assign {dev' blockno' : UInt32}
    (cached : (c.assign (.buf i) dev blockno).Cached dev' blockno') :
    c.Cached dev' blockno' ∨ dev' = dev ∧ blockno' = blockno := by
  obtain ⟨j, devs, blocks⟩ := cached
  by_cases hj : j = i
  · subst hj
    right
    exact ⟨by simpa [Cache.assign] using devs.symm, by simpa [Cache.assign] using blocks.symm⟩
  · rw [assign_other hj] at devs blocks
    exact Or.inl ⟨j, devs, blocks⟩

/-! ### The lists `binit` builds -/

theorem linkAll_buf (c : Cache H D) (h : Fin H) (rest : List (Fin nbuf)) :
    (c.linkAll h rest).buf = c.buf := by
  induction rest generalizing c with
  | nil => rfl
  | cons i rest ih => rw [linkAll, ih]

theorem linkAll_ring (rest : List (Fin nbuf)) (rings : ∀ k, c.link.Ring (.head k) ((l k).map .buf))
    (distinct : rest.Nodup) (fresh : ∀ i ∈ rest, ∀ k, i ∉ l k) (k : Fin H) :
    (c.linkAll h rest).link.Ring (.head k)
      ((if k = h then rest.reverse ++ l k else l k).map .buf) := by
  induction rest generalizing c l with
  | nil => simpa [linkAll] using rings k
  | cons i rest ih =>
    rw [List.nodup_cons] at distinct
    have absent : ∀ k, Node.buf i ∉ Node.head k :: (l k).map Node.buf := by
      intro k
      simpa using fresh i List.mem_cons_self k
    have pushed := ih (c := { c with link := c.link.pushFront (.head h) (.buf i) })
      (l := fun k => if k = h then i :: l k else l k) ?_ distinct.2 ?_
    · by_cases eq : k = h
      · simpa [eq, linkAll] using pushed
      · simpa [eq, linkAll] using pushed
    · intro k
      by_cases eq : k = h
      · subst eq
        rw [if_pos rfl, List.map_cons]
        exact (rings k).pushFront (absent k)
      · rw [if_neg eq]
        refine (rings h).pushFront_other (by simp) (rings k) (absent k) ?_
        simpa using fun e => eq e.symm
    · intro j hj k
      have off := fresh j (List.mem_cons_of_mem _ hj) k
      by_cases eq : k = h
      · subst eq
        rw [if_pos rfl, List.mem_cons, not_or]
        exact ⟨fun e => distinct.1 (e ▸ hj), off⟩
      · rwa [if_neg eq]

/-- After `binit` every buffer is on the list of block number 0. -/
theorem linkAll_filed (hash : UInt32 → Fin H) (zero : D) :
    ((blank zero).linkAll (hash 0) (List.finRange nbuf)).Filed hash
      (fun k => if k = hash 0 then (List.finRange nbuf).reverse else []) := by
  refine ⟨fun k => ?_, fun i k => ?_⟩
  · have ring := linkAll_ring (c := blank zero) (l := fun _ => []) (h := hash 0) (List.finRange nbuf)
      (fun k => ⟨by simp, by simp [Links.Linked, Links.Adjacent, blank]⟩) (List.nodup_finRange _)
      (by simp) k
    simpa using ring
  · rw [linkAll_buf]
    by_cases eq : k = hash 0
    · simp [eq, blank]
    · simp [eq, blank, Ne.symm eq]

end Cache

end Xv6Labs.Bio
