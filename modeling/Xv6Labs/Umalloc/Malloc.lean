import Xv6Labs.Umalloc.Free

/-!
# `malloc`

The search goes once round the list, from the block after `freep` to `freep` itself. If no block is large enough, there
is one after `morecore`, and a second round finds it.
-/

namespace Xv6Labs.Umalloc

open Tiling Circular

namespace Heap

variable {s : Heap} {base p q x nunits : ℕ} {xs l r m : List ℕ} {others : List Region} {sbrk : ℕ → Option ℕ}

theorem search_found (fits : nunits ≤ s.size p) (fuel : ℕ) :
    search sbrk nunits (fuel + 1) q p s = some (s.carve nunits q p) := by
  rw [search, if_pos fits]

theorem search_next (small : s.size p < nunits) (other : p ≠ s.freep) (fuel : ℕ) :
    search sbrk nunits (fuel + 1) q p s = search sbrk nunits fuel p (s.ptr p) s := by
  rw [search, if_neg (by omega), if_neg other]

/-- The search passes blocks that are too small. -/
theorem search_walk (sbrk : ℕ → Option ℕ) (path : Path s.ptr (q :: m ++ [p]))
    (small : ∀ y ∈ m, s.size y < nunits ∧ y ≠ s.freep) :
    ∃ q' ∈ q :: m, s.ptr q' = p ∧ ∀ fuel,
      search sbrk nunits fuel q (s.ptr q) s = search sbrk nunits (fuel - m.length) q' p s := by
  induction m generalizing q with
  | nil =>
    obtain ⟨link, -⟩ := Path.cons_cons.mp path
    exact ⟨q, by simp, link, fun fuel => by rw [link]; rfl⟩
  | cons y m ih =>
    obtain ⟨link, rest⟩ := Path.cons_cons.mp path
    obtain ⟨less, other⟩ := small y List.mem_cons_self
    obtain ⟨q', mem, link', same⟩ := ih rest fun z mem => small z (List.mem_cons_of_mem _ mem)
    refine ⟨q', List.mem_cons_of_mem _ mem, link', fun fuel => ?_⟩
    rw [link]
    cases fuel with
    | zero =>
      rw [Nat.zero_sub]
      rfl
    | succ fuel =>
      rw [search_next less other, List.length_cons, Nat.add_sub_add_right]
      exact same fuel

/-- The list from the block after `freep` round to `freep`. -/
theorem Ring.round (ring : s.Ring base xs) (freep : s.freep ∈ xs) :
    ∃ m, Path s.ptr (s.freep :: m ++ [s.freep]) ∧ (s.freep :: m).Perm xs ∧ s.freep ∉ m := by
  obtain ⟨l, t, same⟩ := List.append_of_mem freep
  obtain ⟨bs, cons⟩ := ring.eq_cons
  have circle : Circle s.ptr base bs := by
    have path := ring.path
    rwa [cons] at path
  have perm : (s.freep :: (t ++ l)).Perm xs := by
    rw [same, ← List.cons_append]
    exact List.perm_append_comm
  refine ⟨t ++ l, ?_, perm, (List.nodup_cons.mp (perm.nodup_iff.mpr ring.nodup)).1⟩
  have round := circle.rotate (cons.symm.trans same)
  rwa [List.cons_append] at round

/-- Where the search finds `p`, it has the block before `p`. -/
theorem Ring.adjacent (ring : s.Ring base xs) (mem : q ∈ xs) (root : s.ptr q ≠ base) :
    ∃ l r, xs = l ++ q :: s.ptr q :: r := by
  obtain ⟨l₁, l₂, same⟩ := next_of_mem ring.path mem
  cases l₂ using List.reverseRecOn with
  | nil =>
    have pair : xs ++ [base] = (l₁ ++ [q]) ++ [s.ptr q] := by simpa using same
    obtain ⟨-, last⟩ := List.append_inj' pair rfl
    exact absurd (by simpa using last.symm) root
  | append_singleton l₂ z =>
    have pair : xs ++ [base] = (l₁ ++ q :: s.ptr q :: l₂) ++ [z] := by simpa using same
    exact ⟨l₁, l₂, (List.append_inj' pair rfl).1⟩

theorem Ring.compare (ring : s.Ring base xs) (mem : p ∈ xs) (mem' : x ∈ xs) : x = p ∨ s.stop x < p ∨ s.stop p < x := by
  obtain ⟨i, less, rfl⟩ := List.mem_iff_getElem.mp mem
  obtain ⟨j, less', rfl⟩ := List.mem_iff_getElem.mp mem'
  have sorted := List.pairwise_iff_getElem.mp ring.sorted
  rcases Nat.lt_trichotomy j i with before | rfl | after
  · exact .inr (.inl (sorted j i less' less before))
  · exact .inl rfl
  · exact .inr (.inr (sorted i j less less' after))

/-- What a successful `malloc` does. -/
structure Carved (s : Heap) (base nunits ap : ℕ) (others : List Region) (xs : List ℕ) : Prop where
  ring : s.Ring base xs
  freep : s.freep ∈ xs
  after : unit ≤ ap
  size : s.size (ap - unit) = nunits
  tiles : Tiles (s.region (ap - unit) :: (xs.map s.region ++ others)) s.got

theorem Ring.carve (ring : s.Ring base xs) (split : xs = l ++ q :: p :: r) (fits : nunits ≤ s.size p)
    (positive : 0 < nunits) (tiles : Tiles (xs.map s.region ++ others) s.got) :
    (∃ xs', (s.carve nunits q p).2.Carved base nunits (s.carve nunits q p).1 others xs') ∧
      (s.carve nunits q p).2.got = s.got ∧
      ∀ x, (∀ y ∈ xs, ¬(s.region y).Has x) → (s.carve nunits q p).2.size x = s.size x := by
  have nodup := ring.nodup
  rw [split] at nodup
  have offL (x : ℕ) (mem : x ∈ l) : x ≠ q ∧ x ≠ p := by
    have apart := List.disjoint_of_nodup_append nodup mem
    exact ⟨fun same => apart (by simp [same]), fun same => apart (by simp [same])⟩
  obtain ⟨hq, rest⟩ := List.nodup_cons.mp (List.nodup_append.mp nodup).2.1
  obtain ⟨hp, -⟩ := List.nodup_cons.mp rest
  have other : q ≠ p := fun same => hq (by simp [same])
  unfold Heap.carve
  by_cases exact' : s.size p = nunits
  · rw [if_pos exact']
    dsimp only
    set s' : Heap := { s.setPtr q (s.ptr p) with freep := q } with taken
    have size (x : ℕ) : s'.size x = s.size x := size_setPtr ..
    have ptr {x : ℕ} (off : x ≠ q) : s'.ptr x = s.ptr x := ptr_setPtr_of_ne off
    have region (x : ℕ) : s'.region x = s.region x := by rw [Heap.region, size, Heap.region]
    have sub : (l ++ q :: r).Sublist xs := by
      rw [split]
      exact ((List.sublist_cons_self p r).cons_cons q).append_left l
    refine ⟨⟨l ++ q :: r, ⟨?_, ?_, ?_, ?_, ?_⟩, ?_, Nat.le_add_left _ _, ?_, ?_⟩, rfl, fun x _ => size x⟩
    · obtain ⟨bs, cons⟩ := ring.eq_cons
      have circle : Circle s.ptr base bs := by
        have path := ring.path
        rwa [cons] at path
      refine circle.remove (cons.symm.trans split) (ptr_setPtr_self ..)
        (fun x mem => ptr (offL x mem).1) fun x mem => ?_
      exact ptr fun same => hq (by simp [← same, mem])
    · have lowest := ring.lowest
      rw [split, head?_append_cons] at lowest
      rw [head?_append_cons]
      exact lowest
    · refine (ring.sorted.sublist sub).imp fun {a b} less => ?_
      rwa [stop, size]
    · rw [size]
      exact ring.empty
    · intro x mem root
      rw [size]
      exact ring.full x (sub.subset mem) root
    · change q ∈ _
      simp
    · rw [Nat.add_sub_cancel, size, exact']
    · rw [Nat.add_sub_cancel, region, map_region fun x _ => size x]
      refine tiles.perm ?_
      rw [← List.cons_append, ← List.map_cons, split]
      refine List.Perm.append_right _ (List.Perm.map _ ?_)
      rw [List.append_cons l q r, List.append_cons l q (p :: r)]
      exact List.perm_middle.symm
  · rw [if_neg exact']
    dsimp only
    obtain ⟨rest', more⟩ : ∃ k, s.size p = k + nunits := ⟨s.size p - nunits, by omega⟩
    have left : s.size p - nunits = rest' := by omega
    have positive' : 0 < rest' := by omega
    simp only [left, size_setSize_self]
    set h := p + rest' * unit with place
    set s' : Heap := { (s.setSize p rest').setSize h nunits with freep := q } with taken
    have further : p < h := by
      have step := Nat.mul_pos positive' unit_pos
      omega
    have size {x : ℕ} (off : x ≠ p) (off' : x ≠ h) : s'.size x = s.size x := by
      change ((s.setSize p rest').setSize h nunits).size x = s.size x
      rw [size_setSize_of_ne off', size_setSize_of_ne off]
    have sizeP : s'.size p = rest' := by
      change ((s.setSize p rest').setSize h nunits).size p = rest'
      rw [size_setSize_of_ne further.ne, size_setSize_self]
    have sizeH : s'.size h = nunits := size_setSize_self ..
    have ptr (x : ℕ) : s'.ptr x = s.ptr x := by
      change ((s.setSize p rest').setSize h nunits).ptr x = s.ptr x
      rw [ptr_setSize, ptr_setSize]
    have upper : h + nunits * unit = s.stop p := by
      rw [stop, more, Nat.add_mul]
      omega
    have inside : p ∈ xs := by simp [split]
    have off (x : ℕ) (mem : x ∈ xs) : x ≠ h := by
      have gap := Nat.mul_pos positive unit_pos
      rcases ring.compare inside mem with rfl | below | above
      · omega
      · have low : x ≤ s.stop x := Nat.le_add_right _ _
        omega
      · omega
    have root : p ≠ base := by
      rintro rfl
      rw [ring.empty] at more
      omega
    refine ⟨⟨xs, ⟨?_, ring.lowest, ?_, ?_, ?_⟩, ?_, Nat.le_add_left _ _, ?_, ?_⟩, rfl, fun x free => ?_⟩
    · exact ring.path.congr fun x _ => ptr x
    · refine ring.sorted.imp_of_mem fun {a b} mem _ less => ?_
      by_cases same : a = p
      · subst same
        rw [stop, sizeP]
        omega
      · rwa [stop, size same (off a mem)]
    · rw [size root.symm (off base ring.base_mem)]
      exact ring.empty
    · intro x mem root'
      by_cases same : x = p
      · subst same
        rw [sizeP]
        exact positive'
      · rw [size same (off x mem)]
        exact ring.full x mem root'
    · change q ∈ xs
      simp [split]
    · rw [Nat.add_sub_cancel, sizeH]
    · rw [Nat.add_sub_cancel]
      have whole : Tiles (s.region p :: ((l ++ q :: r).map s.region ++ others)) s.got := by
        refine tiles.perm ?_
        rw [← List.cons_append, ← List.map_cons, split]
        refine List.Perm.append_right _ (List.Perm.map _ ?_)
        rw [List.append_cons l q r, List.append_cons l q (p :: r)]
        exact List.perm_middle.symm
      rw [Heap.region, more, Nat.add_mul] at whole
      have same : (l ++ q :: r).map s'.region = (l ++ q :: r).map s.region := by
        refine map_region fun x mem => ?_
        have mem' : x ∈ xs := by
          rw [split]
          simp only [List.mem_append, List.mem_cons] at mem ⊢
          tauto
        refine size (fun eq => ?_) (off x mem')
        subst eq
        simp only [List.mem_append, List.mem_cons] at mem
        rcases mem with mem | mem | mem
        · exact (offL x mem).2 rfl
        · exact other mem.symm
        · exact hp mem
      have cut := whole.cut
      rw [← same] at cut
      refine (cut.perm ?_)
      have first : s'.region h = ⟨p + rest' * unit, nunits * unit⟩ := by rw [Heap.region, sizeH]
      have second : s'.region p = ⟨p, rest' * unit⟩ := by rw [Heap.region, sizeP]
      rw [split, ← first, ← second]
      refine List.Perm.trans (List.Perm.cons _ ?_) (List.Perm.swap _ _ _)
      rw [← List.cons_append, ← List.map_cons]
      refine List.Perm.append_right _ (List.Perm.map _ ?_)
      rw [List.append_cons l q r, List.append_cons l q (p :: r)]
      exact List.perm_middle
    · have gap := Nat.mul_pos positive unit_pos
      have not := free p inside
      simp only [Region.Has, Heap.region, Region.stop] at not
      unfold stop at upper
      exact size (by omega) (by omega)

/-! ### The search -/

/-- If there is a block that is large enough, the first round finds one. -/
theorem Ring.search_fits (ring : s.Ring base xs) (sbrk : ℕ → Option ℕ) (freep : s.freep ∈ xs) (positive : 0 < nunits)
    (fits : ∃ y ∈ xs, nunits ≤ s.size y) :
    ∃ k ≤ xs.length, ∃ l q p r, xs = l ++ q :: p :: r ∧ nunits ≤ s.size p ∧
      ∀ fuel, search sbrk nunits fuel s.freep (s.ptr s.freep) s = if fuel ≤ k then none
        else some (s.carve nunits q p) := by
  obtain ⟨m, path, perm, once⟩ := ring.round freep
  have same (y : ℕ) : y ∈ m ++ [s.freep] ↔ y ∈ xs := by
    rw [← perm.mem_iff]
    simp [or_comm]
  obtain ⟨p, found⟩ : ∃ p, (m ++ [s.freep]).find? (fun y => decide (nunits ≤ s.size y)) = some p := by
    obtain ⟨y, mem, large⟩ := fits
    exact Option.isSome_iff_exists.mp (List.find?_isSome.mpr ⟨y, (same y).mpr mem, by simpa using large⟩)
  obtain ⟨large, a, b, split, small⟩ := List.find?_eq_some_iff_append.mp found
  have path' : Path s.ptr (s.freep :: a ++ [p]) := by
    rw [List.cons_append, split, ← List.cons_append] at path
    exact (Path.split.mp path).1
  have sub (y : ℕ) (mem : y ∈ a) : y ∈ m := by
    cases b using List.reverseRecOn with
    | nil =>
      obtain ⟨rfl, -⟩ := List.append_inj' split rfl
      exact mem
    | append_singleton b z =>
      have pair : m ++ [s.freep] = (a ++ p :: b) ++ [z] := by simpa using split
      obtain ⟨rfl, -⟩ := List.append_inj' pair rfl
      exact List.mem_append_left _ mem
  have passed (y : ℕ) (mem : y ∈ a) : s.size y < nunits ∧ y ≠ s.freep := by
    have less := small y mem
    simp only [Bool.not_eq_true', decide_eq_false_iff_not, not_le] at less
    refine ⟨less, ?_⟩
    rintro rfl
    exact once (sub _ mem)
  have large' : nunits ≤ s.size p := by simpa using large
  have root : p ≠ base := by
    rintro rfl
    rw [ring.empty] at large'
    omega
  obtain ⟨q, mem, link, walk⟩ := search_walk sbrk path' passed
  have inside : q ∈ xs := by
    rw [← perm.mem_iff]
    rcases List.mem_cons.mp mem with rfl | mem
    · exact List.mem_cons_self
    · exact List.mem_cons_of_mem _ (sub q mem)
  obtain ⟨l, r, place⟩ := ring.adjacent inside (by rwa [link])
  rw [link] at place
  have short : a.length ≤ xs.length := by
    have length := congrArg List.length split
    have length' := perm.length_eq
    simp only [List.length_append, List.length_cons, List.length_nil] at length length'
    omega
  refine ⟨a.length, short, l, q, p, r, place, large', fun fuel => ?_⟩
  rw [walk fuel]
  split_ifs with few
  · rw [Nat.sub_eq_zero_of_le few]
    rfl
  · obtain ⟨n, left⟩ : ∃ n, fuel - a.length = n + 1 := ⟨fuel - a.length - 1, by omega⟩
    rw [left]
    exact search_found large' n

/-- If there is none, the search comes to `freep`. -/
theorem Ring.search_around (ring : s.Ring base xs) (sbrk : ℕ → Option ℕ) (freep : s.freep ∈ xs)
    (small : ∀ y ∈ xs, s.size y < nunits) :
    ∃ k, ∀ fuel, search sbrk nunits fuel s.freep (s.ptr s.freep) s = if fuel ≤ k then none else
      match s.morecore sbrk (fuel - k - 1) nunits with
      | none => none
      | some (p, s) => if p = 0 then some (0, s) else search sbrk nunits (fuel - k - 1) p (s.ptr p) s := by
  obtain ⟨m, path, perm, once⟩ := ring.round freep
  have passed (y : ℕ) (mem : y ∈ m) : s.size y < nunits ∧ y ≠ s.freep := by
    refine ⟨small y (perm.mem_iff.mp (List.mem_cons_of_mem _ mem)), ?_⟩
    rintro rfl
    exact once mem
  obtain ⟨q, -, link, walk⟩ := search_walk sbrk path passed
  refine ⟨m.length, fun fuel => ?_⟩
  rw [walk fuel]
  split_ifs with few
  · rw [Nat.sub_eq_zero_of_le few]
    rfl
  · obtain ⟨n, left⟩ : ∃ n, fuel - m.length = n + 1 := ⟨fuel - m.length - 1, by omega⟩
    have less := small s.freep freep
    rw [left, Nat.add_sub_cancel, search, if_neg (by omega)]
    exact if_pos rfl

/-- `sbrk` returns memory above all that it returned before, which the size of a process, a `uint`, can count. -/
def Fresh (s : Heap) (base : ℕ) (sbrk : ℕ → Option ℕ) : Prop :=
  ∀ n a, sbrk n = some a → base + unit ≤ a ∧ (∀ g ∈ s.got, g.stop ≤ a) ∧ a + n ≤ 2 ^ 32

/-- New memory, as a block of its own. -/
theorem Ring.more (ring : s.Ring base xs) {a n : ℕ} (root : base < a) (above : ∀ g ∈ s.got, g.stop ≤ a) {H : List ℕ}
    (live : ∀ h ∈ H, 0 < s.size h) (tiles : Tiles (xs.map s.region ++ H.map s.region) s.got)
    {s' : Heap} (now : s' = { s with got := ⟨a, n * unit⟩ :: s.got }.setSize a n) :
    s'.Ring base xs ∧ Tiles (s'.region a :: (xs.map s'.region ++ H.map s'.region)) s'.got ∧
      ∀ x, x ≠ a → s'.size x = s.size x := by
  have size (x : ℕ) (off : x ≠ a) : s'.size x = s.size x := by
    rw [now, size_setSize_of_ne off]
    rfl
  have ptr (x : ℕ) : s'.ptr x = s.ptr x := by
    rw [now, ptr_setSize]
    rfl
  have below {x : ℕ} (mem : s.region x ∈ xs.map s.region ++ H.map s.region) (full : 0 < s.size x) : s.stop x ≤ a :=
    tiles.le mem (region_length_pos full) above
  have offX (x : ℕ) (mem : x ∈ xs) : s.stop x ≤ a ∧ x ≠ a := by
    by_cases same : x = base
    · rw [same, stop, ring.empty]
      omega
    · have full := ring.full x mem same
      have le := below (List.mem_append_left _ (List.mem_map_of_mem mem)) full
      have gap := Nat.mul_pos full unit_pos
      unfold stop at *
      omega
  have offH (x : ℕ) (mem : x ∈ H) : s.stop x ≤ a ∧ x ≠ a := by
    have full := live x mem
    have le := below (List.mem_append_right _ (List.mem_map_of_mem mem)) full
    have gap := Nat.mul_pos full unit_pos
    unfold stop at *
    omega
  refine ⟨⟨?_, ring.lowest, ?_, ?_, ?_⟩, ?_, size⟩
  · exact ring.path.congr fun x _ => ptr x
  · refine ring.sorted.imp_of_mem fun {x y} mem _ less => ?_
    rwa [stop, size x (offX x mem).2]
  · rw [size base root.ne]
    exact ring.empty
  · intro x mem off
    rw [size x (offX x mem).2]
    exact ring.full x mem off
  · have first : s'.region a = ⟨a, n * unit⟩ := by rw [Heap.region, now, size_setSize_self]
    have got : s'.got = ⟨a, n * unit⟩ :: s.got := by rw [now, got_setSize]
    rw [map_region fun x mem => size x (offX x mem).2, map_region fun x mem => size x (offH x mem).2, first, got]
    refine tiles.grow fun q mem => ?_
    rw [← List.map_append] at mem
    obtain ⟨x, inside, rfl⟩ := List.mem_map.mp mem
    rcases List.mem_append.mp inside with inside | inside
    · exact (offX x inside).1
    · exact (offH x inside).1

section

variable {H : List ℕ}

/-- A round that finds a block. -/
theorem Ring.search_carves (ring : s.Ring base xs) (sbrk : ℕ → Option ℕ) (freep : s.freep ∈ xs) (positive : 0 < nunits)
    (live : ∀ h ∈ H, 0 < s.size h) (tiles : Tiles (xs.map s.region ++ H.map s.region) s.got)
    (fits : ∃ y ∈ xs, nunits ≤ s.size y) :
    ∃ k ap s', (∀ fuel, Heap.search sbrk nunits fuel s.freep (s.ptr s.freep) s = if fuel ≤ k then
      none else some (ap, s')) ∧
      (∃ xs', s'.Carved base nunits ap (H.map s'.region) xs') ∧ s'.got = s.got ∧ ∀ h ∈ H, s'.size h = s.size h := by
  obtain ⟨k, -, l, q, p, r, place, large, found⟩ := ring.search_fits sbrk freep positive fits
  obtain ⟨⟨xs', carved⟩, got, size⟩ := ring.carve place large positive tiles
  have same (h : ℕ) (mem : h ∈ H) : (s.carve nunits q p).2.size h = s.size h := by
    refine size h fun y inside there => ?_
    have apart := (List.pairwise_append.mp tiles.apart).2.2 _ (List.mem_map_of_mem inside) _ (List.mem_map_of_mem mem)
    exact apart h there ⟨le_rfl, Nat.lt_add_of_pos_right (region_length_pos (live h mem))⟩
  refine ⟨k, (s.carve nunits q p).1, (s.carve nunits q p).2, found, ⟨xs', ?_⟩, got, same⟩
  rw [map_region same]
  exact carved

/-- The units that `morecore` asks for. -/
def grain (nunits : ℕ) : ℕ := if nunits < 4096 then 4096 else nunits

theorem le_grain : nunits ≤ grain nunits := by
  unfold grain
  split <;> omega

theorem grain_pos : 0 < grain nunits := by
  unfold grain
  split <;> omega

/-- A search that finds nothing and gets no memory. -/
theorem Ring.search_fails (ring : s.Ring base xs) (freep : s.freep ∈ xs) (small : ∀ y ∈ xs, s.size y < nunits)
    (answer : sbrk (grain nunits * unit) = none) :
    ∃ N, (∀ fuel, Heap.search sbrk nunits fuel s.freep (s.ptr s.freep) s = none ∨
        Heap.search sbrk nunits fuel s.freep (s.ptr s.freep) s = some (0, s)) ∧
      ∀ fuel, N ≤ fuel → Heap.search sbrk nunits fuel s.freep (s.ptr s.freep) s = some (0, s) := by
  obtain ⟨k, around⟩ := ring.search_around sbrk freep small
  unfold morecore at around
  unfold grain at answer
  simp only [answer, if_true] at around
  refine ⟨k + 1, fun fuel => ?_, fun fuel enough => ?_⟩
  · rw [around]
    split
    · exact .inl rfl
    · exact .inr rfl
  · rw [around, if_neg (by omega)]

/-- A search that finds nothing and gets memory at `a`. -/
theorem Ring.search_grows (ring : s.Ring base xs) (freep : s.freep ∈ xs) (root : 0 < base) (positive : 0 < nunits)
    (live : ∀ h ∈ H, 0 < s.size h) (tiles : Tiles (xs.map s.region ++ H.map s.region) s.got)
    (small : ∀ y ∈ xs, s.size y < nunits) {a : ℕ} (answer : sbrk (grain nunits * unit) = some a) (low : base + unit ≤ a)
    (above : ∀ g ∈ s.got, g.stop ≤ a) (high : a + grain nunits * unit ≤ 2 ^ 34) :
    ∃ N ap s', (∀ fuel, Heap.search sbrk nunits fuel s.freep (s.ptr s.freep) s = none ∨
        Heap.search sbrk nunits fuel s.freep (s.ptr s.freep) s = some (ap, s')) ∧
      (∀ fuel, N ≤ fuel → Heap.search sbrk nunits fuel s.freep (s.ptr s.freep) s = some (ap, s')) ∧
      (∃ xs', s'.Carved base nunits ap (H.map s'.region) xs') ∧ (∀ h ∈ H, s'.size h = s.size h) ∧
        s'.got = ⟨a, grain nunits * unit⟩ :: s.got := by
  obtain ⟨k, around⟩ := ring.search_around sbrk freep small
  unfold morecore at around
  have enough := @le_grain nunits
  have some_ := @grain_pos nunits
  change sbrk ((if nunits < 4096 then 4096 else nunits) * unit) = some a at answer
  change a + (if nunits < 4096 then 4096 else nunits) * unit ≤ 2 ^ 34 at high
  unfold grain at enough some_ ⊢
  set nu := if nunits < 4096 then 4096 else nunits with size
  simp only [answer] at around
  rw [unit] at low
  obtain ⟨ring₁, tiles₁, size₁⟩ := ring.more (n := nu) (by omega) above live tiles rfl
  set s₁ := { s with got := ⟨a, nu * unit⟩ :: s.got }.setSize a nu with more
  have sizeA : s₁.size a = nu := size_setSize_self ..
  have bound (g : Region) (mem : g ∈ s₁.got) : g.stop ≤ 2 ^ 34 := by
    rcases List.mem_cons.mp mem with rfl | mem
    · exact high
    · exact (above g mem).trans (le_self_add.trans high)
  obtain ⟨k₂, -, s₂, freed, xs₂, ring₂, freep₂, tiles₂, got₂, -, size₂, y, inside, large⟩ :=
    ring₁.free freep (by omega) (by rw [sizeA]; omega) tiles₁ bound
  have aboveH (h : ℕ) (mem : h ∈ H) : h < a := by
    have le := tiles.le (List.mem_append_right _ (List.mem_map_of_mem mem)) (region_length_pos (live h mem)) above
    have gap := region_length_pos (live h mem)
    simp only [Region.stop, Heap.region] at le gap
    omega
  have offX (h : ℕ) (mem : h ∈ H) : h ∉ xs := by
    intro inside
    have apart := (List.pairwise_append.mp tiles.apart).2.2 _ (List.mem_map_of_mem inside) _ (List.mem_map_of_mem mem)
    have has : (s.region h).Has h := ⟨le_rfl, Nat.lt_add_of_pos_right (region_length_pos (live h mem))⟩
    exact apart h has has
  have sizeH (h : ℕ) (mem : h ∈ H) : s₂.size h = s.size h := by
    have less := aboveH h mem
    rw [size₂ h (by simp [offX h mem, less.ne]), size₁ h less.ne]
  have live₂ (h : ℕ) (mem : h ∈ H) : 0 < s₂.size h := by
    rw [sizeH h mem]
    exact live h mem
  have tiles₃ : Tiles (xs₂.map s₂.region ++ H.map s₂.region) s₂.got := by
    have same : H.map s₁.region = H.map s₂.region :=
      map_region fun h mem => by rw [sizeH h mem, size₁ h (aboveH h mem).ne]
    rw [← same]
    exact tiles₂
  obtain ⟨k₃, ap, s₃, found, carved, got₃, size₃⟩ :=
    ring₂.search_carves sbrk freep₂ positive live₂ tiles₃ ⟨y, inside, by omega⟩
  have nonzero : s₂.freep ≠ 0 := by
    have low := ring₂.base_le freep₂
    omega
  simp only [freed] at around
  refine ⟨k + k₂ + k₃ + 3, ap, s₃, fun fuel => ?_, fun fuel many => ?_, carved, fun h mem => ?_, ?_⟩
  · rw [around]
    split_ifs with few few'
    · exact .inl rfl
    · exact .inl rfl
    · simp only [Option.map_some, nonzero, if_false, found]
      split
      · exact .inl rfl
      · exact .inr rfl
  · rw [around, if_neg (by omega), if_neg (by omega)]
    simp only [Option.map_some, nonzero, if_false, found]
    rw [if_neg (by omega)]
  · rw [size₃ h mem, sizeH h mem]
  · rw [got₃, got₂]
    rfl

/-- `malloc` after its start, with the blocks `H` in use: with enough fuel it returns, and always the same. -/
theorem Ring.search (ring : s.Ring base xs) (freep : s.freep ∈ xs) (root : 0 < base) (positive : 0 < nunits)
    (live : ∀ h ∈ H, 0 < s.size h) (tiles : Tiles (xs.map s.region ++ H.map s.region) s.got)
    (got : ∀ g ∈ s.got, base + unit ≤ g.start ∧ g.stop ≤ 2 ^ 32) (fresh : s.Fresh base sbrk) :
    ∃ N ap s', (∀ fuel, Heap.search sbrk nunits fuel s.freep (s.ptr s.freep) s = none ∨
        Heap.search sbrk nunits fuel s.freep (s.ptr s.freep) s = some (ap, s')) ∧
      (∀ fuel, N ≤ fuel → Heap.search sbrk nunits fuel s.freep (s.ptr s.freep) s = some (ap, s')) ∧
      (ap = 0 ∧ s' = s ∨ (∃ xs', s'.Carved base nunits ap (H.map s'.region) xs') ∧ (∀ h ∈ H, s'.size h = s.size h) ∧
        ∀ g ∈ s'.got, base + unit ≤ g.start ∧ g.stop ≤ 2 ^ 32) := by
  by_cases fits : ∃ y ∈ xs, nunits ≤ s.size y
  · obtain ⟨k, ap, s', found, carved, got', size⟩ := ring.search_carves sbrk freep positive live tiles fits
    refine ⟨k + 1, ap, s', fun fuel => ?_, fun fuel enough => ?_, .inr ⟨carved, size, ?_⟩⟩
    · rw [found]
      split
      · exact .inl rfl
      · exact .inr rfl
    · rw [found, if_neg (by omega)]
    · rw [got']
      exact got
  push Not at fits
  cases answer : sbrk (grain nunits * unit) with
  | none =>
    obtain ⟨N, all, many⟩ := ring.search_fails freep fits answer
    exact ⟨N, 0, s, all, many, .inl ⟨rfl, rfl⟩⟩
  | some a =>
    obtain ⟨low, above, high⟩ := fresh _ a answer
    obtain ⟨N, ap, s', all, many, carved, size, got'⟩ :=
      ring.search_grows freep root positive live tiles fits answer low above (high.trans (by decide))
    refine ⟨N, ap, s', all, many, .inr ⟨carved, size, fun g mem => ?_⟩⟩
    rw [got'] at mem
    rcases List.mem_cons.mp mem with rfl | mem
    · exact ⟨low, high⟩
    · exact got g mem

end

end Heap

end Xv6Labs.Umalloc
