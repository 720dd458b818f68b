import Xv6Labs.Umalloc.Inv

/-!
# `free`

The loop of `free` ends at the free block below the freed one, after at most one round. Then the block is joined to its
neighbours or linked between them, first above and then below.
-/

namespace Xv6Labs.Umalloc.Heap

open Tiling Circular

variable {s : Heap} {base bp p x : ℕ} {xs l r m : List ℕ} {others : List Region}

/-! ### The loop -/

def Stops (s : Heap) (bp p : ℕ) : Prop := (bp > p ∧ bp < s.ptr p) ∨ (p ≥ s.ptr p ∧ (bp > p ∨ bp < s.ptr p))

theorem locate_of_stops (stops : s.Stops bp p) (fuel : ℕ) : s.locate bp (fuel + 1) p = some p := by
  unfold locate
  rcases stops with here | here
  · rw [if_pos here]
  · rw [if_pos here]
    exact ite_self _

theorem locate_of_not_stops (goes : ¬s.Stops bp p) (fuel : ℕ) :
    s.locate bp (fuel + 1) p = s.locate bp fuel (s.ptr p) := by
  rw [Stops, not_or] at goes
  rw [locate, if_neg goes.1, if_neg goes.2]

theorem locate_walk (path : Path s.ptr (m ++ [p])) (start : (m ++ [p]).head? = some x) (goes : ∀ y ∈ m, ¬s.Stops bp y)
    (fuel : ℕ) : s.locate bp fuel x = s.locate bp (fuel - m.length) p := by
  induction m generalizing x fuel with
  | nil =>
    cases start
    rfl
  | cons y m ih =>
    obtain rfl : y = x := by simpa using start
    cases fuel with
    | zero =>
      rw [Nat.zero_sub]
      rfl
    | succ fuel =>
      rw [locate_of_not_stops (goes y List.mem_cons_self), List.length_cons, Nat.add_sub_add_right]
      have next : (m ++ [p]).head? = some (s.ptr y) := by
        cases m with
        | nil =>
          obtain ⟨link, -⟩ := Path.cons_cons.mp path
          rw [link]
          rfl
        | cons z m =>
          obtain ⟨link, -⟩ := Path.cons_cons.mp path
          rw [link]
          rfl
      exact ih path.tail next (fun z mem => goes z (List.mem_cons_of_mem _ mem)) fuel

/-- Where `bp` belongs in the list. -/
theorem Ring.between (ring : s.Ring base xs) (above : base < bp) (other : bp ∉ xs) :
    ∃ l p r, xs = l ++ p :: r ∧ (∀ y ∈ l ++ [p], y < bp) ∧ ∀ y ∈ r, bp < y := by
  have lt := ring.lt
  obtain ⟨bs, rfl⟩ := ring.eq_cons
  clear ring
  induction bs generalizing base with
  | nil => exact ⟨[], base, [], rfl, by simpa using above, by simp⟩
  | cons b bs ih =>
    rw [List.pairwise_cons] at lt
    simp only [List.mem_cons, not_or] at other
    rcases Nat.lt_or_gt_of_ne other.2.1 with less | more
    · refine ⟨[], base, b :: bs, rfl, by simpa using above, fun y mem => ?_⟩
      rcases List.mem_cons.mp mem with rfl | mem
      · exact less
      · exact less.trans (List.rel_of_pairwise_cons lt.2 mem)
    · obtain ⟨l, p, r, same, below, after⟩ := ih more (by simp [other.2.1, other.2.2]) lt.2
      refine ⟨base :: l, p, r, by rw [same]; rfl, fun y mem => ?_, after⟩
      rcases List.mem_cons.mp mem with rfl | mem
      · exact above
      · exact below y mem

theorem next_of_mem {next : ℕ → ℕ} (path : Path next (l ++ [p])) (mem : x ∈ l) :
    ∃ l₁ l₂, l ++ [p] = l₁ ++ x :: next x :: l₂ := by
  obtain ⟨l₁, l₂, rfl⟩ := List.append_of_mem mem
  rw [List.append_assoc] at path
  obtain ⟨-, rest⟩ := Path.split.mp path
  cases l₂ with
  | nil =>
    obtain ⟨rfl, -⟩ := Path.cons_cons.mp rest
    exact ⟨l₁, [], by simp⟩
  | cons y l₂ =>
    obtain ⟨rfl, -⟩ := Path.cons_cons.mp rest
    exact ⟨l₁, l₂ ++ [p], by simp⟩

/-- The loop stops at one block only. -/
theorem Ring.stops_iff (ring : s.Ring base xs) (here : xs = l ++ p :: r) (below : ∀ y ∈ l ++ [p], y < bp)
    (after : ∀ y ∈ r, bp < y) (mem : x ∈ xs) : s.Stops bp x ↔ x = p := by
  have lt := ring.lt
  have above : base < bp := by
    obtain ⟨bs, same⟩ := ring.eq_cons
    cases l with
    | nil =>
      obtain ⟨rfl, -⟩ := List.cons_eq_cons.mp (here.symm.trans same)
      exact below p (by simp)
    | cons a l =>
      obtain ⟨rfl, -⟩ := List.cons_eq_cons.mp (here.symm.trans same)
      exact below a (by simp)
  have path : Path s.ptr (l ++ p :: (r ++ [base])) := by
    have whole := ring.path
    rw [here] at whole
    simpa using whole
  obtain ⟨front, back⟩ := Path.split.mp path
  rw [here] at mem lt
  constructor
  · intro stops
    by_contra other
    rw [List.mem_append, List.mem_cons] at mem
    rcases mem with mem | rfl | mem
    · -- below `p` the next block is below `bp` too
      obtain ⟨l₁, l₂, same⟩ := next_of_mem front mem
      have next := below (s.ptr x) (by rw [same]; simp)
      have up : x < s.ptr x := by
        have split : l ++ p :: r = l₁ ++ x :: s.ptr x :: (l₂ ++ r) := by
          have assoc : l ++ p :: r = (l ++ [p]) ++ r := by simp
          rw [assoc, same]
          simp
        rw [split] at lt
        have tail := (List.pairwise_append.mp lt).2.1
        exact List.rel_of_pairwise_cons tail List.mem_cons_self
      unfold Stops at stops
      omega
    · exact other rfl
    · have big := after x mem
      have ends : s.ptr x = base ∨ x < s.ptr x := by
        obtain ⟨l₁, l₂, same⟩ := next_of_mem (back.tail) mem
        cases l₂ using List.reverseRecOn with
        | nil =>
          have last : l₁ ++ [x] = r ∧ base = s.ptr x := by
            have pair : r ++ [base] = (l₁ ++ [x]) ++ [s.ptr x] := by simpa using same
            obtain ⟨first, second⟩ := List.append_inj' pair rfl
            exact ⟨first.symm, by simpa using second⟩
          exact .inl last.2.symm
        | append_singleton l₂ z =>
          have pair : r ++ [base] = (l₁ ++ x :: s.ptr x :: l₂) ++ [z] := by simpa using same
          obtain ⟨first, -⟩ := List.append_inj' pair rfl
          rw [first] at lt
          have tail := ((List.pairwise_append.mp lt).2.1.tail)
          have rest := (List.pairwise_append.mp tail).2.1
          exact .inr (List.rel_of_pairwise_cons rest List.mem_cons_self)
      unfold Stops at stops
      omega
  · rintro rfl
    have small := below x (by simp)
    cases r with
    | nil =>
      obtain ⟨link, -⟩ := Path.cons_cons.mp back
      have low := ring.base_le (x := x) (by rw [here]; simp)
      right
      omega
    | cons y r =>
      obtain ⟨link, -⟩ := Path.cons_cons.mp back
      have big := after y List.mem_cons_self
      left
      omega

/-- From wherever in the list the loop starts, it ends before it comes round. -/
theorem Ring.locate (ring : s.Ring base xs) (here : xs = l ++ p :: r) (below : ∀ y ∈ l ++ [p], y < bp)
    (after : ∀ y ∈ r, bp < y) (start : x ∈ xs) :
    ∃ k ≤ xs.length, ∀ fuel, s.locate bp fuel x = if fuel ≤ k then none else some p := by
  have stops := ring.stops_iff here below after (x := p) (by rw [here]; simp)
  have nodup := ring.nodup
  obtain ⟨l', t, same⟩ := List.append_of_mem start
  obtain ⟨bs, cons⟩ := ring.eq_cons
  have circle : Circle s.ptr base bs := by
    have path := ring.path
    rwa [cons] at path
  have round := circle.rotate (cons.symm.trans same)
  have turned : (x :: t ++ l').Perm xs := by
    rw [same]
    exact (List.perm_append_comm).trans (by simp)
  obtain ⟨m, m', walk⟩ := List.append_of_mem (turned.mem_iff.mpr (by rw [here]; simp : p ∈ xs))
  have path : Path s.ptr (m ++ [p]) := by
    rw [walk, List.append_assoc] at round
    exact (Path.split.mp round).1
  have first : (m ++ [p]).head? = some x := by
    cases m with
    | nil =>
      obtain ⟨rfl, -⟩ := List.cons_eq_cons.mp walk
      rfl
    | cons y m =>
      obtain ⟨rfl, -⟩ := List.cons_eq_cons.mp walk
      rfl
  have goes (y : ℕ) (mem : y ∈ m) : ¬s.Stops bp y := by
    intro stop
    have inside : y ∈ xs := turned.mem_iff.mp (by rw [walk]; exact List.mem_append_left _ mem)
    obtain rfl := (ring.stops_iff here below after inside).mp stop
    have distinct := turned.nodup_iff.mpr nodup
    rw [walk] at distinct
    exact (List.disjoint_of_nodup_append distinct) mem List.mem_cons_self
  have short : m.length ≤ xs.length := by
    rw [← turned.length_eq, walk, List.length_append]
    omega
  refine ⟨m.length, short, fun fuel => ?_⟩
  rw [locate_walk path first goes fuel]
  split
  case isTrue few =>
    rw [Nat.sub_eq_zero_of_le few]
    rfl
  case isFalse enough =>
    obtain ⟨n, left⟩ : ∃ n, fuel - m.length = n + 1 := ⟨fuel - m.length - 1, by omega⟩
    rw [left]
    exact locate_of_stops (stops.mpr rfl) n

/-! ### Joining -/

theorem unit_pos : 0 < unit := by decide

theorem region_length_pos (full : 0 < s.size x) : 0 < (s.region x).length := Nat.mul_pos full unit_pos

theorem map_region {s' : Heap} (same : ∀ x ∈ l, s'.size x = s.size x) : l.map s'.region = l.map s.region :=
  List.map_congr_left fun x mem => by rw [region, region, same x mem]

/-- Neither addition of sizes overflows. -/
theorem size_add_lt {got : List Region} {rs : List Region} {n k : ℕ} (tiles : Tiles (⟨p, (n + k) * unit⟩ :: rs) got)
    (bound : ∀ g ∈ got, g.stop ≤ 2 ^ 34) (full : 0 < n) : (n + k) % 2 ^ 32 = n + k := by
  have le := tiles.le List.mem_cons_self (Nat.mul_pos (by omega) unit_pos) bound
  apply Nat.mod_eq_of_lt
  simp only [Region.stop, unit] at le
  omega

/-- The block `bp` leads to the free blocks above it, but the one below does not lead to `bp` yet. -/
structure Open (s : Heap) (base : ℕ) (l : List ℕ) (p bp : ℕ) (r : List ℕ) (others : List Region) : Prop where
  before : Path s.ptr (l ++ [p])
  after : Path s.ptr (bp :: r ++ [base])
  lowest : (l ++ [p]).head? = some base
  sorted : (l ++ p :: r).Pairwise fun a b => s.stop a < b
  distinct : bp ∉ l ++ p :: r
  low : s.stop p ≤ bp
  high : ∀ y ∈ r, s.stop bp < y
  empty : s.size base = 0
  full : ∀ x ∈ l ++ p :: r, x ≠ base → 0 < s.size x
  positive : 0 < s.size bp
  above : base < bp
  tiles : Tiles (s.region bp :: ((l ++ p :: r).map s.region ++ others)) s.got
  bound : ∀ g ∈ s.got, g.stop ≤ 2 ^ 34

theorem head?_append_cons {l r : List ℕ} : (l ++ p :: r).head? = (l ++ [p]).head? := by
  cases l <;> rfl

theorem Ring.joinUpper (ring : s.Ring base (l ++ p :: r)) (below : ∀ y ∈ l ++ [p], y < bp) (after : ∀ y ∈ r, bp < y)
    (positive : 0 < s.size bp) (tiles : Tiles (s.region bp :: ((l ++ p :: r).map s.region ++ others)) s.got)
    (bound : ∀ g ∈ s.got, g.stop ≤ 2 ^ 34) :
    (∃ r', r' <:+ r ∧ (s.joinUpper bp p).Open base l p bp r' others) ∧
      (∀ x, x ≠ bp → (s.joinUpper bp p).size x = s.size x) ∧ s.size bp ≤ (s.joinUpper bp p).size bp := by
  have path : Path s.ptr (l ++ p :: (r ++ [base])) := by simpa using ring.path
  obtain ⟨front, back⟩ := Path.split.mp path
  have lowest : (l ++ [p]).head? = some base := head?_append_cons.symm.trans ring.lowest
  have above : base < bp := by
    apply below
    cases l with
    | nil =>
      cases lowest
      exact List.mem_cons_self
    | cons a l =>
      cases lowest
      exact List.mem_cons_self
  have distinct : bp ∉ l ++ p :: r := by
    intro mem
    rw [List.append_cons, List.mem_append] at mem
    rcases mem with mem | mem
    · exact absurd (below bp mem) (lt_irrefl _)
    · exact absurd (after bp mem) (lt_irrefl _)
  have apart {x : ℕ} (mem : x ∈ l ++ p :: r) (other : x ≠ base) : s.stop bp ≤ x ∨ s.stop x ≤ bp :=
    (List.rel_of_pairwise_cons tiles.apart (List.mem_append_left _ (List.mem_map_of_mem mem))).le_or_le
      (region_length_pos positive) (region_length_pos (ring.full x mem other))
  have low : s.stop p ≤ bp := by
    have less := below p (by simp)
    by_cases root : p = base
    · rw [stop, root, ring.empty]
      omega
    · have sides := apart (x := p) (by simp) root
      unfold stop at *
      omega
  have high (y : ℕ) (mem : y ∈ r) : s.stop bp ≤ y := by
    have more := after y mem
    have sides := apart (x := y) (by simp [mem]) (by omega)
    unfold stop at *
    omega
  -- `bp` leads to what is left of the blocks above
  have opened {s' : Heap} {r' : List ℕ} (suffix : r' <:+ r) (ptr : ∀ x, x ≠ bp → s'.ptr x = s.ptr x)
      (size : ∀ x, x ≠ bp → s'.size x = s.size x) (got : s'.got = s.got) (after : Path s'.ptr (bp :: r' ++ [base]))
      (high : ∀ y ∈ r', s'.stop bp < y) (grown : s.size bp ≤ s'.size bp)
      (tiles : Tiles (s'.region bp :: ((l ++ p :: r').map s.region ++ others)) s.got) :
      s'.Open base l p bp r' others := by
    have sub : (l ++ p :: r').Sublist (l ++ p :: r) := (List.Sublist.cons_cons p suffix.sublist).append_left l
    have distinct' : bp ∉ l ++ p :: r' := fun mem => distinct (sub.subset mem)
    have other (x : ℕ) (mem : x ∈ l ++ p :: r') : x ≠ bp := fun same => distinct' (same ▸ mem)
    have same (x : ℕ) (mem : x ∈ l ++ p :: r') : s'.size x = s.size x := size x (other x mem)
    constructor
    · exact front.congr fun x mem => ptr x (other x (List.mem_append_left _ mem))
    · exact after
    · exact lowest
    · refine (ring.sorted.sublist sub).imp_of_mem fun {a b} mem _ less => ?_
      rwa [stop, same a mem]
    · exact distinct'
    · rw [stop, same p (by simp)]
      exact low
    · exact high
    · rw [size base above.ne]
      exact ring.empty
    · intro x mem root
      rw [same x mem]
      exact ring.full x (sub.subset mem) root
    · exact positive.trans_le grown
    · exact above
    · rw [map_region same, got]
      exact tiles
    · rw [got]
      exact bound
  unfold Heap.joinUpper
  by_cases touches : bp + s.size bp * unit = s.ptr p
  · -- the next block starts where `bp` ends
    rw [if_pos touches]
    cases r with
    | nil =>
      obtain ⟨link, -⟩ := Path.cons_cons.mp back
      omega
    | cons y r =>
      obtain ⟨next, rest⟩ := Path.cons_cons.mp back
      have other : y ≠ bp := (after y List.mem_cons_self).ne'
      have merged : Tiles (⟨bp, (s.size bp + s.size y) * unit⟩ :: ((l ++ p :: r).map s.region ++ others)) s.got := by
        have perm : (s.region bp :: s.region y :: ((l ++ p :: r).map s.region ++ others)).Perm
            (s.region bp :: ((l ++ p :: y :: r).map s.region ++ others)) := by
          refine List.Perm.cons _ ?_
          rw [← List.cons_append, ← List.map_cons]
          refine List.Perm.append_right _ (List.Perm.map _ ?_)
          rw [List.append_cons l p r, List.append_cons l p (y :: r)]
          exact List.perm_middle.symm
        have two := tiles.perm perm
        rw [region, region, ← next, ← touches] at two
        rw [Nat.add_mul, ← next, ← touches]
        exact two.join
      have sum := size_add_lt merged bound positive
      simp only [ptr_setSize, next, sum]
      refine ⟨⟨r, List.suffix_cons y r, opened (List.suffix_cons y r) ?_ ?_ rfl ?_ ?_ ?_ ?_⟩, ?_, ?_⟩
      · intro x off
        simp [off]
      · intro x off
        simp [off]
      · refine Path.relink (p := y) rest (by simp) fun x mem => ?_
        have off : x ≠ bp := fun same => distinct (by simp [← same, mem])
        simp [off]
      · intro z mem
        have upper : s.stop y < z := by
          have tail := (List.pairwise_append.mp ring.sorted).2.1.tail
          exact List.rel_of_pairwise_cons tail mem
        simp only [stop, size_setPtr, size_setSize_self, Nat.add_mul] at upper ⊢
        omega
      · simp
      · simpa [region] using merged
      · intro x off
        simp [off]
      · simp
  · rw [if_neg touches]
    refine ⟨⟨r, List.suffix_rfl, opened List.suffix_rfl ?_ (by simp) rfl ?_ ?_ (by simp) ?_⟩, by simp, by simp⟩
    · intro x off
      simp [off]
    · refine Path.relink back (by simp) fun x mem => ?_
      have off : x ≠ bp := fun same => distinct (by simp [← same, mem])
      simp [off]
    · intro z mem
      have le := high z mem
      simp only [stop, size_setPtr] at le ⊢
      -- equal only to the first block above, which does not touch `bp`
      cases r with
      | nil => cases mem
      | cons y r =>
        obtain ⟨next, -⟩ := Path.cons_cons.mp back
        have first := high y List.mem_cons_self
        unfold stop at first
        rcases List.mem_cons.mp mem with rfl | mem
        · omega
        · have tail := (List.pairwise_append.mp ring.sorted).2.1.tail
          have upper := List.rel_of_pairwise_cons tail mem
          unfold stop at upper
          omega
    · simpa [region] using tiles

/-- Once `p` leads to `bp`, or has taken it in, the list is whole again. -/
theorem Open.joinLower (opened : s.Open base l p bp r others) :
    ∃ xs, (s.joinLower bp p).Ring base xs ∧ p ∈ xs ∧
      Tiles (xs.map (s.joinLower bp p).region ++ others) s.got ∧ (s.joinLower bp p).got = s.got ∧
      (∀ x, x ≠ p → (s.joinLower bp p).size x = s.size x) ∧
      (∃ y ∈ xs, s.size bp ≤ (s.joinLower bp p).size y) ∧ xs.length ≤ (l ++ p :: r).length + 1 := by
  have other : p ≠ bp := fun same => opened.distinct (by simp [← same])
  have sorted := opened.sorted
  have nodup : (l ++ p :: r).Nodup := sorted.imp fun less => (lt_of_le_of_lt (Nat.le_add_right _ _) less).ne
  have offL (x : ℕ) (mem : x ∈ l) : x ≠ p := by
    rintro rfl
    exact (List.disjoint_of_nodup_append nodup) mem List.mem_cons_self
  have offR (x : ℕ) (mem : x ∈ r) : x ≠ p := by
    rintro rfl
    exact (List.nodup_cons.mp (List.nodup_append.mp nodup).2.1).1 mem
  obtain ⟨front, rest, across⟩ := List.pairwise_append.mp sorted
  obtain ⟨high, back⟩ := List.pairwise_cons.mp rest
  unfold Heap.joinLower
  by_cases touches : p + s.size p * unit = bp
  · rw [if_pos touches]
    have root : p ≠ base := by
      rintro rfl
      have above := opened.above
      rw [opened.empty] at touches
      omega
    have full := opened.full p (by simp) root
    have merged : Tiles (⟨p, (s.size p + s.size bp) * unit⟩ :: ((l ++ r).map s.region ++ others)) s.got := by
      have perm : (s.region p :: s.region bp :: ((l ++ r).map s.region ++ others)).Perm
          (s.region bp :: ((l ++ p :: r).map s.region ++ others)) := by
        refine (List.Perm.swap _ _ _).trans (List.Perm.cons _ ?_)
        rw [← List.cons_append, ← List.map_cons]
        exact List.Perm.append_right _ (List.Perm.map _ List.perm_middle.symm)
      have two := opened.tiles.perm perm
      rw [region, region, ← touches] at two
      rw [Nat.add_mul, ← touches]
      convert two.join using 5
    have sum := size_add_lt merged opened.bound full
    simp only [ptr_setSize, sum]
    have stop : p + (s.size p + s.size bp) * unit = s.stop bp := by
      rw [Heap.stop, Nat.add_mul]
      omega
    refine ⟨l ++ p :: r, ⟨?_, ?_, ?_, ?_, ?_⟩, by simp, ?_, rfl, ?_, ⟨p, by simp, by simp⟩, by omega⟩
    · have back : Path s.ptr (bp :: r ++ [base]) := opened.after
      rw [List.append_assoc]
      refine Path.split.mpr ⟨opened.before.congr fun x mem => ?_, Path.relink back (by simp) fun x mem => ?_⟩
      · simp [offL x mem]
      · simp [offR x mem]
    · rw [head?_append_cons]
      exact opened.lowest
    · refine List.pairwise_append.mpr ⟨front.imp_of_mem fun {a b} mem _ less => ?_,
        List.pairwise_cons.mpr ⟨fun z mem => ?_, back.imp_of_mem fun {a b} mem _ less => ?_⟩, fun a mem b mem' => ?_⟩
      · simpa [Heap.stop, offL a mem] using less
      · have high := opened.high z mem
        rw [← stop] at high
        simpa [Heap.stop] using high
      · simpa [Heap.stop, offR a mem] using less
      · simpa [Heap.stop, offL a mem] using across a mem b mem'
    · simp [root.symm, opened.empty]
    · intro x mem off
      by_cases same : x = p
      · subst same
        simp
        omega
      · simpa [same] using opened.full x mem off
    · refine merged.perm ?_
      have same (x : ℕ) (off : x ≠ p) :
          (((s.setSize p (s.size p + s.size bp)).setPtr p (s.ptr bp)).size x) = s.size x := by
        simp [off]
      rw [List.map_append, List.map_cons, map_region fun x mem => same x (offL x mem),
        map_region fun x mem => same x (offR x mem), List.map_append, List.append_assoc, List.append_assoc]
      simp [region]
    · intro x off
      simp [off]
  · rw [if_neg touches]
    refine ⟨l ++ p :: bp :: r, ⟨?_, ?_, ?_, ?_, ?_⟩, by simp, ?_, rfl, by simp, ⟨bp, by simp, by simp⟩, by simp; omega⟩
    · have off : (s.setPtr p bp).ptr bp = s.ptr bp := ptr_setPtr_of_ne other.symm
      have back : Path (s.setPtr p bp).ptr (bp :: r ++ [base]) :=
        Path.relink opened.after off fun x mem => ptr_setPtr_of_ne (offR x mem)
      rw [List.append_assoc]
      exact Path.split.mpr ⟨opened.before.congr fun x mem => ptr_setPtr_of_ne (offL x mem),
        Path.cons_cons.mpr ⟨ptr_setPtr_self .., back⟩⟩
    · rw [head?_append_cons]
      exact opened.lowest
    · have less : s.stop p < bp := lt_of_le_of_ne opened.low touches
      refine List.pairwise_append.mpr ⟨front.imp fun {a b} less => ?_, List.pairwise_cons.mpr ⟨fun z mem => ?_,
        List.pairwise_cons.mpr ⟨fun z mem => ?_, back.imp fun {a b} less => ?_⟩⟩, fun a mem b mem' => ?_⟩
      · simpa [Heap.stop] using less
      · rcases List.mem_cons.mp mem with rfl | mem
        · simpa [Heap.stop] using less
        · simpa [Heap.stop] using high z mem
      · simpa [Heap.stop] using opened.high z mem
      · simpa [Heap.stop] using less
      · have first : s.stop a < p := across a mem p List.mem_cons_self
        have second : p ≤ s.stop p := Nat.le_add_right _ _
        simp only [Heap.stop, size_setPtr] at first second less ⊢
        rcases List.mem_cons.mp mem' with rfl | mem'
        · exact first
        rcases List.mem_cons.mp mem' with rfl | mem'
        · omega
        · exact across a mem b (List.mem_cons_of_mem _ mem')
    · rw [size_setPtr]
      exact opened.empty
    · intro x mem root
      rw [size_setPtr]
      simp only [List.mem_append, List.mem_cons] at mem
      by_cases same : x = bp
      · rw [same]
        exact opened.positive
      · exact opened.full x (by simp; tauto) root
    · refine opened.tiles.perm ?_
      have same : (l ++ p :: bp :: r).map (s.setPtr p bp).region = (l ++ p :: bp :: r).map s.region :=
        map_region fun x _ => size_setPtr ..
      rw [same, ← List.cons_append, ← List.map_cons]
      refine List.Perm.append_right _ (List.Perm.map _ ?_)
      rw [List.append_cons l p (bp :: r), List.append_cons l p r]
      exact List.perm_middle

/-- A block that is not in the list yet is found its place, and added. -/
theorem Ring.free (ring : s.Ring base xs) (freep : s.freep ∈ xs) (above : base < bp) (positive : 0 < s.size bp)
    (tiles : Tiles (s.region bp :: (xs.map s.region ++ others)) s.got) (bound : ∀ g ∈ s.got, g.stop ≤ 2 ^ 34) :
    ∃ k ≤ xs.length, ∃ s' : Heap, (∀ fuel, s.free fuel (bp + unit) = if fuel ≤ k then none else some s') ∧
      ∃ xs', s'.Ring base xs' ∧ s'.freep ∈ xs' ∧ Tiles (xs'.map s'.region ++ others) s'.got ∧ s'.got = s.got ∧
        xs'.length ≤ xs.length + 1 ∧ (∀ x, x ∉ bp :: xs → s'.size x = s.size x) ∧
        ∃ y ∈ xs', s.size bp ≤ s'.size y := by
  have outside : bp ∉ xs := by
    intro mem
    have apart := List.rel_of_pairwise_cons tiles.apart (List.mem_append_left _ (List.mem_map_of_mem mem))
    have one := apart.le_or_le (region_length_pos positive) (region_length_pos positive)
    have size := region_length_pos positive
    simp only [region, Region.stop] at one size
    omega
  obtain ⟨l, p, r, rfl, below, after⟩ := ring.between above outside
  obtain ⟨k, short, found⟩ := ring.locate rfl below after freep
  refine ⟨k, short, s.insert bp p, fun fuel => ?_, ?_⟩
  · unfold Heap.free
    dsimp only
    rw [Nat.add_sub_cancel, found]
    split <;> rfl
  · obtain ⟨⟨r', suffix, opened⟩, size, grown⟩ := ring.joinUpper below after positive tiles bound
    obtain ⟨xs, ring', mem, tiles', got, size', ⟨y, inside, large⟩, length⟩ := opened.joinLower
    have got' : (s.joinUpper bp p).got = s.got := by
      unfold Heap.joinUpper
      split <;> rfl
    have shorter : (l ++ p :: r').length ≤ (l ++ p :: r).length := by
      have le := suffix.length_le
      simp only [List.length_append, List.length_cons]
      omega
    refine ⟨xs, ⟨ring'.path, ring'.lowest, ring'.sorted, ring'.empty, ring'.full⟩, mem, ?_, got.trans got', by omega,
      fun x off => ?_, y, inside, grown.trans large⟩
    · rw [← got] at tiles'
      exact tiles'
    · simp only [List.mem_cons, List.mem_append, not_or] at off
      exact (size' x off.2.2.1).trans (size x off.1)

end Xv6Labs.Umalloc.Heap
