import Xv6Labs.Vm.Map

/-!
# Mapping regions

The tables that a range of addresses needs depend on the blocks of 2 MB it lies in: one last table for each block,
and one table above it for every 512 blocks. So the number of pages that a list of mappings takes is known before the
first of them is made.
-/

namespace Xv6Labs.Vm

open Faults

variable {m m' m'' : Memory} {root va a b pa perm last fuel : ℕ} {taken taken' : List ℕ} {B C : Finset ℕ}

/-- The size of a block. -/
def blocksize : ℕ := 512 * pgsize

/-- The number of tables for the addresses in some blocks, without the root. -/
def tableCount (B : Finset ℕ) : ℕ := (B.image (· / 512)).card + B.card

/-- There are tables for the addresses in `B`, and no others. -/
structure Covers (m : Memory) (root : ℕ) (B : Finset ℕ) : Prop where
  upper : ∀ i : Fin 512, m.node root [i] ≠ none ↔ i.val ∈ B.image (· / 512)
  lower : ∀ i j : Fin 512, m.node root [i, j] ≠ none ↔ i.val * 512 + j.val ∈ B

theorem tableCount_mono (sub : B ⊆ C) : tableCount B ≤ tableCount C :=
  Nat.add_le_add (Finset.card_le_card (Finset.image_subset_image sub)) (Finset.card_le_card sub)

theorem px_upper (below : va < maxva) : (px 2 va).val = va / blocksize / 512 := by
  rw [px_val, blocksize, pgsize]
  rw [maxva_eq] at below
  norm_num
  omega

theorem px_lower : (px 1 va).val = va / blocksize % 512 := by
  rw [px_val, blocksize, pgsize]
  norm_num

theorem px_both (below : va < maxva) : (px 2 va).val * 512 + (px 1 va).val = va / blocksize := by
  rw [px_upper below, px_lower, Nat.div_add_mod']

theorem blank_covers (blank : m.page root = fun _ => 0) : Covers m root ∅ :=
  ⟨fun i => by simp [node_blank blank], fun i j => by simp [node_blank blank]⟩

theorem Covers.reaches (covers : Covers m root B) (below : va < maxva) (reaches : Reaches m m' root va) :
    Covers m' root (insert (va / blocksize) B) := by
  obtain ⟨x, found⟩ := reaches.found
  have upper : m'.node root [px 2 va] ≠ none := by
    intro gone
    have := Radix.node_gone (q := [px 2 va, px 1 va]) ⟨[_], rfl⟩ gone
    exact absurd (found.symm.trans this) (by simp)
  refine ⟨fun i => ?_, fun i j => ?_⟩
  · rw [Finset.image_insert, Finset.mem_insert, ← px_upper below]
    by_cases here : i = px 2 va
    · rw [here]
      exact iff_of_true upper (.inl rfl)
    · rw [reaches.others [i] (by simp) (by simpa using here) (by simp), covers.upper]
      exact ⟨.inr, fun either => either.resolve_left fun same => here (Fin.ext same)⟩
  · rw [Finset.mem_insert, ← px_both below]
    by_cases here : i = px 2 va ∧ j = px 1 va
    · rw [here.1, here.2, found]
      exact iff_of_true (by simp) (.inl rfl)
    · rw [reaches.others [i, j] (by simp) (by simp) (by simpa using here), covers.lower]
      refine ⟨.inr, fun either => either.resolve_left fun same => here ⟨Fin.ext ?_, Fin.ext ?_⟩⟩ <;> omega

theorem absent_eq (x : Option ℕ) : absent x = if x ≠ none then 0 else 1 := by
  cases x <;> rfl

/-- `walk` takes a page for each of the tables that a block adds. -/
theorem Covers.missing (covers : Covers m root B) (below : va < maxva) :
    m.missing root va + tableCount B = tableCount (insert (va / blocksize) B) := by
  have upper : absent (m.node root [px 2 va]) = if va / blocksize / 512 ∈ B.image (· / 512) then 0 else 1 := by
    rw [absent_eq, ← px_upper below]
    exact if_congr (covers.upper _) rfl rfl
  have lower : absent (m.node root [px 2 va, px 1 va]) = if va / blocksize ∈ B then 0 else 1 := by
    rw [absent_eq]
    refine if_congr ?_ rfl rfl
    rw [covers.lower, px_both below]
  rw [Memory.missing, upper, lower, tableCount, tableCount, Finset.image_insert, Finset.card_insert_eq_ite,
    Finset.card_insert_eq_ite]
  split <;> split <;> omega

/-! ### The blocks of a range -/

def blocksFrom (a last : ℕ) : Finset ℕ := Finset.Icc (a / blocksize) (last / blocksize)

theorem blocksFrom_self : blocksFrom a a = {a / blocksize} := Finset.Icc_self _

theorem blocksFrom_succ (aligned : a % pgsize = 0) (le : a + pgsize ≤ last) :
    insert (a / blocksize) (blocksFrom (a + pgsize) last) = blocksFrom a last := by
  ext x
  simp only [blocksFrom, Finset.mem_insert, Finset.mem_Icc, blocksize]
  rw [pgsize] at *
  omega

/-- What `mappages` has done for a range: the entries `f` are written, with the tables `taken` for the blocks `C`. -/
structure Lays (m m' : Memory) (root : ℕ) (taken : List ℕ) (f : ℕ → Option ℕ) (B C : Finset ℕ) : Prop
    extends Writes m m' root taken f where
  covers : Covers m' root (B ∪ C)
  count : taken.length + tableCount B = tableCount (B ∪ C)
  refuse : ∀ k, m'.refuse k = m.refuse (k + taken.length)
  never : ∀ k, k < taken.length → ¬ m.Fails k

/-- One of the tables for the blocks `C` cannot be allocated. -/
def Memory.Lacks (m : Memory) (B C : Finset ℕ) : Prop := ∃ k, tableCount B + k < tableCount (B ∪ C) ∧ m.Fails k

theorem Table.lays (table : Table m root) (covers : Covers m root B) : Lays m m root [] (fun _ => none) B ∅ where
  toWrites := ⟨table.refl, fun _ _ => rfl⟩
  covers := by rwa [Finset.union_empty]
  count := by rw [Finset.union_empty, List.length_nil, Nat.zero_add]
  refuse _ := rfl
  never k less := absurd less (Nat.not_lt_zero k)

theorem Lays.trans {f g : ℕ → Option ℕ} {D : Finset ℕ} (h : Lays m m' root taken f B C)
    (h' : Lays m' m'' root taken' g (B ∪ C) D) :
    Lays m m'' root (taken ++ taken') (fun b => (g b).or (f b)) B (C ∪ D) where
  toWrites := h.toWrites.trans h'.toWrites
  covers := by
    rw [← Finset.union_assoc]
    exact h'.covers
  count := by
    have first := h.count
    have second := h'.count
    rw [List.length_append, ← Finset.union_assoc]
    omega
  refuse k := by rw [h'.refuse, h.refuse, List.length_append, Nat.add_assoc, Nat.add_comm taken'.length]
  never k less := by
    by_cases first : k < taken.length
    · exact h.never k first
    · have later := h'.never (k - taken.length) (by rw [List.length_append] at less; omega)
      rwa [h.toGrows.fails_iff h.refuse, Nat.sub_add_cancel (Nat.le_of_not_lt first)] at later

theorem Lays.lacks {f : ℕ → Option ℕ} {D : Finset ℕ} (h : Lays m m' root taken f B C) (lacks : m'.Lacks (B ∪ C) D) :
    m.Lacks B (C ∪ D) := by
  obtain ⟨k, less, failed⟩ := lacks
  have count := h.count
  refine ⟨k + taken.length, ?_, (h.toGrows.fails_iff h.refuse k).mp failed⟩
  rw [← Finset.union_assoc]
  omega

theorem Memory.Lacks.mono {D : Finset ℕ} (lacks : m.Lacks B C) (sub : C ⊆ D) : m.Lacks B D := by
  obtain ⟨k, less, failed⟩ := lacks
  exact ⟨k, less.trans_le (tableCount_mono (Finset.union_subset_union_right sub)), failed⟩

theorem mapFrom_lays (fuel : ℕ) (table : Table m root) (free : m.Free) (covers : Covers m root B)
    (aligned : a % pgsize = 0)
    (aligned' : last % pgsize = 0) (le : a ≤ last) (below : last < maxva) (perms : LeafPerm perm) (bound : pa < 2 ^ 64)
    (unmapped : ∀ b, a ≤ b → b < last + pgsize → m.pte root b &&& pteV = 0) (enough : (last - a) / pgsize < fuel) :
    Returns (mapFrom root last perm fuel a pa) m fun r m' =>
      (r = 0 ∧ ∃ taken, Lays m m' root taken (range a pa perm ((last - a) / pgsize + 1)) B (blocksFrom a last)) ∨
      (r = -1 ∧ m.Lacks B (blocksFrom a last)) := by
  induction fuel generalizing m a pa B with
  | zero => exact absurd enough (Nat.not_lt_zero _)
  | succ fuel ih =>
    have last_le : last + pgsize ≤ maxva := by
      rw [maxva_eq, pgsize] at *
      omega
    have below_a : a < maxva := lt_of_le_of_lt le below
    have one : (fun b => if b / pgsize = a / pgsize then some (entry pa perm) else none) = range a pa perm 1 := by
      funext b
      rw [range_succ aligned, range_zero, wrap, Nat.mod_eq_of_lt bound]
      rfl
    have first : a / blocksize ∈ blocksFrom a last := Finset.mem_Icc.mpr ⟨le_rfl, Nat.div_le_div_right le⟩
    refine mapFrom_step table free below_a perms (unmapped a le_rfl (by rw [pgsize]; omega))
      (fun m₁ taken writes count refuse never reaches => ?_) fun m₁ taken k _ _ less failed _ => ?_
    · have lays : Lays m m₁ root taken (range a pa perm 1) B {a / blocksize} := by
        rw [one] at writes
        have same : B ∪ {a / blocksize} = insert (a / blocksize) B := by rw [Finset.union_comm]; rfl
        refine ⟨writes, ?_, ?_, refuse, never⟩
        · rw [same]
          exact covers.reaches below_a reaches
        · rw [same, count]
          exact covers.missing below_a
      by_cases done : a = last
      · subst done
        rw [if_pos rfl, blocksFrom_self, Nat.sub_self, Nat.zero_div, Nat.zero_add]
        exact .pure (.inl ⟨rfl, taken, lays⟩)
      · have more := round_lt aligned aligned' le done
        have small : wrap (a + pgsize) = a + pgsize := by
          rw [wrap, Nat.mod_eq_of_lt]
          rw [maxva_eq] at last_le
          omega
        have rounds : (last - a) / pgsize = (last - (a + pgsize)) / pgsize + 1 := by
          rw [pgsize] at *
          omega
        have blocks : {a / blocksize} ∪ blocksFrom (a + pgsize) last = blocksFrom a last := blocksFrom_succ aligned more
        have bound' : wrap (pa + pgsize) < 2 ^ 64 := Nat.mod_lt _ (by decide)
        rw [if_neg done, small]
        refine (ih lays.table (free.grows lays.toGrows) lays.covers (by rw [pgsize] at *; omega) more bound'
          (fun b from_ to_ => ?_) (by omega)).mono ?_
        · have other : b / pgsize ≠ a / pgsize := by
            rw [pgsize] at *
            omega
          rw [writes.ptes b (by omega), if_neg other]
          exact unmapped b (by omega) to_
        · rintro r m₂ (⟨rfl, taken', lays'⟩ | ⟨rfl, lacks⟩)
          · have both := lays.trans lays'
            have same : (fun b => (range (a + pgsize) (wrap (pa + pgsize)) perm
              ((last - (a + pgsize)) / pgsize + 1) b).or
                (range a pa perm 1 b)) = range a pa perm ((last - a) / pgsize + 1) := by
              funext b
              rw [← congrFun one b, rounds, range_succ aligned, show wrap pa = pa from Nat.mod_eq_of_lt bound]
            rw [same, blocks] at both
            exact .inl ⟨rfl, _, both⟩
          · refine .inr ⟨rfl, ?_⟩
            rw [← blocks]
            exact lays.lacks lacks
    · refine .inr ⟨rfl, Memory.Lacks.mono (C := {a / blocksize}) ⟨k, ?_, failed⟩
        (Finset.singleton_subset_iff.mpr first)⟩
      have count := covers.missing below_a
      rw [Finset.union_comm, ← Finset.insert_eq]
      omega


/-! ### Regions -/

/-- The arguments of a call of `mappages`. -/
structure Region where
  va : ℕ
  pa : ℕ
  size : ℕ
  perm : ℕ
deriving DecidableEq

namespace Region

variable {r s : Region}

structure Fits (r : Region) : Prop where
  some : 0 < r.size
  start : r.va % pgsize = 0
  whole : r.size % pgsize = 0
  frame : r.pa % pgsize = 0
  below : r.va + r.size ≤ maxva
  bound : r.pa + r.size ≤ 2 ^ 64
  perms : LeafPerm r.perm

def Has (r : Region) (b : ℕ) : Prop := r.va ≤ b ∧ b < r.va + r.size

instance : Decidable (r.Has b) := inferInstanceAs (Decidable (r.va ≤ b ∧ b < r.va + r.size))

/-- The entry of a page of the region. -/
def entry (r : Region) (b : ℕ) : Option ℕ :=
  if r.Has b then Option.some (Vm.entry (r.pa + (pgrounddown b - r.va)) r.perm) else none

def Apart (r s : Region) : Prop := r.va + r.size ≤ s.va ∨ s.va + s.size ≤ r.va

instance : Decidable (r.Apart s) := inferInstanceAs (Decidable (_ ∨ _))

def blocks (r : Region) : Finset ℕ := blocksFrom r.va (r.va + r.size - pgsize)

theorem Apart.not_has (apart : r.Apart s) (here : r.Has b) : ¬ s.Has b := by
  simp only [Apart, Has] at *
  omega

theorem range_entry (fits : r.Fits) :
    range r.va r.pa r.perm ((r.va + r.size - pgsize - r.va) / pgsize + 1) = r.entry := by
  have some := fits.some
  have whole := fits.whole
  have bound := fits.bound
  have start := fits.start
  have pages : ((r.va + r.size - pgsize - r.va) / pgsize + 1) * pgsize = r.size := by
    rw [pgsize] at *
    omega
  funext b
  rw [range, entry, pages]
  refine if_ctx_congr Iff.rfl (fun here => ?_) fun _ => rfl
  obtain ⟨from_, to_⟩ := here
  have down := pgrounddown_le (a := b)
  rw [wrap, Nat.mod_eq_of_lt (by omega)]

theorem Fits.mappages_lays (fits : r.Fits) (table : Table m root) (free : m.Free) (covers : Covers m root B)
    (unmapped : ∀ b, r.Has b → m.pte root b &&& pteV = 0) :
    Returns (mappages root r.va r.size r.pa r.perm) m fun x m' =>
      (x = 0 ∧ ∃ taken, Lays m m' root taken r.entry B r.blocks) ∨ (x = -1 ∧ m.Lacks B r.blocks) := by
  have some := fits.some
  have whole := fits.whole
  have start := fits.start
  have below := fits.below
  have bound := fits.bound
  have first : pgrounddown r.va = r.va := by
    rw [pgrounddown, pgsize] at *
    omega
  have last : pgrounddown (wrap (r.va + r.size + 2 ^ 64 - 1)) = r.va + r.size - pgsize := by
    rw [maxva_eq] at below
    rw [pgsize] at whole start
    simp only [wrap, pgrounddown, pgsize]
    omega
  have le : r.va ≤ r.va + r.size - pgsize := by
    rw [pgsize] at *
    omega
  have page : pgsize ≤ r.size := by
    rw [pgsize] at *
    omega
  have positive : 0 < pgsize := by decide
  have aligned : (r.va + r.size - pgsize) % pgsize = 0 := by
    rw [pgsize] at *
    omega
  unfold mappages
  rw [last, first]
  have mapped := mapFrom_lays rounds table free covers start aligned le (by omega) fits.perms
    (by omega : r.pa < 2 ^ 64)
    (fun b from_ to_ => unmapped b ⟨from_, by omega⟩) (by rw [rounds, pgsize, maxva_eq] at *; omega)
  rw [range_entry fits] at mapped
  exact mapped

end Region

/-! ### A list of regions -/

def entries (l : List Region) (b : ℕ) : Option ℕ := l.findSome? fun r => r.entry b

def blocksOf : List Region → Finset ℕ
  | [] => ∅
  | r :: l => r.blocks ∪ blocksOf l

theorem entries_cons {r : Region} {l : List Region} : entries (r :: l) b = (r.entry b).or (entries l b) := by
  rw [entries, List.findSome?_cons]
  cases r.entry b <;> rfl

theorem entries_none {l : List Region} : entries l b = none ↔ ∀ r ∈ l, ¬ r.Has b := by
  simp [entries, List.findSome?_eq_none_iff, Region.entry]

/-- What the calls for a list of regions do, in order. -/
def mapRegions (root : ℕ) (text : String) (l : List Region) : Code Unit :=
  each (fun r => do
    let x ← mappages root r.va r.size r.pa r.perm
    panicIf (x ≠ 0) text) l

/-- The regions are mapped one after another until a table for one of them cannot be allocated. -/
theorem mapRegions_lays (text : String) {l : List Region} (table : Table m root) (free : m.Free)
    (covers : Covers m root B) (fits : ∀ r ∈ l, r.Fits) (apart : l.Pairwise Region.Apart)
    (unmapped : ∀ r ∈ l, ∀ b, r.Has b → m.pte root b &&& pteV = 0) :
    Returns (mapRegions root text l) m (fun _ m' => ∃ taken, Lays m m' root taken (entries l) B (blocksOf l)) ∨
      mapRegions root text l m = .error (.panic text) ∧ m.Lacks B (blocksOf l) := by
  induction l generalizing m B with
  | nil => exact .inl (.pure ⟨[], table.lays covers⟩)
  | cons r l ih =>
    have fits_r := fits r List.mem_cons_self
    obtain ⟨apart_r, apart⟩ := List.pairwise_cons.mp apart
    obtain ⟨x, m₁, ran, done⟩ := fits_r.mappages_lays table free covers (unmapped r List.mem_cons_self)
    rcases done with ⟨rfl, taken, lays⟩ | ⟨rfl, lacks⟩
    · have unmapped₁ (s : Region) (mem : s ∈ l) (b : ℕ) (here : s.Has b) : m₁.pte root b &&& pteV = 0 := by
        have bound : b < maxva := lt_of_lt_of_le here.2 (fits s (List.mem_cons_of_mem _ mem)).below
        have out : ¬ r.Has b := fun there => (apart_r s mem).not_has there here
        rw [lays.ptes b bound, Region.entry, if_neg out]
        exact unmapped s (List.mem_cons_of_mem _ mem) b here
      have step {post : Unit → Memory → Prop} (rest : Returns (mapRegions root text l) m₁ post) :
          Returns (mapRegions root text (r :: l)) m post := .bind (.bind ⟨0, m₁, ran, .pure rest⟩)
      obtain later | ⟨failed, lacks⟩ := ih lays.table (free.grows lays.toGrows) lays.covers
        (fun s mem => fits s (List.mem_cons_of_mem _ mem)) apart unmapped₁
      · refine .inl (step (later.mono ?_))
        rintro - m₂ ⟨taken', lays'⟩
        have both := lays.trans lays'
        have same : (fun b => (entries l b).or (r.entry b)) = entries (r :: l) := by
          funext b
          rw [entries_cons]
          by_cases here : r.Has b
          · rw [entries_none.mpr fun s mem => (apart_r s mem).not_has here, Option.none_or, Option.or_none]
          · rw [Region.entry, if_neg here, Option.none_or, Option.or_none]
        rw [same] at both
        exact ⟨_, both⟩
      · refine .inr ⟨?_, lays.lacks lacks⟩
        exact fails_bind (.bind ⟨0, m₁, ran, .pure failed⟩)
    · refine .inr ⟨?_, lacks.mono Finset.subset_union_left⟩
      change ((mappages root r.va r.size r.pa r.perm m >>= fun p => panicIf (p.1 ≠ 0) text p.2) >>= _) = _
      rw [ran]
      rfl

end Xv6Labs.Vm
