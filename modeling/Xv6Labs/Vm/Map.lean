import Xv6Labs.Vm.Walk

/-!
# `mappages` adds to the map

Each round of `mappages` writes one entry. It returns -1 after the rounds for some first pages of the range, and nothing
else in the table has changed then either.
-/

namespace Xv6Labs.Vm

open Faults

variable {m m' m'' : Memory} {root va size n a b e pa perm last fuel : ℕ} {taken taken' : List ℕ}

/-- The entry that `mappages` writes. -/
def entry (pa perm : ℕ) : ℕ := pa2pte pa ||| perm ||| pteV

/-- The permissions of a leaf. -/
structure LeafPerm (perm : ℕ) : Prop where
  small : perm < 1024
  leaf : perm &&& leafBits ≠ 0

theorem LeafPerm.entry (perms : LeafPerm perm) : Vm.entry pa perm &&& pteV ≠ 0 ∧ Vm.entry pa perm &&& leafBits ≠ 0 :=
  ⟨valid_iff.mpr (entry_valid perms.small), entry_leafBits perms.leaf⟩

/-- From `m` to `m'`, the entries of `f` have been written, and tables for them added. -/
structure Writes (m m' : Memory) (root : ℕ) (taken : List ℕ) (f : ℕ → Option ℕ) :
    Prop extends Grows m m' root taken where
  ptes : ∀ b, b < maxva → m'.pte root b = (f b).getD (m.pte root b)

/-! ### One entry -/

theorem node_store {q : List (Fin 512)} (table : Table m root) (found : m.node root [px 2 a, px 1 a] = some n)
    (le : q.length ≤ 2) : (m.store (n, px 0 a) e).node root q = m.node root q :=
  Radix.node_set_last table.distinct found rfl le

theorem store_page (x : ℕ) (i : Fin 512) :
    (m.store (n, px 0 a) e).page x i = if x = n ∧ i = px 0 a then e else m.page x i := by
  change Radix.set m.page n (px 0 a) e x i = _
  by_cases here : x = n ∧ i = px 0 a
  · obtain ⟨rfl, rfl⟩ := here
    rw [if_pos ⟨rfl, rfl⟩, Radix.set_self]
  · rw [if_neg here, Radix.set_of_ne (not_and_or.mp here)]

theorem Table.writes (table : Table m root) (found : m.node root [px 2 a, px 1 a] = some n) (below : a < maxva)
    (leaf : e &&& pteV ≠ 0 → e &&& leafBits ≠ 0) :
    Writes m (m.store (n, px 0 a) e) root [] fun b => if b / pgsize = a / pgsize then some e else none where
  table := by
    refine ⟨Radix.distinct_set_last table.distinct found rfl, fun p x i short there valid => ?_,
      fun p x i deep there valid => ?_, fun x there => ?_⟩
    · rw [node_store table found short.le] at there
      have other : ¬ (x = n ∧ i = px 0 a) := by
        rintro ⟨rfl, -⟩
        have := table.distinct _ p x le_rfl short.le found there
        subst this
        exact absurd short (by simp)
      rw [store_page, if_neg other] at valid ⊢
      exact table.inner p x i short there valid
    · rw [node_store table found deep.le] at there
      rw [store_page] at valid ⊢
      split at valid
      case isTrue here =>
        rw [if_pos here]
        exact leaf valid
      case isFalse other =>
        rw [if_neg other]
        exact table.leaf p x i deep there valid
    · have before : x ∈ m.nodes root := by
        rw [Memory.nodes, ← Radix.nodes_set_last table.distinct found rfl]
        exact there
      exact table.owned x before
  image := rfl
  free := rfl
  nodes := by
    rw [Memory.nodes, Memory.nodes]
    simp only [List.not_mem_nil, Set.ofPred_false, Set.union_empty]
    exact Radix.nodes_set_last table.distinct found rfl
  others p off _ := by
    refine Function.update_of_ne ?_ _ _
    rintro rfl
    exact off (node_mem le_rfl found)
  low i _ := node_store table found (by simp)
  ptes b bound := by
    by_cases same : b / pgsize = a / pgsize
    · rw [if_pos same, pte_congr same]
      exact Radix.look_set_self table.distinct found rfl
    · rw [if_neg same]
      apply Radix.look_set_of_ne table.distinct found rfl rfl
      by_contra all
      obtain ⟨path, zero⟩ := not_or.mp all
      have path := not_not.mp path
      simp only [List.cons.injEq, and_true] at path
      exact same (page_eq_of_px bound below path.1 path.2 (not_not.mp zero))

theorem Grows.writes {f : ℕ → Option ℕ} (h : Grows m m' root taken) (ptes : ∀ a, m'.pte root a = m.pte root a)
    (h' : Writes m' m'' root taken' f) : Writes m m'' root (taken ++ taken') f where
  toGrows := h.trans h'.toGrows
  ptes b bound := by rw [h'.ptes b bound, ptes b]

theorem Writes.trans {f g : ℕ → Option ℕ} (h : Writes m m' root taken f) (h' : Writes m' m'' root taken' g) :
    Writes m m'' root (taken ++ taken') fun b => (g b).or (f b) where
  toGrows := h.toGrows.trans h'.toGrows
  ptes b bound := by
    rw [h'.ptes b bound, h.ptes b bound]
    cases g b <;> rfl

/-- One round. -/
theorem mapFrom_step {post : ℤ → Memory → Prop} (table : Table m root) (free : m.Free) (below : a < maxva)
    (perms : LeafPerm perm) (unmapped : m.pte root a &&& pteV = 0)
    (next : ∀ m' taken, Writes m m' root taken (fun b => if b / pgsize = a / pgsize then
      some (entry pa perm) else none) →
      taken.length = m.missing root a → (∀ k, m'.refuse k = m.refuse (k + taken.length)) →
      (∀ k, k < taken.length → ¬ m.Fails k) → Reaches m m' root a →
      Returns (if a = last then pure 0 else mapFrom root last perm fuel (wrap (a + pgsize)) (wrap (pa + pgsize))) m'
        post)
    (stop : ∀ m' taken k, Grows m m' root taken → (∀ b, m'.pte root b = m.pte root b) →
      k < m.missing root a → m.Fails k →
      m'.Spent m → post (-1) m') :
    Returns (mapFrom root last perm (fuel + 1) a pa) m post := by
  unfold mapFrom
  refine .bind ((walk_alloc table free below).mono fun r m₁ walked => ?_)
  cases r with
  | none =>
    obtain ⟨⟨k, less, failed⟩, spent, taken, grows, same⟩ := walked
    exact .pure (stop m₁ taken k grows same less failed spent)
  | some pte =>
    obtain ⟨x, i⟩ := pte
    obtain ⟨found, rfl, reaches, taken, ext, count⟩ := walked
    refine .bind (.reads ?_)
    have empty : m₁.page x (px 0 a) &&& pteV = 0 := by
      rw [← pte_of_node found, ext.ptes]
      exact unmapped
    refine .bind ?_
    rw [panicIf, onlyIf, if_neg (not_not.mpr empty)]
    refine .pure (.bind (.writes ?_))
    have written := ext.table.writes (e := entry pa perm) found below fun _ => perms.entry.2
    have all := ext.toGrows.writes ext.ptes written
    rw [List.append_nil] at all
    refine next _ taken all count ext.refuse ext.never ⟨⟨x, ?_⟩, fun q le one two => ?_⟩
    · exact (node_store ext.table found le_rfl).trans found
    · exact (node_store ext.table found le).trans (reaches.others q le one two)

/-! ### A range -/

theorem round_lt (aligned : a % pgsize = 0) (aligned' : last % pgsize = 0) (less : a ≤ last) (ne : a ≠ last) :
    a + pgsize ≤ last := by
  rw [pgsize] at *
  omega

/-- The entries for `k` pages from `a` on. -/
def range (a pa perm k : ℕ) (b : ℕ) : Option ℕ :=
  if a ≤ b ∧ b < a + k * pgsize then some (entry (wrap (pa + (pgrounddown b - a))) perm) else none

theorem range_zero : range a pa perm 0 = fun _ => none := by
  funext b
  rw [range, if_neg]
  omega

theorem range_succ {k : ℕ} (aligned : a % pgsize = 0) (b : ℕ) :
    range a pa perm (k + 1) b = (range (a + pgsize) (wrap (pa + pgsize)) perm k b).or
      (if b / pgsize = a / pgsize then some (entry (wrap pa) perm) else none) := by
  unfold range
  by_cases later : a + pgsize ≤ b ∧ b < a + pgsize + k * pgsize
  · rw [if_pos later, if_pos (by rw [Nat.add_mul]; omega)]
    have down : pgrounddown b - a = pgsize + (pgrounddown b - (a + pgsize)) := by
      simp only [pgrounddown, pgsize] at *
      omega
    have address : wrap (pa + (pgrounddown b - a)) = wrap (wrap (pa + pgsize) + (pgrounddown b - (a + pgsize))) := by
      rw [down]
      simp only [wrap]
      omega
    rw [address]
    rfl
  · rw [if_neg later, Option.none_or]
    by_cases first : b / pgsize = a / pgsize
    · have down : pgrounddown b - a = 0 := by
        simp only [pgrounddown, pgsize] at *
        omega
      rw [if_pos first, if_pos, down, Nat.add_zero]
      rw [Nat.add_mul]
      simp only [pgsize] at *
      omega
    · rw [if_neg first, if_neg]
      rw [Nat.add_mul]
      simp only [pgsize] at *
      omega

theorem mapFrom_spec (table : Table m root) (free : m.Free) (aligned : a % pgsize = 0) (aligned' : last % pgsize = 0)
    (le : a ≤ last) (below : last < maxva) (perms : LeafPerm perm) (bound : pa < 2 ^ 64)
    (unmapped : ∀ b, a ≤ b → b < last + pgsize → m.pte root b &&& pteV = 0) (enough : (last - a) / pgsize < fuel) :
    Returns (mapFrom root last perm fuel a pa) m fun r m' => ∃ k taken, Writes m m' root taken (range a pa perm k) ∧
      (r = 0 ∧ k = (last - a) / pgsize + 1 ∨ r = -1 ∧ k ≤ (last - a) / pgsize) := by
  induction fuel generalizing m a pa with
  | zero => exact absurd enough (Nat.not_lt_zero _)
  | succ fuel ih =>
    have last_le : last + pgsize ≤ maxva := by
      rw [maxva_eq, pgsize] at *
      omega
    refine mapFrom_step table free (lt_of_le_of_lt le below) perms (unmapped a le_rfl (by rw [pgsize]; omega))
      (fun m₁ taken writes _ _ _ _ => ?_) fun m₁ taken k grows same _ _ _ => ?_
    · have one : (fun b => if b / pgsize = a / pgsize then some (entry pa perm) else none) = range a pa perm 1 := by
        funext b
        rw [range_succ aligned, range_zero, wrap, Nat.mod_eq_of_lt bound]
        rfl
      by_cases done : a = last
      · subst done
        rw [if_pos rfl]
        refine .pure ⟨1, taken, ?_, .inl ⟨rfl, by simp⟩⟩
        rwa [one] at writes
      · have more := round_lt aligned aligned' le done
        have small : wrap (a + pgsize) = a + pgsize := by
          rw [wrap, Nat.mod_eq_of_lt]
          rw [maxva_eq] at last_le
          omega
        have rounds : (last - a) / pgsize = (last - (a + pgsize)) / pgsize + 1 := by
          rw [pgsize] at *
          omega
        rw [if_neg done, small]
        refine (ih writes.table (free.grows writes.toGrows) (by rw [pgsize] at *; omega) more ?_ ?_ (by omega)).mono ?_
        · exact Nat.mod_lt _ (by decide)
        · intro b from_ to_
          have other : b / pgsize ≠ a / pgsize := by
            rw [pgsize] at *
            omega
          rw [writes.ptes b (by omega), if_neg other]
          exact unmapped b (by omega) to_
        · rintro r m₂ ⟨k, taken', writes', ending⟩
          refine ⟨k + 1, taken ++ taken', ?_, ending.imp (fun h => ⟨h.1, by omega⟩) fun h => ⟨h.1, by omega⟩⟩
          have both := writes.trans writes'
          have same : (fun b => (range (a + pgsize) (wrap (pa + pgsize)) perm k b).or
              (if b / pgsize = a / pgsize then some (entry pa perm) else none)) = range a pa perm (k + 1) := by
            funext b
            rw [range_succ aligned]
            rw [show wrap pa = pa from Nat.mod_eq_of_lt bound]
          rwa [same] at both
    · exact ⟨0, taken, ⟨grows, fun b _ => by rw [range_zero]; exact same b⟩, .inr ⟨rfl, Nat.zero_le _⟩⟩

/-- The frame and the flags of the page of `va`. -/
def Memory.translate (m : Memory) (root va : ℕ) : Option (ℕ × ℕ) :=
  if m.pte root va &&& pteV = 0 then none else some (pte2pa (m.pte root va), pteFlags (m.pte root va))

theorem translate_entry (small : perm < 1024) (aligned : pa % pgsize = 0) (bound : pa < 2 ^ 64)
    (written : m.pte root va = entry pa perm) : m.translate root va = some (pa, perm ||| pteV) := by
  rw [Memory.translate, written, entry, if_neg (valid_iff.mpr (entry_valid small)), entry_pa small aligned bound,
    entry_flags small]

theorem translate_congr (same : m'.pte root va = m.pte root va) : m'.translate root va = m.translate root va := by
  rw [Memory.translate, same]
  rfl

theorem node_blank (blank : m.page root = fun _ => 0) (i : Fin 512) (p : List (Fin 512)) :
    m.node root (i :: p) = none := by
  simp only [Memory.node, Radix.node, blank, child_zero, Option.bind_none]

/-- A table with no entries. -/
theorem table_empty (blank : m.page root = fun _ => 0) (owned : root ∉ m.free) :
    Table m root ∧ m.nodes root = {root} ∧ ∀ a, m.pte root a = 0 := by
  have gone := node_blank blank
  have only {p : List (Fin 512)} {x : ℕ} (there : m.node root p = some x) : p = [] ∧ x = root := by
    cases p with
    | nil => exact ⟨rfl, (Option.some.inj there).symm⟩
    | cons i p => exact nomatch (gone i p).symm.trans there
  have nodes : m.nodes root = {root} := by
    ext x
    constructor
    · rintro ⟨p, -, there⟩
      exact (only there).2
    · rintro rfl
      exact Radix.root_mem_nodes
  refine ⟨⟨fun p q x _ _ there there' => (only there).1.trans (only there').1.symm, fun p x i _ there valid => ?_,
    fun p x i deep there valid => ?_, fun x mem => ?_⟩, nodes, fun a => pte_of_none (gone _ _)⟩
  · obtain ⟨-, rfl⟩ := only there
    rw [blank] at valid
    exact absurd (Nat.zero_and pteV) valid
  · obtain ⟨rfl, -⟩ := only there
    cases deep
  · rw [nodes] at mem
    cases Set.mem_singleton_iff.mp mem
    exact owned

theorem pgrounddown_le : pgrounddown a ≤ a := by
  simp only [pgrounddown, pgsize]
  omega

theorem pgrounddown_aligned : pgrounddown a % pgsize = 0 := Nat.mul_mod_left ..

theorem mappages_map (table : Table m root) (free : m.Free) (some : 0 < size) (below : va + size ≤ maxva)
    (aligned : pa % pgsize = 0) (bound : pa < 2 ^ 64) (perms : LeafPerm perm)
    (unmapped : ∀ b, pgrounddown va ≤ b → b < pgrounddown (va + size - 1) + pgsize → m.translate root b = none) :
    Returns (mappages root va size pa perm) m fun r m' => ∃ k taken,
      (r = 0 ∧ k = (pgrounddown (va + size - 1) - pgrounddown va) / pgsize + 1 ∨
        r = -1 ∧ k ≤ (pgrounddown (va + size - 1) - pgrounddown va) / pgsize) ∧
      (∀ b, pgrounddown va ≤ b → b < pgrounddown va + k * pgsize →
        m'.translate root b = Option.some (wrap (pa + (pgrounddown b - pgrounddown va)), perm ||| pteV)) ∧
      (∀ b, b < maxva → (b < pgrounddown va ∨ pgrounddown va + k * pgsize ≤ b) →
        m'.translate root b = m.translate root b) ∧
      Table m' root ∧ m.free = taken ++ m'.free ∧ m'.nodes root = m.nodes root ∪ {n | n ∈ taken} ∧
      ∀ p, p ∉ m.nodes root → p ∉ m.free → m'.page p = m.page p := by
  have last : wrap (va + size + 2 ^ 64 - 1) = va + size - 1 := by
    rw [maxva_eq] at below
    simp only [wrap]
    omega
  have le : pgrounddown va ≤ pgrounddown (va + size - 1) := by
    simp only [pgrounddown, pgsize]
    omega
  have top : pgrounddown (va + size - 1) + pgsize ≤ maxva := by
    rw [maxva_eq] at *
    simp only [pgrounddown, pgsize]
    omega
  have positive : 0 < pgsize := by decide
  unfold mappages
  rw [last]
  refine (mapFrom_spec table free pgrounddown_aligned pgrounddown_aligned le (by omega) perms bound
    (fun b from_ to_ => ?_) ?_).mono ?_
  · by_contra valid
    have := unmapped b from_ to_
    rw [Memory.translate, if_neg valid] at this
    cases this
  · rw [rounds, pgsize, maxva_eq] at *
    omega
  · rintro r m' ⟨k, taken, writes, ending⟩
    have within : pgrounddown va + k * pgsize ≤ maxva := by
      have count : k ≤ (pgrounddown (va + size - 1) - pgrounddown va) / pgsize + 1 := by omega
      have total := Nat.mul_le_mul_right pgsize count
      have whole := Nat.div_mul_le_self (pgrounddown (va + size - 1) - pgrounddown va) pgsize
      rw [Nat.add_mul, Nat.one_mul] at total
      omega
    have step (b : ℕ) : wrap (pa + (pgrounddown b - pgrounddown va)) % pgsize = 0 := by
      simp only [wrap, pgrounddown, pgsize] at aligned ⊢
      omega
    refine ⟨k, taken, ending, fun b from_ to_ => ?_, fun b bound' off => ?_, writes.table, writes.free, writes.nodes,
      writes.others⟩
    · refine translate_entry perms.small (step b) (Nat.mod_lt _ (by decide)) ?_
      rw [writes.ptes b (by omega), range, if_pos ⟨from_, to_⟩]
      rfl
    · apply translate_congr
      rw [writes.ptes b bound', range, if_neg (by omega)]
      rfl

/-- `kalloc` has given the pages `taken` for the tables on the way to `va`, and failed in none of these calls. -/
structure Granted (m m' : Memory) (root va : ℕ) (taken : List ℕ) : Prop extends Reaches m m' root va where
  refuse : ∀ k, m'.refuse k = m.refuse (k + taken.length)
  never : ∀ k, k < taken.length → ¬ m.Fails k

/-- `mappages` of one page. -/
theorem mappages_page {j : ℕ} (pa : ℕ) (table : Table m root) (free : m.Free) (below : j * pgsize < maxva)
    (perms : LeafPerm perm) (unmapped : m.pte root (j * pgsize) &&& pteV = 0) :
    Returns (mappages root (j * pgsize) pgsize pa perm) m fun r m' => ∃ taken,
      (r = 0 ∧ Writes m m' root taken (fun b => if b / pgsize = j then some (entry pa perm) else none) ∧
        taken.length = m.missing root (j * pgsize) ∧ Granted m m' root (j * pgsize) taken) ∨
      (r = -1 ∧ Grows m m' root taken ∧ (∀ b, m'.pte root b = m.pte root b) ∧ ∃ k, k < m.missing root (j * pgsize) ∧
        m.Fails k ∧ m'.Spent m) := by
  have last : pgrounddown (wrap (j * pgsize + pgsize + 2 ^ 64 - 1)) = j * pgsize := by
    rw [maxva_eq] at below
    simp only [wrap, pgrounddown, pgsize] at *
    omega
  have first : pgrounddown (j * pgsize) = j * pgsize := by rw [pgrounddown, Nat.mul_div_cancel _ (by decide)]
  have here : j * pgsize / pgsize = j := Nat.mul_div_cancel _ (by decide)
  have fuel : rounds = (2 ^ 53 - 1) + 1 := rfl
  unfold mappages
  rw [last, first, fuel]
  refine mapFrom_step table free below perms unmapped (fun m' taken writes count refuse never reaches => ?_)
    fun m' taken k grows same less failed spent => ⟨taken, .inr ⟨rfl, grows, same, k, less, failed, spent⟩⟩
  rw [if_pos rfl]
  rw [here] at writes
  exact .pure ⟨taken, .inl ⟨rfl, writes, count, reaches, refuse, never⟩⟩

/-- A table in the last pages of memory, and four free pages. -/
def blankMemory : Memory where
  image := ⟨0x80027000, 0x80008000, 0x80007000, by decide, by decide, by decide, by decide⟩
  page _ _ := 0
  free := [0x87ffe000, 0x87ffd000, 0x87ffc000, 0x87ffb000]
  refuse _ := false

theorem blankMemory_free : blankMemory.Free :=
  ⟨by decide, by decide, by decide, by decide⟩

/-- Two pages on either side of a boundary of 2 MB. -/
theorem mappages_map_boundary :
    Returns (mappages 0x87fff000 0x1fff00 0x200 0x80000000 (pteR ||| pteW)) blankMemory fun r m' => ∃ k taken,
      (r = 0 ∧ k = 2 ∨ r = -1 ∧ k ≤ 1) ∧
      (∀ b, 0x1ff000 ≤ b → b < 0x1ff000 + k * pgsize →
        m'.translate 0x87fff000 b = some (wrap (0x80000000 + (pgrounddown b - 0x1ff000)), 7)) ∧
      blankMemory.free = taken ++ m'.free ∧ m'.nodes 0x87fff000 = {0x87fff000} ∪ {n | n ∈ taken} := by
  have owned : 0x87fff000 ∉ blankMemory.free := by decide
  obtain ⟨table, nodes, ptes⟩ := table_empty rfl owned
  have perms : LeafPerm (pteR ||| pteW) := ⟨by decide, by decide⟩
  have some : 0 < 0x200 := by decide
  have below : 0x1fff00 + 0x200 ≤ maxva := by decide
  have aligned : 0x80000000 % pgsize = 0 := by decide
  refine (mappages_map table blankMemory_free some below aligned (by decide) perms fun b _ _ => ?_).mono ?_
  · rw [Memory.translate, ptes b]
    rfl
  · rintro r m' ⟨k, taken, ending, mapped, -, -, rest, nodes', -⟩
    rw [nodes] at nodes'
    exact ⟨k, taken, ending, mapped, rest, nodes'⟩

end Xv6Labs.Vm
