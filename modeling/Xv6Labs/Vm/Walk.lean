import Xv6Labs.Vm.Table

/-!
# What `walk` does

Without `alloc` it only looks. With `alloc` it needs as many pages as there are tables missing on its way, and returns 0
exactly if `kalloc` fails for one of them.
-/

namespace Xv6Labs.Vm

open Faults

variable {m m' : Memory} {root va n a : ℕ} {i : Fin 512} {p : List (Fin 512)} {taken : List ℕ}

def pathFrom (va : ℕ) : ℕ → List (Fin 512)
  | 0 => []
  | level + 1 => px (level + 1) va :: pathFrom va level

theorem walkFrom_look (level n : ℕ) : Returns (walkFrom va false level n) m fun r m' =>
    m' = m ∧ r = (m.node n (pathFrom va level)).map fun x => (x, px 0 va) := by
  induction level generalizing n with
  | zero => exact .pure ⟨rfl, rfl⟩
  | succ level ih =>
    unfold walkFrom
    refine .bind (.reads ?_)
    by_cases valid : m.page n (px (level + 1) va) &&& pteV ≠ 0
    · have step : m.node n (pathFrom va (level + 1)) = m.node (pte2pa (m.page n (px (level + 1) va)))
          (pathFrom va level) := by
        simp only [Memory.node, pathFrom, Radix.node, child, if_pos valid, Option.bind_some]
      rw [if_pos valid, step]
      exact ih _
    · have step : m.node n (pathFrom va (level + 1)) = none := by
        simp only [Memory.node, pathFrom, Radix.node, child, if_neg valid, Option.bind_none]
      rw [if_neg valid, step]
      exact .pure ⟨rfl, rfl⟩

theorem walk_look (below : va < maxva) : Returns (walk root va false) m fun r m' =>
    m' = m ∧ r = (m.node root [px 2 va, px 1 va]).map fun x => (x, px 0 va) := by
  unfold walk
  rw [if_neg (Nat.not_le.mpr below)]
  exact walkFrom_look 2 root

theorem pte_of_node (found : m.node root [px 2 va, px 1 va] = some n) : m.pte root va = m.page n (px 0 va) := by
  simp only [Memory.pte, Radix.look]
  rw [show Radix.node child m.page root [px 2 va, px 1 va] = some n from found]

theorem pte_of_none (gone : m.node root [px 2 va, px 1 va] = none) : m.pte root va = 0 := by
  simp only [Memory.pte, Radix.look]
  rw [show Radix.node child m.page root [px 2 va, px 1 va] = none from gone]

/-- The physical address of a user page, as `walkaddr` finds it. -/
def Memory.userPa (m : Memory) (root va : ℕ) : ℕ :=
  if maxva ≤ va ∨ m.pte root va &&& pteV = 0 ∨ m.pte root va &&& pteU = 0 then 0 else pte2pa (m.pte root va)

theorem walkaddr_eq : Returns (walkaddr root va) m fun r m' => m' = m ∧ r = m.userPa root va := by
  unfold walkaddr
  by_cases above : maxva ≤ va
  · rw [if_pos above]
    exact .pure ⟨rfl, by rw [Memory.userPa, if_pos (.inl above)]⟩
  rw [if_neg above]
  refine .bind ((walk_look (Nat.lt_of_not_le above)).mono ?_)
  rintro r m' ⟨same, look⟩
  rw [same, look]
  cases found : m.node root [px 2 va, px 1 va] with
  | none =>
    refine .pure ⟨rfl, ?_⟩
    rw [Memory.userPa, pte_of_none found, if_pos (.inr (.inl rfl))]
  | some n =>
    refine .bind (.reads ?_)
    rw [Memory.userPa, pte_of_node found]
    by_cases valid : m.page n (px 0 va) &&& pteV = 0
    · rw [if_pos valid, if_pos (.inr (.inl valid))]
      exact .pure ⟨rfl, rfl⟩
    rw [if_neg valid]
    by_cases user : m.page n (px 0 va) &&& pteU = 0
    · rw [if_pos user, if_pos (.inr (.inr user))]
      exact .pure ⟨rfl, rfl⟩
    · rw [if_neg user, if_neg (by rintro (h | h | h) <;> contradiction)]
      exact .pure ⟨rfl, rfl⟩

/-! ### With alloc -/

def absent (x : Option ℕ) : ℕ := if x.isNone then 1 else 0

/-- The number of tables missing on the way to `va`. -/
def Memory.missing (m : Memory) (root va : ℕ) : ℕ := absent (m.node root [px 2 va]) + absent
    (m.node root [px 2 va, px 1 va])

/-- The table has grown by `taken`, one page for each call of `kalloc`, and no entry has changed. -/
structure Extends (m m' : Memory) (root : ℕ) (taken : List ℕ) : Prop extends Grows m m' root taken where
  ptes : ∀ a, m'.pte root a = m.pte root a
  refuse : ∀ k, m'.refuse k = m.refuse (k + taken.length)
  never : ∀ k, k < taken.length → ¬ m.Fails k

theorem Table.extends_refl (table : Table m root) : Extends m m root [] :=
  ⟨table.refl, fun _ => rfl, fun _ => rfl, fun _ lt => nomatch lt⟩

theorem Grows.fails_iff (h : Grows m m' root taken) (refuse : ∀ k, m'.refuse k = m.refuse (k + taken.length)) (k : ℕ) :
    m'.Fails k ↔ m.Fails (k + taken.length) := by
  unfold Memory.Fails
  have length : m'.free.length ≤ k ↔ m.free.length ≤ k + taken.length := by
    rw [h.free, List.length_append]
    omega
  rw [refuse, length]

theorem Extends.trans {m'' : Memory} {taken' : List ℕ} (h : Extends m m' root taken) (h' : Extends m' m'' root taken') :
    Extends m m'' root (taken ++ taken') where
  toGrows := h.toGrows.trans h'.toGrows
  ptes a := (h'.ptes a).trans (h.ptes a)
  refuse k := by rw [h'.refuse, h.refuse, List.length_append, Nat.add_assoc, Nat.add_comm taken'.length]
  never k lt := by
    by_cases first : k < taken.length
    · exact h.never k first
    · have later := h'.never (k - taken.length) (by rw [List.length_append] at lt; omega)
      rwa [h.toGrows.fails_iff h.refuse, Nat.sub_add_cancel (Nat.le_of_not_lt first)] at later

theorem kalloc_some (f : ℕ) (rest : List ℕ) (list : m.free = f :: rest) (given : m.refuse 0 = false) : m.kalloc =
    (some f, { m.setPage f (filled 5) with free := rest, refuse := fun k => m.refuse (k + 1) }) := by
  simp [Memory.kalloc, given, list]

theorem kalloc_none (failed : m.Fails 0) : m.kalloc = (none, { m with refuse := fun k => m.refuse (k + 1) }) := by
  unfold Memory.kalloc
  rcases failed with refused | empty
  · rw [if_pos refused]
  · rw [List.length_eq_zero_iff.mp (Nat.le_zero.mp empty)]
    split <;> rfl

theorem not_fails_zero (given : ¬ m.Fails 0) : m.refuse 0 = false ∧ ∃ f rest, m.free = f :: rest := by
  obtain ⟨granted, some⟩ := not_or.mp given
  refine ⟨Bool.eq_false_of_not_eq_true granted, ?_⟩
  cases list : m.free with
  | nil => exact absurd (by rw [list]; exact le_rfl) some
  | cons f rest => exact ⟨f, rest, rfl⟩

/-- The call of `kalloc` that fails changes no page. -/
def Memory.refused (m : Memory) : Memory := { m with refuse := fun k => m.refuse (k + 1) }

theorem Table.refused (table : Table m root) : Grows m m.refused root [] :=
  ⟨⟨table.distinct, table.inner, table.leaf, table.owned⟩, rfl,
    rfl, by simp only [List.not_mem_nil, Set.ofPred_false, Set.union_empty]; rfl, fun _ _ _ => rfl, fun _ _ => rfl⟩

/-- One level of `walk`. -/
theorem walkFrom_step {level : ℕ} {post : Option PteAddr → Memory → Prop} (table : Table m root) (free : m.Free)
    (found : m.node root p = some n) (depth : p.length < 2) (top : p = [] → (px (level + 1) va).val < 256)
    (next : ∀ x m' taken, Extends m m' root taken → m'.node root (p ++ [px (level + 1) va]) = some x →
      taken.length = absent (m.node root (p ++ [px (level + 1) va])) →
      (∀ q : List (Fin 512), q.length ≤ 2 → q ≠ p ++ [px (level + 1) va] → m'.node root q = m.node root q) →
      Returns (walkFrom va true level x) m' post)
    (stop : m.node root (p ++ [px (level + 1) va]) = none → m.Fails 0 → post none m.refused) :
    Returns (walkFrom va true (level + 1) n) m post := by
  have snoc : m.node root (p ++ [px (level + 1) va]) = child (m.page n (px (level + 1) va)) := by
    rw [Memory.node, Radix.node_snoc, show Radix.node child m.page root p = some n from found]
    rfl
  unfold walkFrom
  refine .bind (.reads ?_)
  by_cases valid : m.page n (px (level + 1) va) &&& pteV ≠ 0
  · rw [if_pos valid]
    have there : m.node root (p ++ [px (level + 1) va]) = some (pte2pa (m.page n (px (level + 1) va))) := by
      rw [snoc, child, if_pos valid]
    refine next _ m [] table.extends_refl there ?_ fun _ _ _ => rfl
    rw [there]
    rfl
  rw [if_neg valid, if_pos rfl]
  have empty : m.page n (px (level + 1) va) &&& pteV = 0 := not_not.mp valid
  have gone : m.node root (p ++ [px (level + 1) va]) = none := by rw [snoc, child_eq_none.mpr empty]
  by_cases failed : m.Fails 0
  · refine .bind ⟨none, m.refused, congrArg Except.ok (kalloc_none failed), .pure (stop gone failed)⟩
  obtain ⟨granted, f, rest, list⟩ := not_fails_zero failed
  have mem : f ∈ m.free := by rw [list]; exact List.mem_cons_self
  have nonnull := free.nonzero mem
  refine .bind ⟨some f, _, congrArg Except.ok (kalloc_some f rest list granted), ?_⟩
  refine .bind ?_
  rw [memset, if_neg nonnull]
  refine .writes (.bind (.writes ?_))
  have links := links_link table free list found depth empty
  refine next f (m.link n (px (level + 1) va) f rest) [f]
    ⟨grows_link table free list found depth empty top, fun a => links.look_eq rfl, fun k => rfl,
      fun k lt => ?_⟩ links.node_new ?_
    fun q le other => links.node_eq le other
  · cases Nat.lt_one_iff.mp lt
    exact failed
  · rw [gone]
    rfl

/-- The tables on the way to `va` are there, and the others as before. -/
structure Reaches (m m' : Memory) (root va : ℕ) : Prop where
  found : ∃ x, m'.node root [px 2 va, px 1 va] = some x
  others : ∀ q : List (Fin 512), q.length ≤ 2 → q ≠ [px 2 va] → q ≠ [px 2 va, px 1 va] → m'.node root q = m.node root q

/-- Where no call of `kalloc` is refused, one fails only if no page is free. -/
def Memory.Spent (m' m : Memory) : Prop := (∀ k, m.refuse k = false) → m'.free = []

theorem refused_spent (failed : m.Fails 0) : m.refused.Spent m := by
  intro quiet
  rcases failed with refused | empty
  · exact absurd ((quiet 0).symm.trans refused) (by decide)
  · exact List.length_eq_zero_iff.mp (Nat.le_zero.mp empty)

theorem Extends.spent {m'' : Memory} (ext : Extends m m' root taken) (spent : m''.Spent m') : m''.Spent m := by
  intro quiet
  exact spent fun k => (ext.refuse k).trans (quiet _)

theorem walk_alloc (table : Table m root) (free : m.Free) (below : va < maxva) :
    Returns (walk root va true) m fun r m' =>
      match r with
      | none => (∃ k, k < m.missing root va ∧ m.Fails k) ∧ m'.Spent m ∧
          ∃ taken, Grows m m' root taken ∧ ∀ a, m'.pte root a = m.pte root a
      | some pte => m'.node root [px 2 va, px 1 va] = some pte.1 ∧ pte.2 = px 0 va ∧ Reaches m m' root va ∧
          ∃ taken, Extends m m' root taken ∧ taken.length = m.missing root va := by
  unfold walk
  rw [if_neg (Nat.not_le.mpr below)]
  refine walkFrom_step (p := []) table free rfl (by decide) (fun _ => px_top below)
    (fun n₁ m₁ taken₁ ext₁ found₁ count₁ same₁ => ?_) fun gone failed => ?_
  · have free₁ := free.grows ext₁.toGrows
    refine walkFrom_step ext₁.table free₁ found₁ Nat.one_lt_two (by simp)
      (fun n₀ m₀ taken₀ ext₀ found₀ count₀ same₀ => ?_) fun gone failed => ?_
    · refine .pure ⟨found₀, rfl, ⟨⟨n₀, found₀⟩, fun q le one two => (same₀ q le two).trans (same₁ q le one)⟩, _,
        ext₁.trans ext₀, ?_⟩
      have keep := same₁ [px 2 va, px 1 va] le_rfl (by simp)
      rw [List.length_append, count₁, count₀]
      simp only [List.nil_append, List.cons_append, keep, Memory.missing]
    · have keep := same₁ [px 2 va, px 1 va] le_rfl (by simp)
      refine ⟨⟨taken₁.length, ?_, ?_⟩, ext₁.spent (refused_spent failed), _,
        ext₁.toGrows.trans ext₁.table.refused, ext₁.ptes⟩
      · have one : absent (m.node root [px 2 va, px 1 va]) = 1 := by
          rw [← keep]
          simp only [List.nil_append, List.cons_append] at gone
          rw [gone]
          rfl
        rw [count₁, Memory.missing, one]
        exact Nat.lt_succ_self _
      · have := (ext₁.toGrows.fails_iff ext₁.refuse 0).mp failed
        rwa [Nat.zero_add] at this
  · refine ⟨⟨0, ?_, failed⟩, refused_spent failed, _, table.refused, fun _ => rfl⟩
    rw [Memory.missing, show m.node root [px 2 va] = none from gone]
    exact Nat.lt_of_lt_of_le Nat.one_pos (Nat.le_add_right _ _)

end Xv6Labs.Vm
