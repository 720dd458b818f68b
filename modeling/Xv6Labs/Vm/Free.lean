import Xv6Labs.Vm.Alloc

/-!
# `freewalk`

The tables of a tree are freed from the leaves up. Each loop over a table's entries frees the subtrees, which are
disjoint, so that freeing one leaves the others as they are.
-/

namespace Xv6Labs.Vm

open Faults

variable {m m' : Memory} {n c d fuel root : ℕ} {freed : List ℕ} {pages : Set ℕ} {P : Prop} {leaf : PteAddr → Code Unit}

def Memory.below (m : Memory) (n d : ℕ) : Set ℕ := Radix.Nodes child m.page n d

/-- A page that `kfree` takes. -/
structure Memory.Real (m : Memory) (x : ℕ) : Prop where
  aligned : x % pgsize = 0
  kend : m.image.kend ≤ x
  phystop : x < phystop

/-- The tables under `n`, of depth `d`. There are leaves at the last level only, and none at all unless `P`. -/
structure Tree (m : Memory) (n d : ℕ) (P : Prop) : Prop where
  distinct : Radix.Distinct child m.page n d
  inner : ∀ p x i, p.length < d → Radix.node child m.page n p = some x → m.page x i &&& pteV ≠ 0 →
    m.page x i &&& leafBits = 0
  last : ∀ p x i, p.length = d → Radix.node child m.page n p = some x → m.page x i &&& pteV ≠ 0 →
    m.page x i &&& leafBits ≠ 0 ∧ P
  real : ∀ x ∈ m.below n d, m.Real x

/-- From `m` to `m'`, the pages of a set have been freed. -/
structure Freed (m m' : Memory) (pages : Set ℕ) (freed : List ℕ) : Prop where
  image : m'.image = m.image
  refuse : m'.refuse = m.refuse
  nodup : freed.Nodup
  mem : ∀ x, x ∈ freed ↔ x ∈ pages
  free : m'.free = freed ++ m.free
  others : ∀ x, x ∉ pages → m'.page x = m.page x

theorem kfree_real (real : m.Real n) : kfree n m = .ok ((), m.kfree n) := by
  have fine : ¬ (n % pgsize ≠ 0 ∨ n < m.image.kend ∨ phystop ≤ n) := by
    have aligned := real.aligned
    have low := real.kend
    have high := real.phystop
    omega
  exact if_neg fine

theorem Tree.agree (tree : Tree m n d P) (same : ∀ x ∈ m.below n d, m'.page x = m.page x) (image : m'.image = m.image) :
    Tree m' n d P := by
  have node {p : List (Fin 512)} (le : p.length ≤ d) : Radix.node child m'.page n p = Radix.node child m.page n p :=
    Radix.node_agree same le
  refine ⟨fun p q x le le' there there' => ?_, fun p x i short there valid => ?_, fun p x i deep there valid => ?_,
    fun x mem => ?_⟩
  · exact tree.distinct p q x le le' ((node le).symm.trans there) ((node le').symm.trans there')
  · have before := (node short.le).symm.trans there
    rw [same x ⟨p, short.le, before⟩] at valid ⊢
    exact tree.inner p x i short before valid
  · have before := (node deep.le).symm.trans there
    rw [same x ⟨p, deep.le, before⟩] at valid ⊢
    exact tree.last p x i deep before valid
  · rw [Memory.below, Radix.nodes_agree same] at mem
    have real := tree.real x mem
    exact ⟨real.aligned, image ▸ real.kend, real.phystop⟩

/-- An entry of the first table leads to a tree. -/
theorem Tree.kid {i : Fin 512} (tree : Tree m n (d + 1) P) (linked : child (m.page n i) = some c) :
    Tree m c d P ∧ n ∉ m.below c d := by
  have under {p : List (Fin 512)} {x : ℕ} (there : Radix.node child m.page c p = some x) :
      Radix.node child m.page n (i :: p) = some x := by
    rw [Radix.node_cons, linked]
    exact there
  refine ⟨⟨tree.distinct.below linked, fun p x k short there =>
    tree.inner (i :: p) x k (Nat.succ_lt_succ short) (under there),
    fun p x k deep there => tree.last (i :: p) x k (congrArg Nat.succ deep) (under there), fun x mem => tree.real x ?_⟩,
    tree.distinct.root_not_mem linked⟩
  exact Radix.mem_nodes_succ.mpr (.inr ⟨i, c, linked, mem⟩)

theorem child_some {e : ℕ} : child e = some c ↔ e &&& pteV ≠ 0 ∧ pte2pa e = c := by
  unfold child
  split <;> simp_all

/-! ### The loop over a table -/

/-- What the loop does with one entry. -/
def freeEntry (leaf : PteAddr → Code Unit) (fuel n : ℕ) (i : Fin 512) : Code Unit := do
  let pte ← load (n, i)
  if pte &&& pteV ≠ 0 ∧ pte &&& leafBits = 0 then do
    freeTables leaf fuel (pte2pa pte)
    store (n, i) 0
  else onlyIf (pte &&& pteV ≠ 0) (leaf (n, i))

theorem freeTables_succ : freeTables leaf (fuel + 1) n = (do
    each (freeEntry leaf fuel n) (List.finRange 512)
    kfree n) := rfl

/-- The subtrees that the entries of a table lead to. -/
def Memory.kids (m : Memory) (n d : ℕ) (entries : List (Fin 512)) : Set ℕ :=
  {x | ∃ i ∈ entries, ∃ c, child (m.page n i) = some c ∧ x ∈ m.below c d}

/-- The table at `n`, as far as its entries have not been visited. -/
structure Visits (m : Memory) (n d : ℕ) (entries : List (Fin 512)) (P : Prop) : Prop where
  inner : ∀ i ∈ entries, m.page n i &&& pteV ≠ 0 → m.page n i &&& leafBits = 0
  kid : ∀ i ∈ entries, ∀ c, child (m.page n i) = some c → Tree m c d P ∧ n ∉ m.below c d
  apart : ∀ i ∈ entries, ∀ k ∈ entries, ∀ c c' x, child (m.page n i) = some c → child (m.page n k) = some c' →
    x ∈ m.below c d → x ∈ m.below c' d → i = k

theorem Tree.visits (tree : Tree m n (d + 1) P) (entries : List (Fin 512)) : Visits m n d entries P :=
  ⟨fun i _ => tree.inner [] n i (Nat.succ_pos d) rfl, fun _ _ _ linked => tree.kid linked,
    fun _ _ _ _ _ _ _ linked linked' there there' => tree.distinct.subtrees linked linked' there there'⟩

theorem each_freed (leaf : PteAddr → Code Unit) (fuel : ℕ) {entries : List (Fin 512)} (nodup : entries.Nodup)
    (visits : Visits m n d entries P)
    (ih : ∀ m c, Tree m c d P → Returns (freeTables leaf fuel c) m fun _ m' =>
      ∃ freed, Freed m m' (m.below c d) freed) :
    Returns (each (freeEntry leaf fuel n) entries) m fun _ m' => ∃ freed, m'.image = m.image ∧ m'.refuse = m.refuse ∧
      freed.Nodup ∧ (∀ x, x ∈ freed ↔ x ∈ m.kids n d entries) ∧ m'.free = freed ++ m.free ∧
      ∀ x, x ≠ n → x ∉ m.kids n d entries → m'.page x = m.page x := by
  induction entries generalizing m with
  | nil =>
    refine .pure ⟨[], rfl, rfl, List.nodup_nil, fun x => iff_of_false (List.not_mem_nil) ?_, rfl, fun _ _ _ => rfl⟩
    rintro ⟨i, mem, -⟩
    exact List.not_mem_nil mem
  | cons i entries rest =>
    obtain ⟨new, nodup⟩ := List.nodup_cons.mp nodup
    have tail {k : Fin 512} (mem : k ∈ entries) : k ∈ i :: entries := List.mem_cons_of_mem _ mem
    unfold each
    refine .bind (.bind (.reads ?_))
    by_cases valid : m.page n i &&& pteV ≠ 0
    · have linked : child (m.page n i) = some (pte2pa (m.page n i)) := child_some.mpr ⟨valid, rfl⟩
      generalize pte2pa (m.page n i) = c at *
      obtain ⟨tree, off⟩ := visits.kid i List.mem_cons_self c linked
      rw [if_pos ⟨valid, visits.inner i List.mem_cons_self valid⟩]
      refine .bind ((ih m c tree).mono ?_)
      rintro - m₁ ⟨freed₁, first⟩
      refine .writes ?_
      have page {x : ℕ} (other : x ≠ n) (out : x ∉ m.below c d) : (m₁.store (n, i) 0).page x = m.page x := by
        rw [Memory.store, setPage_of_ne other, first.others x out]
      have entry {k : Fin 512} (mem : k ∈ entries) : (m₁.store (n, i) 0).page n k = m.page n k := by
        have other : k ≠ i := by
          rintro rfl
          exact new mem
        rw [Memory.store, setPage_self, Function.update_of_ne other, first.others n off]
      have apart {k : Fin 512} {c' x : ℕ} (mem : k ∈ entries) (linked' : child (m.page n k) = some c')
        (there : x ∈ m.below c' d) :
          x ∉ m.below c d := by
        intro also
        have same := visits.apart i List.mem_cons_self k (tail mem) c c' x linked linked' also there
        subst same
        exact new mem
      have agree {k : Fin 512} {c' : ℕ} (mem : k ∈ entries) (linked' : child (m.page n k) = some c') :
          ∀ x ∈ m.below c' d, (m₁.store (n, i) 0).page x = m.page x := by
        intro x there
        refine page ?_ (apart mem linked' there)
        rintro rfl
        exact (visits.kid k (tail mem) c' linked').2 there
      have below {k : Fin 512} {c' : ℕ} (mem : k ∈ entries) (linked' : child (m.page n k) = some c') :
          (m₁.store (n, i) 0).below c' d = m.below c' d := Radix.nodes_agree (agree mem linked')
      have kids : (m₁.store (n, i) 0).kids n d entries = m.kids n d entries := by
        ext x
        constructor
        · rintro ⟨k, mem, c', linked', there⟩
          rw [entry mem] at linked'
          exact ⟨k, mem, c', linked', by rwa [below mem linked'] at there⟩
        · rintro ⟨k, mem, c', linked', there⟩
          exact ⟨k, mem, c', by rwa [entry mem], by rwa [below mem linked']⟩
      have more : m.kids n d (i :: entries) = m.below c d ∪ m.kids n d entries := by
        ext x
        constructor
        · rintro ⟨k, mem, c', linked', there⟩
          rcases List.mem_cons.mp mem with rfl | mem
          · rw [linked] at linked'
            cases linked'
            exact .inl there
          · exact .inr ⟨k, mem, c', linked', there⟩
        · rintro (there | ⟨k, mem, c', linked', there⟩)
          · exact ⟨i, List.mem_cons_self, c, linked, there⟩
          · exact ⟨k, tail mem, c', linked', there⟩
      have visits' : Visits (m₁.store (n, i) 0) n d entries P := by
        refine ⟨fun k mem => ?_, fun k mem c' linked' => ?_,
          fun k mem l mem' c' c'' x linked' linked'' there there' => ?_⟩
        · rw [entry mem]
          exact visits.inner k (tail mem)
        · rw [entry mem] at linked'
          rw [below mem linked']
          obtain ⟨tree', off'⟩ := visits.kid k (tail mem) c' linked'
          exact ⟨tree'.agree (agree mem linked') first.image, off'⟩
        · rw [entry mem] at linked'
          rw [entry mem'] at linked''
          rw [below mem linked'] at there
          rw [below mem' linked''] at there'
          exact visits.apart k (tail mem) l (tail mem') c' c'' x linked' linked'' there there'
      refine (rest nodup visits').mono ?_
      rintro - m₂ ⟨freed₂, image, refuse, nodup₂, mem₂, free, others⟩
      rw [kids] at mem₂ others
      refine ⟨freed₂ ++ freed₁, image.trans first.image, refuse.trans first.refuse, ?_, fun x => ?_, ?_,
        fun x other out => ?_⟩
      · refine List.nodup_append.mpr ⟨nodup₂, first.nodup, fun x there y there' same => ?_⟩
        subst same
        obtain ⟨k, mem, c', linked', there⟩ := (mem₂ x).mp there
        exact apart mem linked' there ((first.mem x).mp there')
      · rw [List.mem_append, mem₂, first.mem, more]
        exact or_comm
      · rw [free, List.append_assoc]
        exact congrArg _ first.free
      · rw [more] at out
        rw [others x other fun there => out (.inr there), page other fun there => out (.inl there)]
    · rw [if_neg fun both => valid both.1, onlyIf, if_neg valid]
      refine .pure ((rest nodup ⟨fun k mem => visits.inner k (tail mem), fun k mem => visits.kid k (tail mem),
        fun k mem l mem' => visits.apart k (tail mem) l (tail mem')⟩).mono ?_)
      have same : m.kids n d (i :: entries) = m.kids n d entries := by
        ext x
        constructor
        · rintro ⟨k, mem, c', linked', there⟩
          rcases List.mem_cons.mp mem with rfl | mem
          · exact absurd (child_some.mp linked').1 valid
          · exact ⟨k, mem, c', linked', there⟩
        · rintro ⟨k, mem, c', linked', there⟩
          exact ⟨k, tail mem, c', linked', there⟩
      rw [same]
      exact fun _ _ done => done

/-- The loop over a last table, with what is done to its leaves. -/
theorem each_last {entries : List (Fin 512)}
    (last : ∀ i ∈ entries, m.page n i &&& pteV ≠ 0 → m.page n i &&& leafBits ≠ 0 ∧ P)
    (nodup : entries.Nodup) (act : P → ∀ (m : Memory) i, Returns (leaf (n, i)) m fun _ m' => m' = m.store (n, i) 0) :
    Returns (each (freeEntry leaf fuel n) entries) m fun _ m' => m'.image = m.image ∧ m'.refuse = m.refuse ∧
      m'.free = m.free ∧ ∀ x, x ≠ n → m'.page x = m.page x := by
  induction entries generalizing m with
  | nil => exact .pure ⟨rfl, rfl, rfl, fun _ _ => rfl⟩
  | cons i entries rest =>
    obtain ⟨new, nodup⟩ := List.nodup_cons.mp nodup
    unfold each
    refine .bind (.bind (.reads ?_))
    rw [if_neg fun both => (last i List.mem_cons_self both.1).1 both.2]
    by_cases valid : m.page n i &&& pteV ≠ 0
    · rw [onlyIf, if_pos valid]
      refine (act (last i List.mem_cons_self valid).2 m i).mono ?_
      rintro - m₁ rfl
      have entry (k : Fin 512) (mem : k ∈ entries) : (m.store (n, i) 0).page n k = m.page n k := by
        have other : k ≠ i := by
          rintro rfl
          exact new mem
        rw [Memory.store, setPage_self, Function.update_of_ne other]
      refine (rest (fun k mem => ?_) nodup).mono ?_
      · rw [entry k mem]
        exact last k (List.mem_cons_of_mem _ mem)
      · rintro - m₂ ⟨image, refuse, free, others⟩
        exact ⟨image, refuse, free, fun x other => (others x other).trans (setPage_of_ne other)⟩
    · rw [onlyIf, if_neg valid]
      exact .pure (rest (fun k mem => last k (List.mem_cons_of_mem _ mem)) nodup)

theorem freeTables_spec (act : P → ∀ (m : Memory) n i, Returns (leaf (n, i)) m fun _ m' => m' = m.store (n, i) 0)
    (deep : d < fuel)
    (tree : Tree m n d P) : Returns (freeTables leaf fuel n) m fun _ m' => ∃ freed, Freed m m' (m.below n d) freed := by
  have entries : (List.finRange 512).Nodup := List.nodup_finRange 512
  have real := tree.real n Radix.root_mem_nodes
  induction d generalizing m n fuel with
  | zero =>
    obtain ⟨fuel, rfl⟩ := Nat.exists_eq_succ_of_ne_zero (by omega : fuel ≠ 0)
    rw [freeTables_succ]
    refine .bind ((each_last (fun i _ => tree.last [] n i rfl rfl) entries fun ok m i => act ok m n i).mono ?_)
    rintro - m₁ ⟨image, refuse, free, others⟩
    refine ⟨(), m₁.kfree n, kfree_real ⟨real.aligned, image ▸ real.kend, real.phystop⟩, [n], ?_⟩
    rw [Memory.below, Radix.nodes_zero]
    refine ⟨image, refuse, List.nodup_singleton n, fun x => by simp, by rw [← free]; rfl, fun x out => ?_⟩
    rw [← others x out]
    exact Function.update_of_ne out _ _
  | succ d ih =>
    obtain ⟨fuel, rfl⟩ := Nat.exists_eq_succ_of_ne_zero (by omega : fuel ≠ 0)
    rw [freeTables_succ]
    have loop := each_freed leaf fuel entries (tree.visits (List.finRange 512)) fun m c sub =>
      ih (by omega) sub (sub.real c Radix.root_mem_nodes)
    refine .bind (loop.mono ?_)
    rintro - m₁ ⟨freed, image, refuse, nodup, mem, free, others⟩
    have split (x : ℕ) : x ∈ m.below n (d + 1) ↔ x = n ∨ x ∈ m.kids n d (List.finRange 512) := by
      rw [Memory.below, Radix.mem_nodes_succ]
      refine or_congr_right ⟨fun ⟨i, c, linked, there⟩ => ⟨i, List.mem_finRange i, c, linked, there⟩,
        fun ⟨i, _, c, linked, there⟩ => ⟨i, c, linked, there⟩⟩
    have apart : n ∉ freed := by
      rw [mem]
      rintro ⟨i, -, c, linked, there⟩
      exact (tree.kid linked).2 there
    refine ⟨(), m₁.kfree n, kfree_real ⟨real.aligned, image ▸ real.kend, real.phystop⟩, n :: freed, image, refuse,
      List.nodup_cons.mpr ⟨apart, nodup⟩, fun x => ?_, congrArg (List.cons n) free, fun x out => ?_⟩
    · rw [split, List.mem_cons, mem]
    · rw [split, not_or] at out
      rw [← others x out.1 out.2]
      exact Function.update_of_ne out.1 _ _

/-! ### freewalk -/

/-- A page table that maps nothing. -/
structure Shed (m : Memory) (root : ℕ) : Prop where
  table : Table m root
  bare : ∀ b, b < maxva → m.pte root b &&& pteV = 0
  low : ∀ i : Fin 512, 256 ≤ i.val → m.node root [i] = none
  real : ∀ x ∈ m.nodes root, m.Real x

/-- The address that three indices stand for. -/
theorem px_of_indices {i k l : ℕ} (hi : i < 256) (hk : k < 512) (hl : l < 512) :
    i * 2 ^ 30 + k * 2 ^ 21 + l * 2 ^ 12 < maxva ∧ (px 2 (i * 2 ^ 30 + k * 2 ^ 21 + l * 2 ^ 12)).val = i ∧
      (px 1 (i * 2 ^ 30 + k * 2 ^ 21 + l * 2 ^ 12)).val = k ∧
      (px 0 (i * 2 ^ 30 + k * 2 ^ 21 + l * 2 ^ 12)).val = l := by
  rw [px_val, px_val, px_val, maxva_eq]
  norm_num
  omega

theorem Shed.last (shed : Shed m root) {p : List (Fin 512)} {x : ℕ} (deep : p.length = 2)
    (there : m.node root p = some x) (l : Fin 512) : m.page x l &&& pteV = 0 := by
  match p, deep with
  | [i, k], _ =>
    have small : i.val < 256 := by
      by_contra high
      have gone := Radix.node_gone (q := [i, k]) ⟨[k], rfl⟩ (shed.low i (Nat.le_of_not_lt high))
      exact absurd (there.symm.trans gone) (by simp)
    obtain ⟨bound, two, one, zero⟩ := px_of_indices small k.isLt l.isLt
    have bare := shed.bare _ bound
    have found : m.node root [px 2 (i.val * 2 ^ 30 + k.val * 2 ^ 21 + l.val * 2 ^ 12),
        px 1 (i.val * 2 ^ 30 + k.val * 2 ^ 21 + l.val * 2 ^ 12)] = some x := by
      rw [Fin.ext two, Fin.ext one]
      exact there
    rwa [pte_of_node found, Fin.ext zero] at bare

theorem Shed.tree (shed : Shed m root) : Tree m root 2 False :=
  ⟨shed.table.distinct, shed.table.inner, fun _ _ i deep there valid => absurd (shed.last deep there i) valid,
    shed.real⟩

theorem freewalk_spec (shed : Shed m root) :
    Returns (freewalk root) m fun _ m' => ∃ freed, Freed m m' (m.nodes root) freed :=
  freeTables_spec False.elim (by decide) shed.tree

theorem pfreewalk_spec (table : Table m root) (real : ∀ x ∈ m.nodes root, m.Real x) :
    Returns (pfreewalk root) m fun _ m' => ∃ freed, Freed m m' (m.nodes root) freed := by
  have tree : Tree m root 2 True :=
    ⟨table.distinct, table.inner, fun p x i deep there valid => ⟨table.leaf p x i deep there valid, trivial⟩, real⟩
  exact freeTables_spec (fun _ _ _ _ => .writes rfl) (by decide) tree

end Xv6Labs.Vm
