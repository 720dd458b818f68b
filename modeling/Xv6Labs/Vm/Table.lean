import Xv6Labs.Lib.Radix
import Xv6Labs.Vm.Code

/-!
# Page tables as finite maps

The tables under a root are a tree of depth two, and the entries of its last tables a map from the pages below `MAXVA`.
`walk` finds the entry of a page. It may add tables on its way, which changes no entry, and fails only if `kalloc` does.
-/

namespace Xv6Labs.Vm

open Faults

def child (e : ℕ) : Option ℕ := if e &&& pteV ≠ 0 then some (pte2pa e) else none

variable {m m' m'' : Memory} {root va n f a b : ℕ} {i : Fin 512} {p q : List (Fin 512)} {taken taken' : List ℕ}

namespace Memory

def node (m : Memory) (root : ℕ) (p : List (Fin 512)) : Option ℕ := Radix.node child m.page root p

/-- The pages of the tables under `root`. -/
def nodes (m : Memory) (root : ℕ) : Set ℕ := Radix.Nodes child m.page root 2

/-- The last-level entry for `va`, and 0 where there is no table for it. -/
def pte (m : Memory) (root va : ℕ) : ℕ := Radix.look child 0 m.page root [px 2 va, px 1 va] (px 0 va)

/-- The free list of `kalloc`. -/
structure Free (m : Memory) : Prop where
  nodup : m.free.Nodup
  aligned : ∀ p ∈ m.free, p % pgsize = 0
  kend : ∀ p ∈ m.free, m.image.kend ≤ p
  phystop : ∀ p ∈ m.free, p < phystop

/-- Whether `kalloc` fails after `k` calls that do not. -/
def Fails (m : Memory) (k : ℕ) : Prop := m.refuse k = true ∨ m.free.length ≤ k

end Memory

/-- A well-formed table: leaves are at the last level, and nowhere else. -/
structure Table (m : Memory) (root : ℕ) : Prop where
  distinct : Radix.Distinct child m.page root 2
  inner : ∀ p n i, p.length < 2 → m.node root p = some n → m.page n i &&& pteV ≠ 0 → m.page n i &&& leafBits = 0
  leaf : ∀ p n i, p.length = 2 → m.node root p = some n → m.page n i &&& pteV ≠ 0 → m.page n i &&& leafBits ≠ 0
  owned : ∀ n ∈ m.nodes root, n ∉ m.free

/-- From `m` to `m'`, the table under `root` has got the pages `taken` from the free list. -/
structure Grows (m m' : Memory) (root : ℕ) (taken : List ℕ) : Prop where
  table : Table m' root
  image : m'.image = m.image
  free : m.free = taken ++ m'.free
  nodes : m'.nodes root = m.nodes root ∪ {n | n ∈ taken}
  others : ∀ p, p ∉ m.nodes root → p ∉ m.free → m'.page p = m.page p
  low : ∀ i : Fin 512, 256 ≤ i.val → m'.node root [i] = m.node root [i]

/-! ### Addresses -/

theorem px_val (l : ℕ) : (px l va).val = va / 2 ^ (12 + 9 * l) % 512 := by
  simp only [px, Nat.shiftRight_eq_div_pow]
  exact Nat.and_two_pow_sub_one_eq_mod _ 9

theorem maxva_eq : maxva = 2 ^ 38 := rfl

theorem px_top (below : va < maxva) : (px 2 va).val < 256 := by
  rw [px_val]
  rw [maxva_eq] at below
  omega

/-- The three indices tell the pages below `MAXVA` apart. -/
theorem page_eq_of_px (ha : a < maxva) (hb : b < maxva) (two : px 2 a = px 2 b) (one : px 1 a = px 1 b)
    (zero : px 0 a = px 0 b) : a / pgsize = b / pgsize := by
  have two := congrArg Fin.val two
  have one := congrArg Fin.val one
  have zero := congrArg Fin.val zero
  simp only [px_val] at two one zero
  norm_num at two one zero
  rw [maxva_eq] at ha hb
  rw [pgsize]
  omega

theorem px_congr (same : a / pgsize = b / pgsize) (l : ℕ) : px l a = px l b := by
  apply Fin.ext
  rw [px_val, px_val, Nat.pow_add, ← Nat.div_div_eq_div_mul, ← Nat.div_div_eq_div_mul]
  rw [pgsize] at same
  norm_num
  rw [same]

theorem pte_congr (same : a / pgsize = b / pgsize) : m.pte root a = m.pte root b := by
  rw [Memory.pte, Memory.pte, px_congr same, px_congr same, px_congr same]

/-! ### Entries -/

theorem and_leafBits (e : ℕ) : e &&& leafBits = e % 16 &&& leafBits := by
  have low : leafBits = (2 ^ 4 - 1) &&& leafBits := by decide
  have mod : e % 16 = e &&& (2 ^ 4 - 1) := (Nat.and_two_pow_sub_one_eq_mod e 4).symm
  rw [mod, Nat.and_assoc, ← low]

theorem inner_leafBits : (pa2pte f ||| pteV) &&& leafBits = 0 := by
  have entry : pa2pte f ||| 0 ||| pteV = f / 4096 * 1024 + (0 ||| pteV) := entry_eq (by decide)
  rw [Nat.or_zero] at entry
  rw [and_leafBits, entry]
  have low : (f / 4096 * 1024 + (0 ||| pteV)) % 16 = 1 := by
    have one : 0 ||| pteV = 1 := by decide
    omega
  rw [low]
  decide

theorem entry_leafBits {perm : ℕ} (some : perm &&& leafBits ≠ 0) : (pa2pte f ||| perm ||| pteV) &&& leafBits ≠ 0 := by
  rw [Nat.and_or_distrib_right, Nat.and_or_distrib_right]
  intro zero
  rw [Nat.or_eq_zero_iff, Nat.or_eq_zero_iff] at zero
  exact some zero.1.2

theorem child_zero : child 0 = none := rfl

theorem child_inner (aligned : f % pgsize = 0) (bound : f < 2 ^ 64) : child (pa2pte f ||| pteV) = some f := by
  have valid : (pa2pte f ||| 0 ||| pteV) % 2 = 1 := entry_valid (by decide)
  have pa : pte2pa (pa2pte f ||| 0 ||| pteV) = f := entry_pa (by decide) aligned bound
  rw [Nat.or_zero] at valid pa
  rw [child, if_pos (valid_iff.mpr valid), pa]

theorem child_eq_none {e : ℕ} : child e = none ↔ e &&& pteV = 0 := by
  unfold child
  split <;> simp_all

/-! ### Tables that grow -/

theorem Table.refl (table : Table m root) : Grows m m root [] :=
  ⟨table, rfl, rfl, by simp, fun _ _ _ => rfl, fun _ _ => rfl⟩

theorem Grows.trans (h : Grows m m' root taken) (h' : Grows m' m'' root taken') :
    Grows m m'' root (taken ++ taken') where
  table := h'.table
  image := h'.image.trans h.image
  free := by rw [h.free, h'.free, List.append_assoc]
  nodes := by
    rw [h'.nodes, h.nodes, Set.union_assoc]
    congr 1
    ext n
    simp
  others p off free := by
    have off' : p ∉ m'.nodes root := by
      rw [h.nodes]
      rintro (mem | mem)
      · exact off mem
      · exact free (by rw [h.free]; exact List.mem_append_left _ mem)
    have free' : p ∉ m'.free := fun mem => free (by rw [h.free]; exact List.mem_append_right _ mem)
    rw [h'.others p off' free', h.others p off free]
  low i high := (h'.low i high).trans (h.low i high)

theorem Memory.Free.nonzero (free : m.Free) (mem : f ∈ m.free) : f ≠ 0 := by
  have low := free.kend f mem
  have base := m.image.kernbase_lt
  omega

theorem Memory.Free.grows (free : m.Free) (h : Grows m m' root taken) : m'.Free := by
  have sub (p : ℕ) (mem : p ∈ m'.free) : p ∈ m.free := by
    rw [h.free]
    exact List.mem_append_right _ mem
  have nodup := free.nodup
  rw [h.free] at nodup
  refine ⟨nodup.of_append_right, fun p mem => free.aligned p (sub p mem), fun p mem => ?_,
    fun p mem => free.phystop p (sub p mem)⟩
  rw [h.image]
  exact free.kend p (sub p mem)

/-! ### walk -/

/-- The memory after `kalloc`, `memset` and the store of the new entry. -/
def Memory.link (m : Memory) (n : ℕ) (i : Fin 512) (f : ℕ) (rest : List ℕ) : Memory :=
  (({ m.setPage f (filled 5) with free := rest, refuse := fun k => m.refuse (k + 1) }).setPage f (filled 0)).store
    (n, i)
    (pa2pte f ||| pteV)

theorem link_page {rest : List ℕ} (other : f ≠ n) (x : ℕ) : (m.link n i f rest).page x =
    if x = f then fun _ => 0 else if x = n then Function.update (m.page n) i (pa2pte f ||| pteV) else m.page x := by
  simp only [Memory.link, Memory.store, Memory.setPage]
  by_cases new : x = f
  · subst new
    rw [Function.update_of_ne other, Function.update_self, if_pos rfl]
    funext j
    simp [filled]
  · rw [if_neg new]
    by_cases same : x = n
    · subst same
      rw [Function.update_self, Function.update_of_ne new, Function.update_of_ne new, if_pos rfl]
    · rw [Function.update_of_ne same, Function.update_of_ne new, Function.update_of_ne new, if_neg same]

theorem node_mem {d : List (Fin 512)} (le : d.length ≤ 2) (found : m.node root d = some n) : n ∈ m.nodes root :=
  ⟨d, le, found⟩

/-- A step of `walk` that has to allocate. -/
theorem links_link {rest : List ℕ} (table : Table m root) (free : m.Free) (list : m.free = f :: rest)
    (found : m.node root p = some n) (depth : p.length < 2) (empty : m.page n i &&& pteV = 0) :
    Radix.Links child 0 m.page (m.link n i f rest).page root 2 p i n f := by
  have mem : f ∈ m.free := by rw [list]; exact List.mem_cons_self
  have other : f ≠ n := by
    rintro rfl
    exact table.owned _ (node_mem depth.le found) mem
  have bound : f < 2 ^ 64 := lt_trans (free.phystop f mem) (by decide)
  refine ⟨table.distinct, found, depth, child_eq_none.mpr empty, fun there => table.owned f there mem, ?_, child_zero,
    fun j => ?_, fun x new j off => ?_⟩
  · rw [link_page other, if_neg other.symm, if_pos rfl, Function.update_self]
    exact child_inner (free.aligned f mem) bound
  · rw [link_page other, if_pos rfl]
  · rw [link_page other, if_neg new]
    by_cases same : x = n
    · subst same
      rw [if_pos rfl, Function.update_of_ne (off.resolve_left fun h => h rfl)]
    · rw [if_neg same]

theorem grows_link {rest : List ℕ} (table : Table m root) (free : m.Free) (list : m.free = f :: rest)
    (found : m.node root p = some n) (depth : p.length < 2) (empty : m.page n i &&& pteV = 0)
    (top : p = [] → i.val < 256) :
    Grows m (m.link n i f rest) root [f] := by
  have links := links_link table free list found depth empty
  have mem : f ∈ m.free := by rw [list]; exact List.mem_cons_self
  have other : f ≠ n := by
    rintro rfl
    exact table.owned _ (node_mem depth.le found) mem
  have nodup := free.nodup
  rw [list, List.nodup_cons] at nodup
  have nodes : (m.link n i f rest).nodes root = m.nodes root ∪ {x | x ∈ [f]} := by
    rw [Memory.nodes, links.nodes]
    ext x
    simp [Memory.nodes, or_comm]
  have old {q : List (Fin 512)} {x : ℕ} (le : q.length ≤ 2) (there : (m.link n i f rest).node root q = some x) :
      q = p ++ [i] ∧ x = f ∨ m.node root q = some x ∧ x ≠ f := by
    by_cases same : q = p ++ [i]
    · subst same
      exact .inl ⟨rfl, Option.some.inj (there.symm.trans links.node_new)⟩
    · have before : m.node root q = some x := (links.node_eq le same).symm.trans there
      refine .inr ⟨before, ?_⟩
      rintro rfl
      exact links.fresh ⟨q, le, before⟩
  refine ⟨⟨links.distinct_new, fun q x j short there valid => ?_, fun q x j last there valid => ?_, fun x there => ?_⟩,
    rfl, list, nodes, fun x off out => ?_, fun k high => links.node_eq (by simp) ?_⟩
  · rcases old short.le there with ⟨rfl, rfl⟩ | ⟨before, ne⟩
    · rw [link_page other, if_pos rfl] at valid
      exact absurd rfl valid
    · rw [link_page other, if_neg ne] at valid ⊢
      by_cases same : x = n
      · subst same
        rw [if_pos rfl] at valid ⊢
        by_cases here : j = i
        · subst here
          rw [Function.update_self]
          exact inner_leafBits
        · rw [Function.update_of_ne here] at valid ⊢
          exact table.inner q x j short before valid
      · rw [if_neg same] at valid ⊢
        exact table.inner q x j short before valid
  · rcases old last.le there with ⟨rfl, rfl⟩ | ⟨before, ne⟩
    · rw [link_page other, if_pos rfl] at valid
      exact absurd rfl valid
    · have same : x ≠ n := by
        rintro rfl
        have := table.distinct p q x depth.le last.le found before
        subst this
        omega
      rw [link_page other, if_neg ne, if_neg same] at valid ⊢
      exact table.leaf q x j last before valid
  · rw [nodes] at there
    intro mem'
    rcases there with there | there
    · exact table.owned x there (by rw [list]; exact List.mem_cons_of_mem _ mem')
    · cases List.mem_singleton.mp there
      exact nodup.1 mem'
  · rw [link_page other, if_neg, if_neg]
    · rintro rfl
      exact off (node_mem depth.le found)
    · rintro rfl
      exact out mem
  · intro same
    cases p with
    | nil =>
      have := top rfl
      cases same
      omega
    | cons j p => exact absurd same (by simp)

end Xv6Labs.Vm
