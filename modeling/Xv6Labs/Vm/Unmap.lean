import Xv6Labs.Vm.Map

/-!
# `uvmunmap` and `uvmdealloc`

The pages of a user address space have frames of their own: no two share one, and none is a table or free. Unmapping the
pages from `j` to `k` clears their entries and, if asked to, gives their frames back.
-/

namespace Xv6Labs.Vm

open Faults

variable {m m' : Memory} {root va n a b e f j k fuel oldsz newsz : ℕ} {freed : List ℕ}

def Memory.frame (m : Memory) (root va : ℕ) : ℕ := pte2pa (m.pte root va)

/-- The frames of the pages from `j` to `k`. -/
def Memory.frames (m : Memory) (root j k : ℕ) : List ℕ := (List.range' j (k - j)).map fun i => m.frame root (i * pgsize)

/-- The pages from `j` to `k` are mapped to frames of their own. -/
structure Owned (m : Memory) (root j k : ℕ) : Prop where
  mapped : ∀ b, j * pgsize ≤ b → b < k * pgsize → m.pte root b &&& pteV ≠ 0
  distinct : ∀ a b, j * pgsize ≤ a → a < k * pgsize → j * pgsize ≤ b → b < k * pgsize →
    m.frame root a = m.frame root b →
    a / pgsize = b / pgsize
  apart : ∀ b, j * pgsize ≤ b → b < k * pgsize → m.frame root b ∉ m.nodes root
  used : ∀ b, j * pgsize ≤ b → b < k * pgsize → m.frame root b ∉ m.free
  kend : ∀ b, j * pgsize ≤ b → b < k * pgsize → m.image.kend ≤ m.frame root b
  phystop : ∀ b, j * pgsize ≤ b → b < k * pgsize → m.frame root b < phystop

/-- A well-formed user page table that maps exactly the first `n` pages below the trapframe. -/
structure Space (m : Memory) (root n : ℕ) : Prop where
  table : Table m root
  owned : Owned m root 0 n
  unmapped : ∀ b, n * pgsize ≤ b → b < trapframe → m.pte root b &&& pteV = 0
  bound : n * pgsize ≤ trapframe

/-! ### Memory outside the tables -/

theorem node_agree (same : ∀ x ∈ m.nodes root, m'.page x = m.page x) {q : List (Fin 512)} (le : q.length ≤ 2) :
    m'.node root q = m.node root q := Radix.node_agree same le

theorem nodes_agree (same : ∀ x ∈ m.nodes root, m'.page x = m.page x) : m'.nodes root = m.nodes root :=
  Radix.nodes_agree same

theorem pte_agree (same : ∀ x ∈ m.nodes root, m'.page x = m.page x) : m'.pte root va = m.pte root va := by
  have path := node_agree same (q := [px 2 va, px 1 va]) le_rfl
  cases found : m.node root [px 2 va, px 1 va] with
  | none => rw [pte_of_none found, pte_of_none (path.trans found)]
  | some x => rw [pte_of_node found, pte_of_node (path.trans found), same x ⟨_, le_rfl, found⟩]

theorem Table.agree (table : Table m root) (same : ∀ x ∈ m.nodes root, m'.page x = m.page x)
    (owned : ∀ x ∈ m.nodes root, x ∉ m'.free) : Table m' root := by
  refine ⟨fun p q x le le' there there' => ?_, fun p x i short there valid => ?_, fun p x i deep there valid => ?_,
    fun x mem => ?_⟩
  · exact table.distinct p q x le le' ((node_agree same le).symm.trans there) ((node_agree same le').symm.trans there')
  · have before := (node_agree same short.le).symm.trans there
    rw [same x ⟨p, short.le, before⟩] at valid ⊢
    exact table.inner p x i short before valid
  · have before := (node_agree same deep.le).symm.trans there
    rw [same x ⟨p, deep.le, before⟩] at valid ⊢
    exact table.leaf p x i deep before valid
  · rw [nodes_agree same] at mem
    exact owned x mem

theorem node_of_valid (valid : m.pte root va &&& pteV ≠ 0) : ∃ x, m.node root [px 2 va, px 1 va] = some x := by
  cases found : m.node root [px 2 va, px 1 va] with
  | some x => exact ⟨x, rfl⟩
  | none =>
    rw [pte_of_none found, Nat.zero_and] at valid
    exact absurd rfl valid

theorem flags_ne (leaf : e &&& leafBits ≠ 0) : pteFlags e ≠ pteV := by
  intro same
  rw [flags_eq] at same
  have low : e % 16 = 1 := by
    have : pteV = 1 := rfl
    omega
  rw [and_leafBits, low] at leaf
  exact leaf (by decide)

theorem Table.flags (table : Table m root) (valid : m.pte root va &&& pteV ≠ 0) : m.pte root va &&& leafBits ≠ 0 := by
  obtain ⟨x, found⟩ := node_of_valid valid
  rw [pte_of_node found] at valid ⊢
  exact table.leaf _ x _ rfl found valid

/-! ### uvmunmap -/

/-- From `m` to `m'`, the entries that `P` holds of have been cleared, and the pages `freed` given back. -/
structure Clears (m m' : Memory) (root : ℕ) (freed : List ℕ) (P : ℕ → Prop) : Prop where
  table : Table m' root
  image : m'.image = m.image
  free : m'.free = freed ++ m.free
  nodes : m'.nodes root = m.nodes root
  refuse : m'.refuse = m.refuse
  cleared : ∀ b, b < maxva → P b → m'.pte root b = 0
  kept : ∀ b, b < maxva → ¬ P b → m'.pte root b = m.pte root b
  others : ∀ p, p ∉ m.nodes root → p ∉ freed → m'.page p = m.page p
  low : ∀ i : Fin 512, 256 ≤ i.val → m'.node root [i] = m.node root [i]

/-- The memory after a round that frees. -/
theorem clears_round (table : Table m root) (below : a < maxva) (found : m.node root [px 2 a, px 1 a] = some n)
    (apart : f ∉ m.nodes root) :
    Clears m ((m.kfree f).store (n, px 0 a) 0) root [f] fun b => b / pgsize = a / pgsize := by
  have same (x : ℕ) (mem : x ∈ m.nodes root) : (m.kfree f).page x = m.page x := by
    refine Function.update_of_ne ?_ _ _
    rintro rfl
    exact apart mem
  have table' : Table (m.kfree f) root := table.agree same fun x mem there => by
    rcases List.mem_cons.mp there with rfl | there
    · exact apart mem
    · exact table.owned x mem there
  have written := table'.writes (e := 0) ((node_agree same le_rfl).trans found) below fun valid => absurd rfl valid
  refine ⟨written.table, rfl, rfl, ?_, rfl, fun b bound here => ?_, fun b bound other => ?_, fun p off out => ?_,
    fun i high => (written.low i high).trans (node_agree same (by simp))⟩
  · rw [written.nodes, nodes_agree same]
    simp
  · rw [written.ptes b bound, if_pos here]
    rfl
  · rw [written.ptes b bound, if_neg other]
    exact pte_agree same
  · have last : p ≠ n := by
      rintro rfl
      exact off (node_mem le_rfl found)
    have new : p ≠ f := by simpa using out
    change Function.update (m.kfree f).page n _ p = _
    rw [Function.update_of_ne last]
    exact Function.update_of_ne new _ _

theorem Clears.trans {m'' : Memory} {freed' : List ℕ} {P Q : ℕ → Prop} (h : Clears m m' root freed P)
    (h' : Clears m' m'' root freed' Q) : Clears m m'' root (freed' ++ freed) fun b => P b ∨ Q b where
  table := h'.table
  image := h'.image.trans h.image
  free := by rw [h'.free, h.free, List.append_assoc]
  nodes := h'.nodes.trans h.nodes
  refuse := h'.refuse.trans h.refuse
  cleared b bound either := by
    by_cases again : Q b
    · exact h'.cleared b bound again
    · rw [h'.kept b bound again]
      exact h.cleared b bound (either.resolve_right again)
  kept b bound neither := by
    obtain ⟨first, second⟩ := not_or.mp neither
    rw [h'.kept b bound second, h.kept b bound first]
  others p off out := by
    obtain ⟨second, first⟩ := not_or.mp (fun mem => out (List.mem_append.mpr mem))
    rw [h'.others p (by rwa [h.nodes]) second, h.others p off first]
  low i high := (h'.low i high).trans (h.low i high)

theorem Clears.congr {P Q : ℕ → Prop} (h : Clears m m' root freed P) (same : ∀ b, b < maxva → (P b ↔ Q b)) :
    Clears m m' root freed Q :=
  ⟨h.table, h.image, h.free, h.nodes, h.refuse, fun b bound there => h.cleared b bound ((same b bound).mpr there),
    fun b bound off => h.kept b bound (mt (same b bound).mp off), h.others, h.low⟩

theorem frames_succ (less : j < k) : m.frames root j k = m.frame root (j * pgsize) :: m.frames root (j + 1) k := by
  have count : k - j = (k - (j + 1)) + 1 := by omega
  rw [Memory.frames, count, List.range'_succ, List.map_cons]
  rfl

theorem frames_congr (same : ∀ b, j * pgsize ≤ b → b < k * pgsize → m'.pte root b = m.pte root b) :
    m'.frames root j k = m.frames root j k := by
  apply List.map_congr_left
  intro i mem
  obtain ⟨from_, to_⟩ := List.mem_range'_1.mp mem
  have positive : 0 < pgsize := by decide
  have less : i < k := by omega
  rw [Memory.frame, same _ (Nat.mul_le_mul_right _ from_) (Nat.mul_lt_mul_of_pos_right less positive)]
  rfl

theorem page_div (j b : ℕ) : b / pgsize = j ↔ j * pgsize ≤ b ∧ b < (j + 1) * pgsize := by
  rw [pgsize]
  omega

theorem Owned.round (owned : Owned m root j k) (less : j < k) (bound : k * pgsize ≤ maxva)
    (h : Clears m m' root [m.frame root (j * pgsize)] fun b => b / pgsize = j) : Owned m' root (j + 1) k := by
  have step : (j + 1) * pgsize = j * pgsize + pgsize := Nat.succ_mul j pgsize
  have first : j * pgsize < k * pgsize := Nat.mul_lt_mul_of_pos_right less (by decide)
  have same {b : ℕ} (from_ : (j + 1) * pgsize ≤ b) (to_ : b < k * pgsize) : m'.pte root b = m.pte root b := by
    refine h.kept b (by omega) fun here => ?_
    have := (page_div j b).mp here
    omega
  have frame {b : ℕ} (from_ : (j + 1) * pgsize ≤ b) (to_ : b < k * pgsize) : m'.frame root b = m.frame root b := by
    rw [Memory.frame, same from_ to_]
    rfl
  refine ⟨fun b from_ to_ => ?_, fun a b from_ to_ from' to' eq => ?_, fun b from_ to_ => ?_, fun b from_ to_ mem => ?_,
    fun b from_ to_ => ?_, fun b from_ to_ => ?_⟩
  · rw [same from_ to_]
    exact owned.mapped b (by omega) to_
  · rw [frame from_ to_, frame from' to'] at eq
    exact owned.distinct a b (by omega) to_ (by omega) to' eq
  · rw [frame from_ to_, h.nodes]
    exact owned.apart b (by omega) to_
  · rw [frame from_ to_, h.free] at mem
    rcases List.mem_cons.mp mem with eq | mem
    · have := owned.distinct b (j * pgsize) (by omega) to_ le_rfl first eq
      have := (page_div j b).mp (this.trans (Nat.mul_div_cancel _ (by decide)))
      omega
    · exact owned.used b (by omega) to_ mem
  · rw [frame from_ to_, h.image]
    exact owned.kend b (by omega) to_
  · rw [frame from_ to_]
    exact owned.phystop b (by omega) to_

theorem unmapFrom_free (table : Table m root) (owned : Owned m root j k) (le : j ≤ k) (bound : k * pgsize ≤ maxva)
    (enough : k - j < fuel) :
    Returns (unmapFrom root (k * pgsize) true fuel (j * pgsize)) m fun _ m' =>
      Clears m m' root (m.frames root j k).reverse fun b => j * pgsize ≤ b ∧ b < k * pgsize := by
  induction fuel generalizing m j with
  | zero => exact absurd enough (Nat.not_lt_zero _)
  | succ fuel ih =>
    unfold unmapFrom
    rcases Nat.eq_or_lt_of_le le with rfl | less
    · rw [if_neg (lt_irrefl _)]
      refine .pure ⟨table, rfl, ?_, rfl, rfl, fun b _ there => ?_, fun _ _ _ => rfl, fun _ _ _ => rfl, fun _ _ => rfl⟩
      · simp [Memory.frames]
      · omega
    · have first : j * pgsize < k * pgsize := Nat.mul_lt_mul_of_pos_right less (by decide)
      have valid := owned.mapped _ le_rfl first
      obtain ⟨x, found⟩ := node_of_valid valid
      rw [if_pos first]
      refine .bind ((walk_look (by omega)).mono fun r m₁ ⟨same, looked⟩ => ?_)
      rw [same, looked, found]
      refine .bind (.reads ?_)
      have entry : m.page x (px 0 (j * pgsize)) = m.pte root (j * pgsize) := (pte_of_node found).symm
      rw [entry]
      refine .bind ?_
      rw [panicIf, onlyIf, if_neg valid]
      refine .pure (.bind ?_)
      rw [panicIf, onlyIf, if_neg (flags_ne (table.flags valid))]
      refine .pure (.bind ?_)
      rw [onlyIf, if_pos rfl]
      refine ⟨(), m.kfree (m.frame root (j * pgsize)), ?_, .bind (.writes ?_)⟩
      · have fine : ¬ (pte2pa (m.pte root (j * pgsize)) % pgsize ≠ 0 ∨ pte2pa (m.pte root (j * pgsize)) < m.image.kend ∨
            phystop ≤ pte2pa (m.pte root (j * pgsize))) := by
          have aligned : pte2pa (m.pte root (j * pgsize)) % pgsize = 0 := pa_aligned
          have low := owned.kend _ le_rfl first
          have high := owned.phystop _ le_rfl first
          rw [Memory.frame] at low high
          omega
        exact if_neg fine
      · have round := (clears_round table (by omega) found (owned.apart _ le_rfl first)).congr
          (Q := fun b => b / pgsize = j)
          fun b _ => by rw [Nat.mul_div_cancel _ (by decide)]
        have next : wrap (j * pgsize + pgsize) = (j + 1) * pgsize := by
          have := Nat.mul_le_mul_right pgsize (Nat.succ_le_of_lt less)
          rw [Nat.succ_mul, wrap, Nat.mod_eq_of_lt]
          rw [maxva_eq] at bound
          rw [Nat.succ_mul] at this
          omega
        rw [next]
        refine (ih round.table (owned.round less bound round) less (by omega)).mono fun _ m₂ rest => ?_
        have both := round.trans rest
        have step : (j + 1) * pgsize = j * pgsize + pgsize := Nat.succ_mul j pgsize
        rw [frames_congr fun b from_ to_ => round.kept b (by omega) fun here => by
          have := (page_div j b).mp here
          omega] at both
        rw [frames_succ less, List.reverse_cons]
        refine both.congr fun b _ => ?_
        rw [page_div]
        have := Nat.mul_le_mul_right pgsize (Nat.succ_le_of_lt less)
        rw [Nat.succ_mul] at this
        omega

theorem uvmunmap_free (table : Table m root) (owned : Owned m root j k) (le : j ≤ k) (bound : k * pgsize ≤ maxva) :
    Returns (uvmunmap root (j * pgsize) (k - j) true) m fun _ m' =>
      Clears m m' root (m.frames root j k).reverse fun b => j * pgsize ≤ b ∧ b < k * pgsize := by
  unfold uvmunmap
  refine .bind ?_
  rw [panicIf, onlyIf, if_neg (by rw [Nat.mul_mod_left]; exact fun h => h rfl)]
  have top : wrap (j * pgsize + (k - j) * pgsize) = k * pgsize := by
    rw [← Nat.add_mul, Nat.add_sub_cancel' le, wrap, Nat.mod_eq_of_lt]
    rw [maxva_eq] at bound
    omega
  rw [top]
  refine .pure (unmapFrom_free table owned le bound ?_)
  rw [maxva_eq, pgsize] at bound
  rw [rounds]
  omega

/-! ### uvmdealloc -/

theorem pgroundup_eq (bound : a ≤ trapframe) : pgroundup a = (a + pgsize - 1) / pgsize * pgsize := by
  have top : trapframe < 2 ^ 38 := by decide
  rw [pgroundup, wrap, Nat.mod_eq_of_lt]
  rw [pgsize]
  omega

/-- `PGROUNDUP(sz) / PGSIZE` -/
def pagesOf (sz : ℕ) : ℕ := (sz + pgsize - 1) / pgsize

theorem pgroundup_pages (bound : a ≤ trapframe) : pgroundup a = pagesOf a * pgsize := pgroundup_eq bound

theorem pagesOf_le (bound : a ≤ trapframe) : pagesOf a * pgsize ≤ trapframe := by
  have multiple : trapframe = (2 ^ 26 - 2) * pgsize := by decide
  rw [multiple] at bound ⊢
  rw [pagesOf, pgsize] at *
  omega

theorem throughInt_small (small : n < 2 ^ 31) : throughInt n = n := by
  rw [throughInt, Nat.mod_eq_of_lt (by omega), if_pos small]

theorem uvmdealloc_free (table : Table m root) (owned : Owned m root (pagesOf newsz) (pagesOf oldsz))
    (bound : oldsz ≤ trapframe) :
    Returns (uvmdealloc root oldsz newsz) m fun r m' => r = min oldsz newsz ∧
      Clears m m' root (m.frames root (pagesOf newsz) (pagesOf oldsz)).reverse fun b =>
        pagesOf newsz * pgsize ≤ b ∧ b < pagesOf oldsz * pgsize := by
  have nothing (le : pagesOf oldsz ≤ pagesOf newsz) :
    Clears m m root (m.frames root (pagesOf newsz) (pagesOf oldsz)).reverse fun b =>
      pagesOf newsz * pgsize ≤ b ∧ b < pagesOf oldsz * pgsize := by
    refine ⟨table, rfl, ?_, rfl, rfl, fun b _ there => ?_, fun _ _ _ => rfl, fun _ _ _ => rfl, fun _ _ => rfl⟩
    · rw [Memory.frames, Nat.sub_eq_zero_of_le le]
      rfl
    · have := Nat.mul_le_mul_right pgsize le
      omega
  unfold uvmdealloc
  by_cases le : oldsz ≤ newsz
  · rw [if_pos le]
    refine .pure ⟨(min_eq_left le).symm, nothing (Nat.div_le_div_right (by omega))⟩
  have less : newsz < oldsz := Nat.lt_of_not_le le
  have top := pagesOf_le bound
  rw [if_neg le]
  refine .bind ?_
  rw [onlyIf, pgroundup_pages bound, pgroundup_pages (by omega : newsz ≤ trapframe)]
  by_cases some : pagesOf newsz * pgsize < pagesOf oldsz * pgsize
  · have fewer : pagesOf newsz < pagesOf oldsz := Nat.lt_of_mul_lt_mul_right some
    have count : (pagesOf oldsz * pgsize - pagesOf newsz * pgsize) / pgsize = pagesOf oldsz - pagesOf newsz := by
      rw [← Nat.sub_mul, Nat.mul_div_cancel _ (by decide)]
    have high : trapframe ≤ maxva := by decide
    have small : pagesOf oldsz - pagesOf newsz < 2 ^ 31 := by
      have limit : trapframe < 2 ^ 31 * pgsize := by decide
      have := Nat.lt_of_mul_lt_mul_right (lt_of_le_of_lt top limit)
      omega
    rw [if_pos some, count, throughInt_small small]
    refine (uvmunmap_free table owned fewer.le (top.trans high)).mono fun _ m' clears => .pure ⟨?_, clears⟩
    exact (min_eq_right less.le).symm
  · rw [if_neg some]
    refine .pure (.pure ⟨(min_eq_right less.le).symm, nothing ?_⟩)
    exact Nat.le_of_mul_le_mul_right (Nat.le_of_not_lt some) (by decide)

end Xv6Labs.Vm
