import Xv6Labs.Vm.Copy

/-!
# `Puvmcopy`

The pages of a user page table are mapped in a kernel page table, to the same frames. Its cleanup is that of
`uvmcopy`, so it frees the frames of the pages it has mapped, which belong to the user page table.
-/

namespace Xv6Labs.Vm

open Faults

variable {m₀ m m' m'' : Memory} {old new root sz n b e f i j k fuel : ℕ} {taken taken' : List ℕ}

/-! ### The tables that are missing -/

/-- The number of tables that page `i` needs and that no page before it has needed. -/
def Memory.needs (m : Memory) (root i : ℕ) : ℕ :=
  (if i % 2 ^ 18 = 0 then absent (m.node root [px 2 (i * pgsize)]) else 0) +
    if i % 2 ^ 9 = 0 then absent (m.node root [px 2 (i * pgsize), px 1 (i * pgsize)]) else 0

/-- The number of tables missing for the first `n` pages. -/
def Memory.lacks (m : Memory) (root : ℕ) : ℕ → ℕ
  | 0 => 0
  | n + 1 => m.lacks root n + m.needs root n

theorem lacks_mono (le : i ≤ j) : m.lacks root i ≤ m.lacks root j := by
  induction j, le using Nat.le_induction with
  | base => exact le_rfl
  | succ j _ ih => exact ih.trans (Nat.le_add_right _ _)

theorem px_two (below : i * pgsize < maxva) : (px 2 (i * pgsize)).val = i / 2 ^ 18 := by
  rw [px_val, maxva_eq, pgsize] at *
  norm_num
  omega

theorem px_one : (px 1 (i * pgsize)).val = i / 2 ^ 9 % 512 := by
  rw [px_val, pgsize]
  norm_num
  omega

theorem first_two (below : j * pgsize < maxva) : (∀ l, l < j → px 2 (l * pgsize) ≠ px 2 (j * pgsize)) ↔
    j % 2 ^ 18 = 0 := by
  constructor
  · intro fresh
    by_contra more
    refine fresh (j - 1) (by omega) (Fin.ext ?_)
    rw [px_two below, px_two (lt_of_le_of_lt (Nat.mul_le_mul_right _ (Nat.sub_le j 1)) below)]
    omega
  · intro whole l less same
    have := congrArg Fin.val same
    rw [px_two below, px_two (lt_of_le_of_lt (Nat.mul_le_mul_right _ less.le) below)] at this
    omega

theorem first_one (below : j * pgsize < maxva) :
    (∀ l, l < j → [px 2 (l * pgsize), px 1 (l * pgsize)] ≠ [px 2 (j * pgsize), px 1 (j * pgsize)]) ↔ j % 2 ^ 9 = 0 := by
  have same {l : ℕ} (less : l < j) : [px 2 (l * pgsize), px 1 (l * pgsize)] = [px 2 (j * pgsize), px 1 (j * pgsize)] ↔
      l / 2 ^ 9 = j / 2 ^ 9 := by
    simp only [List.cons.injEq, and_true, Fin.ext_iff]
    rw [px_two below, px_two (lt_of_le_of_lt (Nat.mul_le_mul_right _ less.le) below), px_one, px_one]
    rw [maxva_eq, pgsize] at below
    omega
  constructor
  · intro fresh
    by_contra more
    refine fresh (j - 1) (by omega) ((same (by omega)).mpr ?_)
    omega
  · intro whole l less both
    have := (same less).mp both
    omega

/-- From `m₀` to `m`, the tables for the first `j` pages have been added. -/
structure Paved (m₀ m : Memory) (root j : ℕ) : Prop where
  tops : ∀ i, m.node root [i] = none ↔ m₀.node root [i] = none ∧ ∀ l, l < j → px 2 (l * pgsize) ≠ i
  lasts : ∀ i k, m.node root [i, k] = none ↔
    m₀.node root [i, k] = none ∧ ∀ l, l < j → [px 2 (l * pgsize), px 1 (l * pgsize)] ≠ [i, k]

theorem paved_refl : Paved m m root 0 := ⟨fun _ => by simp, fun _ _ => by simp⟩

theorem Paved.round (paved : Paved m₀ m root j) (reaches : Reaches m m' root (j * pgsize)) :
    Paved m₀ m' root (j + 1) := by
  obtain ⟨x, found⟩ := reaches.found
  have top : m'.node root [px 2 (j * pgsize)] ≠ none := by
    intro gone
    have := Radix.node_gone (q := [px 2 (j * pgsize), px 1 (j * pgsize)]) ⟨[px 1 (j * pgsize)], rfl⟩ gone
    exact absurd (found.symm.trans this) (by simp)
  refine ⟨fun i => ?_, fun i k => ?_⟩
  · by_cases here : i = px 2 (j * pgsize)
    · subst here
      refine iff_of_false top fun gone => ?_
      exact gone.2 j (Nat.lt_succ_self j) rfl
    · rw [reaches.others [i] (by simp) (by simpa using here) (by simp), paved.tops]
      refine and_congr_right fun _ => ⟨fun before l less => ?_, fun before l less => before l (by omega)⟩
      rcases Nat.lt_succ_iff_lt_or_eq.mp less with less | rfl
      · exact before l less
      · exact Ne.symm here
  · by_cases here : [i, k] = [px 2 (j * pgsize), px 1 (j * pgsize)]
    · refine iff_of_false (fun gone => ?_) fun gone => gone.2 j (Nat.lt_succ_self j) here.symm
      rw [here, found] at gone
      cases gone
    · rw [reaches.others [i, k] le_rfl (by simp) here, paved.lasts]
      refine and_congr_right fun _ => ⟨fun before l less => ?_, fun before l less => before l (by omega)⟩
      rcases Nat.lt_succ_iff_lt_or_eq.mp less with less | rfl
      · exact before l less
      · exact Ne.symm here

theorem absent_congr {x y : Option ℕ} {c : Prop} [Decidable c] (same : x = none ↔ y = none ∧ c) :
    absent x = if c then absent y else 0 := by
  by_cases here : c
  · rw [if_pos here]
    have := same.trans (and_iff_left here)
    cases x <;> cases y <;> simp_all [absent]
  · rw [if_neg here]
    cases x with
    | none => exact absurd (same.mp rfl).2 here
    | some x => rfl

theorem Paved.missing (paved : Paved m₀ m root j) (below : j * pgsize < maxva) :
    m.missing root (j * pgsize) = m₀.needs root j := by
  have two := paved.tops (px 2 (j * pgsize))
  have one := paved.lasts (px 2 (j * pgsize)) (px 1 (j * pgsize))
  rw [first_two below] at two
  rw [first_one below] at one
  rw [Memory.missing, Memory.needs, absent_congr two, absent_congr one]

/-! ### The loop -/

/-- The flags of a shared page, without `PTE_U`. -/
def lent (e : ℕ) : ℕ := pteFlags e &&& (2 ^ 32 - 1 - pteU)

theorem lent_leaf (leaf : e &&& leafBits ≠ 0) : LeafPerm (lent e) := by
  have perms := flags_leaf leaf
  refine ⟨lt_of_le_of_lt Nat.and_le_left perms.small, ?_⟩
  have kept : (2 ^ 32 - 1 - pteU) &&& leafBits = leafBits := by decide
  rw [lent, Nat.and_assoc, kept]
  exact perms.leaf

theorem lent_or_valid (valid : e % 2 = 1) : lent e ||| pteV = lent e := by
  have kept : (2 ^ 32 - 1 - pteU) ||| pteV = 2 ^ 32 - 1 - pteU := by decide
  rw [lent, Nat.or_and_distrib_right, flags_or_valid valid, kept]

/-- From `m₀` to `m`, the first `j` pages of `old` have been mapped in `new`. -/
structure Shares (m₀ m : Memory) (old new j : ℕ) (taken : List ℕ) : Prop extends Grows m₀ m new taken where
  ptes : ∀ b, b < maxva → m.pte new b =
    if b < j * pgsize then entry (m₀.frame old b) (lent (m₀.pte old b)) else m₀.pte new b
  count : taken.length = m₀.lacks new j
  never : ∀ k, k < taken.length → ¬ m₀.Fails k

/-- `kalloc` fails for page `j`. -/
def Memory.FailsAt (m : Memory) (root j : ℕ) : Prop := ∃ k, m.lacks root j ≤ k ∧ k < m.lacks root (j + 1) ∧ m.Fails k

theorem Table.shares (table : Table m new) : Shares m m old new 0 [] :=
  ⟨table.refl, fun b _ => by rw [if_neg (by omega)], rfl, fun _ lt => nomatch lt⟩

theorem Shares.round (shares : Shares m₀ m old new j taken)
    (writes : Writes m m' new taken' fun b => if b / pgsize = j then
      some (entry (pte2pa (m₀.pte old (j * pgsize))) (lent (m₀.pte old (j * pgsize)))) else none)
    (needed : taken'.length = m₀.needs new j) (refuse : ∀ k, m.refuse k = m₀.refuse (k + taken.length))
    (never : ∀ k, k < taken'.length → ¬ m.Fails k) : Shares m₀ m' old new (j + 1) (taken ++ taken') where
  toGrows := shares.toGrows.trans writes.toGrows
  ptes b bound := by
    rw [writes.ptes b bound]
    by_cases here : b / pgsize = j
    · have upto := ((page_div j b).mp here).2
      have same : m₀.pte old b = m₀.pte old (j * pgsize) :=
        pte_congr (here.trans (Nat.mul_div_cancel j (by decide : 0 < pgsize)).symm)
      rw [if_pos here, if_pos upto, Memory.frame, same]
      rfl
    · have step : b < (j + 1) * pgsize ↔ b < j * pgsize := by
        refine ⟨fun upto => ?_, fun upto => upto.trans_le (Nat.mul_le_mul_right _ (Nat.le_succ j))⟩
        exact ((page_cases upto).resolve_left here).2
      rw [if_neg here]
      simp only [step]
      exact shares.ptes b bound
  count := by rw [List.length_append, shares.count, needed, Memory.lacks]
  never k less := by
    by_cases first : k < taken.length
    · exact shares.never k first
    · have later := never (k - taken.length) (by rw [List.length_append] at less; omega)
      rwa [shares.toGrows.fails_iff refuse, Nat.sub_add_cancel (Nat.le_of_not_lt first)] at later

theorem pcopyFrom_spec (parent : Parent m₀ old new sz) (free : m₀.Free)
    (unmapped : ∀ b, b < pagesOf sz * pgsize → m₀.pte new b &&& pteV = 0) (top : pagesOf sz * pgsize ≤ maxva)
    (reach : j ≤ pagesOf sz) (enough : pagesOf sz - j < fuel) (shares : Shares m₀ m old new j taken)
    (refuse : ∀ k, m.refuse k = m₀.refuse (k + taken.length)) (paved : Paved m₀ m new j) :
    Returns (pcopyFrom old new sz fuel (j * pgsize)) m fun r m' => ∃ taken,
      r = none ∧ Shares m₀ m' old new (pagesOf sz) taken ∨
      ∃ i m₁ taken', i < pagesOf sz ∧ r = some (i * pgsize) ∧ Shares m₀ m₁ old new i taken ∧
        Grows m₁ m' new taken' ∧ (∀ b, m'.pte new b = m₁.pte new b) ∧ m₀.FailsAt new i := by
  induction fuel generalizing m j taken with
  | zero => exact absurd enough (Nat.not_lt_zero _)
  | succ fuel ih =>
    unfold pcopyFrom
    by_cases more : j * pgsize < sz
    · have next : j + 1 ≤ pagesOf sz := by
        rw [pagesOf, pgsize] at *
        omega
      have low : j * pgsize < pagesOf sz * pgsize := Nat.mul_lt_mul_of_pos_right next (by decide)
      have below : j * pgsize < maxva := lt_of_lt_of_le low top
      have valid := (parent.mapped_page low).1
      rw [if_pos more]
      refine .bind ((parent.looked shares.others low below).mono ?_)
      rintro r m₁ ⟨rfl, x, rfl, read⟩
      refine .bind (.reads ?_)
      rw [read]
      refine .bind ?_
      rw [panicIf, onlyIf, if_neg valid]
      refine .pure ?_
      have free₁ := free.grows shares.toGrows
      have empty : m₁.pte new (j * pgsize) &&& pteV = 0 := by
        rw [shares.ptes _ below, if_neg (lt_irrefl _)]
        exact unmapped _ low
      have page := mappages_page (pte2pa (m₀.pte old (j * pgsize))) shares.table free₁ below
        (lent_leaf (parent.table.flags valid)) empty
      refine .bind (page.mono ?_)
      rw [paved.missing below]
      rintro r m₂ ⟨taken', ⟨rfl, writes, needed, granted⟩ | ⟨rfl, grows, same, k, less, failed, -⟩⟩
      · have small : wrap (j * pgsize + pgsize) = (j + 1) * pgsize := by
          have room := page_lt below
          rw [Nat.succ_mul] at room ⊢
          rw [wrap, Nat.mod_eq_of_lt]
          rw [maxva_eq] at room
          omega
        rw [if_neg (by decide), small]
        refine ih next (by omega) (shares.round writes needed refuse granted.never) (fun k => ?_)
          (paved.round granted.toReaches)
        rw [granted.refuse, refuse, List.length_append, Nat.add_assoc, Nat.add_comm taken'.length]
      · rw [if_pos (by decide)]
        refine .pure ⟨taken, .inr ⟨j, m₁, taken', next, rfl, shares, grows, same, k + taken.length, ?_, ?_, ?_⟩⟩
        · rw [shares.count]
          exact Nat.le_add_left _ _
        · rw [shares.count, Memory.lacks]
          omega
        · exact (shares.toGrows.fails_iff refuse k).mp failed
    · have done : j = pagesOf sz := by
        rw [pagesOf, pgsize] at *
        omega
      rw [if_neg more]
      refine .pure ⟨taken, .inl ⟨rfl, ?_⟩⟩
      rwa [← done]

/-! ### The cleanup -/

theorem Shares.frame (shares : Shares m₀ m old new j taken) (parent : Parent m₀ old new sz) (reach : j ≤ pagesOf sz)
    (top : pagesOf sz * pgsize ≤ maxva) (low : b < j * pgsize) : m.frame new b = m₀.frame old b := by
  have upto := lt_of_lt_of_le low (Nat.mul_le_mul_right pgsize reach)
  have perms := lent_leaf (parent.table.flags (parent.mapped_page upto).1)
  rw [Memory.frame, shares.ptes b (by omega), if_pos low]
  exact entry_pa perms.small pa_aligned pa_lt

/-- The shared pages look like pages of `new`, with frames of their own. -/
theorem Shares.owned (shares : Shares m₀ m old new j taken) (parent : Parent m₀ old new sz)
    (owned : Owned m₀ old 0 (pagesOf sz))
    (reach : j ≤ pagesOf sz) (grows : Grows m m' new taken') (same : ∀ b, m'.pte new b = m.pte new b) :
    Owned m' new 0 j := by
  have top := owned.fits.trans (by decide : phystop ≤ maxva)
  have upto {b : ℕ} (low : b < j * pgsize) : b < pagesOf sz * pgsize :=
    lt_of_lt_of_le low (Nat.mul_le_mul_right pgsize reach)
  have all := shares.toGrows.trans grows
  have frame {b : ℕ} (low : b < j * pgsize) : m'.frame new b = m₀.frame old b := by
    rw [← shares.frame parent reach top low, Memory.frame, same]
    rfl
  refine ⟨fun b _ low => ?_, fun a b _ low _ low' eq => ?_, fun b _ low => ?_, fun b _ low => ?_, fun b _ low => ?_,
    fun b _ low => ?_⟩
  · have valid := parent.mapped_page (upto low)
    rw [same, shares.ptes b (by have := upto low; omega), if_pos low]
    exact (lent_leaf (parent.table.flags valid.1)).entry.1
  · rw [frame low, frame low'] at eq
    exact owned.distinct a b (by omega) (upto low) (by omega) (upto low') eq
  · rw [frame low, all.nodes]
    rintro (there | there)
    · exact (parent.mapped_page (upto low)).2.1 there
    · refine (parent.mapped_page (upto low)).2.2.1 ?_
      rw [all.free]
      exact List.mem_append_left _ there
  · rw [frame low]
    intro there
    refine (parent.mapped_page (upto low)).2.2.1 ?_
    rw [all.free]
    exact List.mem_append_right _ there
  · rw [frame low, all.image]
    exact owned.kend b (by omega) (upto low)
  · rw [frame low]
    exact owned.phystop b (by omega) (upto low)

theorem puvmcopy_spec (parent : Parent m old new sz) (owned : Owned m old 0 (pagesOf sz)) (table : Table m new)
    (free : m.Free) (unmapped : ∀ b, b < pagesOf sz * pgsize → m.pte new b &&& pteV = 0) :
    Returns (puvmcopy old new sz) m fun r m' => ∃ taken,
      (r = 0 ∧ Shares m m' old new (pagesOf sz) taken) ∨
      (r = -1 ∧ Grows m m' new taken ∧ (∀ b, b < maxva → m'.pte new b = m.pte new b) ∧ m.FailsAt new 0) ∨
      ∃ i, 0 < i ∧ i < pagesOf sz ∧ m.frame old 0 ∈ m'.free ∧ (∀ k, k < m.lacks new i → ¬ m.Fails k) ∧
      m.FailsAt new i := by
  have top := owned.fits.trans (by decide : phystop ≤ maxva)
  have enough : pagesOf sz - 0 < rounds := by
    rw [rounds]
    rw [maxva_eq, pgsize] at top
    omega
  have start : 0 * pgsize = 0 := Nat.zero_mul _
  have loop := pcopyFrom_spec parent free unmapped top (Nat.zero_le _) enough table.shares (fun _ => rfl) paved_refl
  rw [start] at loop
  unfold puvmcopy
  refine .bind (loop.mono ?_)
  rintro r m' ⟨taken, ⟨rfl, shares⟩ | ⟨i, m₁, taken', less, rfl, shares, grows, same, failed⟩⟩
  · exact .pure ⟨taken, .inl ⟨rfl, shares⟩⟩
  have mine := shares.owned parent owned less.le grows same
  have undo := uvmunmap_free grows.table mine (Nat.zero_le i) ((Nat.mul_le_mul_right _ less.le).trans top)
  have count : i * pgsize / pgsize = i - 0 := Nat.mul_div_cancel _ (by decide)
  rw [start, ← count] at undo
  refine .bind (undo.mono fun _ m₂ clears => ?_)
  rcases Nat.eq_zero_or_pos i with rfl | positive
  · have all := shares.toGrows.trans grows
    have none : m'.frames new 0 0 = [] := rfl
    rw [none, List.reverse_nil] at clears
    refine .pure ⟨taken ++ taken',
      .inr (.inl ⟨rfl, ⟨clears.table, clears.image.trans all.image, ?_, clears.nodes.trans all.nodes,
      fun p off out => ?_, fun i high => (clears.low i high).trans (all.low i high)⟩, fun b bound => ?_, failed⟩)⟩
    · rw [clears.free, List.nil_append, all.free]
    · rw [clears.others p _ (List.not_mem_nil), all.others p off out]
      rw [all.nodes]
      rintro (there | there)
      · exact off there
      · refine out ?_
        rw [all.free]
        exact List.mem_append_left _ there
    · rw [clears.kept b bound (by omega), same, shares.ptes b bound, if_neg (by omega)]
  · have low : 0 < i * pgsize := Nat.mul_pos positive (by decide)
    refine .pure ⟨taken,
      .inr (.inr ⟨i, positive, less, ?_, fun k few => shares.never k (by rwa [shares.count]), failed⟩)⟩
    rw [clears.free]
    refine List.mem_append_left _ (List.mem_reverse.mpr ?_)
    have first : m'.frame new 0 = m.frame old 0 := by
      rw [← shares.frame parent less.le top low, Memory.frame, same]
      rfl
    rw [← first]
    exact mem_frames (by omega) low

/-! ### Puvmcopy -/

/-- What is asked of `Puvmcopy`: on success all pages are shared, on failure none, and the user page table keeps its
frames. -/
def SharesSafely (m : Memory) (old new sz : ℕ) : Prop :=
  Returns (puvmcopy old new sz) m fun r m' =>
    (r = 0 ∧ (∀ b, b < pgroundup sz →
        m'.translate new b = some (m.frame old b, pteFlags (m.pte old b) &&& (2 ^ 32 - 1 - pteU))) ∨
      r = -1 ∧ ∀ b, b < pgroundup sz → m'.translate new b = none) ∧
    (∀ b, b < sz → m.frame old b ∉ m'.free ∧ m'.page (m.frame old b) = m.page (m.frame old b)) ∧
    ∀ b, m'.translate old b = m.translate old b

/-- Tables that grow leave the user page table and its frames alone. -/
theorem Grows.spares (grows : Grows m m' new taken) (parent : Parent m old new sz) :
    (∀ b, b < sz → m.frame old b ∉ m'.free ∧ m'.page (m.frame old b) = m.page (m.frame old b)) ∧
      ∀ b, m'.translate old b = m.translate old b := by
  refine ⟨fun b low => ⟨fun there => parent.used b low ?_, grows.others _ (parent.apart b low) (parent.used b low)⟩,
    fun b => translate_congr (parent.pte grows.others)⟩
  rw [grows.free]
  exact List.mem_append_right _ there

theorem translate_eq_none : m.translate root b = none ↔ m.pte root b &&& pteV = 0 := by
  rw [Memory.translate]
  split <;> simp_all

/-- A failure at a later page frees the frame of the first one. -/
theorem SharesSafely.condition (safe : SharesSafely m old new sz) (parent : Parent m old new sz)
    (owned : Owned m old 0 (pagesOf sz)) (table : Table m new) (free : m.Free)
    (unmapped : ∀ b, b < pagesOf sz * pgsize → m.pte new b &&& pteV = 0) :
    (∃ k, k < m.lacks new 1 ∧ m.Fails k) ∨ ∀ k, k < m.lacks new (pagesOf sz) → ¬ m.Fails k := by
  have spec := puvmcopy_spec parent owned table free unmapped
  rcases spec with ⟨r, m', ran, taken, ⟨-, shares⟩ | ⟨-, -, -, k, -, less, failed⟩ | ⟨i, positive, less, given, -, -⟩⟩
  · right
    rw [← shares.count]
    exact shares.never
  · exact .inl ⟨k, less, failed⟩
  · refine absurd given ((safe.det ran).2.1 0 ?_).1
    by_contra none
    have zero : sz = 0 := by omega
    subst zero
    exact Nat.not_lt_zero _ less

theorem puvmcopy_safe_iff (parent : Parent m old new sz) (owned : Owned m old 0 (pagesOf sz)) (table : Table m new)
    (free : m.Free) (unmapped : ∀ b, b < pgroundup sz → m.translate new b = none) :
    SharesSafely m old new sz ↔
      (∃ k, k < m.lacks new 1 ∧ m.Fails k) ∨ ∀ k, k < m.lacks new (pagesOf sz) → ¬ m.Fails k := by
  have size : sz ≤ trapframe := le_pagesOf.trans (owned.fits.trans (by decide))
  have up := pgroundup_pages size
  have empty (b : ℕ) (low : b < pagesOf sz * pgsize) : m.pte new b &&& pteV = 0 :=
    translate_eq_none.mp (unmapped b (by omega))
  have top := owned.fits.trans (by decide : phystop ≤ maxva)
  refine ⟨fun safe => safe.condition parent owned table free empty, fun fine => ?_⟩
  refine (puvmcopy_spec parent owned table free empty).mono ?_
  rintro r m' ⟨taken, ⟨rfl, shares⟩ | ⟨rfl, grows, same, -⟩ | ⟨i, positive, less, -, before, k, -, upto, failed⟩⟩
  · refine ⟨.inl ⟨rfl, fun b low => ?_⟩, shares.toGrows.spares parent⟩
    rw [up] at low
    have valid := (parent.mapped_page low).1
    have perms := lent_leaf (parent.table.flags valid)
    have written : m'.pte new b = entry (m.frame old b)
      (lent (m.pte old b)) := by rw [shares.ptes b (by omega), if_pos low]
    rw [translate_entry perms.small pa_aligned pa_lt written, lent_or_valid (valid_iff.mp valid)]
    rfl
  · refine ⟨.inr ⟨rfl, fun b low => ?_⟩, grows.spares parent⟩
    have there := unmapped b low
    rw [up] at low
    rwa [translate_congr (same b (by omega))]
  · rcases fine with ⟨l, few, failed'⟩ | never
    · exact absurd failed' (before l (lt_of_lt_of_le few (lacks_mono positive)))
    · exact absurd failed (never k (lt_of_lt_of_le upto (lacks_mono less)))

/-! ### Two free pages, and a copy of 4 MB -/

theorem userMemory_gone {c : ℕ} (i : Fin 512) (p : List (Fin 512)) :
    (userMemory c).node 0x87ffb000 (i :: p) = none := by
  refine node_blank ?_ i p
  funext k
  simp [userMemory]

theorem userMemory_unmapped {c : ℕ} (low : b < 1024 * pgsize) : (userMemory c).pte 0x87ffb000 b &&& pteV = 0 := by
  have high : 1024 * pgsize ≤ trapframe := by decide
  exact userMemory_empty.1.unmapped b (by omega) (by omega)

theorem lacks_of_needs (le : i ≤ j) (nothing : ∀ l, i ≤ l → l < j → m.needs root l = 0) :
    m.lacks root j = m.lacks root i := by
  induction j, le using Nat.le_induction with
  | base => rfl
  | succ j le ih =>
    rw [Memory.lacks, nothing j le (Nat.lt_succ_self j), Nat.add_zero]
    exact ih fun l from_ to_ => nothing l from_ (Nat.lt_succ_of_lt to_)

theorem userMemory_lacks {c : ℕ} : (userMemory c).lacks 0x87ffb000 1 = 2 ∧
    (userMemory c).lacks 0x87ffb000 1024 = 3 := by
  have between {l : ℕ} (inside : l % 2 ^ 9 ≠ 0) : (userMemory c).needs 0x87ffb000 l = 0 := by
    have wide : l % 2 ^ 18 ≠ 0 := by omega
    rw [Memory.needs, if_neg inside, if_neg wide]
  have first : (userMemory c).lacks 0x87ffb000 1 = 2 := by
    simp only [Memory.lacks, Memory.needs, userMemory_gone]
    rfl
  have second : (userMemory c).needs 0x87ffb000 512 = 1 := by
    simp only [Memory.needs, userMemory_gone]
    rfl
  refine ⟨first, ?_⟩
  rw [lacks_of_needs (by decide : 513 ≤ 1024) fun l from_ to_ => between (by omega), Memory.lacks, second,
    lacks_of_needs (by decide : 1 ≤ 512) fun l from_ to_ => between (by omega), first]

theorem userMemory_fails {c k : ℕ} (upto : c ≤ 6) : (userMemory c).Fails k ↔ c ≤ k := by
  have length : (userMemory c).free.length = c := by
    rw [userMemory, List.length_take]
    exact min_eq_left upto
  rw [Memory.Fails, length]
  exact or_iff_right (Bool.false_ne_true)

/-- The tables for the first 512 pages take both free pages, and page 512 needs one more. -/
theorem puvmcopy_unsafe : Parent (userMemory 2) 0x87fff000 0x87ffb000 (1024 * pgsize) ∧
    (∀ b, b < pgroundup (1024 * pgsize) → (userMemory 2).translate 0x87ffb000 b = none) ∧
    ¬ SharesSafely (userMemory 2) 0x87fff000 0x87ffb000 (1024 * pgsize) := by
  have pages : pagesOf (1024 * pgsize) = 1024 := pagesOf_mul
  have up : pgroundup (1024 * pgsize) = 1024 * pgsize := by decide
  have parent := userMemory_parent (c := 2) le_rfl
  refine ⟨parent, fun b low => translate_eq_none.mpr (userMemory_unmapped (by omega)), fun safe => ?_⟩
  obtain ⟨first, more⟩ := userMemory_lacks (c := 2)
  obtain ⟨k, few, failed⟩ | never :=
    safe.condition parent (by rw [pages]; exact userMemory_owned) userMemory_empty.1.table
    userMemory_free (by rw [pages]; exact fun b low => userMemory_unmapped low)
  · have := (userMemory_fails (by decide)).mp failed
    omega
  · refine never 2 ?_ ((userMemory_fails (by decide)).mpr le_rfl)
    rw [pages]
    omega

/-- Three pages are enough. -/
theorem puvmcopy_safe_iff_enough : SharesSafely (userMemory 3) 0x87fff000 0x87ffb000 (1024 * pgsize) := by
  have pages : pagesOf (1024 * pgsize) = 1024 := pagesOf_mul
  have up : pgroundup (1024 * pgsize) = 1024 * pgsize := by decide
  refine (puvmcopy_safe_iff (userMemory_parent (c := 3) le_rfl)
    (by rw [pages]; exact userMemory_owned) userMemory_empty.1.table
    userMemory_free fun b low => translate_eq_none.mpr (userMemory_unmapped (by omega))).mpr
      (.inr fun k few failed => ?_)
  rw [pages, userMemory_lacks.2] at few
  have := (userMemory_fails (by decide)).mp failed
  omega

end Xv6Labs.Vm
