import Xv6Labs.Vm.Free

/-!
# Making and freeing the page table of a process

Above the user pages a page table maps the trampoline and the trapframe, whose frames it does not own. It is freed
with all of its tables and user pages.
-/

namespace Xv6Labs.Vm

open Faults

variable {m m' m₀ m₁ : Memory} {root sz n b f j e perm pa : ℕ} {taken tables freed : List ℕ} {bytes : ℕ → Page}
  {pages : Set ℕ} {rest : List ℕ}

/-! ### Unmapping a page without freeing it -/

theorem clears_keep (table : Table m root) (below : j * pgsize < maxva) {x : ℕ}
    (found : m.node root [px 2 (j * pgsize), px 1 (j * pgsize)] = some x) :
    Clears m (m.store (x, px 0 (j * pgsize)) 0) root [] fun b => b / pgsize = j := by
  have written := table.writes (e := 0) found below fun valid => absurd rfl valid
  have here : j * pgsize / pgsize = j := Nat.mul_div_cancel _ (by decide)
  rw [here] at written
  refine ⟨written.table, rfl, rfl, ?_, rfl, fun b bound same => ?_, fun b bound other => ?_, fun p off _ => ?_,
    written.low⟩
  · rw [written.nodes]
    simp
  · rw [written.ptes b bound, if_pos same]
    rfl
  · rw [written.ptes b bound, if_neg other]
    rfl
  · refine setPage_of_ne ?_
    rintro rfl
    exact off (node_mem le_rfl found)

theorem uvmunmap_keep (table : Table m root) (below : j * pgsize < maxva)
    (valid : m.pte root (j * pgsize) &&& pteV ≠ 0) :
    Returns (uvmunmap root (j * pgsize) 1 false) m fun _ m' => Clears m m' root [] fun b => b / pgsize = j := by
  have room := page_lt below
  rw [Nat.succ_mul] at room
  have positive : 0 < pgsize := by decide
  have limit : maxva < 2 ^ 64 := by decide
  have next : wrap (j * pgsize + 1 * pgsize) = j * pgsize + pgsize := by
    rw [Nat.one_mul, wrap, Nat.mod_eq_of_lt (by omega)]
  have more : wrap (j * pgsize + pgsize) = j * pgsize + pgsize := by rw [wrap, Nat.mod_eq_of_lt (by omega)]
  have fuel : rounds = (2 ^ 53 - 2) + 1 + 1 := rfl
  obtain ⟨x, found⟩ := node_of_valid valid
  have entry : m.page x (px 0 (j * pgsize)) = m.pte root (j * pgsize) := (pte_of_node found).symm
  unfold uvmunmap
  refine .bind ?_
  rw [panicIf, onlyIf, if_neg (by rw [Nat.mul_mod_left]; exact fun h => h rfl), next, fuel]
  refine .pure ?_
  unfold unmapFrom
  rw [if_pos (by omega)]
  refine .bind ((walk_look below).mono fun r m₁ result => ?_)
  rw [result.1, result.2, found]
  refine .bind (.reads ?_)
  rw [entry]
  refine .bind ?_
  rw [panicIf, onlyIf, if_neg valid]
  refine .pure (.bind ?_)
  rw [panicIf, onlyIf, if_neg (flags_ne (table.flags valid))]
  refine .pure (.bind ?_)
  rw [onlyIf, if_neg Bool.false_ne_true]
  refine .pure (.bind (.writes ?_))
  rw [more]
  unfold unmapFrom
  rw [if_neg (lt_irrefl _)]
  exact .pure (clears_keep table below found)

/-! ### proc_freepagetable -/

/-- A page table of a process: `n` user pages, and the two pages above them that are not its own. -/
structure Whole (m : Memory) (root n : ℕ) : Prop where
  space : Space m root n
  traps : ∀ b, trapframe ≤ b → b < maxva → m.pte root b &&& pteV ≠ 0 ∧ m.pte root b &&& pteU = 0
  low : ∀ i : Fin 512, 256 ≤ i.val → m.node root [i] = none
  real : ∀ x ∈ m.nodes root, m.Real x

/-- Everything that the page table owns. -/
def Memory.owns (m : Memory) (root n : ℕ) : Set ℕ := m.nodes root ∪ {x | x ∈ m.frames root 0 n}

theorem Clears.frames {P : ℕ → Prop} {k : ℕ} (clears : Clears m m' root freed P) (bound : k * pgsize ≤ maxva)
    (outside : ∀ b, b < k * pgsize → ¬ P b) : m'.frames root 0 k = m.frames root 0 k :=
  frames_congr fun b _ low => clears.kept b (by omega) (outside b low)

theorem Owned.clears {P : ℕ → Prop} {k : ℕ} (owned : Owned m root 0 k) (clears : Clears m m' root [] P)
    (bound : k * pgsize ≤ maxva) (outside : ∀ b, b < k * pgsize → ¬ P b) : Owned m' root 0 k := by
  have same {b : ℕ} (low : b < k * pgsize) : m'.pte root b = m.pte root b := clears.kept b (by omega) (outside b low)
  have frame {b : ℕ} (low : b < k * pgsize) : m'.frame root b = m.frame root b := by
    rw [Memory.frame, same low]
    rfl
  refine ⟨fun b from_ low => ?_, fun a b from_ low from' low' eq => ?_, fun b from_ low => ?_, fun b from_ low => ?_,
    fun b from_ low => ?_, fun b from_ low => ?_⟩
  · rw [same low]
    exact owned.mapped b from_ low
  · rw [frame low, frame low'] at eq
    exact owned.distinct a b from_ low from' low' eq
  · rw [frame low, clears.nodes]
    exact owned.apart b from_ low
  · rw [frame low, clears.free]
    exact owned.used b from_ low
  · rw [frame low, clears.image]
    exact owned.kend b from_ low
  · rw [frame low]
    exact owned.phystop b from_ low

/-- A table with nothing mapped, from which pages have been freed before. -/
theorem Freed.after {P : ℕ → Prop} (clears : Clears m m₁ root taken P) (distinct : taken.Nodup)
    (apart : ∀ x ∈ taken, x ∉ m.nodes root) (freed : Freed m₁ m' (m₁.nodes root) tables) :
    Freed m m' (m.nodes root ∪ {x | x ∈ taken}) (tables ++ taken) := by
  refine ⟨freed.image.trans clears.image, freed.refuse.trans clears.refuse, ?_, fun x => ?_, ?_, fun x out => ?_⟩
  · refine List.nodup_append.mpr ⟨freed.nodup, distinct, fun x there y there' same => ?_⟩
    subst same
    refine apart x there' ?_
    rw [← clears.nodes]
    exact (freed.mem x).mp there
  · rw [List.mem_append, freed.mem, clears.nodes]
    rfl
  · rw [freed.free, clears.free, List.append_assoc]
  · obtain ⟨off, new⟩ := not_or.mp out
    rw [freed.others x (by rwa [clears.nodes]), clears.others x off new]

theorem frames_nodup (owned : Owned m root 0 n) : (m.frames root 0 n).Nodup := by
  have positive : 0 < pgsize := by decide
  refine List.Nodup.map_on (fun i mem k mem' same => ?_) List.nodup_range'
  obtain ⟨-, less⟩ := List.mem_range'_1.mp mem
  obtain ⟨-, less'⟩ := List.mem_range'_1.mp mem'
  have := owned.distinct (i * pgsize) (k * pgsize) (by omega)
    (Nat.mul_lt_mul_of_pos_right (by omega) positive) (by omega)
    (Nat.mul_lt_mul_of_pos_right (by omega) positive) same
  rwa [Nat.mul_div_cancel _ positive, Nat.mul_div_cancel _ positive] at this

theorem frames_owned {x : ℕ} (mem : x ∈ m.frames root 0 n) : ∃ b, b < n * pgsize ∧ x = m.frame root b := by
  obtain ⟨i, range, eq⟩ := List.mem_map.mp mem
  obtain ⟨-, less⟩ := List.mem_range'_1.mp range
  exact ⟨i * pgsize, Nat.mul_lt_mul_of_pos_right (by omega) (by decide), eq.symm⟩

theorem trapframe_page : trapframe = (2 ^ 26 - 2) * pgsize := by decide

theorem trampoline_page : trampoline = (2 ^ 26 - 1) * pgsize := by decide

theorem procFreepagetable_spec (whole : Whole m root (pagesOf sz)) :
    Returns (procFreepagetable root sz) m fun _ m' => ∃ freed, Freed m m' (m.owns root (pagesOf sz)) freed := by
  have size : pgsize = 4096 := rfl
  have high : trapframe ≤ maxva := by decide
  have top := whole.space.bound
  have page := trapframe_page
  have end_ : maxva = 2 ^ 26 * pgsize := by decide
  unfold procFreepagetable
  rw [trampoline_page, trapframe_page]
  have below : (2 ^ 26 - 1) * pgsize < maxva := by decide
  refine .bind ((uvmunmap_keep whole.space.table below (whole.traps _ (by decide) below).1).mono fun _ m₁ one => ?_)
  have below' : (2 ^ 26 - 2) * pgsize < maxva := by decide
  have valid : m₁.pte root ((2 ^ 26 - 2) * pgsize) &&& pteV ≠ 0 := by
    rw [one.kept _ below' (by decide)]
    exact (whole.traps _ (by decide) below').1
  refine .bind ((uvmunmap_keep one.table below' valid).mono fun _ m₂ two => ?_)
  have both := one.trans two
  have outside (b : ℕ) (low : b < pagesOf sz * pgsize) : ¬ (b / pgsize = 2 ^ 26 - 1 ∨ b / pgsize = 2 ^ 26 - 2) := by
    rw [page, size] at top
    rw [size] at low ⊢
    omega
  have owned := whole.space.owned.clears both (top.trans high) outside
  have bare (b : ℕ) (bound : b < maxva) (more : pagesOf sz * pgsize ≤ b) : m₂.pte root b &&& pteV = 0 := by
    by_cases trap : b / pgsize = 2 ^ 26 - 1 ∨ b / pgsize = 2 ^ 26 - 2
    · rw [both.cleared b bound trap]
      exact Nat.zero_and _
    · rw [both.kept b bound trap]
      refine whole.space.unmapped b more ?_
      rw [page, size]
      rw [end_, size] at bound
      rw [size] at trap
      omega
  have freeing : Returns (onlyIf (0 < sz) (uvmunmap root 0 (pgroundup sz / pgsize) true)) m₂ fun _ m₃ =>
      Clears m₂ m₃ root (m₂.frames root 0 (pagesOf sz)).reverse fun b => 0 * pgsize ≤ b ∧ b < pagesOf sz * pgsize := by
    rw [onlyIf]
    by_cases some : 0 < sz
    · rw [if_pos some, pgroundup_pages whole.space.size_le, Nat.mul_div_cancel _ (by decide)]
      have unmap := uvmunmap_free both.table owned (Nat.zero_le (pagesOf sz)) (top.trans high)
      rwa [Nat.zero_mul, Nat.sub_zero, ← Nat.zero_mul pgsize] at unmap
    · have zero : sz = 0 := by omega
      subst zero
      rw [if_neg some]
      exact .pure ⟨both.table, rfl, rfl, rfl, rfl, fun b _ there =>
        absurd there.2 (by rw [show pagesOf 0 = 0 from rfl]; omega),
        fun _ _ _ => rfl, fun _ _ _ => rfl, fun _ _ => rfl⟩
  unfold uvmfree
  refine .bind (freeing.mono fun _ m₃ three => ?_)
  have all := both.trans three
  rw [both.frames (top.trans high) outside] at all
  have shed : Shed m₃ root := by
    refine ⟨all.table, fun b bound => ?_, fun i top => (all.low i top).trans (whole.low i top), fun x mem => ?_⟩
    · by_cases user : 0 * pgsize ≤ b ∧ b < pagesOf sz * pgsize
      · rw [three.cleared b bound user]
        exact Nat.zero_and _
      · rw [three.kept b bound user]
        exact bare b bound (by omega)
    · rw [all.nodes] at mem
      have real := whole.real x mem
      exact ⟨real.aligned, all.image ▸ real.kend, real.phystop⟩
  refine (freewalk_spec shed).mono ?_
  rintro - m' ⟨tables, freed⟩
  have done := Freed.after all (by simpa using frames_nodup whole.space.owned) (fun x mem => ?_) freed
  · refine ⟨tables ++ ((m.frames root 0 (pagesOf sz)).reverse ++ ([] ++ [])), ?_⟩
    have same : m.owns root (pagesOf sz) =
        m.nodes root ∪ {x | x ∈ (m.frames root 0 (pagesOf sz)).reverse ++ ([] ++ [])} := by
      ext x
      simp [Memory.owns]
    rw [same]
    exact done
  · simp only [List.append_nil, List.mem_reverse] at mem
    obtain ⟨b, low, rfl⟩ := frames_owned mem
    exact whole.space.owned.apart b (by omega) low

/-! ### proc_pagetable -/

/-- What a failure leaves: the same pages are free, and no other page has been written. -/
structure Back (m m' : Memory) : Prop where
  image : m'.image = m.image
  free : m'.free.Perm m.free
  others : ∀ p, p ∉ m.free → m'.page p = m.page p

/-- From `m` to `m'`, a page table without user pages has been made from the free pages `tables`. -/
structure Made (m m' : Memory) (root : ℕ) (tables : List ℕ) : Prop where
  whole : Whole m' root 0
  list : m'.Free
  image : m'.image = m.image
  free : m.free = tables ++ m'.free
  nodes : m'.nodes root = {x | x ∈ tables}
  zero : ∀ b, b < trapframe → m'.pte root b = 0
  others : ∀ p, p ∉ m.free → m'.page p = m.page p

theorem Memory.Free.real (free : m.Free) (mem : n ∈ m.free) : m.Real n :=
  ⟨free.aligned n mem, free.kend n mem, free.phystop n mem⟩

theorem entry_user (small : perm < 1024) (off : perm % 32 / 16 = 0) : entry pa perm &&& pteU = 0 := by
  have mask (x : ℕ) : x &&& pteU = x % 32 &&& pteU := by
    have low : pteU = (2 ^ 5 - 1) &&& pteU := by decide
    have mod : x % 32 = x &&& (2 ^ 5 - 1) := (Nat.and_two_pow_sub_one_eq_mod x 5).symm
    rw [mod, Nat.and_assoc, ← low]
  have flags : (perm ||| pteV) &&& pteU = perm &&& pteU := by
    rw [Nat.and_or_distrib_right, show pteV &&& pteU = 0 from rfl, Nat.or_zero]
  have bits : perm &&& pteU = 0 := by
    have digit : perm.testBit 4 = false := by
      rw [Nat.testBit_eq_decide_div_mod_eq]
      refine decide_eq_false ?_
      omega
    rw [show pteU = 2 ^ 4 from rfl, Nat.and_two_pow, digit]
    rfl
  rw [entry, entry_eq small, mask, Nat.add_mod,
    show pa / 4096 * 1024 % 32 = 0 by omega, Nat.zero_add, Nat.mod_mod, ← mask, flags, bits]

theorem freed_perm (freed : Freed m m' pages tables) (distinct : taken.Nodup) (same : ∀ x, x ∈ pages ↔ x ∈ taken) :
    m'.free.Perm (taken ++ m.free) := by
  rw [freed.free]
  refine List.Perm.append_right _ ((List.perm_ext_iff_of_nodup freed.nodup distinct).mpr fun x => ?_)
  rw [freed.mem, same]

/-- A new table at `f`, before anything is mapped. -/
structure Fresh (m m₁ : Memory) (f : ℕ) (rest : List ℕ) : Prop where
  list : m.free = f :: rest
  given : m₁ = m.grant f rest (filled 0)

theorem Fresh.blank (fresh : Fresh m m₁ f rest) : m₁.page f = fun _ => 0 := by
  rw [fresh.given, grant_page, if_pos rfl, filled_zero]

theorem Fresh.free (fresh : Fresh m m₁ f rest) (free : m.Free) : m₁.Free ∧ f ∉ m₁.free := by
  have nodup := free.nodup
  rw [fresh.list, List.nodup_cons] at nodup
  rw [fresh.given]
  exact ⟨free.grant fresh.list, nodup.1⟩

theorem Fresh.table (fresh : Fresh m m₁ f rest) (free : m.Free) :
    Table m₁ f ∧ m₁.nodes f = {f} ∧ ∀ a, m₁.pte f a = 0 := table_empty fresh.blank (fresh.free free).2

/-- The tables that have grown from it. -/
theorem Fresh.grows (fresh : Fresh m m₁ f rest) (free : m.Free) (grows : Grows m₁ m' f taken) :
    m.free = (f :: taken) ++ m'.free ∧ m'.nodes f = {x | x ∈ f :: taken} ∧ m'.image = m.image ∧
      (∀ i : Fin 512, 256 ≤ i.val → m'.node f [i] = none) ∧ (∀ x ∈ m'.nodes f, m'.Real x) ∧
      ∀ p, p ∉ m.free → m'.page p = m.page p := by
  have split : rest = taken ++ m'.free := by
    have := grows.free
    rw [fresh.given] at this
    exact this
  have list : m.free = (f :: taken) ++ m'.free := by rw [fresh.list, split, List.cons_append]
  have image : m'.image = m.image := by rw [grows.image, fresh.given]; rfl
  have nodes : m'.nodes f = {x | x ∈ f :: taken} := by
    rw [grows.nodes, (fresh.table free).2.1]
    ext x
    simp
  refine ⟨list, nodes, image, fun i high => (grows.low i high).trans (node_blank fresh.blank i []), fun x mem => ?_,
    fun p out => ?_⟩
  · rw [nodes] at mem
    have real := free.real (n := x) (by rw [list]; exact List.mem_append_left _ mem)
    exact ⟨real.aligned, image ▸ real.kend, real.phystop⟩
  · rw [fresh.list, List.mem_cons, not_or] at out
    rw [grows.others p, fresh.given, grant_page, if_neg out.1]
    · rw [(fresh.table free).2.1]
      exact out.1
    · rw [fresh.given]
      exact out.2

/-- The cleanup when nothing has been mapped. -/
theorem Fresh.back (fresh : Fresh m m₁ f rest) (free : m.Free) (grows : Grows m₁ m' f taken)
    (same : ∀ b, m'.pte f b = m₁.pte f b) :
    Returns (uvmfree f 0) m' fun _ m'' => Back m m'' := by
  obtain ⟨list, nodes, image, low, real, others⟩ := fresh.grows free grows
  have nodup := free.nodup
  rw [list, List.nodup_append] at nodup
  have shed : Shed m' f :=
    ⟨grows.table, fun b _ => by rw [same, (fresh.table free).2.2]; exact Nat.zero_and _, low, real⟩
  unfold uvmfree
  refine .bind ?_
  rw [onlyIf, if_neg (lt_irrefl 0)]
  refine .pure ((freewalk_spec shed).mono ?_)
  rintro - m'' ⟨tables, freed⟩
  refine ⟨freed.image.trans image, ?_, fun p out => ?_⟩
  · rw [list]
    exact freed_perm freed nodup.1 fun x => by rw [nodes]; rfl
  · rw [freed.others p, others p out]
    rw [nodes]
    intro there
    refine out ?_
    rw [list]
    exact List.mem_append_left _ there

theorem trap_cases {b : ℕ} (from_ : trapframe ≤ b) (bound : b < maxva) :
    b / pgsize = 2 ^ 26 - 2 ∨ b / pgsize = 2 ^ 26 - 1 := by
  have page := trapframe_page
  have end_ : maxva = 2 ^ 26 * pgsize := by decide
  have size : pgsize = 4096 := rfl
  rw [page, size] at from_
  rw [end_, size] at bound
  rw [size]
  omega

theorem below_traps {b : ℕ} (below : b < trapframe) : b / pgsize ≠ 2 ^ 26 - 2 ∧ b / pgsize ≠ 2 ^ 26 - 1 := by
  have page := trapframe_page
  have size : pgsize = 4096 := rfl
  rw [page, size] at below
  rw [size]
  omega

theorem absent_le (x : Option ℕ) : absent x ≤ 1 := by
  unfold absent
  split <;> omega

theorem Fresh.fails {k : ℕ} (fresh : Fresh m m₁ f rest) (failed : m₁.Fails k) : m.Fails (k + 1) := by
  rw [fresh.given] at failed
  rcases failed with refused | few
  · exact .inl refused
  · refine .inr ?_
    rw [fresh.list]
    exact Nat.succ_le_succ few

/-- It takes three pages. -/
theorem procPagetable_spec (free : m.Free) (frame : ℕ) : Returns (procPagetable frame) m fun r m' =>
    r = 0 ∧ Back m m' ∧ (∃ k, k < 3 ∧ m.Fails k) ∨ r ≠ 0 ∧ ∃ tables, Made m m' r tables := by
  have high : trapframe ≤ maxva := by decide
  unfold procPagetable uvmcreate
  by_cases failed : m.Fails 0
  · refine .bind (.bind ⟨none, m.refused, congrArg Except.ok (kalloc_none failed), .pure ?_⟩)
    rw [if_pos rfl]
    exact .pure (.inl ⟨rfl, ⟨rfl, List.Perm.refl _, fun _ _ => rfl⟩, 0, by decide, failed⟩)
  obtain ⟨granted, f, rest, list⟩ := not_fails_zero failed
  have mem : f ∈ m.free := by rw [list]; exact List.mem_cons_self
  have nonnull := free.nonzero mem
  refine .bind (.bind ⟨some f, _, congrArg Except.ok (kalloc_some f rest list granted), .bind ?_⟩)
  rw [memset, if_neg nonnull]
  refine .writes (.pure ?_)
  rw [if_neg nonnull]
  refine .bind (.reads ?_)
  change Returns _ (m.grant f rest (filled 0)) _
  have fresh : Fresh m (m.grant f rest (filled 0)) f rest := ⟨list, rfl⟩
  generalize m.grant f rest (filled 0) = m₁ at fresh
  obtain ⟨free₁, -⟩ := fresh.free free
  obtain ⟨table, -, ptes⟩ := fresh.table free
  have empty (b : ℕ) : m₁.pte f b &&& pteV = 0 := by rw [ptes]; exact Nat.zero_and _
  have text : LeafPerm (pteR ||| pteX) := ⟨by decide, by decide⟩
  have data : LeafPerm (pteR ||| pteW) := ⟨by decide, by decide⟩
  have below : (2 ^ 26 - 1) * pgsize < maxva := by decide
  have below' : (2 ^ 26 - 2) * pgsize < maxva := by decide
  rw [trampoline_page, trapframe_page]
  refine .bind ((mappages_page _ table free₁ below text (empty _)).mono ?_)
  rintro r m₂ ⟨taken, ⟨rfl, writes, -, granted⟩ | ⟨rfl, grows, same, k, less, failed', -⟩⟩
  · rw [if_neg (by decide)]
    have free₂ := free₁.grows writes.toGrows
    have empty₂ : m₂.pte f ((2 ^ 26 - 2) * pgsize) &&& pteV = 0 := by
      rw [writes.ptes _ below', if_neg (by decide)]
      exact empty _
    refine .bind ((mappages_page _ writes.table free₂ below' data empty₂).mono ?_)
    rintro r m₃ ⟨taken', ⟨rfl, writes', -, -⟩ | ⟨-, -, -, k, less, -⟩⟩
    · rw [if_neg (by decide)]
      have both := writes.trans writes'
      obtain ⟨list', nodes, image, low, real, others⟩ := fresh.grows free both.toGrows
      have zero (b : ℕ) (below : b < trapframe) : m₃.pte f b = 0 := by
        obtain ⟨two, one⟩ := below_traps below
        rw [both.ptes b (by omega), if_neg one, if_neg two]
        exact ptes b
      refine .pure (.inr ⟨nonnull, f :: (taken ++ taken'), ⟨⟨both.table, ⟨?_, ?_, ?_, ?_, ?_, ?_⟩, fun b _ to_ => ?_,
        by decide⟩, fun b from_ bound => ?_, low, real⟩, free₂.grows writes'.toGrows, image, list', nodes,
        zero, others⟩)
      iterate 6 · intros; omega
      · rw [zero b to_]
        exact Nat.zero_and _
      · rw [both.ptes b bound]
        rcases trap_cases from_ bound with two | one
        · rw [if_pos two]
          exact ⟨data.entry.1, entry_user data.small (by decide)⟩
        · rw [if_neg (by omega), if_pos one]
          exact ⟨text.entry.1, entry_user text.small (by decide)⟩
    · obtain ⟨x, found⟩ := granted.found
      have two : px 2 ((2 ^ 26 - 1) * pgsize) = px 2 ((2 ^ 26 - 2) * pgsize) := by decide
      have one : px 1 ((2 ^ 26 - 1) * pgsize) = px 1 ((2 ^ 26 - 2) * pgsize) := by decide
      rw [two, one] at found
      have there : m₂.node f [px 2 ((2 ^ 26 - 2) * pgsize)] ≠ none := by
        intro gone
        have := Radix.node_gone (q := [px 2 ((2 ^ 26 - 2) * pgsize), px 1 ((2 ^ 26 - 2) * pgsize)]) ⟨[_], rfl⟩ gone
        exact absurd (found.symm.trans this) (by simp)
      obtain ⟨y, found'⟩ := Option.ne_none_iff_exists'.mp there
      rw [Memory.missing, found, found'] at less
      exact absurd less (Nat.not_lt_zero k)
  · rw [if_pos (by decide)]
    have first := absent_le (m₁.node f [px 2 ((2 ^ 26 - 1) * pgsize)])
    have second := absent_le (m₁.node f [px 2 ((2 ^ 26 - 1) * pgsize), px 1 ((2 ^ 26 - 1) * pgsize)])
    rw [Memory.missing] at less
    exact .bind ((fresh.back free grows same).mono fun _ m₃ back =>
      .pure (.inl ⟨rfl, back, k + 1, by omega, fresh.fails failed'⟩))

end Xv6Labs.Vm
