import Xv6Labs.Vm.Alloc

/-!
# `uvmcopy`

The child gets its pages as `uvmalloc` gives them, with the flags and the bytes of the parent. The parent is not
touched: its tables and its frames are neither tables of the child nor free.
-/

namespace Xv6Labs.Vm

open Faults

variable {m₀ m m' : Memory} {old new sz n b e f j fuel : ℕ} {taken taken' : List ℕ}

/-- The pages below `sz` under `old` are mapped. Its tables, and the frames of these pages, are apart from `new`. -/
structure Parent (m : Memory) (old new sz : ℕ) : Prop where
  table : Table m old
  mapped : ∀ b, b < sz → m.pte old b &&& pteV ≠ 0
  own : ∀ b, b < sz → m.frame old b ∉ m.nodes old
  tables : ∀ x ∈ m.nodes old, x ∉ m.nodes new
  apart : ∀ b, b < sz → m.frame old b ∉ m.nodes new
  used : ∀ b, b < sz → m.frame old b ∉ m.free

/-- The permissions of page `i` of the child, and its contents. -/
def Memory.flagsOf (m : Memory) (old i : ℕ) : ℕ := pteFlags (m.pte old (i * pgsize))

def Memory.bytesOf (m : Memory) (old i : ℕ) : Page := m.page (m.frame old (i * pgsize))

/-- What `uvmcopy` adds to the child. -/
abbrev Copies (m m' : Memory) (old new n : ℕ) (taken : List ℕ) : Prop :=
  Added m m' new 0 n (m.flagsOf old) (m.bytesOf old) taken

theorem flags_or_valid (valid : e % 2 = 1) : pteFlags e ||| pteV = pteFlags e := by
  rw [flags_eq]
  apply Nat.eq_of_testBit_eq
  intro i
  cases i with
  | zero =>
    have odd : e % 1024 % 2 = 1 := by omega
    simp [Nat.testBit_zero, odd]
  | succ i =>
    have one : pteV.testBit (i + 1) = false := by simp [pteV, Nat.testBit_succ]
    rw [Nat.testBit_or, one, Bool.or_false]

theorem flags_leaf (leaf : e &&& leafBits ≠ 0) : LeafPerm (pteFlags e) := by
  have small : pteFlags e < 1024 := by
    rw [flags_eq]
    omega
  refine ⟨small, ?_⟩
  have low : e % 1024 % 16 = e % 16 := by omega
  rwa [and_leafBits, flags_eq, low, ← and_leafBits]

theorem Table.flagsOf (table : Table m old) (valid : m.pte old (j * pgsize) &&& pteV ≠ 0) :
    LeafPerm (m.flagsOf old j) :=
  flags_leaf (table.flags valid)

theorem flagsOf_page : m.flagsOf old (b / pgsize) = pteFlags (m.pte old b) := by
  rw [Memory.flagsOf, pte_congr (Nat.mul_div_cancel (b / pgsize) (by decide : 0 < pgsize))]

theorem bytesOf_page : m.bytesOf old (b / pgsize) = m.page (m.frame old b) := by
  rw [Memory.bytesOf, Memory.frame, pte_congr (Nat.mul_div_cancel (b / pgsize) (by decide : 0 < pgsize))]
  rfl

/-- Every page below `PGROUNDUP(sz)` is the page of an address below `sz`. -/
theorem Parent.mapped_page (parent : Parent m old new sz) (low : b < pagesOf sz * pgsize) :
    m.pte old b &&& pteV ≠ 0 ∧ m.frame old b ∉ m.nodes new ∧ m.frame old b ∉ m.free ∧ m.frame old b ∉ m.nodes old := by
  have same : m.pte old b = m.pte old (b / pgsize * pgsize) :=
    pte_congr (Nat.mul_div_cancel (b / pgsize) (by decide : 0 < pgsize)).symm
  have first : b / pgsize * pgsize < sz := by
    rw [pagesOf, pgsize] at *
    omega
  rw [Memory.frame, same]
  exact ⟨parent.mapped _ first, parent.apart _ first, parent.used _ first, parent.own _ first⟩

/-! ### The parent -/

/-- The pages apart from the child, and not free, are as in `m₀`. -/
def Untouched (m₀ m : Memory) (new : ℕ) : Prop := ∀ p, p ∉ m₀.nodes new → p ∉ m₀.free → m.page p = m₀.page p

theorem Parent.tables_agree (parent : Parent m₀ old new sz) (same : Untouched m₀ m new) :
    ∀ x ∈ m₀.nodes old, m.page x = m₀.page x :=
  fun x mem => same x (parent.tables x mem) (parent.table.owned x mem)

theorem Parent.pte (parent : Parent m₀ old new sz) (same : Untouched m₀ m new) : m.pte old b = m₀.pte old b :=
  pte_agree (parent.tables_agree same)

theorem Parent.page (parent : Parent m₀ old new sz) (same : Untouched m₀ m new) (low : b < pagesOf sz * pgsize) :
    m.page (m₀.frame old b) = m₀.page (m₀.frame old b) :=
  same _ (parent.mapped_page low).2.1 (parent.mapped_page low).2.2.1

/-- The parent is not changed by the rounds, and neither is the entry that a round reads. -/
theorem Parent.looked (parent : Parent m₀ old new sz) (same : Untouched m₀ m new) (low : b < pagesOf sz * pgsize)
    (below : b < maxva) : Returns (walk old b false) m fun r m' => m' = m ∧
      ∃ x, r = some (x, px 0 b) ∧ m.page x (px 0 b) = m₀.pte old b := by
  have valid := (parent.mapped_page low).1
  rw [← parent.pte same] at valid
  obtain ⟨x, found⟩ := node_of_valid valid
  refine (walk_look below).mono fun r m₁ ⟨unchanged, looked⟩ => ⟨unchanged, x, ?_, ?_⟩
  · rw [looked, found]
    rfl
  · rw [← pte_of_node found, parent.pte same]

/-! ### The loop -/

theorem kalloc_page {rest : List ℕ} {refuse : ℕ → Bool} (other : m₀.frame old b ≠ f) :
    ({ m.setPage f (filled 5) with free := rest, refuse := refuse } : Memory).page (pte2pa (m₀.pte old b)) =
      m.page (m₀.frame old b) := by
  rw [Memory.frame] at *
  simp only [Memory.setPage]
  rw [Function.update_of_ne other]

theorem copyFrom_spec (parent : Parent m₀ old new sz) (reach : j ≤ pagesOf sz) (enough : 2 ^ 20 - j < fuel)
    (copies : Copies m₀ m old new j taken) :
    Returns (copyFrom old new sz fuel (j * pgsize)) m fun r m' => ∃ taken,
      r = none ∧ Copies m₀ m' old new (pagesOf sz) taken ∨ ∃ i, r = some (i * pgsize) ∧
      Copies m₀ m' old new i taken := by
  induction fuel generalizing m j taken with
  | zero => exact absurd enough (Nat.not_lt_zero _)
  | succ fuel ih =>
    have fits := copies.space.owned.fits
    have top : phystop + pgsize < trapframe := by decide
    have high : trapframe ≤ maxva := by decide
    have most : j < 2 ^ 20 := by
      have limit : phystop < 2 ^ 20 * pgsize := by decide
      exact Nat.lt_of_mul_lt_mul_right (lt_of_le_of_lt fits limit)
    unfold copyFrom
    by_cases more : j * pgsize < sz
    · have next : j + 1 ≤ pagesOf sz := by
        rw [pagesOf, pgsize] at *
        omega
      have low : j * pgsize < pagesOf sz * pgsize := Nat.mul_lt_mul_of_pos_right next (by decide)
      rw [if_pos more]
      refine .bind ((parent.looked copies.others low (by omega)).mono ?_)
      rintro r m₁ ⟨rfl, x, rfl, read⟩
      refine .bind (.reads ?_)
      rw [read]
      have valid := (parent.mapped_page low).1
      refine .bind ?_
      rw [panicIf, onlyIf, if_neg valid]
      refine .pure ?_
      by_cases failed : m₁.Fails 0
      · refine .bind ⟨none, m₁.refused, congrArg Except.ok (kalloc_none failed), ?_⟩
        exact .pure ⟨taken, .inr ⟨j, rfl, copies.refused⟩⟩
      obtain ⟨granted, f, rest, list⟩ := not_fails_zero failed
      have mem : f ∈ m₁.free := by rw [list]; exact List.mem_cons_self
      have source : m₀.frame old (j * pgsize) ≠ f := by
        intro same
        refine (copies.outside (parent.mapped_page low).2.1 (parent.mapped_page low).2.2.1).2.1 ?_
        rwa [same]
      refine .bind ⟨some f, _, congrArg Except.ok (kalloc_some f rest list granted), .bind (.writes ?_)⟩
      rw [kalloc_page source, parent.page copies.others low]
      have perms := parent.table.flagsOf valid
      have unmapped : (m₁.grant f rest (m₀.bytesOf old j)).pte new (j * pgsize) &&& pteV = 0 := by
        rw [pte_agree (grant_agree _ copies.space.table list)]
        exact copies.space.unmapped _ le_rfl (by omega)
      refine .bind ((mappages_page f (copies.space.table.grant list) (copies.list.grant list)
        (by omega) perms unmapped).mono ?_)
      rintro r m₂ ⟨taken', ⟨rfl, writes, -, -⟩ | ⟨rfl, grows, same, -⟩⟩
      · rw [if_neg (by decide)]
        have small : wrap (j * pgsize + pgsize) = (j + 1) * pgsize := by
          rw [Nat.succ_mul, wrap, Nat.mod_eq_of_lt]
          rw [maxva_eq] at high
          omega
        have maps := copies.space.table.maps copies.list list writes
        rw [small]
        exact ih next (by omega) (copies.round (Nat.zero_le j) perms (by omega) maps)
      · rw [if_pos (by decide)]
        refine .bind ⟨(), m₂.kfree f, kfree_fine copies.list mem grows.image, ?_⟩
        exact .pure ⟨taken ++ taken', .inr ⟨j, rfl, copies.undone list grows same⟩⟩
    · have done : j = pagesOf sz := by
        rw [pagesOf, pgsize] at *
        omega
      rw [if_neg more]
      refine .pure ⟨taken, .inl ⟨rfl, ?_⟩⟩
      rwa [← done]

theorem uvmcopy_spec (parent : Parent m old new sz) (space : Space m new 0) (free : m.Free) :
    Returns (uvmcopy old new sz) m fun r m' => ∃ taken,
      r = 0 ∧ Copies m m' old new (pagesOf sz) taken ∨ r = -1 ∧ Restores m m' new taken := by
  unfold uvmcopy
  have enough : 2 ^ 20 - 0 < rounds := by decide
  have start : 0 * pgsize = 0 := Nat.zero_mul _
  have loop := copyFrom_spec parent (Nat.zero_le _) enough (Added.refl space free)
  rw [start] at loop
  refine .bind (loop.mono ?_)
  rintro r m' ⟨taken, ⟨rfl, copies⟩ | ⟨i, rfl, copies⟩⟩
  · exact .pure ⟨taken, .inl ⟨rfl, copies⟩⟩
  · have high : trapframe ≤ maxva := by decide
    have undo := uvmunmap_free copies.space.table copies.space.owned (Nat.zero_le i) (copies.space.bound.trans high)
    have count : i * pgsize / pgsize = i - 0 := Nat.mul_div_cancel _ (by decide)
    rw [start, ← count] at undo
    exact .bind (undo.mono fun _ m'' clears => .pure ⟨taken, .inr ⟨rfl, copies.restores space clears⟩⟩)

/-! ### Two address spaces that share no page -/

/-- A write of one of two processes, to one of its pages. -/
structure Write where
  side : Bool
  va : ℕ
  pg : Page

def Memory.after (m : Memory) (root : Bool → ℕ) (writes : List Write) : Memory :=
  writes.foldl (fun m w => m.setPage (m.frame (root w.side) w.va) w.pg) m

/-- What a process sees at `va`: where its page is, and its contents. -/
def Memory.view (m : Memory) (root va : ℕ) : Option (ℕ × ℕ) × Page := (m.translate root va, m.page (m.frame root va))

structure Separate (m : Memory) (root : Bool → ℕ) (n : ℕ) : Prop where
  tables : ∀ s t b, b < n → m.frame (root s) b ∉ m.nodes (root t)
  frames : ∀ s t a b, s ≠ t → a < n → b < n → m.frame (root s) a ≠ m.frame (root t) b

section

variable {root : Bool → ℕ} {writes : List Write} {v w : Memory} {s : Bool}

/-- The tables are as they were. -/
def Steady (m w : Memory) (root : Bool → ℕ) : Prop := ∀ s, ∀ x ∈ m.nodes (root s), w.page x = m.page x

theorem Steady.frame (steady : Steady m w root) : w.frame (root s) b = m.frame (root s) b := by
  rw [Memory.frame, pte_agree (steady s)]
  rfl

theorem Separate.steady (separate : Separate m root n) (steady : Steady m w root) (low : b < n) (pg : Page) :
    Steady m (w.setPage (w.frame (root s) b) pg) root := by
  intro t x mem
  rw [steady.frame]
  rw [setPage_of_ne]
  · exact steady t x mem
  · rintro rfl
    exact separate.tables s t b low mem

theorem after_cons (w : Write) :
    m.after root (w :: writes) = (m.setPage (m.frame (root w.side) w.va) w.pg).after root writes :=
  rfl

theorem Separate.after (separate : Separate m root n) (within : ∀ x ∈ writes, x.va < n) (whole : Steady m w root)
    (part : Steady m v root) (same : ∀ b, b < n → w.page (m.frame (root s) b) = v.page (m.frame (root s) b))
    (low : b < n) :
    (w.after root writes).view (root s) b = (v.after root (writes.filter fun x => x.side = s)).view (root s) b := by
  induction writes generalizing w v with
  | nil =>
    have frames : w.frame (root s) b = v.frame (root s) b := whole.frame.trans part.frame.symm
    have entries : w.pte (root s) b = v.pte (root s) b := (pte_agree (whole s)).trans (pte_agree (part s)).symm
    simp only [List.filter_nil, Memory.after, List.foldl_nil, Memory.view]
    rw [translate_congr entries, frames, part.frame, same b low]
  | cons x writes ih =>
    have here := within x List.mem_cons_self
    have rest : ∀ y ∈ writes, y.va < n := fun y mem => within y (List.mem_cons_of_mem _ mem)
    rw [after_cons]
    by_cases mine : x.side = s
    · rw [List.filter_cons_of_pos (by simpa using mine), after_cons]
      refine ih rest (separate.steady whole here _) (separate.steady part here _) fun c bound => ?_
      rw [whole.frame, part.frame]
      by_cases hit : m.frame (root s) c = m.frame (root x.side) x.va
      · rw [hit]
        rw [setPage_self, setPage_self]
      · rw [setPage_of_ne hit, setPage_of_ne hit]
        exact same c bound
    · rw [List.filter_cons_of_neg (by simpa using mine)]
      refine ih rest (separate.steady whole here _) part fun c bound => ?_
      rw [whole.frame]
      rw [setPage_of_ne (separate.frames s x.side c x.va (Ne.symm mine) bound here)]
      exact same c bound

/-- The writes of one process are not seen by the other. -/
theorem Separate.invisible (separate : Separate m root n) (within : ∀ x ∈ writes, x.va < n) (low : b < n) :
    (m.after root writes).view (root s) b = (m.after root (writes.filter fun x => x.side = s)).view (root s) b :=
  separate.after within (fun _ _ _ => rfl) (fun _ _ _ => rfl) (fun _ _ => rfl) low

end

/-- The roots of the parent and the child. -/
def family (old new : ℕ) : Bool → ℕ
  | false => old
  | true => new

theorem Parent.frame (parent : Parent m₀ old new sz) (same : Untouched m₀ m new) : m.frame old b = m₀.frame old b := by
  rw [Memory.frame, parent.pte same]
  rfl

theorem Parent.separate (parent : Parent m old new sz) (copies : Copies m m' old new (pagesOf sz) taken) :
    Separate m' (family old new) (pagesOf sz * pgsize) := by
  have fresh {b : ℕ} (low : b < pagesOf sz * pgsize) : m'.frame new b ∈ m.free := copies.mem_free (by omega) low
  have nodes : m'.nodes old = m.nodes old := nodes_agree (parent.tables_agree copies.others)
  have apart {a b : ℕ} (low : a < pagesOf sz * pgsize) (low' : b < pagesOf sz * pgsize) :
      m'.frame new a ≠ m'.frame old b := by
    intro same
    rw [parent.frame copies.others] at same
    exact (parent.mapped_page low').2.2.1 (same ▸ fresh low)
  refine ⟨fun s t b low => ?_, fun s t a b other low low' => ?_⟩
  · cases s <;> cases t
    · change m'.frame old b ∉ m'.nodes old
      rw [nodes, parent.frame copies.others]
      exact (parent.mapped_page low).2.2.2
    · change m'.frame old b ∉ m'.nodes new
      rw [parent.frame copies.others]
      exact (copies.outside (parent.mapped_page low).2.1 (parent.mapped_page low).2.2.1).1
    · change m'.frame new b ∉ m'.nodes old
      rw [nodes]
      exact fun there => parent.table.owned _ there (fresh low)
    · exact copies.space.owned.apart b (by omega) low
  · cases s <;> cases t
    · exact absurd rfl other
    · exact (apart low' low).symm
    · exact apart low low'
    · exact absurd rfl other

/-! ### uvmcopy -/

theorem uvmcopy_all_or_nothing (parent : Parent m old new sz) (empty : Space m new 0) (free : m.Free) :
    Returns (uvmcopy old new sz) m fun r m' => ∃ taken,
      m'.nodes new = m.nodes new ∪ {x | x ∈ taken} ∧ Table m' new ∧
      (∀ b, m'.translate old b = m.translate old b) ∧
      (∀ p, p ∉ m.nodes new → p ∉ m.free → m'.page p = m.page p) ∧
      (∀ b, b < sz → m'.page (m.frame old b) = m.page (m.frame old b)) ∧
      (r = 0 ∧
        (∀ b, b < pgroundup sz → m'.frame new b ∈ m.free ∧
          m'.translate new b = some (m'.frame new b, pteFlags (m.pte old b)) ∧
          m'.page (m'.frame new b) = m.page (m.frame old b)) ∧
        (∀ a b, a < pgroundup sz → b < pgroundup sz → m'.frame new a = m'.frame new b → a / pgsize = b / pgsize) ∧
        (∀ a b, a < pgroundup sz → b < pgroundup sz → m'.frame new a ≠ m'.frame old b) ∧
        (m'.frames new 0 (pagesOf sz) ++ (taken ++ m'.free)).Perm m.free ∧
        (∀ (writes : List Write) s b, (∀ x ∈ writes, x.va < pgroundup sz) → b < pgroundup sz →
          (m'.after (family old new) writes).view (family old new s) b =
            (m'.after (family old new) (writes.filter fun x => x.side = s)).view (family old new s) b) ∨
      r = -1 ∧ (∀ b, b < trapframe → m'.translate new b = none) ∧
        (∀ b, b < maxva → m'.translate new b = m.translate new b) ∧ (taken ++ m'.free).Perm m.free) := by
  refine (uvmcopy_spec parent empty free).mono ?_
  rintro r m' ⟨taken, ⟨rfl, copies⟩ | ⟨rfl, restores⟩⟩
  · have separate := parent.separate copies
    rw [pgroundup_pages copies.space.size_le]
    refine ⟨taken, copies.nodes, copies.space.table, fun b => translate_congr (parent.pte copies.others), copies.others,
      fun b low => copies.others _ (parent.apart b low) (parent.used b low), .inl ⟨rfl, fun b low => ?_,
        fun a b low low' => copies.space.owned.distinct a b (by omega) (by omega) (by omega) (by omega),
        fun a b low low' => separate.frames true false a b (by decide) low low', copies.free,
        fun writes s b within low => separate.invisible within low⟩⟩
    have valid := (parent.mapped_page low).1
    have perms : LeafPerm (m.flagsOf old (b / pgsize)) := by
      rw [flagsOf_page]
      exact flags_leaf (parent.table.flags valid)
    have there := copies.translate (by omega) low perms
    rw [flagsOf_page, flags_or_valid (valid_iff.mp valid)] at there
    exact ⟨copies.mem_free (by omega) low, there, (copies.fresh b (by omega) low).2.trans bytesOf_page⟩
  · have high : trapframe ≤ maxva := by decide
    refine ⟨taken, restores.nodes, restores.table, fun b => translate_congr (parent.pte restores.others),
      restores.others, fun b low => restores.others _ (parent.apart b low) (parent.used b low),
      .inr ⟨rfl, fun b below => ?_, restores.translate, restores.free⟩⟩
    rw [restores.translate b (by omega)]
    exact translate_none (empty.unmapped b (by omega) below)

theorem userMemory_parent {c : ℕ} (upto : sz ≤ 1024 * pgsize) : Parent (userMemory c) 0x87fff000 0x87ffb000 sz := by
  have owned := userMemory_owned (c := c)
  have other {x : ℕ} (mem : 0x87ffc000 ≤ x ∨ x < 0x87ffb000) : x ∉ (userMemory c).nodes 0x87ffb000 := by
    rw [userMemory_empty.2, Set.mem_singleton_iff]
    omega
  have size : pgsize = 4096 := rfl
  refine ⟨userMemory_table, fun b low => owned.mapped b (by omega) (by omega),
    fun b low => owned.apart b (by omega) (by omega),
    fun x mem => other (.inl (userMemory_nodes mem).1), fun b low => other (.inr ?_),
    fun b low => owned.used b (by omega) (by omega)⟩
  rw [userMemory_frame (by omega), pgrounddown, size]
  omega

/-- A parent of two pages, and pages enough for the child. -/
theorem uvmcopy_all_or_nothing_page :
    Returns (uvmcopy 0x87fff000 0x87ffb000 5000) (userMemory 6) fun r m' => ∃ taken,
      r = 0 ∧ (∀ b, b < 2 * pgsize → m'.page (m'.frame 0x87ffb000 b) =
        (userMemory 6).page (0x80100000 + pgrounddown b)) ∧
        (m'.frames 0x87ffb000 0 2 ++ (taken ++ m'.free)).Perm sparePages ∨
      r = -1 ∧ (taken ++ m'.free).Perm sparePages := by
  have top : pgroundup 5000 = 2 * pgsize := by decide
  have two : pagesOf 5000 = 2 := by decide
  refine (uvmcopy_all_or_nothing (userMemory_parent (by decide)) userMemory_empty.1 userMemory_free).mono ?_
  rintro r m' ⟨taken, -, -, -, -, -, ⟨done, copied, -, -, free, -⟩ | ⟨failed, -, -, free⟩⟩
  · rw [two] at free
    rw [top] at copied
    refine ⟨taken, .inl ⟨done, fun b low => ?_, free⟩⟩
    rw [(copied b low).2.2, userMemory_frame (by omega)]
  · exact ⟨taken, .inr ⟨failed, free⟩⟩

end Xv6Labs.Vm
