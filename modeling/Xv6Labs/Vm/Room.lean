import Xv6Labs.Vm.Loading

/-!
# Enough pages for a program

How many pages `exec` asks for at most until the stack is there, and that it gets to the stack if it gets them. These
are facts about runs that end: that the calls end is in their own specifications.
-/

namespace Xv6Labs.Vm

open Faults

variable {m m' : Memory} {root n j va a pa last perm sz newsz fuel level off offset top i : ℕ} {file : List UInt8}

/-- The next `n` calls of `kalloc` get a page. -/
def Memory.Gives (m : Memory) (n : ℕ) : Prop := ∀ k, k < n → ¬ m.Fails k

theorem Memory.Gives.le (gives : m.Gives n) (le : j ≤ n) : m.Gives j := fun k less => gives k (less.trans_le le)

theorem Memory.Gives.congr (gives : m.Gives n) (free : m'.free = m.free) (refuse : m'.refuse = m.refuse) :
    m'.Gives n := by
  intro k less
  rw [Memory.Fails, free, refuse]
  exact gives k less

theorem kalloc_gives (gives : m.Gives (n + 1)) : Ends kalloc m fun r m' => (∃ f, r = some f) ∧ m'.Gives n := by
  obtain ⟨granted, f, rest, list⟩ := not_fails_zero (gives 0 (Nat.succ_pos n))
  rintro r m' ran
  cases (congrArg Except.ok (kalloc_some f rest list granted)).symm.trans ran
  refine ⟨⟨f, rfl⟩, fun k less failed => gives (k + 1) (Nat.succ_lt_succ less) ?_⟩
  rcases failed with refused | few
  · exact .inl refused
  · refine .inr ?_
    rw [list]
    exact Nat.succ_le_succ few

theorem memset_gives {c : ℕ} (gives : m.Gives n) : Ends (memset pa c) m fun _ m' => pa ≠ 0 ∧ m'.Gives n := by
  rintro r m' ran
  unfold memset at ran
  split at ran
  · cases ran
  · rename_i nonzero
    cases ran
    exact ⟨nonzero, gives.congr rfl rfl⟩

theorem store_gives {pte : PteAddr} {v : ℕ} (gives : m.Gives n) : Ends (store pte v) m fun _ m' => m'.Gives n := by
  rintro r m' ran
  cases ran
  exact gives.congr rfl rfl

theorem load_ends {pte : PteAddr} : Ends (load pte) m fun _ m' => m' = m := by
  rintro r m' ran
  cases ran
  rfl

theorem panicIf_ends {c : Prop} [Decidable c] {text : String} : Ends (panicIf c text) m fun _ m' => m' = m := by
  rintro r m' ran
  unfold panicIf onlyIf at ran
  split at ran
  · cases ran
  · cases ran
    rfl

/-! ### Mapping a page -/

theorem walkFrom_gives (gives : m.Gives (n + level)) :
    Ends (walkFrom va true level root) m fun r m' => (∃ pte, r = some pte) ∧ m'.Gives n := by
  induction level generalizing m root with
  | zero => exact .pure ⟨⟨_, rfl⟩, gives⟩
  | succ level ih =>
    unfold walkFrom
    refine .bind (load_ends.mono fun pte m₁ same => ?_)
    subst same
    split
    · exact ih (gives.le (by omega))
    · rw [if_pos rfl]
      refine .bind ((kalloc_gives gives).mono ?_)
      rintro - m₂ ⟨⟨page, rfl⟩, gives₂⟩
      refine .bind ((memset_gives gives₂).mono fun _ m₃ made =>
        .bind ((store_gives made.2).mono fun _ m₄ gives₄ => ih gives₄))

theorem walk_gives (gives : m.Gives (n + 2)) :
    Ends (walk root va true) m fun r m' => (∃ pte, r = some pte) ∧ m'.Gives n := by
  unfold walk
  split
  · rintro r m' ran
    cases ran
  · exact walkFrom_gives gives

theorem mapFrom_gives (gives : m.Gives (n + 2)) :
    Ends (mapFrom root a perm fuel a pa) m fun r m' => r = 0 ∧ m'.Gives n := by
  cases fuel with
  | zero =>
    rintro r m' ran
    cases ran
  | succ fuel =>
    unfold mapFrom
    refine .bind ((walk_gives gives).mono ?_)
    rintro - m₁ ⟨⟨pte, rfl⟩, gives₁⟩
    refine .bind (load_ends.mono fun e m₂ same => .bind (panicIf_ends.mono fun _ m₃ same' => ?_))
    subst same same'
    refine .bind ((store_gives gives₁).mono fun _ m₄ gives₄ => ?_)
    rw [if_pos rfl]
    exact .pure ⟨rfl, gives₄⟩

theorem mappages_gives (aligned : va % pgsize = 0) (bound : va < maxva) (gives : m.Gives (n + 2)) :
    Ends (mappages root va pgsize pa perm) m fun r m' => r = 0 ∧ m'.Gives n := by
  have high : maxva + pgsize ≤ 2 ^ 64 := by decide
  have first : pgrounddown va = va := Nat.div_mul_cancel (Nat.dvd_of_mod_eq_zero aligned)
  have last : pgrounddown (wrap (va + pgsize + 2 ^ 64 - 1)) = va := by
    rw [wrap, pgrounddown]
    have size : pgsize = 4096 := rfl
    rw [size] at aligned high ⊢
    omega
  unfold mappages
  rw [first, last]
  exact mapFrom_gives gives

/-! ### `uvmalloc` and `proc_pagetable` -/

theorem allocFrom_gives (bound : newsz ≤ trapframe) (reach : j ≤ pagesOf newsz)
    (gives : m.Gives (n + 3 * (pagesOf newsz - j))) {oldsz : ℕ} :
    Ends (allocFrom root oldsz newsz fuel (j * pgsize)) m fun r m' => r = newsz ∧ m'.Gives n := by
  induction fuel generalizing m j with
  | zero =>
    rintro r m' ran
    cases ran
  | succ fuel ih =>
    have high : trapframe < maxva := by decide
    have small : maxva + pgsize ≤ 2 ^ 64 := by decide
    unfold allocFrom
    split
    · rename_i more
      have next : j + 1 ≤ pagesOf newsz := by
        rw [pagesOf, pgsize] at *
        omega
      refine .bind ((kalloc_gives (gives.le (by omega : n + 3 * (pagesOf newsz - (j + 1)) + 2 + 1 ≤ _))).mono ?_)
      rintro - m₁ ⟨⟨mem, rfl⟩, gives₁⟩
      refine .bind ((memset_gives gives₁).mono fun _ m₂ made => ?_)
      refine .bind ((mappages_gives (Nat.mul_mod_left ..) (by omega) made.2).mono ?_)
      rintro r m₃ ⟨rfl, gives₃⟩
      have step : wrap (j * pgsize + pgsize) = (j + 1) * pgsize := by
        rw [Nat.succ_mul, wrap, Nat.mod_eq_of_lt]
        omega
      rw [if_neg (by decide), step]
      exact ih next gives₃
    · exact .pure ⟨rfl, gives.le (Nat.le_add_right ..)⟩

theorem uvmalloc_gives (bound : newsz ≤ trapframe) (gives : m.Gives (n + 3 * (pagesOf newsz - pagesOf sz))) :
    Ends (uvmalloc root sz newsz) m fun r m' => r = max sz newsz ∧ m'.Gives n := by
  unfold uvmalloc
  split
  · rename_i less
    exact .pure ⟨(max_eq_left less.le).symm, gives.le (Nat.le_add_right ..)⟩
  · rename_i grow
    have le : sz ≤ newsz := Nat.le_of_not_lt grow
    rw [pgroundup_pages (le.trans bound), max_eq_right le]
    exact allocFrom_gives bound (Nat.div_le_div_right (by omega)) gives

theorem procPagetable_gives {frame : ℕ} (gives : m.Gives (n + 5)) :
    Ends (procPagetable frame) m fun r m' => r ≠ 0 ∧ m'.Gives n := by
  unfold procPagetable uvmcreate
  refine .bind (.bind ((kalloc_gives gives).mono ?_))
  rintro - m₁ ⟨⟨page, rfl⟩, gives₁⟩
  refine .bind ((memset_gives gives₁).mono fun _ m₂ made => .pure ?_)
  rw [if_neg made.1]
  refine .bind (Returns.ends (.reads ?_))
  refine .bind ((mappages_gives (by decide) (by decide) (n := n + 2) made.2).mono ?_)
  rintro r m₃ ⟨rfl, gives₃⟩
  rw [if_neg (by decide)]
  refine .bind ((mappages_gives (by decide) (by decide) gives₃).mono ?_)
  rintro r m₄ ⟨rfl, gives₄⟩
  rw [if_neg (by decide)]
  exact .pure ⟨made.1, gives₄⟩

/-! ### The segments -/

theorem readi_inside (size : file.length < 2 ^ 32) (inside : off + n ≤ file.length) :
    (readi file off n).length = n := by
  unfold readi
  have small : uint (off + n) = off + n := Nat.mod_eq_of_lt (by omega)
  rw [if_neg (by omega), if_neg (by omega), List.length_take, List.length_drop]
  omega

theorem loadsegFrom_gives (size : file.length < 2 ^ 32) (inside : offset + sz ≤ file.length) (gives : m.Gives n) :
    Ends (loadsegFrom root va file offset sz fuel i) m fun r m' => r = 0 ∧ m'.Gives n := by
  induction fuel generalizing m i with
  | zero =>
    rintro r m' ran
    cases ran
  | succ fuel ih =>
    unfold loadsegFrom
    split
    · rename_i more
      refine .bind (walkaddr_eq.ends.mono fun pa m₁ walked => .bind (panicIf_ends.mono fun _ m₂ same => ?_))
      obtain ⟨rfl, -⟩ := walked
      subst same
      have offset' : uint (offset + i) = offset + i := Nat.mod_eq_of_lt (by omega)
      have whole : (readi file (offset + i) (if sz - i < pgsize then sz - i else pgsize)).length =
          if sz - i < pgsize then sz - i else pgsize := readi_inside size (by split <;> omega)
      dsimp only
      rw [offset', if_neg (not_not.mpr whole)]
      exact .bind (Returns.ends (.writes (ih (gives.congr rfl rfl))))
    · exact .pure ⟨rfl, gives⟩

theorem loadseg_gives (size : file.length < 2 ^ 32) (inside : offset + sz ≤ file.length) (gives : m.Gives n) :
    Ends (loadseg root va file offset sz) m fun r m' => r = 0 ∧ m'.Gives n := by
  unfold loadseg
  refine .bind (panicIf_ends.mono fun _ m₁ same => ?_)
  subst same
  exact loadsegFrom_gives size inside gives

/-- A segment that can be loaded into the first `top` bytes. -/
structure Loadable (file : List UInt8) (top : ℕ) (ph : Proghdr) : Prop where
  part : ph.filesz ≤ ph.memsz
  some : 0 < ph.vaddr + ph.memsz
  within : ph.vaddr + ph.memsz ≤ top
  aligned : ph.vaddr % pgsize = 0
  whole : uint ph.off + ph.filesz ≤ file.length

theorem loadSegments_gives {todo : ℕ} (size : file.length < 2 ^ 32) (small : top ≤ 2 ^ 31)
    (complete : Complete file todo off)
    (good : ∀ ph ∈ segments file todo off, Loadable file top ph) (under : sz ≤ top)
    (gives : m.Gives (n + 3 * (pagesOf top - pagesOf sz))) :
    Ends (loadSegments root file todo off sz) m fun r m' => r.1 = true ∧ r.2 ≤ top ∧
      m'.Gives (n + 3 * (pagesOf top - pagesOf r.2)) := by
  induction todo generalizing off sz m with
  | zero => exact .pure ⟨rfl, under, gives⟩
  | succ todo ih =>
    have high : 2 ^ 31 ≤ trapframe := by decide
    have less : trapframe < 2 ^ 64 := by decide
    obtain ⟨whole, complete⟩ := complete
    unfold loadSegments
    dsimp only
    rw [if_neg (not_not.mpr whole)]
    rw [segments] at good
    split
    · rename_i other
      rw [if_neg other] at good
      exact ih complete good under gives
    · rename_i loads
      rw [if_pos (not_not.mp loads)] at good
      obtain ⟨part, some, within, aligned, inside⟩ := good _ List.mem_cons_self
      generalize proghdr (readi file off proghdrSize) = ph at *
      have sum : wrap (ph.vaddr + ph.memsz) = ph.vaddr + ph.memsz := Nat.mod_eq_of_lt (by omega)
      have filesz : uint ph.filesz = ph.filesz := Nat.mod_eq_of_lt (by omega)
      have less : pagesOf sz ≤ pagesOf (max sz (ph.vaddr + ph.memsz)) := Nat.div_le_div_right (by omega)
      have upto : pagesOf (max sz (ph.vaddr + ph.memsz)) ≤ pagesOf top := Nat.div_le_div_right (by omega)
      have mono : pagesOf (ph.vaddr + ph.memsz) ≤ pagesOf (max sz (ph.vaddr + ph.memsz)) :=
        Nat.div_le_div_right (by omega)
      rw [if_neg (by omega), sum, if_neg (by omega), filesz]
      refine .bind ((uvmalloc_gives (n := n + 3 * (pagesOf top - pagesOf (max sz (ph.vaddr + ph.memsz)))) (by omega)
        (gives.le (by omega))).mono ?_)
      rintro r m₁ ⟨rfl, gives₁⟩
      rw [if_neg (by omega), if_neg (not_not.mpr aligned)]
      refine .bind ((loadseg_gives size inside gives₁).mono ?_)
      rintro r m₂ ⟨rfl, gives₂⟩
      rw [if_neg (by decide)]
      exact ih complete (fun ph' mem => good ph' (List.mem_cons_of_mem _ mem)) (by omega) gives₂

/-- A file that can be loaded into the first `top` bytes. -/
structure WellFormed (file : List UInt8) (top : ℕ) : Prop where
  size : file.length < 2 ^ 32
  header : elfhdrSize ≤ file.length
  magic : (elfhdr (readi file 0 elfhdrSize)).magic = elfMagic
  complete : Complete file (elfhdr (readi file 0 elfhdrSize)).phnum (uint (elfhdr (readi file 0 elfhdrSize)).phoff)
  segments : ∀ ph ∈ segments file (elfhdr (readi file 0 elfhdrSize)).phnum
    (uint (elfhdr (readi file 0 elfhdrSize)).phoff),
    Loadable file top ph
  small : top ≤ 2 ^ 31

/-- Five pages for a page table and its first mappings, and three for each page of the user. -/
theorem loadImage_gives (good : WellFormed file top) (free : m.Free)
    (gives : m.Gives (n + (5 + 3 * (pagesOf top + 2)))) (frame : ℕ) :
    Returns (loadImage frame file) m fun r _ => ∃ img, r = some img := by
  have loads : Ends (loadImage frame file) m fun r _ => r ≠ none := by
    unfold loadImage
    dsimp only
    have header : (readi file 0 elfhdrSize).length = elfhdrSize :=
      readi_inside good.size (by rw [Nat.zero_add]; exact good.header)
    rw [if_neg (not_not.mpr header), if_neg (not_not.mpr good.magic)]
    refine .bind ((procPagetable_gives (n := 3 * (pagesOf top + 2)) (gives.le (by omega))).mono ?_)
    rintro root m₁ ⟨nonzero, gives₁⟩
    rw [if_neg nonzero]
    refine .bind ((loadSegments_gives (n := 6) good.size good.small good.complete good.segments (Nat.zero_le _)
      (gives₁.le (by omega))).mono ?_)
    rintro ⟨done, sz⟩ m₂ ⟨rfl, under, gives₂⟩
    dsimp only at under gives₂ ⊢
    have small := good.small
    have high : 2 ^ 31 + 3 * pgsize ≤ trapframe := by decide
    have less : trapframe < 2 ^ 64 := by decide
    have pages : pgroundup sz = pagesOf sz * pgsize := pgroundup_pages (by omega)
    have next : pagesOf sz * pgsize + 2 * pgsize = (pagesOf sz + 2) * pgsize := (Nat.add_mul ..).symm
    have round : pagesOf sz * pgsize < sz + pgsize := by
      rw [pagesOf, pgsize]
      omega
    rw [if_neg (by decide), pages, next, wrap, Nat.mod_eq_of_lt (by omega)]
    refine .bind ((uvmalloc_gives (n := 0) (by omega) (gives₂.le ?_)).mono ?_)
    · rw [pagesOf_mul, pagesOf_mul]
      omega
    rintro r m₃ ⟨rfl, -⟩
    have positive : 0 < pgsize := by decide
    rw [if_neg (by omega)]
    exact .bind (.always fun _ _ => .pure (by simp))
  refine ((loadImage_spec free good.size frame).and_ends loads).mono ?_
  rintro r m' ⟨⟨rfl, -⟩ | ⟨img, rfl, -⟩, some⟩
  · exact absurd rfl some
  · exact ⟨img, rfl⟩

end Xv6Labs.Vm
