import Xv6Labs.Vm.User

/-!
# `growproc`

The new size is computed in 32 bits. A size below zero wraps to one above the old size, so that `uvmdealloc` does
nothing, and `growproc` returns 0 all the same.
-/

namespace Xv6Labs.Vm

open Faults

variable {m m' : Memory} {p : Proc} {n : ℤ} {a b j k : ℕ}

theorem toUint_of_lt (h : a < 2 ^ 32) : toUint a = a := by
  rw [toUint]
  omega

/-- The size of a process fits in memory, so it is small. -/
theorem Space.size_ram (space : Space m p.pagetable (pagesOf p.sz)) : p.sz ≤ 2 ^ 27 := by
  have ram : phystop - kernbase = 2 ^ 27 := by decide
  have fits := space.owned.fits_ram
  have upto := le_pagesOf (a := p.sz)
  omega

/-- What is asked of `growproc`. -/
def Grown (m : Memory) (p : Proc) (n : ℤ) : Prop :=
  Returns (growproc p n) m fun r m' =>
    (r.1 = 0 ∧ (r.2.sz : ℤ) = p.sz + n ∧ r.2.pagetable = p.pagetable ∧
      (∀ b, b < trapframe → ((m'.translate p.pagetable b).isSome ↔ b < pgroundup r.2.sz)) ∧
      ∀ b, b < min p.sz r.2.sz → m'.at p.pagetable b = m.at p.pagetable b) ∨
    r.1 = -1 ∧ r.2 = p ∧ ∀ b, b < maxva → m'.translate p.pagetable b = m.translate p.pagetable b

theorem at_congr {root : ℕ} (entries : m'.pte root b = m.pte root b)
    (pages : m'.page (m.frame root b) = m.page (m.frame root b)) :
    m'.at root b = m.at root b := by
  have frames : m'.frame root b = m.frame root b := by
    rw [Memory.frame, entries]
    rfl
  rw [Memory.at, frames, pages]
  rfl

theorem Space.not_mem_frames {root n : ℕ} (space : Space m root n) (low : b < j * pgsize) (le : j ≤ n) :
    m.frame root b ∉ m.frames root j n := by
  intro mem
  obtain ⟨i, range, eq⟩ := List.mem_map.mp mem
  obtain ⟨from_, to_⟩ := List.mem_range'_1.mp range
  have positive : 0 < pgsize := by decide
  have upto := Nat.mul_lt_mul_of_pos_right (by omega : i < n) positive
  have more := Nat.mul_le_mul_right pgsize le
  have page := space.owned.distinct (i * pgsize) b (by omega) upto (by omega) (by omega) eq
  rw [Nat.mul_div_cancel _ positive] at page
  have whole := Nat.mul_le_mul_right pgsize from_
  have := Nat.div_mul_le_self b pgsize
  rw [page] at whole
  omega

/-- Shrinking to a size that is not negative. -/
theorem uvmdealloc_grown {root oldsz newsz : ℕ} (space : Space m root (pagesOf oldsz)) (shrink : newsz ≤ oldsz) :
    Returns (uvmdealloc root oldsz newsz) m fun r m' => r = newsz ∧
      (∀ b, b < trapframe → ((m'.translate root b).isSome ↔ b < pgroundup newsz)) ∧
      ∀ b, b < newsz → m'.at root b = m.at root b := by
  have le : pagesOf newsz ≤ pagesOf oldsz := Nat.div_le_div_right (by omega)
  have bound := space.size_le
  have high : trapframe ≤ maxva := by decide
  have owned := space.owned.sub (Nat.zero_le (pagesOf newsz)) le_rfl
  refine (uvmdealloc_free space.table owned bound).mono ?_
  rintro r m' ⟨result, clears⟩
  refine ⟨result.trans (min_eq_right shrink), fun b below => ?_, fun b low => ?_⟩
  · rw [pgroundup_pages (shrink.trans bound)]
    by_cases gone : pagesOf newsz * pgsize ≤ b ∧ b < pagesOf oldsz * pgsize
    · rw [translate_none (by rw [clears.cleared b (by omega) gone]; exact Nat.zero_and _)]
      exact iff_of_false (by decide) (by omega)
    · have more := Nat.mul_le_mul_right pgsize le
      rw [translate_congr (clears.kept b (by omega) gone), space.translates below]
      omega
  · have upto := le_pagesOf (a := newsz)
    have more := Nat.mul_le_mul_right pgsize le
    refine at_congr (clears.kept b (by omega) (by omega))
      (clears.others _ (space.owned.apart b (by omega) (by omega)) ?_)
    rw [List.mem_reverse]
    exact space.not_mem_frames (by omega) le

theorem growproc_grows (space : Space m p.pagetable (pagesOf p.sz)) (free : m.Free) (bound : n < 2 ^ 31)
    (more : 0 < n) :
    Grown m p n := by
  have small := space.size_ram
  have size := toUint_of_lt (a := p.sz) (by omega)
  obtain ⟨d, rfl⟩ := Int.eq_ofNat_of_zero_le more.le
  have sum : toUint (p.sz + d : ℕ) = p.sz + d := toUint_of_lt (by omega)
  unfold Grown growproc
  rw [if_pos more, size, ← Nat.cast_add, sum]
  refine .bind ((uvmalloc_spec space free (Nat.le_add_right ..)).mono ?_)
  have high : trapframe ≤ maxva := by decide
  rintro r m' ⟨taken, ⟨rfl, added⟩ | ⟨rfl, restores⟩⟩
  · rw [sum, if_neg (by omega)]
    refine .pure (.inl ⟨rfl, Nat.cast_add .., rfl, fun b below => ?_, fun b low => ?_⟩)
    · rw [pgroundup_pages added.space.size_le]
      exact added.space.translates below
    · have low : b < p.sz := lt_of_lt_of_le low (min_le_left ..)
      have upto := le_pagesOf (a := p.sz)
      have top := space.bound
      exact at_congr (added.kept b (by omega) (by omega)) (space.old_page (by omega) added.others)
  · rw [if_pos (by decide)]
    exact .pure (.inr ⟨rfl, rfl, restores.translate⟩)

theorem growproc_shrinks (space : Space m p.pagetable (pagesOf p.sz)) (fewer : n < 0) (left : 0 ≤ p.sz + n) :
    Grown m p n := by
  have small := space.size_ram
  have size := toUint_of_lt (a := p.sz) (by omega)
  obtain ⟨d, rest⟩ := Int.eq_ofNat_of_zero_le left
  have new := toUint_of_lt (a := d) (by omega)
  unfold Grown growproc
  rw [if_neg (by omega), if_pos fewer, size, rest, new]
  refine .bind ((uvmdealloc_grown space (by omega)).mono ?_)
  rintro r m' ⟨rfl, mapped, kept⟩
  rw [new]
  exact .pure (.inl ⟨rfl, rfl, rfl, mapped, fun b low => kept b (lt_of_lt_of_le low (min_le_right ..))⟩)

/-- A size below zero wraps, and nothing happens. -/
theorem growproc_wraps (small : p.sz ≤ 2 ^ 27) (low : -2 ^ 31 ≤ n) (negative : p.sz + n < 0) :
    Returns (growproc p n) m fun r m' => m' = m ∧ r = (0, p) := by
  have size := toUint_of_lt (a := p.sz) (by omega)
  have wrapped : p.sz ≤ toUint (p.sz + n) := by
    rw [toUint]
    omega
  unfold growproc
  rw [if_neg (by omega), if_pos (by omega), size, uvmdealloc, if_pos wrapped]
  refine .bind (.pure ?_)
  rw [size]
  exact .pure ⟨rfl, rfl⟩

theorem growproc_iff (space : Space m p.pagetable (pagesOf p.sz)) (free : m.Free) (low : -2 ^ 31 ≤ n)
    (high : n < 2 ^ 31) :
    Grown m p n ↔ 0 ≤ p.sz + n := by
  constructor
  · intro grown
    by_contra negative
    obtain ⟨r, m', ran, -, rfl⟩ := growproc_wraps (m := m) space.size_ram low (not_le.mp negative)
    rcases grown.det ran with ⟨-, size, -⟩ | ⟨failed, -⟩
    · simp only at size
      omega
    · exact absurd (show (0 : ℤ) = -1 from failed) (by decide)
  · intro left
    rcases Int.lt_trichotomy n 0 with fewer | rfl | more
    · exact growproc_shrinks space fewer left
    · have size := toUint_of_lt (a := p.sz) (by have := space.size_ram; omega)
      unfold Grown growproc
      rw [if_neg (by omega), if_neg (by omega), size]
      refine .pure (.inl ⟨rfl, (add_zero _).symm, rfl, fun b below => ?_, fun b _ => rfl⟩)
      rw [pgroundup_pages space.size_le]
      exact space.translates below
    · exact growproc_grows space free high more

theorem userMemory_proc {c : ℕ} : Space (userMemory c) 0x87fff000 (pagesOf (1024 * pgsize)) := by
  rw [pagesOf_mul]
  exact userMemory_space

/-- `sbrk` by one byte less than all of 4 MB, and by minus 4 MB and one byte. -/
theorem growproc_iff_shrinks : Grown (userMemory 0) ⟨0x87fff000, 1024 * pgsize⟩ (-4194303) :=
  (growproc_iff (p := ⟨0x87fff000, 1024 * pgsize⟩) userMemory_proc userMemory_free (by decide) (by decide)).mpr
    (by decide)

theorem growproc_ignores : ¬ Grown (userMemory 0) ⟨0x87fff000, 1024 * pgsize⟩ (-4194305) := by
  intro grown
  have small : 1024 * pgsize ≤ 2 ^ 27 := by decide
  obtain ⟨r, m', ran, -, rfl⟩ :=
    growproc_wraps (m := userMemory 0) (p := ⟨0x87fff000, 1024 * pgsize⟩) small
      (by decide : -2 ^ 31 ≤ (-4194305 : ℤ)) (by decide)
  rcases grown.det ran with ⟨-, size, -⟩ | ⟨failed, -⟩
  · exact absurd size (by decide)
  · exact absurd failed (by decide)

end Xv6Labs.Vm
