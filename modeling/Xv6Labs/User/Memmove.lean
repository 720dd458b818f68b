import Xv6Labs.User.Ulib

/-!
# The two `memmove`s

The kernel's takes its length as a `uint` and `ulib.c`'s as an `int`. Pointers have 64 bits and wrap.
-/

namespace Xv6Labs.Memmove

abbrev Address : Type := BitVec 64

abbrev Memory : Type := Address → UInt8

/-- `while(n-- > 0) *d++ = *s++;` -/
def copyUp (mem : Memory) (d s : Address) : ℕ → Memory
  | 0 => mem
  | n + 1 => copyUp (Function.update mem d (mem s)) (d + 1) (s + 1) n

/-- `while(n-- > 0) *--d = *--s;` -/
def copyDown (mem : Memory) (d s : Address) : ℕ → Memory
  | 0 => mem
  | n + 1 => copyDown (Function.update mem (d - 1) (mem (s - 1))) (d - 1) (s - 1) n

namespace Kernel

def memmove (mem : Memory) (dst src : Address) (n : BitVec 32) : Memory :=
  let length := n.setWidth 64
  if src < dst ∧ src + length > dst then copyDown mem (dst + length) (src + length) n.toNat
    else copyUp mem dst src n.toNat

end Kernel

namespace Ulib

/-- No round of either loop if the `int` is negative. -/
def memmove (mem : Memory) (dst src : Address) (n : BitVec 32) : Memory :=
  let length := n.signExtend 64
  if src > dst then copyUp mem dst src n.toInt.toNat else copyDown mem (dst + length) (src + length) n.toInt.toNat

end Ulib

/-- Neither range goes beyond the last address. -/
structure Fits (dst src : Address) (n : ℕ) : Prop where
  dst : dst.toNat + n ≤ 2 ^ 64
  src : src.toNat + n ≤ 2 ^ 64

/-- `mem'` holds at `dst` what `mem` holds at `src`, and differs nowhere else. -/
structure Copied (mem mem' : Memory) (dst src : Address) (n : ℕ) : Prop where
  inside : ∀ i < n, mem' (dst + BitVec.ofNat 64 i) = mem (src + BitVec.ofNat 64 i)
  outside : ∀ a : Address, a.toNat < dst.toNat ∨ dst.toNat + n ≤ a.toNat → mem' a = mem a

variable {mem mem' mem'' : Memory} {dst src a d s : Address} {n i : ℕ}

theorem toNat_add_ofNat (room : a.toNat + i < 2 ^ 64) : (a + BitVec.ofNat 64 i).toNat = a.toNat + i := by
  rw [BitVec.toNat_add, BitVec.toNat_ofNat, Nat.mod_eq_of_lt (Nat.lt_of_le_of_lt (Nat.le_add_left ..) room),
    Nat.mod_eq_of_lt room]

theorem toNat_add_one (room : a.toNat + 1 < 2 ^ 64) : (a + 1).toNat = a.toNat + 1 := toNat_add_ofNat room

theorem add_one_add_ofNat : a + 1 + BitVec.ofNat 64 i = a + BitVec.ofNat 64 (i + 1) := by
  rw [BitVec.ofNat_add, BitVec.add_comm (BitVec.ofNat 64 i), BitVec.add_assoc]
  rfl

theorem add_ofNat_succ_sub_one : a + BitVec.ofNat 64 (n + 1) - 1 = a + BitVec.ofNat 64 n := by
  rw [BitVec.ofNat_add, ← BitVec.add_assoc]
  exact BitVec.add_sub_cancel ..

/-- An address of the range, by its distance from the start. -/
theorem eq_add_ofNat (low : d.toNat ≤ a.toNat) : a = d + BitVec.ofNat 64 (a.toNat - d.toNat) := by
  apply BitVec.eq_of_toNat_eq
  rw [toNat_add_ofNat (by omega)]
  omega

theorem Copied.unique (first : Copied mem mem' dst src n) (second : Copied mem mem'' dst src n) : mem' = mem'' := by
  funext a
  by_cases range : dst.toNat ≤ a.toNat ∧ a.toNat < dst.toNat + n
  · rw [eq_add_ofNat range.1, first.inside _ (by omega), second.inside _ (by omega)]
  · rw [first.outside a (by omega), second.outside a (by omega)]

theorem copied_zero : Copied mem mem dst src 0 := ⟨fun _ h => absurd h (Nat.not_lt_zero _), fun _ _ => rfl⟩

/-- A byte at the front, and then the rest, where the write has not reached what the rest is read from. -/
theorem Copied.cons (fits : Fits dst src (n + 1)) (order : dst.toNat ≤ src.toNat ∨ src.toNat + (n + 1) ≤ dst.toNat)
    (rest : Copied (Function.update mem dst (mem src)) mem' (dst + 1) (src + 1) n) :
    Copied mem mem' dst src (n + 1) := by
  obtain ⟨dstRoom, srcRoom⟩ := fits
  rcases n with _ | n
  · constructor
    · intro i small
      obtain rfl : i = 0 := by omega
      rw [BitVec.add_zero, BitVec.add_zero, rest.outside dst, Function.update_self]
      -- With `dst` the last address there is, `dst + 1` is 0.
      by_cases last : dst.toNat + 1 < 2 ^ 64
      · rw [toNat_add_one last]
        omega
      · right
        rw [BitVec.toNat_add, show (1 : Address).toNat = 1 from rfl]
        omega
    · intro a far
      have other : a ≠ dst := by
        rintro rfl
        omega
      rw [rest.outside a (by omega), Function.update_of_ne other]
  · have dstNext := toNat_add_one (a := dst) (by omega)
    have srcNext := toNat_add_one (a := src) (by omega)
    constructor
    · intro i small
      rcases i with _ | i
      · rw [BitVec.add_zero, BitVec.add_zero, rest.outside dst (by omega), Function.update_self]
      · have unread : src + BitVec.ofNat 64 (i + 1) ≠ dst := by
          intro same
          have place := congrArg BitVec.toNat same
          rw [toNat_add_ofNat (by omega)] at place
          omega
        rw [← add_one_add_ofNat, rest.inside i (by omega), add_one_add_ofNat, Function.update_of_ne unread]
    · intro a far
      have other : a ≠ dst := by
        rintro rfl
        omega
      rw [rest.outside a (by omega), Function.update_of_ne other]

/-- The bytes before, after one at the end that none of them is read from. -/
theorem Copied.snoc (fits : Fits dst src (n + 1)) (order : src.toNat ≤ dst.toNat)
    (rest : Copied (Function.update mem (dst + BitVec.ofNat 64 n) (mem (src + BitVec.ofNat 64 n))) mem' dst src n) :
    Copied mem mem' dst src (n + 1) := by
  obtain ⟨dstRoom, srcRoom⟩ := fits
  have place : (dst + BitVec.ofNat 64 n).toNat = dst.toNat + n := toNat_add_ofNat (by omega)
  constructor
  · intro i small
    by_cases last : i = n
    · subst last
      rw [rest.outside _ (by omega), Function.update_self]
    · have unread : src + BitVec.ofNat 64 i ≠ dst + BitVec.ofNat 64 n := by
        intro same
        have places := congrArg BitVec.toNat same
        rw [place, toNat_add_ofNat (by omega)] at places
        omega
      rw [rest.inside i (by omega), Function.update_of_ne unread]
  · intro a far
    have other : a ≠ dst + BitVec.ofNat 64 n := by
      rintro rfl
      omega
    rw [rest.outside a (by omega), Function.update_of_ne other]

theorem copied_copyUp (fits : Fits dst src n) (order : dst.toNat ≤ src.toNat ∨ src.toNat + n ≤ dst.toNat) :
    Copied mem (copyUp mem dst src n) dst src n := by
  induction n generalizing mem dst src with
  | zero => exact copied_zero
  | succ n ih =>
    refine .cons fits order ?_
    rw [copyUp]
    rcases n with _ | n
    · exact copied_zero
    · have dstNext := toNat_add_one (a := dst) (by have := fits.dst; omega)
      have srcNext := toNat_add_one (a := src) (by have := fits.src; omega)
      refine ih ⟨?_, ?_⟩ ?_
      · have := fits.dst
        omega
      · have := fits.src
        omega
      · omega

theorem copied_copyDown (fits : Fits dst src n) (order : src.toNat ≤ dst.toNat) :
    Copied mem (copyDown mem (dst + BitVec.ofNat 64 n) (src + BitVec.ofNat 64 n) n) dst src n := by
  induction n generalizing mem with
  | zero => exact copied_zero
  | succ n ih =>
    refine .snoc fits order ?_
    rw [copyDown, add_ofNat_succ_sub_one, add_ofNat_succ_sub_one]
    exact ih ⟨by have := fits.dst; omega, by have := fits.src; omega⟩

/-! ### The kernel's -/

theorem setWidth_eq (n : BitVec 32) : n.setWidth 64 = BitVec.ofNat 64 n.toNat := by
  apply BitVec.eq_of_toNat_eq
  simp

theorem Kernel.copied_memmove {n : BitVec 32} (fits : Fits dst src n.toNat) :
    Copied mem (Kernel.memmove mem dst src n) dst src n.toNat := by
  have := fits.dst
  have := fits.src
  rw [Kernel.memmove, setWidth_eq]
  by_cases behind : src < dst ∧ src + BitVec.ofNat 64 n.toNat > dst
  · rw [if_pos behind]
    exact copied_copyDown fits (le_of_lt behind.1)
  · rw [if_neg behind]
    refine copied_copyUp fits ?_
    by_contra overlap
    rw [not_or, Nat.not_le, Nat.not_le] at overlap
    refine behind ⟨overlap.1, ?_⟩
    rw [gt_iff_lt, BitVec.lt_def, toNat_add_ofNat (by omega)]
    exact overlap.2

/-! ### The user library's -/

theorem signExtend_eq {n : BitVec 32} (positive : 0 ≤ n.toInt) : n.signExtend 64 = BitVec.ofNat 64 n.toInt.toNat := by
  have whole : n.toInt = (n.toInt.toNat : ℤ) := (Int.toNat_of_nonneg positive).symm
  rw [BitVec.signExtend, ← BitVec.ofInt_natCast, ← whole]

theorem Ulib.copied_memmove {n : BitVec 32} (fits : Fits dst src n.toInt.toNat) :
    Copied mem (Ulib.memmove mem dst src n) dst src n.toInt.toNat := by
  rw [Ulib.memmove]
  by_cases before : src > dst
  · rw [if_pos before]
    exact copied_copyUp fits (.inl (le_of_lt before))
  · rw [if_neg before]
    have order : src.toNat ≤ dst.toNat := Nat.le_of_not_lt before
    by_cases positive : 0 ≤ n.toInt
    · rw [signExtend_eq positive]
      exact copied_copyDown fits order
    · have none : n.toInt.toNat = 0 := Int.toNat_of_nonpos (by omega)
      rw [none]
      exact copied_zero

/-- Whatever the ranges share. A length is what the parameter's own type makes of its 32 bits. -/
theorem memmove_correct (mem : Memory) (dst src : Address) :
    (∀ n : BitVec 32, Fits dst src n.toNat → Copied mem (Kernel.memmove mem dst src n) dst src n.toNat) ∧
      (∀ n : BitVec 32, Fits dst src n.toInt.toNat → Copied mem (Ulib.memmove mem dst src n) dst src n.toInt.toNat) ∧
        ∀ n m : BitVec 32, (n.toNat : ℤ) = m.toInt → Fits dst src n.toNat →
          Kernel.memmove mem dst src n = Ulib.memmove mem dst src m := by
  refine ⟨fun n fits => Kernel.copied_memmove fits, fun n fits => Ulib.copied_memmove fits, fun n m same fits => ?_⟩
  have length : m.toInt.toNat = n.toNat := by omega
  have user : Copied mem (Ulib.memmove mem dst src m) dst src m.toInt.toNat := Ulib.copied_memmove (length ▸ fits)
  rw [length] at user
  exact (Kernel.copied_memmove fits).unique user

theorem fits_front : Fits 0x1002 0x1000 (3#32).toNat := ⟨by decide, by decide⟩

def ramp : Memory := fun a => UInt8.ofNat a.toNat

theorem memmove_correct_overlapping :
    Copied ramp (Kernel.memmove ramp 0x1002 0x1000 3) 0x1002 0x1000 3 ∧
      Copied ramp (Ulib.memmove ramp 0x1002 0x1000 3) 0x1002 0x1000 3 ∧
        Kernel.memmove ramp 0x1002 0x1000 3 = Ulib.memmove ramp 0x1002 0x1000 3 :=
  have correct := memmove_correct ramp 0x1002 0x1000
  ⟨correct.1 3 fits_front, correct.2.1 3 fits_front, correct.2.2 3 3 (by decide) fits_front⟩

end Xv6Labs.Memmove
