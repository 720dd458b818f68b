import Mathlib

/-!
# Numerals

Digits up to base 16, the numeral of a number from its lowest digit on, and the number that a text of digits stands for.
-/

namespace Numerals

def digitChars : List Char := "0123456789abcdef".toList

def digit (d : ℕ) : Char := digitChars.getD d '?'

/-- Inverse of `digit`. -/
def digitValue (c : Char) : ℕ := digitChars.idxOf c

/-- The lowest digit first; for a base of at least 2 the quotients get smaller until they are 0. -/
def digits (base x : ℕ) : List Char := digit (x % base) :: if _ :
    x / base ≠ 0 ∧ x / base < x then digits base (x / base) else []
termination_by x

/-- The number whose digits are read from the highest on, with `acc` before them. -/
def readFrom (base acc : ℕ) (cs : List Char) : ℕ := cs.foldl (fun v c => base * v + digitValue c) acc

def read (base : ℕ) (cs : List Char) : ℕ := readFrom base 0 cs

variable {base x d n acc : ℕ} {c : Char} {cs : List Char}

theorem digitValue_digit (h : d < 16) : digitValue (digit d) = d := by
  have all : ∀ d < 16, digitValue (digit d) = d := by decide +kernel
  exact all d h

theorem read_snoc : read base (cs ++ [c]) = base * read base cs + digitValue c := by
  rw [read, readFrom, List.foldl_append]
  rfl

theorem digits_eq (large : 2 ≤ base) : digits base x = digit (x % base) :: if x / base = 0 then [] else digits base
    (x / base) := by
  rw [digits]
  congr 1
  by_cases last : x / base = 0
  · rw [dif_neg fun more => more.1 last, if_pos last]
  · have positive : 0 < x := by
      rw [Nat.pos_iff_ne_zero]
      rintro rfl
      exact last (Nat.zero_div base)
    rw [dif_pos ⟨last, Nat.div_lt_self positive large⟩, if_neg last]

theorem read_digits (large : 2 ≤ base) (small : base ≤ 16) : read base (digits base x).reverse = x := by
  induction x using Nat.strong_induction_on with
  | _ x ih =>
    have low : x % base < 16 := (Nat.mod_lt x (by omega)).trans_le small
    rw [digits_eq large, List.reverse_cons, read_snoc, digitValue_digit low]
    by_cases last : x / base = 0
    · rw [if_pos last]
      have whole := Nat.div_add_mod x base
      rw [last, Nat.mul_zero, Nat.zero_add] at whole
      exact (Nat.zero_add _).trans whole
    · have positive : 0 < x := by
        rw [Nat.pos_iff_ne_zero]
        rintro rfl
        exact last (Nat.zero_div base)
      rw [if_neg last, ih _ (Nat.div_lt_self positive large)]
      exact Nat.div_add_mod x base

theorem digits_subset (large : 2 ≤ base) (small : base ≤ 16) : ∀ c ∈ digits base x, ∃ d < base, c = digit d := by
  induction x using Nat.strong_induction_on with
  | _ x ih =>
    intro c mem
    rw [digits_eq large] at mem
    rcases List.mem_cons.mp mem with rfl | mem
    · exact ⟨_, Nat.mod_lt x (by omega), rfl⟩
    · by_cases last : x / base = 0
      · rw [if_pos last] at mem
        exact absurd mem List.not_mem_nil
      · have positive : 0 < x := by
          rw [Nat.pos_iff_ne_zero]
          rintro rfl
          exact last (Nat.zero_div base)
        rw [if_neg last] at mem
        exact ih _ (Nat.div_lt_self positive large) c mem

theorem length_digits_le (large : 2 ≤ base) (small : x < base ^ (n + 1)) : (digits base x).length ≤ n + 1 := by
  induction n generalizing x with
  | zero =>
    rw [digits_eq large, if_pos (Nat.div_eq_of_lt (by simpa using small))]
    exact le_rfl
  | succ n ih =>
    rw [digits_eq large, List.length_cons]
    by_cases last : x / base = 0
    · rw [if_pos last]
      exact Nat.succ_le_succ (Nat.zero_le _)
    · rw [if_neg last]
      exact Nat.succ_le_succ (ih (Nat.div_lt_of_lt_mul (by rwa [← Nat.pow_succ'])))

/-- The highest `n` of the 16 digits of a 64-bit word. -/
def hexFrom : ℕ → ℕ → List Char
  | 0, _ => []
  | n + 1, x => digit (x >>> 60) :: hexFrom n ((x <<< 4) % 2 ^ 64)

theorem length_hexFrom : (hexFrom n x).length = n := by
  induction n generalizing x with
  | zero => rfl
  | succ n ih => rw [hexFrom, List.length_cons, ih]

theorem hexFrom_subset (word : x < 2 ^ 64) : ∀ c ∈ hexFrom n x, ∃ d < 16, c = digit d := by
  induction n generalizing x with
  | zero => exact fun c mem => absurd mem List.not_mem_nil
  | succ n ih =>
    intro c mem
    rw [hexFrom] at mem
    rcases List.mem_cons.mp mem with rfl | mem
    · refine ⟨_, ?_, rfl⟩
      rw [Nat.shiftRight_eq_div_pow]
      exact Nat.div_lt_of_lt_mul (by omega)
    · exact ih (Nat.mod_lt _ (by positivity)) c mem

theorem readFrom_hexFrom (word : x < 2 ^ 64) (few : n ≤ 16) :
    readFrom 16 acc (hexFrom n x) = acc * 16 ^ n + x / 2 ^ (64 - 4 * n) := by
  induction n generalizing x acc with
  | zero =>
    rw [Nat.pow_zero, Nat.mul_one, Nat.mul_zero, Nat.sub_zero, Nat.div_eq_of_lt word]
    rfl
  | succ n ih =>
    have top : x >>> 60 = x / 2 ^ 60 := Nat.shiftRight_eq_div_pow x 60
    have high : x / 2 ^ 60 < 16 := Nat.div_lt_of_lt_mul (by omega)
    have shifted : (x <<< 4) % 2 ^ 64 = 2 ^ 4 * (x % 2 ^ 60) := by
      rw [Nat.shiftLeft_eq]
      omega
    have step : readFrom 16 acc (hexFrom (n + 1) x) = readFrom 16 (16 * acc + digitValue (digit (x >>> 60)))
      (hexFrom n ((x <<< 4) % 2 ^ 64)) := rfl
    rw [step, ih (Nat.mod_lt _ (by positivity)) (by omega), top, digitValue_digit high, shifted]
    have width : 64 - 4 * n = 4 + (60 - 4 * n) := by omega
    have width' : 64 - 4 * (n + 1) = 60 - 4 * n := by omega
    have split : 2 ^ 60 = 2 ^ (60 - 4 * n) * 16 ^ n := by
      rw [show (16 : ℕ) = 2 ^ 4 by rfl, ← Nat.pow_mul, ← Nat.pow_add]
      congr 1
      omega
    rw [width, width', Nat.pow_add, Nat.mul_div_mul_left _ _ (by decide : 0 < 2 ^ 4)]
    have parts : x = 2 ^ (60 - 4 * n) * (16 ^ n * (x / 2 ^ 60)) + x % 2 ^ 60 := by
      rw [← Nat.mul_assoc, ← split]
      exact (Nat.div_add_mod x (2 ^ 60)).symm
    have divided : x / 2 ^ (60 - 4 * n) = 16 ^ n * (x / 2 ^ 60) + x % 2 ^ 60 / 2 ^ (60 - 4 * n) := by
      conv_lhs => rw [parts]
      exact Nat.mul_add_div (by positivity) _ _
    rw [divided]
    ring

theorem read_hexFrom (word : x < 2 ^ 64) : read 16 (hexFrom 16 x) = x := by
  rw [read, readFrom_hexFrom word le_rfl]
  simp

end Numerals
