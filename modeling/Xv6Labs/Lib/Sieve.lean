import Mathlib

/-!
# The sieve by stages

A stage keeps the numbers behind its first one that the first one does not divide. From `2..N` the first numbers of
the stages are the primes up to `N`, and each stage but the last has more than one number, since there is a prime
below the double of each number.
-/

namespace Sieve

def next (l : List ℕ) : List ℕ := l.tail.filter fun n => n % l.headD 0 ≠ 0

def stage (l : List ℕ) : ℕ → List ℕ
  | 0 => l
  | k + 1 => next (stage l k)

def upTo (N : ℕ) : List ℕ := List.range' 2 (N - 1)

def primesUpTo (N : ℕ) : List ℕ := (List.range (N + 1)).filter fun n => n.Prime

/-- The numbers without a prime factor below `p`. -/
def survivors (N p : ℕ) : List ℕ := (upTo N).filter fun n => p ≤ n.minFac

variable {N n p q k : ℕ} {l : List ℕ}

theorem mem_upTo : n ∈ upTo N ↔ 2 ≤ n ∧ n ≤ N := by
  unfold upTo
  rw [List.mem_range'_1]
  omega

theorem mem_primesUpTo : p ∈ primesUpTo N ↔ p.Prime ∧ p ≤ N := by
  unfold primesUpTo
  rw [List.mem_filter, List.mem_range, decide_eq_true_iff, Nat.lt_succ_iff, and_comm]

theorem primesUpTo_sorted : (primesUpTo N).Pairwise (· < ·) := List.pairwise_lt_range.filter _

theorem mem_survivors : n ∈ survivors N p ↔ (2 ≤ n ∧ n ≤ N) ∧ p ≤ n.minFac := by
  unfold survivors
  rw [List.mem_filter, mem_upTo, decide_eq_true_iff]

theorem survivors_sorted : (survivors N p).Pairwise (· < ·) := by
  unfold survivors upTo
  exact List.Pairwise.filter _ (List.pairwise_lt_range' (s := 2) (n := N - 1))

/-- The smallest survivor is `p`. -/
theorem survivors_eq_cons (prime : p.Prime) (small : p ≤ N) : ∃ rest, survivors N p = p :: rest := by
  have mem : p ∈ survivors N p := mem_survivors.mpr ⟨⟨prime.two_le, small⟩, prime.minFac_eq.ge⟩
  cases shape : survivors N p with
  | nil => simp [shape] at mem
  | cons first rest =>
    have sorted := survivors_sorted (N := N) (p := p)
    rw [shape] at sorted mem
    have bound : p ≤ first := by
      have inside : first ∈ survivors N p := by rw [shape]; exact List.mem_cons_self
      obtain ⟨⟨two, -⟩, least⟩ := mem_survivors.mp inside
      exact least.trans (Nat.minFac_le (by omega))
    cases mem with
    | head => exact ⟨rest, rfl⟩
    | tail _ mem =>
      have above := (List.pairwise_cons.mp sorted).1 p mem
      omega

/-- A stage takes the multiples of its first number out. -/
theorem next_survivors (prime : p.Prime) (small : p ≤ N) : next (survivors N p) = survivors N (p + 1) := by
  obtain ⟨rest, shape⟩ := survivors_eq_cons prime small
  have kept : survivors N (p + 1) = (survivors N p).filter fun n => n % p ≠ 0 := by
    unfold survivors
    rw [List.filter_filter]
    apply List.filter_congr
    intro n mem
    obtain ⟨two, -⟩ := mem_upTo.mp mem
    rw [← Bool.decide_and, decide_eq_decide]
    constructor
    · intro above
      refine ⟨fun zero => ?_, by omega⟩
      have factor := Nat.minFac_le_of_dvd prime.two_le (Nat.dvd_of_mod_eq_zero zero)
      omega
    · rintro ⟨other, above⟩
      have differ : n.minFac ≠ p := fun same => other (Nat.mod_eq_zero_of_dvd (same ▸ n.minFac_dvd))
      omega
  unfold next
  rw [kept, shape, List.headD_cons, List.tail_cons, List.filter_cons_of_neg (by simp)]

/-- Between two primes in a row there is no smallest factor. -/
theorem survivors_eq (gap : ∀ r, r.Prime → r ≤ N → p < r → q ≤ r) (order : p < q) :
    survivors N (p + 1) = survivors N q := by
  unfold survivors
  apply List.filter_congr
  intro n mem
  obtain ⟨two, small⟩ := mem_upTo.mp mem
  rw [decide_eq_decide]
  have prime := Nat.minFac_prime (n := n) (by omega)
  have bound := Nat.minFac_le (n := n) (by omega)
  exact ⟨fun above => gap _ prime (bound.trans small) above, fun above => by omega⟩

/-- The primes in a row. -/
theorem primes_gap (inside : k + 1 < (primesUpTo N).length) {r : ℕ} (prime : r.Prime) (small : r ≤ N)
    (above : (primesUpTo N)[k] < r) : (primesUpTo N)[k + 1] ≤ r := by
  obtain ⟨j, bound, rfl⟩ := List.mem_iff_getElem.mp (mem_primesUpTo.mpr ⟨prime, small⟩)
  have sorted := List.pairwise_iff_getElem.mp (primesUpTo_sorted (N := N))
  by_contra below
  have order : k < j := by
    by_contra back
    rcases Nat.lt_or_eq_of_le (Nat.le_of_not_lt back) with less | same
    · have := sorted j k (by omega) (by omega) less
      omega
    · subst same
      omega
  rcases Nat.lt_or_eq_of_le (show k + 1 ≤ j by omega) with less | same
  · have := sorted (k + 1) j (by omega) (by omega) less
    omega
  · subst same
    omega

theorem first_prime (two : 2 ≤ N) : ∃ inside : 0 < (primesUpTo N).length, (primesUpTo N)[0] = 2 := by
  have mem : 2 ∈ primesUpTo N := mem_primesUpTo.mpr ⟨Nat.prime_two, two⟩
  obtain ⟨j, bound, same⟩ := List.mem_iff_getElem.mp mem
  refine ⟨by omega, ?_⟩
  have least : ∀ q ∈ primesUpTo N, 2 ≤ q := fun q inside => (mem_primesUpTo.mp inside).1.two_le
  have head := least _ (List.getElem_mem (by omega : 0 < (primesUpTo N).length))
  rcases Nat.eq_zero_or_pos j with zero | later
  · subst zero
    exact same
  · have sorted := List.pairwise_iff_getElem.mp (primesUpTo_sorted (N := N)) 0 j (by omega) bound later
    omega

/-- Stage `k` starts with the prime number `k`, and has lost what the primes before it divide. -/
theorem stage_eq (two : 2 ≤ N) (inside : k < (primesUpTo N).length) :
    stage (upTo N) k = survivors N (primesUpTo N)[k] := by
  induction k with
  | zero =>
    obtain ⟨pos, first⟩ := first_prime two
    rw [first, stage, survivors, List.filter_eq_self.mpr]
    intro n mem
    have bound := mem_upTo.mp mem
    exact decide_eq_true ((Nat.minFac_prime (by omega)).two_le)
  | succ k ih =>
    obtain ⟨prime, small⟩ := mem_primesUpTo.mp (List.getElem_mem (Nat.lt_of_succ_lt inside))
    have order := List.pairwise_iff_getElem.mp (primesUpTo_sorted (N := N)) k (k + 1) (by omega) inside
      (Nat.lt_succ_self k)
    rw [stage, ih (Nat.lt_of_succ_lt inside), next_survivors prime small]
    exact survivors_eq (fun r prime small above => primes_gap inside prime small above) order

theorem head_stage (two : 2 ≤ N) (inside : k < (primesUpTo N).length) :
    ∃ rest, stage (upTo N) k = (primesUpTo N)[k] :: rest := by
  obtain ⟨prime, small⟩ := mem_primesUpTo.mp (List.getElem_mem inside)
  rw [stage_eq two inside]
  exact survivors_eq_cons prime small

/-- Only the last stage has no other number than its first. -/
theorem length_stage (two : 2 ≤ N) (inside : k < (primesUpTo N).length) :
    (stage (upTo N) k).length = 1 ↔ k + 1 = (primesUpTo N).length := by
  obtain ⟨prime, small⟩ := mem_primesUpTo.mp (List.getElem_mem inside)
  obtain ⟨rest, shape⟩ := survivors_eq_cons prime small
  have sorted := survivors_sorted (N := N) (p := (primesUpTo N)[k])
  rw [stage_eq two inside, shape, List.length_cons, Nat.add_eq_right, List.length_eq_zero_iff]
  rw [shape] at sorted
  constructor
  · rintro rfl
    by_contra more
    have later : k + 1 < (primesUpTo N).length := by omega
    have order := List.pairwise_iff_getElem.mp (primesUpTo_sorted (N := N)) k (k + 1) (by omega) later
      (Nat.lt_succ_self k)
    obtain ⟨prime', small'⟩ := mem_primesUpTo.mp (List.getElem_mem later)
    have mem : (primesUpTo N)[k + 1] ∈ survivors N (primesUpTo N)[k] :=
      mem_survivors.mpr ⟨⟨prime'.two_le, small'⟩, by rw [prime'.minFac_eq]; exact order.le⟩
    rw [shape, List.mem_singleton] at mem
    omega
  · intro last
    by_contra more
    obtain ⟨n, tail, cons⟩ := List.exists_cons_of_ne_nil more
    have above : (primesUpTo N)[k] < n := (List.pairwise_cons.mp sorted).1 n (cons ▸ List.mem_cons_self)
    have mem : n ∈ survivors N (primesUpTo N)[k] := by
      rw [shape, cons]
      exact List.mem_cons_of_mem _ List.mem_cons_self
    obtain ⟨⟨two', bound⟩, least⟩ := mem_survivors.mp mem
    -- `p` is the last prime, so it divides `n`, and there is another prime up to `2 * p`.
    have largest : ∀ r, r.Prime → r ≤ N → r ≤ (primesUpTo N)[k] := by
      intro r prime small
      obtain ⟨j, place, rfl⟩ := List.mem_iff_getElem.mp (mem_primesUpTo.mpr ⟨prime, small⟩)
      rcases Nat.lt_or_ge j k with less | ge
      · exact (List.pairwise_iff_getElem.mp (primesUpTo_sorted (N := N)) j k place inside less).le
      · have same : j = k := by omega
        subst same
        exact le_rfl
    have factor : n.minFac = (primesUpTo N)[k] :=
      le_antisymm (largest _ (Nat.minFac_prime (by omega)) ((Nat.minFac_le (by omega)).trans bound)) least
    obtain ⟨c, multiple⟩ := n.minFac_dvd
    rw [factor] at multiple
    have double : 2 ≤ c := by
      by_contra single
      have cases : c = 0 ∨ c = 1 := by omega
      rcases cases with rfl | rfl <;> omega
    have twice : 2 * (primesUpTo N)[k] ≤ n := by
      rw [multiple, Nat.mul_comm]
      exact Nat.mul_le_mul_left _ double
    obtain ⟨r, prime', order, close⟩ := Nat.exists_prime_lt_and_le_two_mul _ prime.pos.ne'
    have := largest r prime' (close.trans (twice.trans bound))
    omega

end Sieve
