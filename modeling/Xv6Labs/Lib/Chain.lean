import Mathlib

/-!
# Singly linked lists that end in a null pointer

`Chain next h l` says that following `next` from `h` goes through the nodes of `l`, in this order, and
then reaches the null pointer 0.
-/

namespace LinkedChain

universe u

variable {ν : Type u} [Zero ν]

def Chain (next : ν → ν) (h : ν) : List ν → Prop
  | [] => h = 0
  | p :: l => h = p ∧ p ≠ 0 ∧ Chain next (next p) l

variable {next next' : ν → ν} {h : ν} {l : List ν}

theorem Chain.congr (chain : Chain next h l) (same : ∀ p ∈ l, next' p = next p) : Chain next' h l := by
  induction l generalizing h with
  | nil => exact chain
  | cons p l ih =>
    obtain ⟨rfl, nonzero, rest⟩ := chain
    refine ⟨rfl, nonzero, ?_⟩
    rw [same h List.mem_cons_self]
    exact ih rest fun q member => same q (List.mem_cons_of_mem _ member)

theorem Chain.cons (chain : Chain next (next h) l) (nonzero : h ≠ 0) : Chain next h (h :: l) :=
  ⟨rfl, nonzero, chain⟩

theorem Chain.head (chain : Chain next h l) (nonzero : h ≠ 0) :
    ∃ rest, l = h :: rest ∧ Chain next (next h) rest := by
  cases l with
  | nil => exact (nonzero chain).elim
  | cons p l =>
    obtain ⟨rfl, -, rest⟩ := chain
    exact ⟨l, rfl, rest⟩

theorem Chain.unique {l' : List ν} (chain : Chain next h l) (chain' : Chain next h l') : l = l' := by
  induction l generalizing h l' with
  | nil =>
    cases l' with
    | nil => rfl
    | cons p l' => exact absurd chain (chain'.1 ▸ chain'.2.1)
  | cons p l ih =>
    obtain ⟨rfl, nonzero, chain⟩ := chain
    obtain ⟨rest, rfl, tail⟩ := chain'.head nonzero
    rw [ih chain tail]

end LinkedChain
