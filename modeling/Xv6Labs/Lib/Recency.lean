import Mathlib

/-!
# Lists ordered by recency

Each element has a stamp, 0 if it was never stamped, and some elements are idle. The idle ones of a list are sorted
if those with later stamps come first. Only a new stamp moves an element, to the front, so the last idle element is
the oldest one.
-/

namespace Recency

universe u

variable {α : Type u}

def Older (stamp : α → ℕ) (i j : α) : Prop := stamp i < stamp j ∨ stamp i = 0 ∧ stamp j = 0

def Sorted (stamp : α → ℕ) (idle : α → Bool) (l : List α) : Prop := (l.filter idle).Pairwise fun i j => Older stamp j i

variable {stamp stamp' : α → ℕ} {idle idle' : α → Bool} {l l' : List α} {i j : α}

theorem sorted_fresh (fresh : ∀ i, stamp i = 0) : Sorted stamp idle l :=
  List.pairwise_of_forall fun i j => .inr ⟨fresh j, fresh i⟩

/-- Elements that are not idle any more, or not on the list, leave the others in order. -/
theorem Sorted.fewer (sorted : Sorted stamp idle l) (sub : l'.Sublist l) (less : ∀ i ∈ l', idle' i → idle i)
    (same : ∀ i ∈ l', idle' i → stamp' i = stamp i) : Sorted stamp' idle' l' := by
  have shrink : l'.filter idle' = (l'.filter idle).filter idle' := by
    rw [List.filter_filter]
    apply List.filter_congr
    intro i mem
    cases free : idle' i with
    | false => rfl
    | true => rw [less i mem free]; rfl
  have fewer : (l'.filter idle').Sublist (l.filter idle) := shrink ▸ List.filter_sublist.trans (sub.filter idle)
  refine (sorted.sublist fewer).imp_of_mem fun {i j} left right older => ?_
  obtain ⟨mem, free⟩ := List.mem_filter.mp left
  obtain ⟨mem', free'⟩ := List.mem_filter.mp right
  unfold Older
  rw [same i mem free, same j mem' free']
  exact older

/-- A busy element may come in at the front. -/
theorem Sorted.cons_busy (sorted : Sorted stamp idle l) (busy : idle i = false) : Sorted stamp idle (i :: l) := by
  unfold Sorted
  rwa [List.filter_cons_of_neg (by rw [busy]; exact Bool.false_ne_true)]

theorem Sorted.cons_newest (sorted : Sorted stamp idle l) (newest : ∀ j ∈ l, stamp j < stamp i) :
    Sorted stamp idle (i :: l) := by
  unfold Sorted
  by_cases free : idle i = true
  · rw [List.filter_cons_of_pos free]
    exact List.pairwise_cons.mpr ⟨fun j mem => .inl (newest j (List.mem_of_mem_filter mem)), sorted⟩
  · rwa [List.filter_cons_of_neg free]

/-- A search from the end finds the oldest idle element. -/
theorem Sorted.oldest (sorted : Sorted stamp idle l) (found : l.reverse.find? idle = some i) (mem : j ∈ l)
    (free : idle j = true) (other : j ≠ i) : Older stamp i j := by
  obtain ⟨-, after, before, split, none⟩ := List.find?_eq_some_iff_append.mp found
  have order : l = before.reverse ++ i :: after.reverse := by
    rw [← List.reverse_reverse l, split, List.reverse_append, List.reverse_cons, List.append_assoc,
      List.singleton_append]
  subst order
  have inside : j ∈ before.reverse := by
    rcases List.mem_append.mp mem with mem | mem
    · exact mem
    · rcases List.mem_cons.mp mem with same | mem
      · exact absurd same other
      · have busy := none j (List.mem_reverse.mp mem)
        rw [free] at busy
        cases busy
  unfold Sorted at sorted
  rw [List.filter_append] at sorted
  refine (List.pairwise_append.mp sorted).2.2 j (List.mem_filter.mpr ⟨inside, free⟩) i ?_
  exact List.mem_filter.mpr ⟨List.mem_cons_self, List.find?_some found⟩

end Recency
