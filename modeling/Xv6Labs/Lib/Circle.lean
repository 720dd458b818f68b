import Mathlib

/-!
# Circular lists

`Path next l` says that `next` leads through `l`, and `Circle next r l` that it leads from `r` through `l` and back to
`r`. A circle may be walked from any of its nodes, and a node may be put in or taken out by writing one link.
-/

namespace Circular

universe u

variable {ν : Type u} {next next' : ν → ν} {r p b y f : ν} {l t u : List ν}

def Path (next : ν → ν) (l : List ν) : Prop := l.IsChain fun a b => next a = b

def Circle (next : ν → ν) (r : ν) (l : List ν) : Prop := Path next (r :: l ++ [r])

namespace Path

theorem split : Path next (l ++ p :: t) ↔ Path next (l ++ [p]) ∧ Path next (p :: t) := List.isChain_split

theorem cons_cons : Path next (p :: b :: t) ↔ next p = b ∧ Path next (b :: t) := List.isChain_cons_cons

/-- The link of the last node is not read. -/
theorem congr (path : Path next (l ++ [p])) (same : ∀ x ∈ l, next' x = next x) : Path next' (l ++ [p]) := by
  induction l with
  | nil => exact .singleton p
  | cons a l ih =>
    cases l with
    | nil =>
      obtain ⟨link, -⟩ := cons_cons.mp path
      exact cons_cons.mpr ⟨by rw [same a (by simp), link], .singleton p⟩
    | cons c l =>
      obtain ⟨link, rest⟩ := cons_cons.mp path
      refine cons_cons.mpr ⟨by rw [same a (by simp), link], ih rest fun x mem => ?_⟩
      exact same x (List.mem_cons_of_mem _ mem)

theorem tail (path : Path next (p :: t)) : Path next t := List.IsChain.tail path

/-- The first link may be another one that leads to the same node. -/
theorem relink (path : Path next (p :: t ++ [r])) (link : next' b = next p) (same : ∀ x ∈ t, next' x = next x) :
    Path next' (b :: t ++ [r]) := by
  cases t with
  | nil =>
    obtain ⟨old, -⟩ := cons_cons.mp path
    exact cons_cons.mpr ⟨link.trans old, .singleton r⟩
  | cons c t =>
    obtain ⟨old, rest⟩ := cons_cons.mp path
    exact cons_cons.mpr ⟨link.trans old, congr rest same⟩

end Path

namespace Circle

/-- The circle from another node on. -/
theorem rotate (circle : Circle next r u) (here : r :: u = l ++ f :: t) : Path next (f :: t ++ l ++ [f]) := by
  cases l with
  | nil =>
    cases here
    simpa [Circle] using circle
  | cons a l =>
    obtain ⟨rfl, rfl⟩ := List.cons_eq_cons.mp here
    have whole : Path next ((r :: l) ++ f :: (t ++ [r])) := by simpa [Circle] using circle
    obtain ⟨before, after⟩ := Path.split.mp whole
    have turned : Path next ((f :: t) ++ r :: (l ++ [f])) := Path.split.mpr ⟨by simpa using after, before⟩
    simpa using turned

/-- `p` leads to `b`, and `b` leads on. -/
theorem insert (circle : Circle next r u) (here : r :: u = l ++ p :: t) (first : next' p = b)
    (second : next' b = next p) (before : ∀ x ∈ l, next' x = next x) (after : ∀ x ∈ t, next' x = next x) :
    Path next' (l ++ p :: b :: t ++ [r]) := by
  have whole : Path next (l ++ p :: (t ++ [r])) := by
    rw [Circle, here] at circle
    simpa using circle
  obtain ⟨head, rest⟩ := Path.split.mp whole
  have tail : Path next' (b :: t ++ [r]) := Path.relink rest second after
  have all : Path next' (l ++ p :: (b :: t ++ [r])) :=
    Path.split.mpr ⟨head.congr before, Path.cons_cons.mpr ⟨first, tail⟩⟩
  simpa using all

/-- `p` leads past `y`. -/
theorem remove (circle : Circle next r u) (here : r :: u = l ++ p :: y :: t) (past : next' p = next y)
    (before : ∀ x ∈ l, next' x = next x) (after : ∀ x ∈ t, next' x = next x) : Path next' (l ++ p :: t ++ [r]) := by
  have whole : Path next (l ++ p :: (y :: t ++ [r])) := by
    rw [Circle, here] at circle
    simpa using circle
  obtain ⟨head, rest⟩ := Path.split.mp whole
  obtain ⟨-, rest⟩ := Path.cons_cons.mp rest
  have tail : Path next' (p :: t ++ [r]) := Path.relink rest past after
  have all : Path next' (l ++ p :: (t ++ [r])) := Path.split.mpr ⟨head.congr before, tail⟩
  simpa using all

end Circle

end Circular
