import Mathlib

/-!
# A window of a stream in a ring

The elements of a stream `l` from the position `start` on, each in the cell that `place` has for its position.
-/

namespace Window

variable {α ι : Type} {place : ℕ → ι} {cells : ι → α} {l m : List α} {start later : ℕ} {x : α}

def Shows (place : ℕ → ι) (cells : ι → α) (l : List α) (start : ℕ) : Prop :=
  ∀ i x, start ≤ i → l[i]? = some x → cells (place i) = x

theorem Shows.from_later (shows : Shows place cells l start) (le : start ≤ later) : Shows place cells l later :=
  fun i x within there => shows i x (le.trans within) there

theorem Shows.of_prefix (shows : Shows place cells l start) (part : m <+: l) : Shows place cells m start := by
  obtain ⟨rest, rfl⟩ := part
  intro i x within there
  refine shows i x within ?_
  rw [List.getElem?_append_left (List.getElem?_eq_some_iff.mp there).1]
  exact there

/-- A new element overwrites none that is in the window. -/
theorem Shows.push [DecidableEq ι] (shows : Shows place cells l start)
    (apart : ∀ i, start ≤ i → i < l.length → place i ≠ place l.length) :
    Shows place (Function.update cells (place l.length) x) (l ++ [x]) start := by
  intro i y within there
  rcases Nat.lt_or_ge i l.length with less | last
  · rw [List.getElem?_append_left less] at there
    rw [Function.update_of_ne (apart i within less)]
    exact shows i y within there
  · have here : i = l.length := by
      have := (List.getElem?_eq_some_iff.mp there).1
      rw [List.length_append, List.length_singleton] at this
      omega
    subst here
    rw [List.getElem?_concat_length] at there
    rw [Function.update_self]
    exact Option.some.inj there

theorem Shows.next (shows : Shows place cells l start) (within : start < l.length) :
    l[start]? = some (cells (place start)) := by
  have there := List.getElem?_eq_getElem within
  rw [there, shows _ _ le_rfl there]

/-- One more element of a stream that has been read up to some point. -/
theorem prefix_concat (part : m <+: l) (next : l[m.length]? = some x) : m ++ [x] <+: l := by
  obtain ⟨rest, rfl⟩ := part
  rw [List.getElem?_append_right le_rfl, Nat.sub_self] at next
  cases rest with
  | nil => cases next
  | cons y rest =>
    cases next
    exact ⟨rest, by rw [List.append_assoc, List.singleton_append]⟩

/-- What is read off the ring, `n` elements from `start` on. -/
def window (place : ℕ → ι) (cells : ι → α) (start n : ℕ) : List α :=
  (List.range n).map fun i => cells (place (start + i))

theorem Shows.window_eq (shows : Shows place cells l start) (le : start ≤ l.length) :
    window place cells start (l.length - start) = l.drop start := by
  apply List.ext_getElem?
  intro k
  rw [window, List.getElem?_map, List.getElem?_drop]
  rcases Nat.lt_or_ge k (l.length - start) with less | past
  · rw [List.getElem?_range less, Option.map_some]
    have there := List.getElem?_eq_getElem (l := l) (i := start + k) (by omega)
    rw [there, shows _ _ (Nat.le_add_right _ _) there]
  · rw [List.getElem?_eq_none (by rw [List.length_range]; exact past), Option.map_none,
      List.getElem?_eq_none (by omega)]

end Window
