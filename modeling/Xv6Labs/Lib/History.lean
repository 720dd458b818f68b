import Mathlib

/-!
# What happens during a call

`During Enter Busy R seen s` follows a system from a state in `Enter`, where some call begins, by steps in
`R` and as long as the call is going on, which `Busy` says. `seen` holds the states since the beginning,
the last one first.
-/

namespace History

universe u

variable {σ : Type u}

inductive During (Enter Busy : σ → Prop) (R : σ → σ → Prop) : List σ → σ → Prop where
  | enter {s : σ} (h : Enter s) : During Enter Busy R [s] s
  | next {seen : List σ} {s s' : σ} (before : During Enter Busy R seen s) (busy : Busy s) (step : R s s') :
      During Enter Busy R (s' :: seen) s'

namespace During

variable {Enter Enter' Busy P : σ → Prop} {R R' : σ → σ → Prop} {seen : List σ} {s s' : σ}

theorem mono (run : During Enter Busy R seen s) (enter : ∀ a, Enter a → Enter' a) (rel : ∀ a b, R a b → R' a b) :
    During Enter' Busy R' seen s := by
  induction run with
  | enter h => exact .enter (enter _ h)
  | next _ busy step ih => exact ih.next busy (rel _ _ step)

theorem invariant (run : During Enter Busy R seen s) (enter : ∀ a, Enter a → P a)
    (step : ∀ a b, P a → R a b → P b) : P s := by
  induction run with
  | enter h => exact enter _ h
  | next _ _ h ih => exact step _ _ ih h

/-- The call goes on through further steps, all of them to states in `P`. -/
theorem extend (run : During Enter Busy R seen s) (steps : Relation.ReflTransGen R' s s')
    (busy : ∀ a b, Relation.ReflTransGen R' s a → R' a b → Busy a) (rel : ∀ a b, R' a b → R a b ∧ P b) :
    ∃ seen', During Enter Busy R seen' s' ∧ ∀ x ∈ seen', x ∈ seen ∨ P x := by
  induction steps with
  | refl => exact ⟨seen, run, fun x member => .inl member⟩
  | @tail b c before last ih =>
    obtain ⟨seen', run', ok⟩ := ih
    refine ⟨c :: seen', run'.next (busy b c before last) (rel _ _ last).1, fun x member => ?_⟩
    rcases List.mem_cons.mp member with rfl | member
    · exact .inr (rel _ _ last).2
    · exact ok x member

end During

end History
