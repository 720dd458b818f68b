import Xv6Labs.Lib.Threads

/-!
# One call among other threads

`Among env exec p s es a s'` is a run of the code `p` from `s` to `s'` in which other threads take the state along
`env` before each action. `es` are the actions of `p`, with what they returned. `Sees` is what all these runs show.
-/

namespace Threads

open Prog

variable {Act : Type} {Res : Act → Type} {α β σ : Type}

abbrev Event (Act : Type) (Res : Act → Type) : Type := (a : Act) × Res a

inductive Among (env : σ → σ → Prop) (exec : (a : Act) → σ → Option (Res a × σ)) :
    Prog Act Res α → σ → List (Event Act Res) → α → σ → Prop where
  | ret (a : α) (s : σ) : Among env exec (.ret a) s [] a s
  | act {a : Act} {k : Res a → Prog Act Res α} {s s₁ s₂ s' : σ} {r : Res a} {es : List (Event Act Res)} {x : α}
      (others : env s s₁)
      (ran : exec a s₁ = some (r, s₂)) (rest : Among env exec (k r) s₂ es x s') :
        Among env exec (.act a k) s (⟨a, r⟩ :: es) x s'

variable {env : σ → σ → Prop} {exec : (a : Act) → σ → Option (Res a × σ)} {p : Prog Act Res α}
  {f : α → Prog Act Res β} {s s' : σ} {es : List (Event Act Res)} {P : Act → Prop} {J : σ → Prop}

theorem among_bind {b : β} : Among env exec (p >>= f) s es b s' ↔
    ∃ es₁ es₂ a m, es = es₁ ++ es₂ ∧ Among env exec p s es₁ a m ∧ Among env exec (f a) m es₂ b s' := by
  change Among env exec (p.bind f) s es b s' ↔ _
  constructor
  · intro run
    induction p generalizing s es with
    | ret a => exact ⟨[], es, a, s, rfl, .ret a s, run⟩
    | act a k ih =>
      rcases run with _ | ⟨others, ran, rest⟩
      obtain ⟨es₁, es₂, x, m, rfl, first, second⟩ := ih _ rest
      exact ⟨_ :: es₁, es₂, x, m, rfl, .act others ran first, second⟩
  · rintro ⟨es₁, es₂, a, m, rfl, first, second⟩
    induction first with
    | ret a s => exact second
    | act others ran rest ih => exact .act others ran (ih second)

/-- What every action and the other threads keep. -/
theorem Among.invariant {x : α} (run : Among env exec p s es x s') (others : ∀ s s', env s s' → J s → J s')
    (step : ∀ a s r s', exec a s = some (r, s') → J s → J s') (start : J s) : J s' := by
  induction run with
  | ret a s => exact start
  | act env ran rest ih => exact ih (step _ _ _ _ ran (others _ _ env start))

/-- All actions that the code can take. -/
def Prog.Only (P : Act → Prop) : Prog Act Res α → Prop
  | .ret _ => True
  | .act a k => P a ∧ ∀ r, (k r).Only P

theorem Prog.Only.bind (first : p.Only P) (next : ∀ a, (f a).Only P) : (p >>= f).Only P := by
  change (p.bind f).Only P
  induction p with
  | ret a => exact next a
  | act a k ih => exact ⟨first.1, fun r => ih r (first.2 r)⟩

theorem Prog.Only.ite {c : Prop} [Decidable c] {q : Prog Act Res α} (yes : p.Only P) (no : q.Only P) :
    (if c then p else q).Only P := by
  split
  · exact yes
  · exact no

theorem Among.only {x : α} (run : Among env exec p s es x s') (only : p.Only P) : ∀ e ∈ es, P e.1 := by
  induction run with
  | ret a s => exact fun e mem => nomatch mem
  | act env ran rest ih =>
    intro e mem
    rcases List.mem_cons.mp mem with rfl | mem
    · exact only.1
    · exact ih (only.2 _) e mem

/-! ### What the runs show -/

def Sees (env : σ → σ → Prop) (exec : (a : Act) → σ → Option (Res a × σ)) (p : Prog Act Res α) (s : σ)
    (post : List (Event Act Res) → α → σ → Prop) : Prop :=
  ∀ es a s', Among env exec p s es a s' → post es a s'

variable {post post' : List (Event Act Res) → α → σ → Prop} {after : List (Event Act Res) → β → σ → Prop}

theorem Sees.pure {a : α} (h : post [] a s) : Sees env exec (Pure.pure a) s post := by
  intro es x s' run
  cases run
  exact h

theorem Sees.bind (h : Sees env exec p s fun es a m => Sees env exec (f a) m fun es' b s' => after (es ++ es') b s') :
    Sees env exec (p >>= f) s after := by
  intro es b s' run
  obtain ⟨es₁, es₂, a, m, rfl, first, second⟩ := among_bind.mp run
  exact h es₁ a m first es₂ b s' second

theorem Sees.last {Q : β → σ → Prop} (h : ∀ a m, Sees env exec (f a) m fun _ b s' => Q b s') :
    Sees env exec (p >>= f) s fun _ b s' => Q b s' := .bind fun _ a m _ => h a m

theorem Sees.mono (h : Sees env exec p s post) (weaker : ∀ es a s', post es a s' → post' es a s') :
    Sees env exec p s post' :=
  fun es a s' run => weaker es a s' (h es a s' run)

theorem Sees.and (h : Sees env exec p s post) (h' : Sees env exec p s post') :
    Sees env exec p s fun es a s' => post es a s' ∧ post' es a s' := fun es a s' run => ⟨h es a s' run, h' es a s' run⟩

theorem Sees.only (only : p.Only P) : Sees env exec p s fun es _ _ => ∀ e ∈ es, P e.1 := fun _ _ _ run => run.only only

theorem Sees.lift {a : Act} {post : List (Event Act Res) → Res a → σ → Prop}
    (h : ∀ s₁ r s', env s s₁ → exec a s₁ = some (r, s') → post [⟨a, r⟩] r s') : Sees env exec (lift a) s post := by
  intro es x s' run
  rcases run with _ | ⟨others, ran, rest⟩
  cases rest
  exact h _ _ _ others ran

/-! ### A run without others -/

/-- The run of a thread on its own, with its events. -/
def Prog.trace (exec : (a : Act) → σ → Option (Res a × σ)) : Prog Act Res α → σ → Option (List (Event Act Res) × α × σ)
  | .ret a, s => some ([], a, s)
  | .act a k, s =>
    match exec a s with
    | none => none
    | some (r, s') => ((k r).trace exec s').map fun x => (⟨a, r⟩ :: x.1, x.2)

theorem among_of_trace {x : α} (refl : ∀ s, env s s) (h : p.trace exec s = some (es, x, s')) :
    Among env exec p s es x s' := by
  induction p generalizing s es with
  | ret a =>
    cases h
    exact .ret _ _
  | act a k ih =>
    unfold Prog.trace at h
    cases ran : exec a s with
    | none =>
      rw [ran] at h
      cases h
    | some result =>
      rw [ran] at h
      obtain ⟨⟨es', x', s''⟩, rest, same⟩ := Option.map_eq_some_iff.mp h
      cases same
      exact .act (refl s) ran (ih _ rest)

theorem exists_of_trace {P : List (Event Act Res) → α → σ → Bool} (refl : ∀ s, env s s)
    (h : ((p.trace exec s).any fun x => P x.1 x.2.1 x.2.2) = true) :
    ∃ es x s', Among env exec p s es x s' ∧ P es x s' = true := by
  obtain ⟨⟨es, x, s'⟩, ran, holds⟩ := (Option.any_eq_true _ _).mp h
  exact ⟨es, x, s', among_of_trace refl ran, holds⟩

end Threads
