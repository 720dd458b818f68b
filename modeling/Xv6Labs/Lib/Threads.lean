import Mathlib

/-!
# Threads over shared memory

`Prog` is the code of a thread: atomic actions in sequence, each chosen by what the ones before returned. An
action that has no result is blocked, or has stopped its thread for good. `run` is a thread on its own, and
`Step` any number of threads that take turns; an idle thread starts whatever code the menu offers it.

`Rules` are what threads owe each other: an invariant of the memory, and for each thread the part of it that
nobody else touches. `wp t p post s` says that code `p` of thread `t`, started in `s`, keeps the rules at each of
its actions and ends in `post`, whatever the others do in between.
-/

namespace Threads

inductive Prog (Act : Type) (Res : Act → Type) (α : Type) where
  | ret (a : α)
  | act (a : Act) (k : Res a → Prog Act Res α)

variable {Act : Type} {Res : Act → Type} {α β σ T : Type}

namespace Prog

def bind : Prog Act Res α → (α → Prog Act Res β) → Prog Act Res β
  | ret a, f => f a
  | act a k, f => act a fun r => (k r).bind f

instance : Monad (Prog Act Res) where
  pure := ret
  bind := bind

def lift (a : Act) : Prog Act Res (Res a) := act a ret

def run (exec : (a : Act) → σ → Option (Res a × σ)) : Prog Act Res α → σ → Option (α × σ)
  | ret a, s => some (a, s)
  | act a k, s =>
    match exec a s with
    | none => none
    | some (r, s') => (k r).run exec s'

/-- The states that a thread on its own goes through. -/
inductive Visits (exec : (a : Act) → σ → Option (Res a × σ)) : Prog Act Res α → σ → σ → Prop where
  | here (p : Prog Act Res α) (s : σ) : Visits exec p s s
  | later {a : Act} {k : Res a → Prog Act Res α} {s s' x : σ} {r : Res a} (h : exec a s = some (r, s'))
      (rest : Visits exec (k r) s' x) : Visits exec (act a k) s x

/-- The state after `n` actions. -/
def visit (exec : (a : Act) → σ → Option (Res a × σ)) : Nat → Prog Act Res α → σ → Option σ
  | 0, _, s => some s
  | _ + 1, ret _, _ => none
  | n + 1, act a k, s =>
    match exec a s with
    | none => none
    | some (r, s') => (k r).visit exec n s'

/-- The code and the state after `n` actions. -/
def advance (exec : (a : Act) → σ → Option (Res a × σ)) : Nat → Prog Act Res α → σ → Option (Prog Act Res α × σ)
  | 0, p, s => some (p, s)
  | _ + 1, ret _, _ => none
  | n + 1, act a k, s =>
    match exec a s with
    | none => none
    | some (r, s') => (k r).advance exec n s'

theorem visits_of_visit {exec : (a : Act) → σ → Option (Res a × σ)} {n : Nat} {p : Prog Act Res α} {s x : σ}
    (h : p.visit exec n s = some x) : Visits exec p s x := by
  induction n generalizing p s with
  | zero =>
    cases h
    exact .here p x
  | succ n ih =>
    cases p with
    | ret a => cases h
    | act a k =>
      unfold visit at h
      cases step : exec a s with
      | none =>
        rw [step] at h
        cases h
      | some result =>
        rw [step] at h
        exact .later step (ih h)

theorem run_bind (exec : (a : Act) → σ → Option (Res a × σ)) (p : Prog Act Res α) (f : α → Prog Act Res β)
    (s : σ) : (p >>= f).run exec s = (p.run exec s).bind fun x => (f x.1).run exec x.2 := by
  change (p.bind f).run exec s = _
  induction p generalizing s with
  | ret a => rfl
  | act a k ih =>
    simp only [bind, run]
    cases exec a s with
    | none => rfl
    | some x => exact ih x.1 x.2

theorem run_lift {exec : (a : Act) → σ → Option (Res a × σ)} (a : Act) (s : σ) :
    (lift a).run exec s = exec a s := by
  simp only [lift, run]
  cases exec a s <;> rfl

theorem run_bind_of {exec : (a : Act) → σ → Option (Res a × σ)} {p : Prog Act Res α} {f : α → Prog Act Res β}
    {s s' : σ} {a : α} (h : p.run exec s = some (a, s')) : (p >>= f).run exec s = (f a).run exec s' := by
  rw [run_bind, h]
  rfl

theorem run_lift_of {exec : (a : Act) → σ → Option (Res a × σ)} {a : Act} {f : Res a → Prog Act Res β}
    {s s' : σ} {r : Res a} (h : exec a s = some (r, s')) : (lift a >>= f).run exec s = (f r).run exec s' := by
  rw [run_bind, run_lift, h]
  rfl

end Prog

open Prog

/-! ### Rules -/

structure Rules (T σ : Type) where
  inv : σ → Prop
  frame : T → σ → σ → Prop
  refl : ∀ t s, frame t s s
  trans : ∀ t {s s' s''}, frame t s s' → frame t s' s'' → frame t s s''

variable (R : Rules T σ) (exec : T → (a : Act) → σ → Option (Res a × σ))

def wp (t : T) : Prog Act Res α → (α → σ → Prop) → σ → Prop
  | .ret a, post, s => ∀ s', R.frame t s s' → R.inv s' → post a s'
  | .act a k, post, s => ∀ s', R.frame t s s' → R.inv s' → ∀ r s'', exec t a s' = some (r, s'') →
      R.inv s'' ∧ (∀ u, u ≠ t → R.frame u s' s'') ∧ wp t (k r) post s''

variable {R exec} {t : T} {p : Prog Act Res α} {post post' : α → σ → Prop} {s s' : σ}

/-- What others do does not matter. -/
theorem wp_frame (h : wp R exec t p post s) (frame : R.frame t s s') : wp R exec t p post s' := by
  cases p with
  | ret a =>
    intro x next inv
    exact h x (R.trans t frame next) inv
  | act a k =>
    intro x next inv
    exact h x (R.trans t frame next) inv

theorem wp_intro (h : ∀ s', R.frame t s s' → R.inv s' → wp R exec t p post s') : wp R exec t p post s := by
  cases p with
  | ret a =>
    intro x frame inv
    exact h x frame inv x (R.refl t x) inv
  | act a k =>
    intro x frame inv
    exact h x frame inv x (R.refl t x) inv

theorem wp_mono (h : wp R exec t p post s) (weaker : ∀ a s', R.inv s' → post a s' → post' a s') :
    wp R exec t p post' s := by
  induction p generalizing s with
  | ret a =>
    intro x frame inv
    exact weaker a x inv (h x frame inv)
  | act a k ih =>
    intro x frame inv r y step
    obtain ⟨inv', others, rest⟩ := h x frame inv r y step
    exact ⟨inv', others, ih r rest⟩

theorem wp_bind {f : α → Prog Act Res β} {after : β → σ → Prop}
    (h : wp R exec t p (fun a => wp R exec t (f a) after) s) : wp R exec t (p >>= f) after s := by
  change wp R exec t (p.bind f) after s
  induction p generalizing s with
  | ret a => exact wp_intro h
  | act a k ih =>
    intro x frame inv r y step
    obtain ⟨inv', others, rest⟩ := h x frame inv r y step
    exact ⟨inv', others, ih r rest⟩

theorem wp_ret {a : α} (h : ∀ s', R.frame t s s' → R.inv s' → post a s') :
    wp R exec t (pure a) post s := h

theorem wp_lift {a : Act} {post : Res a → σ → Prop}
    (h : ∀ s', R.frame t s s' → R.inv s' → ∀ r s'', exec t a s' = some (r, s'') →
      R.inv s'' ∧ (∀ u, u ≠ t → R.frame u s' s'') ∧ ∀ x, R.frame t s'' x → R.inv x → post r x) :
    wp R exec t (lift a) post s := h

/-! ### Threads that take turns -/

structure Conf (T Act : Type) (Res : Act → Type) (σ : Type) where
  shared : σ
  code : T → Prog Act Res Unit

variable [DecidableEq T] (exec) (menu : T → σ → Prog Act Res Unit → Prop)

inductive Step : Conf T Act Res σ → Conf T Act Res σ → Prop where
  | call {c : Conf T Act Res σ} (t : T) (p : Prog Act Res Unit) (idle : c.code t = .ret ())
      (offered : menu t c.shared p) : Step c { c with code := Function.update c.code t p }
  | act {c : Conf T Act Res σ} (t : T) {a : Act} {k : Res a → Prog Act Res Unit} {r : Res a} {s : σ}
      (point : c.code t = .act a k) (h : exec t a c.shared = some (r, s)) :
      Step c ⟨s, Function.update c.code t (k r)⟩

variable {exec menu} {c c' : Conf T Act Res σ} {idle : T → σ → Prop}

theorem Step.alone {a : Act} {k : Res a → Prog Act Res Unit} {r : Res a} {code : T → Prog Act Res Unit}
    (h : exec t a s = some (r, s')) :
    Step exec menu ⟨s, Function.update code t (.act a k)⟩ ⟨s', Function.update code t (k r)⟩ := by
  have step : Step exec menu ⟨s, Function.update code t (.act a k)⟩ _ := .act t (Function.update_self _ _ _) h
  rwa [Function.update_idem] at step

/-- What a thread does on its own it may also do while the others wait. -/
theorem Step.visits (menu : T → σ → Prog Act Res Unit → Prop) (code : T → Prog Act Res Unit) {p : Prog Act Res Unit}
    {x : σ} (h : Visits (exec t) p s x) :
    ∃ q, Relation.ReflTransGen (Step exec menu) ⟨s, Function.update code t p⟩ ⟨x, Function.update code t q⟩ := by
  induction h with
  | here p s => exact ⟨p, .refl⟩
  | later step _ ih =>
    obtain ⟨q, rest⟩ := ih
    exact ⟨q, .head (.alone step) rest⟩

theorem Step.run (menu : T → σ → Prog Act Res Unit → Prop) (code : T → Prog Act Res Unit) {p : Prog Act Res Unit}
    (h : p.run (exec t) s = some ((), s')) :
    Relation.ReflTransGen (Step exec menu) ⟨s, Function.update code t p⟩ ⟨s', Function.update code t (.ret ())⟩ := by
  induction p generalizing s with
  | ret a =>
    cases h
    exact .refl
  | act a k ih =>
    unfold Prog.run at h
    cases step : exec t a s with
    | none =>
      rw [step] at h
      cases h
    | some result =>
      rw [step] at h
      exact .head (.alone step) (ih _ h)

theorem Step.advance (menu : T → σ → Prog Act Res Unit → Prop) (code : T → Prog Act Res Unit) {n : Nat}
    {p q : Prog Act Res Unit} (h : p.advance (exec t) n s = some (q, s')) :
    Relation.ReflTransGen (Step exec menu) ⟨s, Function.update code t p⟩ ⟨s', Function.update code t q⟩ := by
  induction n generalizing p s with
  | zero =>
    cases h
    exact .refl
  | succ n ih =>
    cases p with
    | ret a => cases h
    | act a k =>
      unfold Prog.advance at h
      cases step : exec t a s with
      | none =>
        rw [step] at h
        cases h
      | some result =>
        rw [step] at h
        exact .head (.alone step) (ih h)

/-- The same for a run all of whose states satisfy `P`. -/
theorem Step.along (menu : T → σ → Prog Act Res Unit → Prop) (code : T → Prog Act Res Unit) {p : Prog Act Res Unit}
    {P : σ → Prop} (h : p.run (exec t) s = some ((), s')) (all : ∀ x, Visits (exec t) p s x → P x) :
    Relation.ReflTransGen (fun c c' => Step exec menu c c' ∧ P c'.shared) ⟨s, Function.update code t p⟩
      ⟨s', Function.update code t (.ret ())⟩ := by
  induction p generalizing s with
  | ret a =>
    cases h
    exact .refl
  | act a k ih =>
    unfold Prog.run at h
    cases step : exec t a s with
    | none =>
      rw [step] at h
      cases h
    | some result =>
      rw [step] at h
      have next := all result.2 (.later step (.here _ _))
      exact .head ⟨.alone step, next⟩ (ih _ h fun x visits => all x (.later step visits))

def Conf.Safe (R : Rules T σ) (exec : T → (a : Act) → σ → Option (Res a × σ)) (idle : T → σ → Prop)
    (c : Conf T Act Res σ) : Prop :=
  R.inv c.shared ∧ ∀ t, wp R exec t (c.code t) (fun _ => idle t) c.shared

/-- If all code on the menu keeps the rules, so does every run. -/
theorem Conf.Safe.step (safe : c.Safe R exec idle)
    (kept : ∀ t s p, R.inv s → idle t s → menu t s p → wp R exec t p (fun _ => idle t) s)
    (h : Step exec menu c c') : c'.Safe R exec idle := by
  obtain ⟨inv, threads⟩ := safe
  cases h with
  | call t p ready offered =>
    refine ⟨inv, fun u => ?_⟩
    by_cases same : u = t
    · subst same
      have before := threads u
      rw [ready] at before
      simp only [Function.update_self]
      exact kept u c.shared p inv (before _ (R.refl u _) inv) offered
    · simp only [Function.update_of_ne same]
      exact threads u
  | act t point h =>
    have before := threads t
    rw [point] at before
    obtain ⟨inv', others, rest⟩ := before _ (R.refl t _) inv _ _ h
    refine ⟨inv', fun u => ?_⟩
    by_cases same : u = t
    · subst same
      simp only [Function.update_self]
      exact rest
    · simp only [Function.update_of_ne same]
      exact wp_frame (threads u) (others u same)

theorem Conf.Safe.run (safe : c.Safe R exec idle)
    (kept : ∀ t s p, R.inv s → idle t s → menu t s p → wp R exec t p (fun _ => idle t) s)
    (h : Relation.ReflTransGen (Step exec menu) c c') : c'.Safe R exec idle := by
  induction h with
  | refl => exact safe
  | tail _ step ih => exact ih.step kept step

/-! ### A thread on its own -/

/-- Rules for one thread: nobody else changes anything. -/
def solo (inv : σ → Prop) : Rules Unit σ := ⟨inv, fun _ => Eq, fun _ _ => rfl, fun _ => Eq.trans⟩

variable {alone : (a : Act) → σ → Option (Res a × σ)} {inv : σ → Prop} {x : σ} {a : α}

theorem visits_inv (h : wp (solo inv) (fun _ => alone) () p post s) (start : inv s)
    (visits : Visits alone p s x) : inv x := by
  induction visits with
  | here => exact start
  | later step _ ih =>
    obtain ⟨inv', -, rest⟩ := h _ rfl start _ _ step
    exact ih rest inv'

theorem run_post (h : wp (solo inv) (fun _ => alone) () p post s) (start : inv s)
    (ran : p.run alone s = some (a, x)) : inv x ∧ post a x := by
  induction p generalizing s with
  | ret b =>
    cases ran
    exact ⟨start, h _ rfl start⟩
  | act b k ih =>
    unfold Prog.run at ran
    cases step : alone b s with
    | none =>
      rw [step] at ran
      cases ran
    | some result =>
      rw [step] at ran
      obtain ⟨inv', -, rest⟩ := h _ rfl start _ _ step
      exact ih _ rest inv' ran

end Threads
