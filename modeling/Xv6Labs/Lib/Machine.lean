import Xv6Labs.Lib.Terms

/-!
# Threads that start each other and are interrupted

In a `Machine` an idle thread makes any call it is offered, an action may give another thread new code, and a
thread in the middle of its code may be interrupted: the handler runs, and then the rest. `next` is what one move
does; a run is any sequence of moves.
-/

namespace Threads

open Prog

variable {Act : Type} {Res : Act → Type} {σ T Call : Type}

structure Machine (T Act : Type) (Res : Act → Type) (σ Call : Type) where
  exec : T → (a : Act) → σ → Option (Res a × σ)
  starts : Act → Option (T × Prog Act Res Unit)
  body : Call → Prog Act Res Unit
  offers : T → σ → Call → Bool
  interrupts : T → σ → Call → Bool

inductive Move (T Call : Type) where
  | call (t : T) (k : Call)
  | trap (t : T) (k : Call)
  | act (t : T)

namespace Machine

variable [DecidableEq T] (M : Machine T Act Res σ Call)

def install (a : Act) (code : T → Prog Act Res Unit) : T → Prog Act Res Unit :=
  match M.starts a with
  | none => code
  | some (u, p) => Function.update code u p

def next : Move T Call → Conf T Act Res σ → Option (Conf T Act Res σ)
  | .call t k, c =>
    match c.code t with
    | .act _ _ => none
    | .ret () =>
      if M.offers t c.shared k then some { c with code := Function.update c.code t (M.body k) } else none
  | .trap t k, c =>
    if M.interrupts t c.shared k then
      some { c with code := Function.update c.code t (M.body k >>= fun _ => c.code t) }
    else none
  | .act t, c =>
    match c.code t with
    | .ret _ => none
    | .act a k =>
      match M.exec t a c.shared with
      | none => none
      | some (r, s) => some ⟨s, M.install a (Function.update c.code t (k r))⟩

def play : List (Move T Call) → Conf T Act Res σ → Option (Conf T Act Res σ)
  | [], c => some c
  | m :: moves, c =>
    match M.next m c with
    | none => none
    | some c' => play moves c'

/-- Runs all of whose moves satisfy `P`. -/
def Along (P : Move T Call → Conf T Act Res σ → Prop) : Conf T Act Res σ → Conf T Act Res σ → Prop :=
  Relation.ReflTransGen fun c c' => ∃ m, P m c ∧ M.next m c = some c'

def Runs : Conf T Act Res σ → Conf T Act Res σ → Prop :=
  Relation.ReflTransGen fun c c' => ∃ m, M.next m c = some c'

variable {M} {c c' : Conf T Act Res σ}

theorem runs_of_play {moves : List (Move T Call)} (h : M.play moves c = some c') : M.Runs c c' := by
  induction moves generalizing c with
  | nil =>
    cases h
    exact .refl
  | cons m moves ih =>
    unfold play at h
    cases step : M.next m c with
    | none =>
      rw [step] at h
      cases h
    | some x =>
      rw [step] at h
      exact .head ⟨m, step⟩ (ih h)

theorem exists_of_play {P : Conf T Act Res σ → Bool} {moves : List (Move T Call)}
    (h : (M.play moves c).any P = true) : ∃ c', M.Runs c c' ∧ P c' = true := by
  obtain ⟨c', played, found⟩ := (Option.any_eq_true _ _).mp h
  exact ⟨c', runs_of_play played, found⟩

theorem next_cases {m : Move T Call} (h : M.next m c = some c') :
    (∃ t k, m = .call t k ∧ c.code t = .ret () ∧ M.offers t c.shared k = true ∧
      c' = { c with code := Function.update c.code t (M.body k) }) ∨
    (∃ t k, m = .trap t k ∧ M.interrupts t c.shared k = true ∧
      c' = { c with code := Function.update c.code t (M.body k >>= fun _ => c.code t) }) ∨
    ∃ t a k r s, m = .act t ∧ c.code t = .act a k ∧ M.exec t a c.shared = some (r, s) ∧
      c' = ⟨s, M.install a (Function.update c.code t (k r))⟩ := by
  cases m with
  | call t k =>
    left
    cases point : c.code t with
    | act a k =>
      simp only [next, point] at h
      cases h
    | ret u =>
      simp only [next, point] at h
      split at h
      case isFalse => cases h
      case isTrue offered =>
        cases h
        exact ⟨t, k, rfl, point, offered, rfl⟩
  | trap t k =>
    right; left
    simp only [next] at h
    split at h
    case isFalse => cases h
    case isTrue allowed =>
      cases h
      exact ⟨t, k, rfl, allowed, rfl⟩
  | act t =>
    right; right
    cases point : c.code t with
    | ret u =>
      simp only [next, point] at h
      cases h
    | act a k =>
      simp only [next, point] at h
      cases step : M.exec t a c.shared with
      | none =>
        rw [step] at h
        cases h
      | some result =>
        rw [step] at h
        cases h
        exact ⟨t, a, k, result.1, result.2, rfl, point, step, rfl⟩

/-- The move's action, if it takes one, is one that `P` allows. -/
def Meets (P : T → Act → σ → Prop) (m : Move T Call) (c : Conf T Act Res σ) : Prop :=
  ∀ t a k, m = .act t → c.code t = .act a k → P t a c.shared

theorem Runs.along (h : M.Runs c c') : M.Along (Meets fun _ _ _ => True) c c' :=
  Relation.ReflTransGen.mono (fun _ _ ⟨m, step⟩ => ⟨m, fun _ _ _ _ _ => trivial, step⟩) _ _ h

theorem Along.runs {P : Move T Call → Conf T Act Res σ → Prop} (h : M.Along P c c') : M.Runs c c' :=
  Relation.ReflTransGen.mono (fun _ _ ⟨m, _, step⟩ => ⟨m, step⟩) _ _ h

def checks (P : T → Act → σ → Bool) : Move T Call → Conf T Act Res σ → Bool
  | .act t, c =>
    match c.code t with
    | .ret _ => true
    | .act a _ => P t a c.shared
  | _, _ => true

omit [DecidableEq T] in
theorem meets_of_checks {P : T → Act → σ → Bool} {m : Move T Call} (h : checks P m c = true) :
    Meets (fun t a s => P t a s = true) m c := by
  rintro t a k rfl point
  simpa only [checks, point] using h

variable (M) in
/-- Plays the moves, as long as `P` holds of the actions. -/
def playIf (P : T → Act → σ → Bool) : List (Move T Call) → Conf T Act Res σ → Option (Conf T Act Res σ)
  | [], c => some c
  | m :: moves, c =>
    if checks P m c then
      match M.next m c with
      | none => none
      | some c' => playIf P moves c'
    else none

theorem along_of_playIf {P : T → Act → σ → Bool} {moves : List (Move T Call)} (h : M.playIf P moves c = some c') :
    M.Along (Meets fun t a s => P t a s = true) c c' := by
  induction moves generalizing c with
  | nil =>
    cases h
    exact .refl
  | cons m moves ih =>
    unfold playIf at h
    split at h
    case isFalse => cases h
    case isTrue met =>
      cases step : M.next m c with
      | none =>
        rw [step] at h
        cases h
      | some x =>
        rw [step] at h
        exact .head ⟨m, meets_of_checks met, step⟩ (ih h)

theorem Along.mono {P Q : T → Act → σ → Prop} (weaker : ∀ t a s, P t a s → Q t a s)
    (h : M.Along (Meets P) c c') : M.Along (Meets Q) c c' :=
  Relation.ReflTransGen.mono
    (fun _ _ ⟨m, met, step⟩ => ⟨m, fun t a k here point => weaker t a _ (met t a k here point), step⟩) _ _ h

theorem exists_of_playIf {P : T → Act → σ → Bool} {Q : Conf T Act Res σ → Bool} {moves : List (Move T Call)}
    (h : (M.playIf P moves c).any Q = true) :
    ∃ c', M.Along (Meets fun t a s => P t a s = true) c c' ∧ Q c' = true := by
  obtain ⟨c', played, found⟩ := (Option.any_eq_true _ _).mp h
  exact ⟨c', along_of_playIf played, found⟩

end Machine

/-! ### Rules -/

variable [DecidableEq T] {M : Machine T Act Res σ Call} {R : Terms T Act σ} {c c' : Conf T Act Res σ}
  {idle : T → σ → Prop} {m : Move T Call}

/-- What the code of a machine owes to the terms. -/
structure Machine.Honours (M : Machine T Act Res σ Call) (R : Terms T Act σ) (idle : T → σ → Prop) : Prop where
  calls : ∀ t s k, R.inv s → idle t s → M.offers t s k = true →
    keeps .free R M.exec t (M.body k) (fun _ => idle t) s
  traps : ∀ t s k, R.inv s → M.interrupts t s k = true →
    keeps .free R M.exec t (M.body k) (fun _ => R.frame t s) s
  starts : ∀ t a s r s' u p, R.inv s → R.ok t a s → M.exec t a s = some (r, s') → R.inv s' →
    M.starts a = some (u, p) → keeps .free R M.exec u p (fun _ => idle u) s'

theorem Conf.Kept.next (kept : c.Kept R M.exec idle) (honours : M.Honours R idle)
    (h : M.next m c = some c') : c'.Kept R M.exec idle := by
  rcases Machine.next_cases h with
    ⟨t, k, -, ready, offered, rfl⟩ | ⟨t, k, -, allowed, rfl⟩ | ⟨t, a, k, r, s, -, point, step, rfl⟩
  · refine ⟨kept.1, fun u => ?_⟩
    by_cases same : u = t
    · subst same
      simp only [Function.update_self]
      exact honours.calls u c.shared k kept.1 (kept.ready ready) offered
    · simp only [Function.update_of_ne same]
      exact kept.2 u
  · refine ⟨kept.1, fun u => ?_⟩
    by_cases same : u = t
    · subst same
      simp only [Function.update_self]
      apply keeps_bind
      apply keeps_mono (honours.traps u c.shared k kept.1 allowed)
      intro _ x _ back
      exact keeps_frame (kept.2 u) ⟨trivial, back⟩
    · simp only [Function.update_of_ne same]
      exact kept.2 u
  · have ok := kept.ok point
    have before := kept.2 t
    rw [point] at before
    obtain ⟨-, next⟩ := before _ ⟨trivial, R.refl t _⟩ ⟨trivial, kept.1⟩
    obtain ⟨inv', others, rest⟩ := next _ _ step trivial fun _ _ => trivial
    have threads (u : T) : keeps .free R M.exec u (Function.update c.code t (k r) u) (fun _ => idle u) s := by
      by_cases same : u = t
      · subst same
        simp only [Function.update_self]
        exact rest
      · simp only [Function.update_of_ne same]
        exact keeps_frame (kept.2 u) ⟨trivial, others u same⟩
    refine ⟨inv', fun u => ?_⟩
    unfold Machine.install
    cases begun : M.starts a with
    | none => exact threads u
    | some child =>
      obtain ⟨v, p⟩ := child
      by_cases same : u = v
      · subst same
        simp only [Function.update_self]
        exact honours.starts t a c.shared r s u p kept.1 ok step inv' begun
      · simp only [Function.update_of_ne same]
        exact threads u

theorem Conf.Kept.runs (kept : c.Kept R M.exec idle) (honours : M.Honours R idle) (h : M.Runs c c') :
    c'.Kept R M.exec idle := by
  induction h with
  | refl => exact kept
  | tail _ step ih =>
    obtain ⟨m, step⟩ := step
    exact ih.next honours step

/-- Whatever every action that meets the terms keeps, every run keeps. -/
theorem Conf.Kept.along {P : T → Act → σ → Prop} {J : σ → Prop} (kept : c.Kept R M.exec idle)
    (honours : M.Honours R idle) (start : J c.shared)
    (step : ∀ t a s r s', R.inv s → R.ok t a s → P t a s → M.exec t a s = some (r, s') → R.inv s' → J s → J s')
    (h : M.Along (Machine.Meets P) c c') : J c'.shared := by
  induction h with
  | refl => exact start
  | tail before last ih =>
    obtain ⟨m, met, moved⟩ := last
    have now := kept.runs honours (Machine.Along.runs before)
    have next := now.next honours moved
    rcases Machine.next_cases moved with
      ⟨t, k, -, -, -, rfl⟩ | ⟨t, k, -, -, rfl⟩ | ⟨t, a, k, r, s, rfl, point, ran, rfl⟩
    · exact ih
    · exact ih
    · exact step t a _ r s now.1 (now.ok point) (met t a k rfl point) ran next.1 ih

end Threads
