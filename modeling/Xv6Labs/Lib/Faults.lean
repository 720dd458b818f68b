import Mathlib

/-!
# Programs that return

A program over a state that may fail with a fault. `Returns p s post`: started in `s`, it does not fail, and ends in
`post`.
-/

namespace Faults

universe u

variable {σ ε α β : Type}

abbrev Program (σ ε α : Type) : Type := StateT σ (Except ε) α

def Returns (p : Program σ ε α) (s : σ) (post : α → σ → Prop) : Prop := ∃ a s', p s = .ok (a, s') ∧ post a s'

variable {p : Program σ ε α} {f : α → Program σ ε β} {s : σ} {post post' : α → σ → Prop} {after : β → σ → Prop}

theorem Returns.pure {a : α} (h : post a s) : Returns (Pure.pure a : Program σ ε α) s post := ⟨a, s, rfl, h⟩

theorem Returns.bind (h : Returns p s fun a s' => Returns (f a) s' after) : Returns (p >>= f) s after := by
  obtain ⟨a, s', ran, b, s'', ran', now⟩ := h
  refine ⟨b, s'', ?_, now⟩
  change (p s >>= fun r => f r.1 r.2) = _
  rw [ran]
  exact ran'

theorem Returns.mono (h : Returns p s post) (weaker : ∀ a s', post a s' → post' a s') : Returns p s post' := by
  obtain ⟨a, s', ran, now⟩ := h
  exact ⟨a, s', ran, weaker a s' now⟩

/-- What one run shows, since there is only one. -/
theorem Returns.det {a : α} {s' : σ} (h : Returns p s post) (ran : p s = .ok (a, s')) : post a s' := by
  obtain ⟨b, s'', ran', now⟩ := h
  cases ran.symm.trans ran'
  exact now

theorem Returns.and (h : Returns p s post) (h' : Returns p s post') :
    Returns p s fun a s' => post a s' ∧ post' a s' := by
  obtain ⟨a, s', ran, now⟩ := h
  exact ⟨a, s', ran, now, h'.det ran⟩

def reads (f : σ → α) : Program σ ε α := fun s => .ok (f s, s)

def writes (f : σ → σ) : Program σ ε Unit := fun s => .ok ((), f s)

def fails (e : ε) : Program σ ε α := fun _ => .error e

theorem Returns.reads {f : σ → α} (h : post (f s) s) : Returns (Faults.reads f : Program σ ε α) s post :=
  ⟨f s, s, rfl, h⟩

theorem Returns.writes {f : σ → σ} {post : Unit → σ → Prop} (h : post () (f s)) :
    Returns (Faults.writes f : Program σ ε Unit) s post := ⟨(), f s, rfl, h⟩

/-- A program that fails after one that returns. -/
theorem fails_bind {e : ε} (h : Returns p s fun a s' => f a s' = .error e) : (p >>= f) s = .error e := by
  obtain ⟨a, s', ran, failed⟩ := h
  change (p s >>= fun r => f r.1 r.2) = _
  rw [ran]
  exact failed

/-! ### Programs that may fail -/

/-- What a program returns, if it returns, satisfies `post`. -/
def Ends (p : Program σ ε α) (s : σ) (post : α → σ → Prop) : Prop := ∀ a s', p s = .ok (a, s') → post a s'

theorem Ends.pure {a : α} (h : post a s) : Ends (Pure.pure a : Program σ ε α) s post := by
  rintro b s' ran
  cases ran
  exact h

theorem Ends.bind (h : Ends p s fun a s' => Ends (f a) s' after) : Ends (p >>= f) s after := by
  intro b s'' ran
  change (p s >>= fun r => f r.1 r.2) = _ at ran
  cases first : p s with
  | error e =>
    rw [first] at ran
    cases ran
  | ok r =>
    rw [first] at ran
    exact h r.1 r.2 first b s'' ran

theorem Returns.ends (h : Returns p s post) : Ends p s post := fun _ _ ran => h.det ran

theorem Ends.mono (h : Ends p s post) (weaker : ∀ a s', post a s' → post' a s') : Ends p s post' :=
  fun a s' ran => weaker a s' (h a s' ran)

theorem Ends.always (h : ∀ a s', post a s') : Ends p s post := fun a s' _ => h a s'

theorem Returns.and_ends (h : Returns p s post) (h' : Ends p s post') :
    Returns p s fun a s' => post a s' ∧ post' a s' := by
  obtain ⟨a, s', ran, now⟩ := h
  exact ⟨a, s', ran, now, h' a s' ran⟩

end Faults
