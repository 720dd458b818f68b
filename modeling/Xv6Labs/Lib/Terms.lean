import Xv6Labs.Lib.Threads

/-!
# Rules in layers

`Terms` are rules with one more condition, which a thread has to meet before it takes an action. Terms may build on
each other: `keeps K G t p post s` is `wp` for the terms `G` where all threads are known to keep `K`, and by
`keeps_and_checked` a proof for `K` and a proof for `G` over it make one for both.
-/

namespace Threads

open Prog

variable {Act : Type} {Res : Act → Type} {α β σ T : Type}

structure Terms (T Act σ : Type) extends Rules T σ where
  ok : T → Act → σ → Prop

namespace Terms

def free : Terms T Act σ where
  inv := fun _ => True
  frame := fun _ _ _ => True
  refl := fun _ _ => trivial
  trans := fun _ _ _ _ _ _ => trivial
  ok := fun _ _ _ => True

def and (K G : Terms T Act σ) : Terms T Act σ where
  inv := fun s => K.inv s ∧ G.inv s
  frame := fun t s s' => K.frame t s s' ∧ G.frame t s s'
  refl := fun t s => ⟨K.refl t s, G.refl t s⟩
  trans := fun t _ _ _ h h' => ⟨K.trans t h.1 h'.1, G.trans t h.2 h'.2⟩
  ok := fun t a s => K.ok t a s ∧ G.ok t a s

end Terms

variable (K G : Terms T Act σ) (exec : T → (a : Act) → σ → Option (Res a × σ))

def keeps (t : T) : Prog Act Res α → (α → σ → Prop) → σ → Prop
  | .ret a, post, s => ∀ s', (K.and G).frame t s s' → (K.and G).inv s' → post a s'
  | .act a k, post, s => ∀ s', (K.and G).frame t s s' → (K.and G).inv s' → G.ok t a s' ∧
      ∀ r s'', exec t a s' = some (r, s'') → K.inv s'' → (∀ u, u ≠ t → K.frame u s' s'') →
        G.inv s'' ∧ (∀ u, u ≠ t → G.frame u s' s'') ∧ keeps t (k r) post s''

variable {K G exec} {t : T} {p : Prog Act Res α} {post post' : α → σ → Prop} {s s' : σ}

theorem keeps_frame (h : keeps K G exec t p post s) (frame : (K.and G).frame t s s') : keeps K G exec t p post s' := by
  cases p with
  | ret a =>
    intro x next inv
    exact h x ((K.and G).trans t frame next) inv
  | act a k =>
    intro x next inv
    exact h x ((K.and G).trans t frame next) inv

theorem keeps_intro (h : ∀ s', (K.and G).frame t s s' → (K.and G).inv s' → keeps K G exec t p post s') :
    keeps K G exec t p post s := by
  cases p with
  | ret a =>
    intro x frame inv
    exact h x frame inv x ((K.and G).refl t x) inv
  | act a k =>
    intro x frame inv
    exact h x frame inv x ((K.and G).refl t x) inv

theorem keeps_mono (h : keeps K G exec t p post s) (weaker : ∀ a s', (K.and G).inv s' → post a s' → post' a s') :
    keeps K G exec t p post' s := by
  induction p generalizing s with
  | ret a =>
    intro x frame inv
    exact weaker a x inv (h x frame inv)
  | act a k ih =>
    intro x frame inv
    obtain ⟨ok, next⟩ := h x frame inv
    refine ⟨ok, fun r y step known others => ?_⟩
    obtain ⟨inv', others', rest⟩ := next r y step known others
    exact ⟨inv', others', ih r rest⟩

theorem keeps_bind {f : α → Prog Act Res β} {after : β → σ → Prop}
    (h : keeps K G exec t p (fun a => keeps K G exec t (f a) after) s) : keeps K G exec t (p >>= f) after s := by
  change keeps K G exec t (p.bind f) after s
  induction p generalizing s with
  | ret a => exact keeps_intro h
  | act a k ih =>
    intro x frame inv
    obtain ⟨ok, next⟩ := h x frame inv
    refine ⟨ok, fun r y step known others => ?_⟩
    obtain ⟨inv', others', rest⟩ := next r y step known others
    exact ⟨inv', others', ih r rest⟩

theorem keeps_ret {a : α} (h : ∀ s', (K.and G).frame t s s' → (K.and G).inv s' → post a s') :
    keeps K G exec t (pure a) post s := h

theorem keeps_lift {a : Act} {post : Res a → σ → Prop}
    (h : ∀ s', (K.and G).frame t s s' → (K.and G).inv s' → G.ok t a s' ∧
      ∀ r s'', exec t a s' = some (r, s'') → K.inv s'' → (∀ u, u ≠ t → K.frame u s' s'') →
        G.inv s'' ∧ (∀ u, u ≠ t → G.frame u s' s'') ∧ ∀ x, (K.and G).frame t s'' x → (K.and G).inv x → post r x) :
    keeps K G exec t (lift a) post s := h

/-! ### Runs -/

variable {R : Terms T Act σ} {menu : T → σ → Prog Act Res Unit → Prop} {c c' : Conf T Act Res σ}
  {idle : T → σ → Prop}

def Conf.Kept (R : Terms T Act σ) (exec : T → (a : Act) → σ → Option (Res a × σ)) (idle : T → σ → Prop)
    (c : Conf T Act Res σ) : Prop :=
  R.inv c.shared ∧ ∀ t, keeps .free R exec t (c.code t) (fun _ => idle t) c.shared

theorem Conf.Kept.ok (kept : c.Kept R exec idle) {a : Act} {k : Res a → Prog Act Res Unit}
    (point : c.code t = .act a k) : R.ok t a c.shared := by
  have now := kept.2 t
  rw [point] at now
  exact (now _ ⟨trivial, R.refl t _⟩ ⟨trivial, kept.1⟩).1

theorem Conf.Kept.ready (kept : c.Kept R exec idle) (point : c.code t = .ret ()) : idle t c.shared := by
  have now := kept.2 t
  rw [point] at now
  exact now _ ⟨trivial, R.refl t _⟩ ⟨trivial, kept.1⟩

variable [DecidableEq T]

theorem Conf.Kept.step (kept : c.Kept R exec idle)
    (calls : ∀ t s p, R.inv s → idle t s → menu t s p → keeps .free R exec t p (fun _ => idle t) s)
    (h : Step exec menu c c') : c'.Kept R exec idle := by
  cases h with
  | call t p ready offered =>
    refine ⟨kept.1, fun u => ?_⟩
    by_cases same : u = t
    · subst same
      simp only [Function.update_self]
      exact calls u c.shared p kept.1 (kept.ready ready) offered
    · simp only [Function.update_of_ne same]
      exact kept.2 u
  | act t point h =>
    have before := kept.2 t
    rw [point] at before
    obtain ⟨-, next⟩ := before _ ⟨trivial, R.refl t _⟩ ⟨trivial, kept.1⟩
    obtain ⟨inv', others, rest⟩ := next _ _ h trivial fun _ _ => trivial
    refine ⟨inv', fun u => ?_⟩
    by_cases same : u = t
    · subst same
      simp only [Function.update_self]
      exact rest
    · simp only [Function.update_of_ne same]
      exact keeps_frame (kept.2 u) ⟨trivial, others u same⟩

theorem Conf.Kept.run (kept : c.Kept R exec idle)
    (calls : ∀ t s p, R.inv s → idle t s → menu t s p → keeps .free R exec t p (fun _ => idle t) s)
    (h : Relation.ReflTransGen (Step exec menu) c c') : c'.Kept R exec idle := by
  induction h with
  | refl => exact kept
  | tail _ step ih => exact ih.step calls step

end Threads
