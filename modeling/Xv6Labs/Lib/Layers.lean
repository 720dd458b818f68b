import Xv6Labs.Lib.Among
import Xv6Labs.Lib.Terms

/-!
# What an upper layer may use

`checked` keeps only the actions that the lower layer allows, so a proof over it knows that each action was allowed.
Code whose actions are all of one kind keeps what each action of that kind keeps.
-/

namespace Threads

open Prog

variable {Act : Type} {Res : Act → Type} {α σ T : Type} {K G : Terms T Act σ}
  {exec : T → (a : Act) → σ → Option (Res a × σ)} {t : T} {p : Prog Act Res α} {s s' : σ} {a : Act} {r : Res a}

open Classical in
noncomputable def Terms.checked (K : Terms T Act σ) (exec : T → (a : Act) → σ → Option (Res a × σ)) (t : T)
  (a : Act) (s : σ) :
    Option (Res a × σ) :=
  if K.ok t a s then exec t a s else none

theorem Terms.checked_eq_some : K.checked exec t a s = some (r, s') ↔ K.ok t a s ∧ exec t a s = some (r, s') := by
  unfold Terms.checked
  split
  case isTrue ok => exact ⟨fun ran => ⟨ok, ran⟩, fun h => h.2⟩
  case isFalse bad => exact ⟨fun ran => (by cases ran), fun h => absurd h.1 bad⟩

theorem keeps_and_checked {post post' : α → σ → Prop} (lower : keeps .free K exec t p post s)
    (upper : keeps K G (K.checked exec) t p post' s) :
    keeps .free (K.and G) exec t p (fun a s => post a s ∧ post' a s) s := by
  induction p generalizing s with
  | ret a =>
    intro x frame inv
    exact ⟨lower x ⟨trivial, frame.2.1⟩ ⟨trivial, inv.2.1⟩, upper x frame.2 inv.2⟩
  | act a k ih =>
    intro x frame inv
    obtain ⟨ok, next⟩ := lower x ⟨trivial, frame.2.1⟩ ⟨trivial, inv.2.1⟩
    obtain ⟨ok', next'⟩ := upper x frame.2 inv.2
    refine ⟨⟨ok, ok'⟩, fun r y step _ _ => ?_⟩
    obtain ⟨known, others, rest⟩ := next r y step trivial fun _ _ => trivial
    obtain ⟨inv', others', rest'⟩ := next' r y (Terms.checked_eq_some.mpr ⟨ok, step⟩) known others
    exact ⟨⟨known, inv'⟩, fun u ne => ⟨others u ne, others' u ne⟩, ih r rest rest'⟩

theorem keeps_only {P : Act → Prop} {I : σ → Prop} (only : p.Only P)
    (stable : ∀ s s', I s → (K.and G).frame t s s' → I s')
    (step : ∀ a s, P a → I s → (K.and G).inv s → G.ok t a s ∧ ∀ r s', exec t a s = some (r, s') → K.inv s' →
      G.inv s' ∧ (∀ u, u ≠ t → G.frame u s s') ∧ I s')
    (start : I s) : keeps K G exec t p (fun _ => I) s := by
  induction p generalizing s with
  | ret a => exact fun x frame _ => stable s x start frame
  | act a k ih =>
    intro x frame inv
    obtain ⟨ok, next⟩ := step a x only.1 (stable s x start frame) inv
    refine ⟨ok, fun r y ran known _ => ?_⟩
    obtain ⟨inv', others, kept⟩ := next r y ran known
    exact ⟨inv', others, ih r (only.2 r) kept⟩

end Threads
