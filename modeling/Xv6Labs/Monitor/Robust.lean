import Xv6Labs.Monitor.Run

/-!
# Facts that last inside

A fact that `drift` leaves alone, and that fewer waiting processes do not harm, lasts as long as a thread has the
condition lock. Outside, a thread here knows nothing.
-/

namespace Xv6Labs.Monitor

open Threads Prog
open Proc (Slot)

variable {O : Object} {D : Duty O} {t : Thread} {p : Slot} {c : O.Chan} {A A' : O.Data → Waits O → Prop}

structure Robust (D : Duty O) (A : O.Data → Waits O → Prop) : Prop where
  drift : ∀ d d' w, D.drift d d' → A d w → A d' w
  sub : ∀ d w w', Sub w' w → A d w → A d w'

theorem Robust.lasts (robust : Robust D A) : Lasts D t [.cond] A := by
  intro d d' w w' _ inside fact
  obtain ⟨drift, sub⟩ := inside List.mem_cons_self
  exact robust.sub _ _ _ sub (robust.drift _ _ _ drift fact)

theorem Robust.and {P : O.Data → Prop} (robust : Robust D A) (kept : ∀ d d', D.drift d d' → P d → P d') :
    Robust D fun d w => A d w ∧ P d where
  drift d d' w drift fact := ⟨robust.drift d d' w drift fact.1, kept d d' drift fact.2⟩
  sub d w w' sub fact := ⟨robust.sub d w w' sub fact.1, fact.2⟩

theorem Robust.awake (robust : Robust D A) : Robust D fun d w => A d w ∧ ∀ q, w q ≠ some c where
  drift d d' w drift fact := ⟨robust.drift d d' w drift fact.1, fact.2⟩
  sub d w w' sub fact := ⟨robust.sub d w w' sub fact.1, fun q there => fact.2 q (sub q _ there)⟩

def Outside (t : Thread) : State O → Prop := Knows t [] fun _ _ => True

theorem stable_outside : Stable D t (Outside t) := stable_knows (Lasts.outside fun _ _ _ => id)

theorem triple_done {α : Type} {a : α} : Triple D t (Outside t) (pure a) fun _ => Outside t :=
  Triple.pure stable_outside fun _ _ there => there

theorem triple_keep {α : Type} {a : α} (robust : Robust D A) :
    Triple D t (Knows t [.cond] A) (pure a) fun _ => Knows t [.cond] A :=
  Triple.pure (stable_knows robust.lasts) fun _ _ there => there

theorem Knows.imp {L : List Lock} {s : State O} (knows : Knows t L A s) (weaker : ∀ d w, A d w → A' d w) :
    Knows t L A' s :=
  ⟨knows.owns, knows.running, weaker _ _ knows.fact⟩

theorem triple_enter (robust : Robust D A) (enter : ∀ d w, D.always d → D.inv d w → A d w) :
    Triple D t (Outside t) (acquire .cond) fun _ => Knows t [.cond] A := by
  refine (triple_acquire (V := fun _ => True) fun _ _ _ => id).mono (fun _ _ knows => knows) fun _ s _ inside => ?_
  obtain ⟨d, w, ⟨always, inv, -⟩, inside⟩ := inside
  exact inside.imp fun d' w' fact => robust.drift _ _ _ fact.1 (robust.sub _ _ _ fact.2 (enter d w always inv))

theorem triple_leave (robust : Robust D A) (leave : ∀ d w, D.always d → A d w → D.inv d w) :
    Triple D t (Knows t [.cond] A) (release .cond) fun _ => Outside t :=
  triple_release (V := fun _ => True) (fun _ _ _ => id) robust.lasts leave fun _ _ _ => trivial

/-- Across a `sleep`, a thread keeps what it knows outside. -/
theorem triple_rest {V : O.Data → Prop} (stable : ∀ d d', D.view (.proc p) d d' → V d → V d') (robust : Robust D A)
    (robust' : Robust D A') (inv : ∀ d w, D.always d → A d w → D.inv d (Function.update w p (some c)))
    (kept : ∀ d w, A d w → V d) (enter : ∀ d w, D.always d → D.inv d w → V d → A' d w) :
    Triple D (.proc p) (Knows (.proc p) [.cond] A) (sleep p c) fun _ => Knows (.proc p) [.cond] A' := by
  refine (triple_sleep stable robust.lasts inv kept).mono (fun _ _ knows => knows) fun _ s _ inside => ?_
  obtain ⟨d, w, ⟨always, inv, fact⟩, inside⟩ := inside
  exact inside.imp fun d' w' now => robust'.drift _ _ _ now.1 (robust'.sub _ _ _ now.2 (enter d w always inv fact))

/-- An operation that only looks. -/
theorem triple_looks (x : O.Op) (value : O.Data → O.Res x) (looks : ∀ d w, O.perform t x d w = some (value d, d))
    (ok : ∀ d, D.ok t x d) (blind : ∀ d d', D.drift d d' → value d' = value d) (robust : Robust D A) :
    Triple D t (Knows t [.cond] A) (op x) fun r => Knows t [.cond] fun d w => A d w ∧ value d = r := by
  have robust' (r : O.Res x) : Robust D fun d w => A d w ∧ value d = r :=
    robust.and fun d d' drift there => (blind d d' drift).trans there
  refine triple_op robust.lasts (fun r => (robust' r).lasts) fun d w always fact => ⟨ok d, fun r d' ran => ?_⟩
  obtain ⟨rfl, rfl⟩ := Prod.mk.inj (Option.some.inj ((looks d w).symm.trans ran))
  exact ⟨always, fun u _ => D.view_refl u d, fact, rfl⟩

/-- An operation that only looks, at something that may change. -/
theorem triple_glance (x : O.Op) (value : O.Data → O.Res x) (looks : ∀ d w, O.perform t x d w = some (value d, d))
    (ok : ∀ d, D.ok t x d) (robust : Robust D A) :
    Triple D t (Knows t [.cond] A) (op x) fun _ => Knows t [.cond] A := by
  refine triple_op robust.lasts (fun _ => robust.lasts) fun d w always fact => ⟨ok d, fun r d' ran => ?_⟩
  obtain ⟨rfl, rfl⟩ := Prod.mk.inj (Option.some.inj ((looks d w).symm.trans ran))
  exact ⟨always, fun u _ => D.view_refl u d, fact⟩

end Xv6Labs.Monitor
