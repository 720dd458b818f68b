import Xv6Labs.Monitor.State

/-!
# What code owes to the condition lock

`Duty` is the contract of an object: `inv` holds of its data and of who waits on which channel whenever the condition
lock is free, `always` in every state. `drift` is what may happen to the data while somebody has the lock, and `view`
what other threads do to the data that a thread knows something about. A thread outside knows a fact that others leave
alone; inside it knows the data, and a bound on who waits.
-/

namespace Xv6Labs.Monitor

open Threads Prog
open Proc (Slot ProcState)

variable {O : Object}

abbrev Waits (O : Object) : Type := Slot → Option O.Chan

/-- Fewer processes wait. -/
def Sub (w' w : Waits O) : Prop := ∀ q c, w' q = some c → w q = some c

theorem Sub.refl (w : Waits O) : Sub w w := fun _ _ => id

theorem Sub.trans {w w' w'' : Waits O} (h : Sub w'' w') (h' : Sub w' w) : Sub w'' w :=
  fun q c there => h' q c (h q c there)

structure Duty (O : Object) where
  always : O.Data → Prop
  inv : O.Data → Waits O → Prop
  shrink : ∀ {d w w'}, inv d w → Sub w' w → inv d w'
  drift : O.Data → O.Data → Prop
  drift_refl : ∀ d, drift d d
  drift_trans : ∀ {d d' d''}, drift d d' → drift d' d'' → drift d d''
  view : Thread → O.Data → O.Data → Prop
  view_refl : ∀ t d, view t d d
  view_trans : ∀ t {d d' d''}, view t d d' → view t d' d'' → view t d d''
  drift_view : ∀ t {d d'}, drift d d' → view t d d'
  ok : Thread → O.Op → O.Data → Prop

namespace State

variable (s : State O)

/-- What is so of a process whose lock is free, and what is always so. -/
structure Settled : Prop where
  asleep : ∀ q c, s.owner (.proc q) = none → s.waits q = some c → s.state q = .SLEEPING ∧ s.chan q = some c
  waits : ∀ q c, s.state q = .SLEEPING → s.chan q = some c → s.waits q = some c

structure Frame (D : Duty O) (t : Thread) (s s' : State O) : Prop where
  locks : ∀ lk, s.owner lk = some t ↔ s'.owner lk = some t
  own : ∀ q, s.owner (.proc q) = some t → s'.state q = s.state q ∧ s'.chan q = s.chan q ∧ s'.waits q = s.waits q
  inside : s.owner .cond = some t → D.drift s.data s'.data ∧ Sub s'.waits s.waits
  running : ∀ p, t = .proc p → s.state p = .RUNNING → s'.state p = .RUNNING
  view : D.view t s.data s'.data

end State

variable (D : Duty O)

def terms : Terms Thread (Act O) (State O) where
  inv s := D.always s.data ∧ (s.owner .cond = none → D.inv s.data s.waits) ∧ s.Settled
  frame := State.Frame D
  refl t s := ⟨fun _ => Iff.rfl, fun _ _ => ⟨rfl, rfl, rfl⟩, fun _ => ⟨D.drift_refl _, Sub.refl _⟩, fun _ _ h => h,
    D.view_refl t _⟩
  trans t s s' s'' h h' :=
    { locks := fun lk => (h.locks lk).trans (h'.locks lk)
      own := fun q owner => by
        obtain ⟨state, chan, waits⟩ := h.own q owner
        obtain ⟨state', chan', waits'⟩ := h'.own q ((h.locks _).mp owner)
        exact ⟨state'.trans state, chan'.trans chan, waits'.trans waits⟩
      inside := fun owner => by
        obtain ⟨drift, sub⟩ := h.inside owner
        obtain ⟨drift', sub'⟩ := h'.inside ((h.locks _).mp owner)
        exact ⟨D.drift_trans drift drift', sub'.trans sub⟩
      running := fun p same state => h'.running p same (h.running p same state)
      view := D.view_trans t h.view h'.view }
  ok t a s :=
    match a with
    | .op x => D.ok t x s.data
    | _ => True

/-- Code that keeps the terms from every state that meets `pre`. -/
def Triple {α : Type} (t : Thread) (pre : State O → Prop) (p : Code O α) (post : α → State O → Prop) : Prop :=
  ∀ s, (terms D).inv s → pre s → keeps .free (terms D) exec t p post s

/-- A condition that other threads leave alone. -/
def Stable (t : Thread) (pre : State O → Prop) : Prop :=
  ∀ s s', State.Frame D t s s' → (terms D).inv s' → pre s → pre s'

section

variable {D} {α β : Type} {t : Thread} {pre mid : State O → Prop} {p : Code O α} {post post' : α → State O → Prop}

theorem Triple.pure {a : α} (stable : Stable D t pre) (holds : ∀ s, (terms D).inv s → pre s → post a s) :
    Triple D t pre (Pure.pure a) post :=
  fun s _ start s' frame inv => holds s' inv.2 (stable s s' frame.2 inv.2 start)

theorem Triple.bind {f : α → Code O β} {after : β → State O → Prop} (h : Triple D t pre p post)
    (next : ∀ a, Triple D t (post a) (f a) after) : Triple D t pre (p >>= f) after :=
  fun s inv start => keeps_bind (keeps_mono (h s inv start) fun a s' inv' now => next a s' inv'.2 now)

theorem Triple.mono (h : Triple D t mid p post) (before : ∀ s, (terms D).inv s → pre s → mid s)
    (after : ∀ a s, (terms D).inv s → post a s → post' a s) : Triple D t pre p post' :=
  fun s inv start => keeps_mono (h s inv (before s inv start)) fun a s' inv' now => after a s' inv'.2 now

theorem triple_cut : Triple D t pre cut post :=
  fun _ _ _ _ _ _ => ⟨trivial, fun e => nomatch e⟩

theorem Triple.exists {ι : Type} {pre : ι → State O → Prop} (h : ∀ i, Triple D t (pre i) p post) :
    Triple D t (fun s => ∃ i, pre i s) p post := fun s inv ⟨i, start⟩ => h i s inv start

theorem Triple.and {P : Prop} (h : P → Triple D t pre p post) : Triple D t (fun s => P ∧ pre s) p post :=
  fun s inv ⟨holds, start⟩ => h holds s inv start

theorem Triple.act {a : Act O} {post : Res a → State O → Prop} (stable : Stable D t pre)
    (stable' : ∀ r, Stable D t (post r))
    (step : ∀ s, (terms D).inv s → pre s → (terms D).ok t a s ∧ ∀ r s', exec t a s = some (r, s') →
      (terms D).inv s' ∧ (∀ u, u ≠ t → State.Frame D u s s') ∧ post r s') : Triple D t pre (act a) post := by
  intro s _ start
  refine keeps_lift fun x frame inv => ?_
  obtain ⟨ok, next⟩ := step x inv.2 (stable s x frame.2 inv.2 start)
  refine ⟨ok, fun r x' ran _ _ => ?_⟩
  obtain ⟨inv', others, now⟩ := next r x' ran
  exact ⟨inv', others, fun y frame' inv'' => stable' r x' y frame'.2 inv''.2 now⟩

end

end Xv6Labs.Monitor
