import Xv6Labs.Lib.Machine
import Xv6Labs.Monitor.Sleep

/-!
# Runs

A `Menu` is the calls that threads may make on an object. Where each call keeps the contract, so does every run from a
state in which the locks are free and nobody sleeps.
-/

namespace Xv6Labs.Monitor

open Threads Prog
open Proc (Slot ProcState)

variable {O : Object} {D : Duty O} {V : Thread → O.Data → Prop}

/-- `offers` is what callers promise: a thread makes only calls that it is offered. -/
structure Menu (O : Object) where
  Call : Type
  body : Thread → Call → Code O Unit
  offers : Thread → Call → O.Data → Bool

namespace Menu

variable (M : Menu O)

def machine : Machine Thread (Act O) Res (State O) (Thread × M.Call) where
  exec := exec
  starts _ := none
  body k := M.body k.1 k.2
  offers t s k := decide (k.1 = t) && M.offers t k.2 s.data
  interrupts _ _ _ := false

def start (d : O.Data) : Conf Thread (Act O) Res (State O) := ⟨{ data := d }, fun _ => .ret ()⟩

/-- What a thread knows of the data when it is in no call is `V`. -/
structure Keeps (D : Duty O) (V : Thread → O.Data → Prop) : Prop where
  stable : ∀ t d d', D.view t d d' → V t d → V t d'
  calls : ∀ t k s, M.offers t k s.data = true → (terms D).inv s → Knows t [] (fun d _ => V t d) s →
    keeps .free (terms D) exec t (M.body t k) (fun _ => Knows t [] fun d _ => V t d) s

def Idle (V : Thread → O.Data → Prop) (t : Thread) : State O → Prop := Knows t [] fun d _ => V t d

variable {M} {c c' : Conf Thread (Act O) Res (State O)}

theorem Keeps.honours (kept : M.Keeps D V) : M.machine.Honours (terms D) (Idle V) where
  calls t s k inv idle offered := by
    obtain ⟨u, k⟩ := k
    obtain ⟨same, offered⟩ := (Bool.and_eq_true _ _).mp offered
    cases of_decide_eq_true same
    exact kept.calls u k s offered inv idle
  traps _ _ _ _ allowed := nomatch allowed
  starts _ _ _ _ _ _ _ _ _ _ _ begun := nomatch begun

theorem kept_start {d : O.Data} (stable : ∀ t d d', D.view t d d' → V t d → V t d') (always : D.always d)
    (inv : D.inv d fun _ => none) (view : ∀ t, V t d) : (start d).Kept (terms D) exec (Idle V) := by
  refine ⟨⟨always, fun _ => inv, ⟨fun _ _ _ waits => ?_, fun _ _ state => ?_⟩⟩, fun t s' frame inv' => ?_⟩
  · exact nomatch waits
  · exact nomatch state
  · refine stable_knows (Lasts.outside (stable t)) _ s' frame.2 inv'.2 ⟨fun lk => ?_, fun _ _ => rfl, view t⟩
    exact ⟨(fun owner => nomatch owner), (fun mem => nomatch mem)⟩

theorem Keeps.runs (kept : M.Keeps D V) {d : O.Data} (always : D.always d) (inv : D.inv d fun _ => none)
    (view : ∀ t, V t d) (run : M.machine.Runs (start d) c) : c.Kept (terms D) exec (Idle V) :=
  (kept_start kept.stable always inv view).runs kept.honours run

/-- Whatever every action keeps that meets `P` and does what it may, every run keeps whose actions meet `P`. -/
theorem Keeps.along {P : Thread → Act O → State O → Prop} {J : State O → Prop} (kept : M.Keeps D V) {d : O.Data}
    (always : D.always d) (inv : D.inv d fun _ => none) (view : ∀ t, V t d) (start : J { data := d })
    (step : ∀ t a s r s', (terms D).inv s → (terms D).ok t a s → P t a s → exec t a s = some (r, s') → J s → J s')
    (run : M.machine.Along (Machine.Meets P) (Menu.start d) c) : J c.shared :=
  (kept_start kept.stable always inv view).along kept.honours start
    (fun t a s r s' inv ok met ran _ => step t a s r s' inv ok met ran) run

end Menu

/-- Only an operation changes the data. -/
theorem exec_data {t : Thread} {a : Act O} {s s' : State O} {r : Res a} (ran : exec t a s = some (r, s')) :
    s'.data = s.data ∨ ∃ x r', a = .op x ∧ O.perform t x s.data s.waits = some (r', s'.data) := by
  cases a with
  | op x =>
    obtain ⟨⟨r', d'⟩, done, same⟩ := Option.map_eq_some_iff.mp ran
    cases same
    exact .inr ⟨x, _, rfl, done⟩
  | acquire lk =>
    simp only [exec] at ran
    split at ran
    case isTrue =>
      cases ran
      exact .inl rfl
    case isFalse => cases ran
  | release lk | sleepsOn q c | sleeps q | setRunnable q | setKilled q =>
    cases ran
    exact .inl rfl
  | cut => cases ran
  | resume =>
    cases t with
    | intr n => cases ran
    | proc p =>
      simp only [exec, State.performProc] at ran
      split at ran
      case isTrue =>
        cases ran
        exact .inl rfl
      case isFalse => cases ran
  | doze | setChan | setSleeping | swtch | killed =>
    cases t with
    | intr n => cases ran
    | proc p =>
      cases ran
      exact .inl rfl

/-- Whoever is asleep waits. -/
theorem waits_of_kept {c : Conf Thread (Act O) Res (State O)} {idle : Thread → State O → Prop} {q : Slot} {ch : O.Chan}
    (kept : c.Kept (terms D) exec idle) (asleep : c.shared.state q = .SLEEPING) (chan : c.shared.chan q = some ch) :
    c.shared.waits q = some ch := kept.1.2.2.waits q ch asleep chan

end Xv6Labs.Monitor
