import Xv6Labs.Monitor.Robust

/-!
# Sleep-locks

`sleeplock.c`: `locked` and `pid` under the spinlock of the sleep-lock. `pids` is the pid of each process. A process
calls `releasesleep` between its `acquiresleep` and its next `releasesleep`; anything else may be called at any time.
A loop that goes on for longer than its `fuel` is cut off.
-/

namespace Xv6Labs.Sleeplocks

open Threads Prog Monitor
open Proc (Slot)

/-- `lk` -/
inductive Chan where
  | lk
deriving DecidableEq

/-- `between` is a history variable: who has set `locked` in `acquiresleep`, and not cleared it in `releasesleep`. -/
structure Sleeplock where
  locked : Bool := false
  pid : ℤ := 0
  between : Slot → Bool := fun _ => false

inductive Op where
  | locked
  | pid
  | setLocked (v : Bool)
  | setPid (v : ℤ)

def Op.Res : Op → Type
  | .locked => Bool
  | .pid => ℤ
  | _ => Unit

def Sleeplock.setLocked (lk : Sleeplock) (p : Slot) (v : Bool) : Sleeplock :=
  { lk with locked := v, between := Function.update lk.between p v }

def perform : Thread → (x : Op) → Sleeplock → Option (Op.Res x × Sleeplock)
  | _, .locked, lk => some (lk.locked, lk)
  | _, .pid, lk => some (lk.pid, lk)
  | .proc p, .setLocked v, lk => some ((), lk.setLocked p v)
  | .intr _, .setLocked _, _ => none
  | _, .setPid v, lk => some ((), { lk with pid := v })

abbrev sleeplock : Object where
  Data := Sleeplock
  Chan := Chan
  decEq := inferInstance
  Op := Op
  Res := Op.Res
  perform t x lk _ := perform t x lk

def look (x : Op) : Code sleeplock (Op.Res x) := op (O := sleeplock) x

/-- The `while` of `acquiresleep`. -/
def awaitUnlocked (p : Slot) : ℕ → Code sleeplock Unit
  | 0 => cut
  | fuel + 1 => do
    let locked : Bool ← look .locked
    if locked = true then
      sleep (O := sleeplock) p Chan.lk
      awaitUnlocked p fuel
    else
      pure ()

def acquiresleep (pids : Slot → ℤ) (p : Slot) (fuel : ℕ) : Code sleeplock Unit := do
  acquire .cond
  awaitUnlocked p fuel
  look (.setLocked true)
  look (.setPid (pids p))
  release .cond

def releasesleep : Code sleeplock Unit := do
  acquire .cond
  look (.setLocked false)
  look (.setPid 0)
  wakeup (O := sleeplock) Chan.lk
  release .cond

def samePid (pids : Slot → ℤ) (p : Slot) (locked : Bool) : Code sleeplock Bool :=
  if locked = true then do
    let pid : ℤ ← look .pid
    pure (decide (pid = pids p))
  else
    pure false

def holdingsleep (pids : Slot → ℤ) (p : Slot) : Code sleeplock Bool := do
  acquire .cond
  let locked : Bool ← look .locked
  let r ← samePid pids p locked
  release .cond
  pure r

inductive Call where
  | acquiresleep (fuel : ℕ)
  | releasesleep
  | holdingsleep
  | kill (target : Option Slot)

def menu (pids : Slot → ℤ) : Menu sleeplock where
  Call := Call
  body
    | .proc p, .acquiresleep fuel => acquiresleep pids p fuel
    | .proc _, .releasesleep => releasesleep
    | .proc p, .holdingsleep => holdingsleep pids p >>= fun _ => pure ()
    | .proc _, .kill target => Monitor.kill target
    | .intr _, _ => pure ()
  offers
    | .proc p, .releasesleep, lk => lk.between p
    | .proc _, _, _ => true
    | .intr _, _, _ => false

def boot : Conf Thread (Act sleeplock) Monitor.Res (Monitor.State sleeplock) := Menu.start {}

variable {pids : Slot → ℤ} {lk lk' : Sleeplock} {w : Waits sleeplock} {t : Thread} {p : Slot}
  {c : Conf Thread (Act sleeplock) Monitor.Res (Monitor.State sleeplock)}

/-! ### The contract -/

def Exclusive (lk : Sleeplock) : Prop := ∀ p, lk.between p = true → lk.locked = true ∧ ∀ q, lk.between q = true → q = p

structure Orderly (pids : Slot → ℤ) (lk : Sleeplock) (w : Waits sleeplock) : Prop where
  waits : lk.locked = false → ∀ q, w q ≠ some Chan.lk
  holder : lk.locked = true → ∃ p, lk.between p = true ∧ lk.pid = pids p

/-- Nobody writes to a sleep-lock without its spinlock; whether a process holds the sleep-lock is up to that process. -/
def duty (pids : Slot → ℤ) : Duty sleeplock where
  always := Exclusive
  inv := Orderly pids
  shrink orderly sub := ⟨fun locked q there => orderly.waits locked q (sub q _ there), orderly.holder⟩
  drift lk lk' := lk' = lk
  drift_refl _ := rfl
  drift_trans same same' := same'.trans same
  view t lk lk' := ∀ p, t = .proc p → lk'.between p = lk.between p
  view_refl _ _ _ _ := rfl
  view_trans _ _ _ _ same same' p mine := (same' p mine).trans (same p mine)
  drift_view _ _ _ same p _ := by rw [same]
  ok _ _ _ := True

theorem robust_orderly : Robust (duty pids) (Orderly pids) where
  drift _ _ _ same orderly := by
    rw [same]
    exact orderly
  sub _ _ _ sub orderly := (duty pids).shrink orderly sub

/-- A fact about the sleep-lock alone. -/
theorem robust_data (V : Sleeplock → Prop) : Robust (duty pids) fun lk _ => V lk where
  drift _ _ _ same fact := by
    rw [same]
    exact fact
  sub _ _ _ _ fact := fact

theorem triple_locked (V : Sleeplock → Prop) (stable : ∀ lk lk', (duty pids).view t lk lk' → V lk → V lk') :
    Triple (duty pids) t (Knows t [] fun lk _ => V lk) (acquire .cond) fun _ => Knows t [.cond] fun lk w =>
      Orderly pids lk w ∧ V lk := by
  refine (triple_acquire stable).mono (fun _ _ knows => knows) fun _ s _ inside => ?_
  obtain ⟨lk, w, ⟨-, orderly, fact⟩, inside⟩ := inside
  refine inside.imp fun lk' w' now => ?_
  obtain ⟨rfl, sub⟩ := now
  exact ⟨(duty pids).shrink orderly sub, fact⟩

theorem triple_unlock : Triple (duty pids) t (Knows t [.cond] (Orderly pids)) (release .cond) fun _ => Outside t :=
  triple_leave robust_orderly fun _ _ _ orderly => orderly

/-! ### The calls -/

theorem triple_awaitUnlocked (fuel : ℕ) :
    Triple (duty pids) (.proc p) (Knows (.proc p) [.cond] (Orderly pids)) (awaitUnlocked p fuel) fun _ =>
      Knows (.proc p) [.cond] fun lk _ => lk.locked = false := by
  induction fuel with
  | zero => exact triple_cut
  | succ fuel ih =>
    unfold awaitUnlocked
    refine (triple_looks (O := sleeplock) .locked Sleeplock.locked (fun _ _ => rfl) (fun _ => trivial)
      (fun _ _ same => congrArg _ same) robust_orderly).bind fun locked => ?_
    have looked : Robust (duty pids) fun lk w => Orderly pids lk w ∧ lk.locked = locked :=
      robust_orderly.and fun lk lk' same fact => same ▸ fact
    cases locked with
    | false => exact (triple_keep looked).mono (fun _ _ knows => knows) fun _ _ _ knows =>
        knows.imp fun _ _ => And.right
    | true =>
      refine (triple_rest (V := fun _ => True) (fun _ _ _ => id) looked robust_orderly (fun lk w _ fact => ?_)
        (fun _ _ _ => trivial)
        fun _ _ _ orderly _ => orderly).bind fun _ => ih
      exact ⟨fun unlocked => Bool.noConfusion (fact.2.symm.trans unlocked), fact.1.holder⟩

theorem triple_setLocked_true :
    Triple (duty pids) (.proc p) (Knows (.proc p) [.cond] fun lk _ => lk.locked = false)
    (look (.setLocked true)) fun _ =>
      Knows (.proc p) [.cond] fun lk _ => lk.locked = true ∧ lk.between p = true := by
  refine triple_op (robust_data _).lasts (fun _ => (robust_data _).lasts) fun lk w exclusive unlocked =>
    ⟨trivial, fun r lk' ran => ?_⟩
  cases ran
  have nobody (q : Slot) : lk.between q ≠ true :=
    fun held => Bool.noConfusion (unlocked.symm.trans (exclusive q held).1)
  have mine : (lk.setLocked p true).between p = true := Function.update_self ..
  have other {q : Slot} (ne : q ≠ p) : (lk.setLocked p true).between q = lk.between q := Function.update_of_ne ne ..
  have only {q : Slot} (held : (lk.setLocked p true).between q = true) : q = p := by
    by_contra ne
    exact nobody q ((other ne).symm.trans held)
  refine ⟨fun q held => ⟨rfl, fun q' held' => (only held').trans (only held).symm⟩, fun u apart q same => ?_, rfl, mine⟩
  refine other ?_
  rintro rfl
  exact apart same

theorem triple_setLocked_false :
    Triple (duty pids) (.proc p) (Knows (.proc p) [.cond] fun lk _ => lk.between p = true)
    (look (.setLocked false)) fun _ =>
      Knows (.proc p) [.cond] fun lk _ => lk.locked = false := by
  refine triple_op (robust_data _).lasts (fun _ => (robust_data _).lasts) fun lk w exclusive held =>
    ⟨trivial, fun r lk' ran => ?_⟩
  cases ran
  have gone : (lk.setLocked p false).between p = false := Function.update_self ..
  have other {q : Slot} (ne : q ≠ p) : (lk.setLocked p false).between q = lk.between q := Function.update_of_ne ne ..
  refine ⟨fun q held' => ?_, fun u apart q same => other ?_, rfl⟩
  · by_cases same : q = p
    · subst same
      cases gone.symm.trans held'
    · exact absurd ((exclusive p held).2 q ((other same).symm.trans held')) same
  · rintro rfl
    exact apart same

theorem triple_setPid {v : ℤ} {V : Sleeplock → Prop} (blind : ∀ lk, V lk → V { lk with pid := v }) :
    Triple (duty pids) t (Knows t [.cond] fun lk _ => V lk) (look (.setPid v)) fun _ =>
      Knows t [.cond] fun lk _ => V lk ∧ lk.pid = v := by
  refine triple_op (robust_data _).lasts (fun _ => (robust_data _).lasts) fun lk w exclusive fact =>
    ⟨trivial, fun r lk' ran => ?_⟩
  cases t <;> cases ran <;> exact ⟨exclusive, fun _ _ _ _ => rfl, blind lk fact, rfl⟩

theorem triple_acquiresleep (fuel : ℕ) :
    Triple (duty pids) (.proc p) (Outside (.proc p)) (acquiresleep pids p fuel) fun _ => Outside (.proc p) := by
  have entered : Triple (duty pids) (.proc p) (Outside (.proc p)) (acquire .cond) fun _ =>
    Knows (.proc p) [.cond] (Orderly pids) :=
    triple_enter robust_orderly fun _ _ _ orderly => orderly
  refine entered.bind fun _ => (triple_awaitUnlocked fuel).bind fun _ => triple_setLocked_true.bind fun _ =>
    (triple_setPid fun _ fact => fact).bind fun _ =>
      triple_unlock.mono (fun s _ knows => knows.imp fun lk w fact => ?_) fun _ _ _ there => there
  obtain ⟨⟨locked, mine⟩, pid⟩ := fact
  exact ⟨fun unlocked => Bool.noConfusion (locked.symm.trans unlocked), fun _ => ⟨p, mine, pid⟩⟩

theorem triple_releasesleep :
    Triple (duty pids) (.proc p) (Knows (.proc p) [] fun lk _ => lk.between p = true) releasesleep fun _ =>
      Outside (.proc p) := by
  have entered : Triple (duty pids) (.proc p) (Knows (.proc p) [] fun lk _ => lk.between p = true)
    (acquire .cond) fun _ =>
      Knows (.proc p) [.cond] fun lk w => Orderly pids lk w ∧ lk.between p = true :=
    triple_locked _ fun _ _ view mine => (view p rfl).trans mine
  refine entered.bind fun _ => (triple_setLocked_false.mono
    (fun _ _ knows => knows.imp fun _ _ => And.right) fun _ _ _ there => there).bind
    fun _ => (triple_setPid fun _ fact => fact).bind fun _ => (triple_wakeup (robust_data _).lasts).bind fun _ =>
      triple_unlock.mono (fun s _ knows => knows.imp fun lk w fact => ?_) fun _ _ _ there => there
  obtain ⟨⟨unlocked, -⟩, awake⟩ := fact
  exact ⟨fun _ => awake, fun locked => Bool.noConfusion (unlocked.symm.trans locked)⟩

theorem triple_holdingsleep :
    Triple (duty pids) (.proc p) (Outside (.proc p)) (holdingsleep pids p) fun _ => Outside (.proc p) := by
  have entered : Triple (duty pids) (.proc p) (Outside (.proc p)) (acquire .cond) fun _ =>
    Knows (.proc p) [.cond] (Orderly pids) :=
    triple_enter robust_orderly fun _ _ _ orderly => orderly
  have left (r : Bool) : Triple (duty pids) (.proc p) (Knows (.proc p) [.cond] (Orderly pids))
    (release .cond >>= fun _ => pure r)
      fun _ => Outside (.proc p) := triple_unlock.bind fun _ => triple_done
  refine entered.bind fun _ => (triple_glance (O := sleeplock) .locked Sleeplock.locked (fun _ _ => rfl)
    (fun _ => trivial)
    robust_orderly).bind fun locked => ?_
  cases locked with
  | false => exact left false
  | true =>
    refine (triple_glance (O := sleeplock) .pid Sleeplock.pid (fun _ _ => rfl)
      (fun _ => trivial) robust_orderly).bind fun pid => ?_
    exact left _

/-! ### Runs -/

theorem menu_keeps : (menu pids).Keeps (duty pids) fun _ _ => True where
  stable _ _ _ _ := id
  calls := by
    intro t k s offered inv idle
    cases t with
    | intr n => cases offered
    | proc p =>
      cases k with
      | acquiresleep fuel => exact triple_acquiresleep fuel s inv idle
      | releasesleep => exact triple_releasesleep s inv ⟨idle.owns, idle.running, offered⟩
      | holdingsleep => exact (triple_holdingsleep.bind fun _ => triple_done) s inv idle
      | kill target => exact triple_kill target (Lasts.outside fun _ _ _ => id) s inv idle

theorem kept_of_runs (run : (menu pids).machine.Runs boot c) :
    c.Kept (terms (duty pids)) exec (Menu.Idle fun _ _ => True) := by
  refine menu_keeps.runs (fun p held => ?_) ⟨fun _ q there => ?_, fun locked => ?_⟩ (fun _ => trivial) run
  · cases held
  · cases there
  · cases locked

theorem sleeplock_excludes (run : (menu pids).machine.Runs boot c) :
    (∀ p q, c.shared.data.between p = true → c.shared.data.between q = true → p = q) ∧
    (c.shared.owner .cond = none → c.shared.data.locked = false → ∀ q, c.shared.state q = .SLEEPING →
      c.shared.chan q ≠ some Chan.lk) ∧
    (c.shared.owner .cond = none → c.shared.data.locked = true → ∃ p, c.shared.data.between p = true ∧
      c.shared.data.pid = pids p) := by
  have kept := kept_of_runs run
  have exclusive : Exclusive c.shared.data := kept.1.1
  have orderly (free : c.shared.owner .cond = none) : Orderly pids c.shared.data c.shared.waits := kept.1.2.1 free
  refine ⟨fun p q held held' => (exclusive q held').2 p held, fun free unlocked q asleep chan => ?_,
    fun free => (orderly free).holder⟩
  exact (orderly free).waits unlocked q (waits_of_kept kept asleep chan)

def acts (p : Slot) (n : ℕ) : List (Move Thread (Thread × Call)) := List.replicate n (.act (.proc p))

def begin (p : Slot) (k : Call) : Move Thread (Thread × Call) := .call (.proc p) (.proc p, k)

def contend : List (Move Thread (Thread × Call)) :=
  begin 0 (.acquiresleep 1) :: acts 0 5 ++ begin 1 (.acquiresleep 1) :: acts 1 7

/-- The second process sleeps while the first has the lock. -/
theorem sleeplock_excludes_two : ∃ c, (menu fun p => p + 1).machine.Runs boot c ∧
    c.shared.state 1 = .SLEEPING ∧ c.shared.chan 1 = some Chan.lk ∧ c.shared.data.locked = true ∧
    ∀ q, c.shared.data.between q = true → q = 0 := by
  have found : (((menu fun p => p + 1).machine.play contend boot).any fun c => decide (c.shared.state 1 = .SLEEPING ∧
      c.shared.chan 1 = some Chan.lk ∧ c.shared.data.locked = true ∧ c.shared.data.between 0 = true)) = true := by
    decide +kernel
  obtain ⟨c, run, now⟩ := Machine.exists_of_play found
  obtain ⟨asleep, chan, locked, held⟩ := of_decide_eq_true now
  exact ⟨c, run, asleep, chan, locked, fun q held' => (sleeplock_excludes run).1 q 0 held' held⟩

end Xv6Labs.Sleeplocks
