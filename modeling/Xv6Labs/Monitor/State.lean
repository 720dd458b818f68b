import Xv6Labs.Proc.State

/-!
# Sleeping and waking up under one lock

An object in the kernel has a spinlock, the condition lock, and channels on which processes sleep until someone changes
the object. Each acquire, each release and each access to the process table is a step. `swtch` is the switch to the
scheduler, which lets go of the lock of the process, and `resume` is the scheduler's switch back to a process that is
RUNNABLE. An interrupt, or a device, is a thread of its own.
-/

namespace Xv6Labs.Monitor

open Threads Prog
open Proc (Slot ProcState)

inductive Thread where
  | proc (p : Slot)
  | intr (n : ℕ)
deriving DecidableEq

inductive Lock where
  | cond
  | proc (p : Slot)
deriving DecidableEq

/-- What the lock is for: data, operations on it, and the channels. An operation may look at who waits on which channel,
for the history variables in the data. -/
structure Object where
  Data : Type
  Chan : Type
  decEq : DecidableEq Chan
  Op : Type
  Res : Op → Type
  perform : Thread → (x : Op) → Data → (Slot → Option Chan) → Option (Res x × Data)

instance (O : Object) : DecidableEq O.Chan := O.decEq

/-- `waits` is a history variable: the channel of a `sleep`, from where it releases the condition lock until something
wakes it. -/
structure State (O : Object) where
  data : O.Data
  owner : Lock → Option Thread := fun _ => none
  state : Slot → ProcState := fun _ => .RUNNING
  chan : Slot → Option O.Chan := fun _ => none
  killed : Slot → Bool := fun _ => false
  waits : Slot → Option O.Chan := fun _ => none

/-- `doze` is the release of the condition lock in `sleep`; `sleepsOn` and `sleeps` read `p->state` and `p->chan`. -/
inductive Act (O : Object) where
  | acquire (lk : Lock)
  | release (lk : Lock)
  | doze (c : O.Chan)
  | sleepsOn (q : Slot) (c : O.Chan)
  | sleeps (q : Slot)
  | setRunnable (q : Slot)
  | setChan (c : Option O.Chan)
  | setSleeping
  | swtch
  | resume
  | killed
  | setKilled (q : Slot)
  | op (x : O.Op)
  | cut

variable {O : Object}

def Res : Act O → Type
  | .sleepsOn _ _ | .sleeps _ | .killed => Bool
  | .op x => O.Res x
  | .cut => Empty
  | _ => Unit

abbrev Code (O : Object) (α : Type) : Type := Prog (Act O) Res α

namespace State

variable (s : State O)

def setOwner (lk : Lock) (t : Option Thread) : State O := { s with owner := Function.update s.owner lk t }

def setState (p : Slot) (v : ProcState) : State O := { s with state := Function.update s.state p v }

def setWaits (p : Slot) (c : Option O.Chan) : State O := { s with waits := Function.update s.waits p c }

def performProc (p : Slot) : (a : Act O) → Option (Res a × State O)
  | .doze c => some ((), (s.setOwner .cond none).setWaits p (some c))
  | .setChan c => some ((), { s with chan := Function.update s.chan p c })
  | .setSleeping => some ((), s.setState p .SLEEPING)
  | .swtch => some ((), s.setOwner (.proc p) none)
  | .resume =>
    if s.owner (.proc p) = none ∧ s.state p = .RUNNABLE then
      some ((), (s.setOwner (.proc p) (some (.proc p))).setState p .RUNNING)
    else none
  | .killed => some (s.killed p, s)
  | _ => none

end State

def exec (t : Thread) : (a : Act O) → State O → Option (Res a × State O)
  | .acquire lk, s => if s.owner lk = none then some ((), s.setOwner lk (some t)) else none
  | .release lk, s => some ((), s.setOwner lk none)
  | .sleepsOn q c, s => some (decide (s.state q = .SLEEPING ∧ s.chan q = some c), s)
  | .sleeps q, s => some (decide (s.state q = .SLEEPING), s)
  | .setRunnable q, s => some ((), (s.setState q .RUNNABLE).setWaits q none)
  | .setKilled q, s => some ((), { s with killed := Function.update s.killed q true })
  | .op x, s => (O.perform t x s.data s.waits).map fun (r, d) => (r, { s with data := d })
  | .cut, _ => none
  | a, s =>
    match t with
    | .proc p => s.performProc p a
    | .intr _ => none

def act (a : Act O) : Code O (Res a) := lift a

def cut {α : Type} : Code O α := .act .cut fun e => nomatch e

def acquire (lk : Lock) : Code O Unit := act (.acquire lk)

def release (lk : Lock) : Code O Unit := act (.release lk)

def op (x : O.Op) : Code O (O.Res x) := act (.op x)

def sleepsOn (q : Slot) (c : O.Chan) : Code O Bool := act (.sleepsOn q c)

def sleeps (q : Slot) : Code O Bool := act (.sleeps q)

/-- `myproc()->killed` -/
def killed : Code O Bool := act .killed

def whenever (b : Bool) (p : Code O Unit) : Code O Unit := if b then p else pure ()

/-- `sleep(chan, lk)` of `proc.c` where `lk` is the condition lock, for the process `p`. -/
def sleep (p : Slot) (c : O.Chan) : Code O Unit := do
  acquire (.proc p)
  act (.doze c)
  act (.setChan (some c))
  act .setSleeping
  act .swtch
  act .resume
  act (.setChan none)
  release (.proc p)
  acquire .cond

def wakeupAt (c : O.Chan) : List Slot → Code O Unit
  | [] => pure ()
  | q :: rest => do
    acquire (.proc q)
    whenever (← sleepsOn q c) (act (.setRunnable q))
    release (.proc q)
    wakeupAt c rest

def slots : List Slot := List.finRange nproc

def wakeup (c : O.Chan) : Code O Unit := wakeupAt c slots

/-- The loop of `kill`, where the pid is the one of `target`. -/
def killAt (target : Option Slot) : List Slot → Code O Unit
  | [] => pure ()
  | q :: rest => do
    acquire (.proc q)
    if target = some q then
      act (.setKilled q)
      whenever (← sleeps q) (act (.setRunnable q))
      release (.proc q)
    else
      release (.proc q)
      killAt target rest

def kill (target : Option Slot) : Code O Unit := killAt target slots

end Xv6Labs.Monitor
