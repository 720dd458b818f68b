import Xv6Labs.Lib.Machine
import Xv6Labs.Param

/-!
# Processes, CPUs and locks

The process table, the CPUs and the spinlocks of `proc.c`, `spinlock.c`, `sleeplock.c` and `trap.c`, and what one
access to them does. `thread` is the kernel thread a CPU executes: its scheduler, or the one of a process; `swtch`
changes it. A spinlock belongs to a CPU, as in `lk->cpu`, and so passes through `swtch` with it.
-/

namespace Xv6Labs.Proc

open Threads

abbrev Slot : Type := Fin nproc

abbrev Core : Type := Fin ncpu

inductive ProcState where
  | UNUSED | SLEEPING | RUNNABLE | RUNNING | ZOMBIE
  deriving DecidableEq, Repr

/-- What `sleep` sleeps on: an address. -/
inductive Chan where
  | proc (p : Slot)
  | sleeplock (n : ℕ)
  | other (n : ℕ)
  deriving DecidableEq, Repr

inductive Lock where
  | proc (p : Slot)
  | pid
  | sleeplock (n : ℕ)
  | other (n : ℕ)
  deriving DecidableEq, Repr

/-- `birth` numbers the processes in the order of their `allocproc`; the code does not have it. -/
structure Process where
  state : ProcState := .UNUSED
  parent : Option Slot := none
  chan : Option Chan := none
  xstate : Int := 0
  pid : Int := 0
  birth : ℕ := 0
  deriving DecidableEq, Repr

structure Cpu where
  proc : Option Slot := none
  thread : Option Slot := none
  noff : ℕ := 0

inductive Satp where
  | kernel
  | process (page : ℕ)
  | user (p : Slot)
  deriving DecidableEq, Repr

/-- The registers of a CPU, and `intena` of its `struct cpu`. -/
structure Hart where
  intena : Bool := false
  sie : Bool := false
  user : Bool := false
  satp : Satp := .kernel

structure Sleeplock where
  locked : Bool := false
  pid : Int := 0

/-- What system calls did, for processes by their births. -/
inductive Event where
  | forked (child : ℕ) (pid : Int)
  | exited (child : ℕ) (status : Int)
  | waited (parent : Slot) (child : ℕ) (pid : Int) (status : Option Int)
  deriving DecidableEq, Repr

/-- What a process in `exit` has in its local variables: the status, and the parent as it was read. -/
structure Notes where
  leaving : Option Int := none
  remembered : Option Slot := none
  deriving DecidableEq

structure Table where
  proc : Slot → Process := fun _ => {}
  cpu : Core → Cpu := fun _ => {}
  owner : Lock → Option Core := fun _ => none
  initproc : Option Slot := none
  births : ℕ := 1
  notes : Slot → Notes := fun _ => {}

/-- `killed` is apart from the rest of `struct proc`, because `usertrap` sets it without the lock; `kpgtbl` is the
root page of the kernel page table of Lab 4, and `kernelSatp` a field of the trapframe. History variables: `waits` is
the channel of a `sleep` until something wakes it, `inside` the sleep-locks a process is inside of. -/
structure Kernel extends Table where
  hart : Core → Hart := fun _ => {}
  nextpid : Int := 1
  killed : Slot → Bool := fun _ => false
  sleeplock : ℕ → Sleeplock := fun _ => {}
  kpgtbl : Slot → Option ℕ := fun _ => none
  kernelSatp : Slot → Satp := fun _ => .kernel
  started : Bool := false
  first : Bool := true
  waits : Slot → Option Chan := fun _ => none
  inside : Slot → List ℕ := fun _ => []
  history : List Event := []

inductive Thread where
  | sched (c : Core)
  | proc (p : Slot)
  deriving DecidableEq, Repr

inductive Field where
  | state (v : ProcState)
  | parent (v : Option Slot)
  | chan (v : Option Chan)
  | xstate (v : Int)
  | pid (v : Int)

def Field.write : Field → Process → Process
  | state v, p => { p with state := v }
  | parent v, p => { p with parent := v }
  | chan v, p => { p with chan := v }
  | xstate v, p => { p with xstate := v }
  | pid v, p => { p with pid := v }

inductive Msg where
  | null | wakeup1 | initExiting | zombieExit | schedLock | schedLocks | schedRunning | schedInterruptible | pvmmap
  deriving DecidableEq, Repr

inductive Act where
  -- spinlock.c
  | acquire (lk : Lock)
  | release (lk : Lock)
  | holding (lk : Lock)
  | intrGet
  | intrOn
  | intrOff
  | noff
  | intena
  | setIntena (b : Bool)
  -- the process table and `c->proc`
  | myproc
  | setProc (p : Option Slot)
  | look (p : Slot)
  | set (p : Slot) (f : Field)
  | killed (p : Slot)
  /-- With the argument of `kill`, if `kill` does it. -/
  | setKilled (p : Slot) (pid : Option Int)
  /-- With what `wait` returns and stores, if `wait` does it. -/
  | freeproc (p : Slot) (returned : Option (Int × Option Int))
  | context (p : Slot)
  | nextpid
  | setNextpid (v : Int)
  | initproc
  | setInitproc (p : Slot)
  -- swtch, from the scheduler and back to it
  | swtchTo (p : Slot)
  | swtchBack
  -- sleeplock.c
  | locked (n : ℕ)
  | setLocked (n : ℕ) (b : Bool)
  | lockPid (n : ℕ)
  | setLockPid (n : ℕ) (pid : Int)
  -- page tables and trapframes
  | pvminit (p : Slot) (page : ℕ)
  | pvminithart (p : Slot)
  | kvminithart
  | copyTrapframe (np p : Slot)
  | uservec
  | usertrapret (p : Slot)
  -- main.c and forkret
  | started
  | setStarted
  | first
  | panic (m : Msg)
  /-- A loop that the model follows no further. -/
  | cut
  -- history
  | remember (p : Slot) (parent : Option Slot)
  | unstored (np : Slot)
  | intend (p : Slot) (chan : Chan)
  | record (e : Event)

abbrev Res : Act → Type
  | .holding _ | .intrGet | .intena | .killed _ | .locked _ | .first => Bool
  | .noff => ℕ
  | .myproc | .initproc => Option Slot
  | .look _ => Process
  | .nextpid | .lockPid _ => Int
  | .panic _ | .cut => Empty
  | _ => Unit

abbrev Code : Type → Type := Prog Act Res

/-- `int` arithmetic wraps around. -/
def int32 (v : Int) : Int := v.bmod (2 ^ 32)

namespace Kernel

variable (s : Kernel)

def putProc (p : Slot) (v : Process) : Kernel := { s with proc := Function.update s.proc p v }

def putCpu (c : Core) (v : Cpu) : Kernel := { s with cpu := Function.update s.cpu c v }

def putHart (c : Core) (v : Hart) : Kernel := { s with hart := Function.update s.hart c v }

@[simp] theorem putHart_self (c : Core) (v : Hart) : (s.putHart c v).hart c = v := Function.update_self ..

theorem putHart_of_ne {c d : Core} (h : d ≠ c) (v : Hart) : (s.putHart c v).hart d = s.hart d :=
  Function.update_of_ne h ..

@[simp] theorem putCpu_self (c : Core) (v : Cpu) : (s.putCpu c v).cpu c = v := Function.update_self ..

theorem putCpu_of_ne {c d : Core} (h : d ≠ c) (v : Cpu) : (s.putCpu c v).cpu d = s.cpu d :=
  Function.update_of_ne h ..

def pushOff (c : Core) : Kernel :=
  let old := (s.hart c).sie
  let intena := if (s.cpu c).noff = 0 then old else (s.hart c).intena
  (s.putHart c { s.hart c with sie := false, intena }).putCpu c { s.cpu c with noff := (s.cpu c).noff + 1 }

def popOff (c : Core) : Kernel :=
  let noff := (s.cpu c).noff - 1
  let sie := if noff = 0 ∧ (s.hart c).intena then true else (s.hart c).sie
  (s.putHart c { s.hart c with sie }).putCpu c { s.cpu c with noff }

def setOwner (lk : Lock) (c : Option Core) : Kernel := { s with owner := Function.update s.owner lk c }

/-- The history of a write to `p->state`: whoever makes `p` RUNNABLE wakes it. -/
def wake (p : Slot) : Field → Kernel
  | .state .RUNNABLE => { s with waits := Function.update s.waits p none }
  | _ => s

@[simp] theorem wake_toTable (p : Slot) (f : Field) : (s.wake p f).toTable = s.toTable := by
  unfold wake
  split <;> rfl

@[simp] theorem wake_hart (p : Slot) (f : Field) : (s.wake p f).hart = s.hart := by
  unfold wake
  split <;> rfl

/-- The history of `freeproc` in `wait`. -/
def reap (c : Core) (np : Slot) : Option (Int × Option Int) → Kernel
  | none => s
  | some (pid, status) =>
    match (s.cpu c).thread with
    | some p => { s with history := s.history ++ [.waited p (s.proc np).birth pid status] }
    | none => s

@[simp] theorem reap_toTable (c : Core) (np : Slot) (r : Option (Int × Option Int)) :
    (s.reap c np r).toTable = s.toTable := by
  unfold reap
  split
  · rfl
  · split <;> rfl

@[simp] theorem reap_hart (c : Core) (np : Slot) (r : Option (Int × Option Int)) : (s.reap c np r).hart = s.hart := by
  unfold reap
  split
  · rfl
  · split <;> rfl

def note (p : Slot) (v : Notes) : Kernel := { s with notes := Function.update s.notes p v }

def record (c : Core) (e : Event) : Kernel :=
  let s' : Kernel := { s with history := s.history ++ [e] }
  match e, (s.cpu c).thread with
  | .exited _ status, some p => s'.note p { s.notes p with leaving := some status }
  | _, _ => s'

/-- The history of a write to `lk->locked`. -/
def within (c : Core) (n : ℕ) (b : Bool) : Kernel :=
  match (s.cpu c).thread with
  | some p =>
    let ns := if b then n :: s.inside p else (s.inside p).erase n
    { s with inside := Function.update s.inside p ns }
  | none => s

@[simp] theorem within_toTable (c : Core) (n : ℕ) (b : Bool) : (s.within c n b).toTable = s.toTable := by
  unfold within
  split <;> rfl

@[simp] theorem within_hart (c : Core) (n : ℕ) (b : Bool) : (s.within c n b).hart = s.hart := by
  unfold within
  split <;> rfl

/-- What code on CPU `c` does. -/
def perform (c : Core) : (a : Act) → Option (Res a × Kernel)
  | .acquire lk => if s.owner lk = none then some ((), (s.pushOff c).setOwner lk (some c)) else none
  | .release lk =>
    if s.owner lk = some c ∧ (s.hart c).sie = false ∧ 1 ≤ (s.cpu c).noff then
      some ((), (s.setOwner lk none).popOff c)
    else none
  | .holding lk => some (decide (s.owner lk = some c), s)
  | .intrGet => some ((s.hart c).sie, s)
  | .intrOn => some ((), s.putHart c { s.hart c with sie := true })
  | .intrOff => some ((), s.putHart c { s.hart c with sie := false })
  | .noff => some ((s.cpu c).noff, s)
  | .intena => some ((s.hart c).intena, s)
  | .setIntena b => some ((), s.putHart c { s.hart c with intena := b })
  | .myproc => some ((s.cpu c).proc, s)
  | .setProc p => some ((), s.putCpu c { s.cpu c with proc := p })
  | .look p => some (s.proc p, s)
  | .set p f => some ((), (s.wake p f).putProc p (f.write (s.proc p)))
  | .killed p => some (s.killed p, s)
  | .setKilled p _ => some ((), { s with killed := Function.update s.killed p true })
  | .freeproc p r =>
    let s := s.reap c p r
    some ((), { s.putProc p {} with
      killed := Function.update s.killed p false
      kpgtbl := Function.update s.kpgtbl p none
      inside := Function.update s.inside p [] })
  | .context p =>
    some ((), { (s.note p {}).putProc p { s.proc p with birth := s.births } with births := s.births + 1 })
  | .nextpid => some (s.nextpid, s)
  | .setNextpid v => some ((), { s with nextpid := v })
  | .initproc => some (s.initproc, s)
  | .setInitproc p => some ((), { s with initproc := some p })
  | .swtchTo p => some ((), s.putCpu c { s.cpu c with thread := some p })
  | .swtchBack => some ((), s.putCpu c { s.cpu c with thread := none })
  | .locked n => some ((s.sleeplock n).locked, s)
  | .setLocked n b =>
    let s := s.within c n b
    some ((), { s with sleeplock := Function.update s.sleeplock n { s.sleeplock n with locked := b } })
  | .lockPid n => some ((s.sleeplock n).pid, s)
  | .setLockPid n pid =>
    some ((), { s with sleeplock := Function.update s.sleeplock n { s.sleeplock n with pid } })
  | .pvminit p page =>
    -- kalloc returns a page that is not in use
    if ∀ q, s.kpgtbl q ≠ some page then
      some ((), { s with kpgtbl := Function.update s.kpgtbl p (some page) })
    else none
  | .pvminithart p =>
    match s.kpgtbl p with
    | some page => some ((), s.putHart c { s.hart c with satp := .process page })
    | none => none
  | .kvminithart => some ((), s.putHart c { s.hart c with satp := .kernel })
  | .copyTrapframe np p => some ((), { s with kernelSatp := Function.update s.kernelSatp np (s.kernelSatp p) })
  | .uservec =>
    match (s.hart c).satp with
    | .user p => some ((), s.putHart c { s.hart c with satp := s.kernelSatp p, user := false, sie := false })
    | _ => none
  | .usertrapret p =>
    some ((), { s.putHart c { s.hart c with satp := .user p, user := true } with
      kernelSatp := Function.update s.kernelSatp p (s.hart c).satp })
  | .started => if s.started then some ((), s) else none
  | .setStarted => some ((), { s with started := true })
  | .first => some (s.first, { s with first := false })
  | .panic _ => none
  | .cut => none
  | .remember p o => some ((), s.note p { s.notes p with remembered := o })
  | .unstored _ => some ((), s)
  | .intend p chan => some ((), { s with waits := Function.update s.waits p (some chan) })
  | .record e => some ((), s.record c e)

/-- The CPU that executes a thread. -/
def on : Thread → Option Core
  | .sched c => if (s.cpu c).thread = none then some c else none
  | .proc p => (List.finRange ncpu).find? fun c => (s.cpu c).thread = some p

end Kernel

def exec (t : Thread) (a : Act) (s : Kernel) : Option (Res a × Kernel) :=
  match s.on t with
  | none => none
  | some c => s.perform c a

end Xv6Labs.Proc
