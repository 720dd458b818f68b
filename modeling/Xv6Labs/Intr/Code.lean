import Xv6Labs.Proc.State

/-!
# `push_off` and `pop_off`, one access at a time

`spinlock.c`, and `scheduler` and `sched` of `proc.c`, as far as interrupts and locks go. Each step is made by one
CPU on the kernel thread that it runs, in any order. Between two calls a thread does what it likes, as long as it
does not undo more `push_off`s than there are; when interrupts are enabled one may come at any point, and its handler
is such code too.
-/

namespace Xv6Labs.Intr

open Proc (ProcState)

inductive Lock (P L : Type) where
  | proc (p : P)
  | other (l : L)
deriving DecidableEq

/-- A kernel thread: the scheduler of a CPU, or that of a process. -/
inductive Thread (C P : Type) where
  | scheduler (c : C)
  | proc (p : P)
deriving DecidableEq

/-- `struct cpu`, and whether interrupts are enabled there. -/
structure Cpu (P : Type) where
  intr : Bool := false
  noff : ℤ := 0
  intena : Bool := false
  proc : Option P := none

inductive Panic where
  | acquire | release | interruptible | popOff | schedLock | schedLocks | schedRunning | schedInterruptible
deriving DecidableEq

/-- Where a thread is between two calls: in `scheduler`, before the processes `rest`, with the lock of `p`, or in its
`swtch`; or in any other code. -/
inductive Place (P : Type) where
  | code
  | visit (rest : List P)
  | locked (p : P) (rest : List P)
  | away (p : P) (rest : List P)
deriving DecidableEq

/-- A call of `push_off` that no `pop_off` has undone: who made it, and whether interrupts were enabled then. Not in
the code. -/
structure Push (C P : Type) where
  thread : Thread C P
  enabled : Bool
deriving DecidableEq

/-- The next step of a thread. `enabled` and `outer` only remember what interrupts were at the `push_off`; `k` is
where it was called. -/
inductive Pc (C P L : Type) where
  | between (k : Place P)
  -- `push_off`, before `intr_get`, `intr_off`, the test of `noff` and `noff += 1`
  | pushGet (enabled : Bool) (lk : Option (Lock P L)) (k : Place P)
  | pushClear (old enabled : Bool) (lk : Option (Lock P L)) (k : Place P)
  | pushSave (old enabled : Bool) (lk : Option (Lock P L)) (k : Place P)
  | pushCount (enabled : Bool) (lk : Option (Lock P L)) (k : Place P)
  -- `acquire`, before `holding` and in its loop
  | holding (lk : Lock P L) (k : Place P)
  | spin (lk : Lock P L) (k : Place P)
  -- `pop_off`, with `struct cpu *c`, before the tests, `noff -= 1`, the test of `intena` and the return
  | popCheck (c : C) (k : Place P)
  | popCount (c : C) (k : Place P)
  | popSet (c : C) (outer : Option (Push C P)) (k : Place P)
  | popReturn (outer : Option (Push C P)) (k : Place P)
  -- a context that starts in `forkret`; `sched`, with the local `intena`, in or after `swtch`
  | fresh
  | switched (intena : Bool)
  | panic (why : Panic)
deriving DecidableEq

/-- `behind` is what interrupts have interrupted, the last first. -/
structure Context (C P L : Type) where
  pc : Pc C P L
  behind : List (Pc C P L) := []
  unmatched : List (Push C P) := []

/-- What `swtch` goes on with. A new thread starts in `forkret`, and its first `release` undoes the `push_off` of the
scheduler's `acquire`. -/
def Context.entered (th : Context C P L) (pushed : List (Push C P)) : Context C P L :=
  match th.pc with
  | .fresh => { pc := .between .code, unmatched := pushed }
  | _ => th

structure State (C P L : Type) where
  cpu : C → Cpu P
  on : C → Thread C P
  /-- The CPU that holds a lock. -/
  lock : Lock P L → Option C
  state : P → ProcState
  thread : Thread C P → Context C P L

inductive Act (P L : Type) where
  /-- The next step of a call, or of `scheduler`. -/
  | go
  | pushOff
  | popOff
  | acquire (lk : Lock P L)
  | release (lk : Lock P L)
  | intrOn
  | intrOff
  | interrupt
  | sret
  /-- `myproc()->state = st`. -/
  | leave (st : ProcState)
  | sched
  | wakeup (p : P)
  | freeproc (p : P)
  /-- The end of `fork` or `userinit`. -/
  | start (p : P)
  /-- The call in `main`. -/
  | scheduler

variable {C P L : Type} [DecidableEq C] [DecidableEq P] [DecidableEq L]

namespace State

/-- The thread that runs on a CPU. -/
def here (s : State C P L) (c : C) : Context C P L := s.thread (s.on c)

def setHere (s : State C P L) (c : C) (th : Context C P L) : State C P L :=
  { s with thread := Function.update s.thread (s.on c) th }

def goto (s : State C P L) (c : C) (pc : Pc C P L) : State C P L := s.setHere c { s.here c with pc }

def setCpu (s : State C P L) (c : C) (cpu : Cpu P) : State C P L := { s with cpu := Function.update s.cpu c cpu }

def setIntr (s : State C P L) (c : C) (b : Bool) : State C P L := s.setCpu c { s.cpu c with intr := b }

def setLock (s : State C P L) (lk : Lock P L) (h : Option C) : State C P L :=
  { s with lock := Function.update s.lock lk h }

def setState (s : State C P L) (p : P) (st : ProcState) : State C P L :=
  { s with state := Function.update s.state p st }

def pushOff (s : State C P L) (c : C) (lk : Option (Lock P L)) (k : Place P) : State C P L :=
  s.goto c (.pushGet (s.cpu c).intr lk k)

def release (s : State C P L) (c : C) (lk : Lock P L) (k : Place P) : State C P L :=
  if s.lock lk = some c then (s.setLock lk none).goto c (.popCheck c k) else s.goto c (.panic .release)

/-- `swtch(&c->context, &p->context)` -/
def dispatch (s : State C P L) (c : C) (p : P) (rest : List P) : State C P L :=
  let entered := (s.thread (.proc p)).entered (s.here c).unmatched
  let s := (s.setState p .RUNNING).setCpu c { s.cpu c with proc := some p }
  let s := s.goto c (.between (.away p rest))
  { s with on := Function.update s.on c (.proc p), thread := Function.update s.thread (.proc p) entered }

def go (table : List P) (s : State C P L) (c : C) : Option (State C P L) :=
  let cpu := s.cpu c
  let th := s.here c
  match th.pc with
  | .between .code => none
  -- Its `intr_on()` before `wfi` is followed by the one at the top of the loop.
  | .between (.visit []) => some ((s.setIntr c true).goto c (.between (.visit table)))
  | .between (.visit (p :: rest)) => some (s.pushOff c (some (.proc p)) (.locked p rest))
  | .between (.locked p rest) => some (if s.state p = .RUNNABLE then
      s.dispatch c p rest else s.release c (.proc p) (.visit rest))
  | .between (.away p rest) => some ((s.setCpu c { cpu with proc := none }).release c (.proc p) (.visit rest))
  | .pushGet e lk k => some (s.goto c (.pushClear cpu.intr e lk k))
  | .pushClear old e lk k => some ((s.setIntr c false).goto c (.pushSave old e lk k))
  | .pushSave old e lk k =>
    some ((if cpu.noff = 0 then s.setCpu c { cpu with intena := old } else s).goto c (.pushCount e lk k))
  | .pushCount e lk k =>
    some ((s.setCpu c { cpu with noff := cpu.noff + 1 }).setHere c
      { th with pc := match lk with | none => .between k | some lk => .holding lk k, unmatched := ⟨s.on c, e⟩ :: th.unmatched })
  | .holding lk k => some (s.goto c (if s.lock lk = some c then .panic .acquire else .spin lk k))
  | .spin lk k => if s.lock lk = none then some ((s.setLock lk (some c)).goto c (.between k)) else none
  | .popCheck c' k =>
    some (s.goto c (if cpu.intr = true then .panic .interruptible
      else if (s.cpu c').noff < 1 then .panic .popOff else .popCount c' k))
  | .popCount c' k =>
    some ((s.setCpu c' { s.cpu c' with noff := (s.cpu c').noff - 1 }).setHere c
      { th with pc := .popSet c' th.unmatched.getLast? k, unmatched := th.unmatched.tail })
  | .popSet c' outer k =>
    some ((if (s.cpu c').noff = 0 ∧ (s.cpu c').intena = true then s.setIntr c true else s).goto c (.popReturn outer k))
  | .popReturn _ k => some (s.goto c (.between k))
  | .switched v => some ((s.setCpu c { cpu with intena := v }).goto c (.between .code))
  | .fresh => none
  | .panic _ => none

/-- `intena = mycpu()->intena; swtch(&p->context, &mycpu()->context);` -/
def swtch (s : State C P L) (c : C) : State C P L :=
  { s.goto c (.switched (s.cpu c).intena) with on := Function.update s.on c (.scheduler c) }

def sched (s : State C P L) (c : C) (p : P) : State C P L :=
  if s.lock (.proc p) ≠ some c then s.goto c (.panic .schedLock)
  else if (s.cpu c).noff ≠ 1 then s.goto c (.panic .schedLocks)
  else if s.state p = .RUNNING then s.goto c (.panic .schedRunning)
  else if (s.cpu c).intr = true then s.goto c (.panic .schedInterruptible)
  else s.swtch c

/-- The conditions of an act other than `go` and `interrupt` are what its callers see to. -/
def step (table : List P) (s : State C P L) (c : C) (a : Act P L) : Option (State C P L) :=
  let cpu := s.cpu c
  let th := s.here c
  let mine := fun lk => s.lock lk = some c
  match a with
  | .go => s.go table c
  | .interrupt =>
    if cpu.intr = true then
      some ((s.setIntr c false).setHere c { th with pc := .between .code, behind := th.pc :: th.behind }) else none
  | .sret =>
    if th.pc = .between .code ∧ th.unmatched = [] then
      match th.behind with
      | [] => none
      | pc :: behind => some ((s.setIntr c true).setHere c { th with pc, behind })
    else none
  | .pushOff => if th.pc = .between .code then some (s.pushOff c none .code) else none
  | .popOff => if th.pc = .between .code ∧ th.unmatched ≠ [] then some (s.goto c (.popCheck c .code)) else none
  | .acquire lk => if th.pc = .between .code then some (s.pushOff c (some lk) .code) else none
  | .release lk =>
    if th.pc = .between .code ∧ th.unmatched ≠ [] ∧
      (cpu.proc.all fun p => lk ≠ .proc p ∨ s.state p = .RUNNING) = true then
      some (s.release c lk .code)
    else none
  | .intrOn => if th.pc = .between .code ∧ th.unmatched = [] then some (s.setIntr c true) else none
  | .intrOff => if th.pc = .between .code then some (s.setIntr c false) else none
  | .leave st =>
    cpu.proc.bind fun p =>
      if th.pc = .between .code ∧ mine (.proc p) ∧ s.state p = .RUNNING ∧
        st ∈ [ProcState.RUNNABLE, .SLEEPING, .ZOMBIE] then
        some (s.setState p st)
      else none
  | .sched => cpu.proc.bind fun p => if th.pc = .between .code then some (s.sched c p) else none
  | .wakeup p =>
    if th.pc = .between .code ∧ mine (.proc p) ∧ s.state p = .SLEEPING then some (s.setState p .RUNNABLE) else none
  | .freeproc p =>
    if th.pc = .between .code ∧ mine (.proc p) ∧ s.state p = .ZOMBIE ∧ cpu.proc ≠ some p then
      some (s.setState p .UNUSED) else none
  | .start p =>
    if th.pc = .between .code ∧ mine (.proc p) ∧ s.state p = .UNUSED then
      some { s.setState p .RUNNABLE with thread := Function.update s.thread (.proc p) { pc := .fresh } }
    else none
  | .scheduler =>
    if th.pc = .between .code ∧ s.on c = .scheduler c ∧ th.behind = [] ∧ th.unmatched = [] then
      some ((s.setCpu c { cpu with proc := none }).goto c (.between (.visit [])))
    else none

end State

/-- All CPUs are in `main`, with interrupts off. -/
def boot : State C P L where
  cpu _ := {}
  on := .scheduler
  lock _ := none
  state _ := .UNUSED
  thread
    | .scheduler _ => { pc := .between .code }
    | .proc _ => { pc := .fresh }

def Reach (table : List P) : State C P L → Prop := Relation.ReflTransGen
    (fun s s' => ∃ c a, s.step table c a = some s') boot

def run (table : List P) : List (C × Act P L) → State C P L → Option (State C P L)
  | [], s => some s
  | (c, a) :: moves, s => (s.step table c a).bind (run table moves)

end Xv6Labs.Intr
