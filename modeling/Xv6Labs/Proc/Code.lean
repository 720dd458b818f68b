import Xv6Labs.Proc.State

/-!
# The code of processes and schedulers

`proc.c`, `sleeplock.c` and `trap.c` of Lab 2, and of Lab 4 where that differs: there each process has a kernel page
table of its own. An unbounded loop takes a number of rounds, and every number is a call of its own. Results of
`kalloc` and of copies from and to user memory are arguments. Files and memory of a process are left out, and so are
interrupts of a process that come between the trampoline and `usertrap`.
-/

namespace Xv6Labs.Proc

open Threads Prog

inductive Lab where
  | two | four
  deriving DecidableEq

def act (a : Act) : Code (Res a) := lift a

def panic {α : Type} (m : Msg) : Code α := .act (.panic m) fun e => nomatch e

def cut {α : Type} : Code α := .act .cut fun e => nomatch e

def check (bad : Bool) (m : Msg) : Code Unit := if bad then panic m else pure ()

def acquire (lk : Lock) : Code Unit := act (.acquire lk)

def release (lk : Lock) : Code Unit := act (.release lk)

def look (p : Slot) : Code Process := act (.look p)

def set (p : Slot) (f : Field) : Code Unit := act (.set p f)

/-- A dereference of a pointer that may be null. -/
def deref (p : Option Slot) : Code Slot :=
  match p with
  | some p => pure p
  | none => panic .null

def myproc : Code Slot := do deref (← act .myproc)

def slots : List Slot := List.finRange nproc

/-- `for(p = proc; p < &proc[NPROC]; p++)`, where the body may leave the loop with a value. -/
def scan {α : Type} (body : Slot → Code (Option α)) : List Slot → Code (Option α)
  | [] => pure none
  | p :: rest => do
    match ← body p with
    | some a => pure (some a)
    | none => scan body rest

/-! ### sched, yield, sleep and wakeup -/

def sched : Code Unit := do
  let p ← myproc
  check (!(← act (.holding (.proc p)))) .schedLock
  check ((← act .noff) ≠ 1) .schedLocks
  check ((← look p).state = .RUNNING) .schedRunning
  check (← act .intrGet) .schedInterruptible
  let intena ← act .intena
  act .swtchBack
  act (.setIntena intena)

def yield : Code Unit := do
  let p ← myproc
  acquire (.proc p)
  set p (.state .RUNNABLE)
  sched
  release (.proc p)

/-- The middle of `sleep`, from "Go to sleep" to "Tidy up". -/
def goToSleep (p : Slot) (chan : Chan) : Code Unit := do
  set p (.chan (some chan))
  set p (.state .SLEEPING)
  sched
  set p (.chan none)

def sleep (chan : Chan) (lk : Lock) : Code Unit := do
  let p ← myproc
  act (.intend p chan)
  if lk ≠ .proc p then
    acquire (.proc p)
    release lk
    goToSleep p chan
    release (.proc p)
    acquire lk
  else goToSleep p chan

def wakeupOne (chan : Chan) (p : Slot) : Code (Option Unit) := do
  acquire (.proc p)
  let v ← look p
  if v.state = .SLEEPING ∧ v.chan = some chan then
    set p (.state .RUNNABLE)
    release (.proc p)
    pure none
  else
    release (.proc p)
    pure none

def wakeup (chan : Chan) : Code Unit := do
  let _ ← scan (wakeupOne chan) slots

def wakeup1 (p : Slot) : Code Unit := do
  check (!(← act (.holding (.proc p)))) .wakeup1
  let v ← look p
  if v.chan = some (.proc p) ∧ v.state = .SLEEPING then set p (.state .RUNNABLE) else pure ()

/-! ### Sleep-locks -/

def acquiresleepLoop (n : ℕ) : ℕ → Code Unit
  | 0 => cut
  | rounds + 1 => do
    if ← act (.locked n) then
      sleep (.sleeplock n) (.sleeplock n)
      acquiresleepLoop n rounds
    else
      act (.setLocked n true)
      act (.setLockPid n (← look (← myproc)).pid)
      release (.sleeplock n)

def acquiresleep (n rounds : ℕ) : Code Unit := do
  acquire (.sleeplock n)
  acquiresleepLoop n rounds

def releasesleep (n : ℕ) : Code Unit := do
  acquire (.sleeplock n)
  act (.setLocked n false)
  act (.setLockPid n 0)
  wakeup (.sleeplock n)
  release (.sleeplock n)

def holdingsleep (n : ℕ) : Code Bool := do
  acquire (.sleeplock n)
  let r := (← act (.locked n)) && (← act (.lockPid n)) = (← look (← myproc)).pid
  release (.sleeplock n)
  pure r

/-! ### Other code that sleeps and wakes -/

def sleeps (chan : ℕ) (lk : ℕ) : ℕ → Code Unit
  | 0 => pure ()
  | rounds + 1 => do
    sleep (.other chan) (.other lk)
    sleeps chan lk rounds

/-- What the rest of the kernel does with processes: it waits for something under one of its own locks, wakes those
who wait, and uses sleep-locks. -/
inductive Op where
  | pause (chan lk rounds : ℕ)
  | signal (chan lk : ℕ)
  | acquiresleep (n rounds : ℕ)
  | releasesleep (n : ℕ)
  | holdingsleep (n : ℕ)

def Op.code : Op → Code Unit
  | pause chan lk rounds => do
    acquire (.other lk)
    sleeps chan lk rounds
    release (.other lk)
  | signal chan lk => do
    acquire (.other lk)
    wakeup (.other chan)
    release (.other lk)
  | acquiresleep n rounds => Proc.acquiresleep n rounds
  | releasesleep n => Proc.releasesleep n
  | holdingsleep n => do
    let _ ← Proc.holdingsleep n

def ops : List Op → Code Unit
  | [] => pure ()
  | op :: rest => do
    op.code
    ops rest

/-- Only sleep-locks that the process is inside of are released. -/
def bracketed : List ℕ → List Op → Bool
  | _, [] => true
  | held, .acquiresleep n _ :: rest => bracketed (n :: held) rest
  | held, .releasesleep n :: rest => decide (n ∈ held) && bracketed (held.erase n) rest
  | held, _ :: rest => bracketed held rest

/-- Code of the file system that releases what it acquires: `fsinit`, or what `exit` does with open files. -/
abbrev Balanced : Type := { l : List Op // bracketed [] l = true }

/-! ### fork -/

def allocpid : Code Int := do
  acquire .pid
  let pid ← act .nextpid
  act (.setNextpid (int32 (pid + 1)))
  release .pid
  pure pid

/-- Which allocations succeed; `kpgtbl` is the root page of the new kernel page table. -/
structure Memory where
  trapframe : Bool
  kpgtbl : Option ℕ
  pagetable : Bool
  uvmcopy : Bool

def unusedOne (p : Slot) : Code (Option Slot) := do
  acquire (.proc p)
  if (← look p).state = .UNUSED then pure (some p)
  else
    release (.proc p)
    pure none

/-- Lab 4: `Pvminit` and the mapping of the kernel stack, neither of which has an error path. -/
def kernelPages (lab : Lab) (mem : Memory) (p : Slot) : Code Unit :=
  match lab, mem.kpgtbl with
  | .two, _ => pure ()
  | .four, some page => act (.pvminit p page)
  | .four, none => panic .pvmmap

def allocproc (lab : Lab) (mem : Memory) : Code (Option Slot) := do
  match ← scan unusedOne slots with
  | none => pure none
  | some p =>
    set p (.pid (← allocpid))
    if mem.trapframe then
      kernelPages lab mem p
      if mem.pagetable then
        act (.context p)
        pure (some p)
      else
        act (.freeproc p none)
        release (.proc p)
        pure none
    else
      release (.proc p)
      pure none

def fork (lab : Lab) (mem : Memory) : Code Int := do
  let p ← myproc
  match ← allocproc lab mem with
  | none => pure (-1)
  | some np =>
    if mem.uvmcopy then
      set np (.parent (some p))
      act (.copyTrapframe np p)
      let v ← look np
      act (.record (.forked v.birth v.pid))
      set np (.state .RUNNABLE)
      release (.proc np)
      pure v.pid
    else
      act (.freeproc np none)
      release (.proc np)
      pure (-1)

def userinit (lab : Lab) (mem : Memory) : Code Unit := do
  let p ← deref (← allocproc lab mem)
  act (.setInitproc p)
  set p (.state .RUNNABLE)
  release (.proc p)

/-! ### exit and wait -/

def reparentOne (p pp : Slot) : Code (Option Unit) := do
  if (← look pp).parent = some p then
    acquire (.proc pp)
    set pp (.parent (← act .initproc))
    release (.proc pp)
    pure none
  else pure none

def reparent (p : Slot) : Code Unit := do
  let _ ← scan (reparentOne p) slots

/-- The end of `exit`: the lock of the parent, then the lock of the process. -/
def exitLocked (p originalParent : Slot) (status : Int) : Code Unit := do
  acquire (.proc originalParent)
  acquire (.proc p)
  reparent p
  wakeup1 originalParent
  set p (.xstate status)
  set p (.state .ZOMBIE)
  release (.proc originalParent)
  sched
  panic .zombieExit

def exit (close : Balanced) (status : Int) : Code Unit := do
  let p ← myproc
  let init ← deref (← act .initproc)
  check (p = init) .initExiting
  act (.record (.exited (← look p).birth status))
  ops close.val
  acquire (.proc init)
  wakeup1 init
  release (.proc init)
  acquire (.proc p)
  let originalParent := (← look p).parent
  act (.remember p originalParent)
  release (.proc p)
  let originalParent ← deref originalParent
  exitLocked p originalParent status

/-- One pass over the table: the result of `wait`, or whether there were children. `addr` is `none` for a null
pointer, and else whether `copyout` succeeds. -/
def waitScan (p : Slot) (addr : Option Bool) : List Slot → Bool → Code (Int ⊕ Bool)
  | [], havekids => pure (.inr havekids)
  | np :: rest, havekids => do
    if (← look np).parent = some p then
      acquire (.proc np)
      let v ← look np
      if v.state = .ZOMBIE then
        if addr = some false then
          release (.proc np)
          release (.proc p)
          act (.unstored np)
          pure (.inl (-1))
        else
          act (.freeproc np (some (v.pid, addr.map fun _ => v.xstate)))
          release (.proc np)
          release (.proc p)
          pure (.inl v.pid)
      else
        release (.proc np)
        waitScan p addr rest true
    else waitScan p addr rest havekids

def waitLoop (p : Slot) (addr : Option Bool) : ℕ → Code Int
  | 0 => cut
  | rounds + 1 => do
    match ← waitScan p addr slots false with
    | .inl pid => pure pid
    | .inr havekids =>
      let killed ← act (.killed p)
      if !havekids || killed then
        release (.proc p)
        pure (-1)
      else
        sleep (.proc p) (.proc p)
        waitLoop p addr rounds

def wait (addr : Option Bool) (rounds : ℕ) : Code Int := do
  let p ← myproc
  acquire (.proc p)
  waitLoop p addr rounds

def killOne (pid : Int) (p : Slot) : Code (Option Int) := do
  acquire (.proc p)
  if (← look p).pid = pid then
    act (.setKilled p (some pid))
    if (← look p).state = .SLEEPING then
      set p (.state .RUNNABLE)
      release (.proc p)
      pure (some 0)
    else
      release (.proc p)
      pure (some 0)
  else
    release (.proc p)
    pure none

def kill (pid : Int) : Code Int := do
  match ← scan (killOne pid) slots with
  | some r => pure r
  | none => pure (-1)

/-! ### Traps -/

def signals : List (ℕ × ℕ) → Code Unit
  | [] => pure ()
  | (chan, lk) :: rest => do
    (Op.signal chan lk).code
    signals rest

/-- `devintr` wakes those who wait for the device, or for the clock. -/
def kerneltrap (devintr : List (ℕ × ℕ)) (timer : Bool) : Code Unit := do
  act .intrOff
  signals devintr
  if timer then
    match ← act .myproc with
    | none => act .intrOn
    | some p =>
      if (← look p).state = .RUNNING then
        yield
        act .intrOn
      else act .intrOn
  else act .intrOn

def usertrapret : Code Unit := do
  let p ← myproc
  act .intrOff
  act (.usertrapret p)

def forkret (fsinit : Balanced) : Code Unit := do
  let p ← myproc
  release (.proc p)
  if ← act .first then
    ops fsinit.val
    usertrapret
  else usertrapret

inductive Syscall where
  | fork (mem : Memory)
  | exit (status : Int)
  | wait (addr : Option Bool) (rounds : ℕ)
  | kill (pid : Int)
  | other (l : List Op)

def syscall (lab : Lab) (close : Balanced) : Syscall → Code Unit
  | .fork mem => do
    let _ ← fork lab mem
  | .exit status => exit close status
  | .wait addr rounds => do
    let _ ← wait addr rounds
  | .kill pid => do
    let _ ← kill pid
  | .other l => ops l

inductive Cause where
  | syscall (k : Syscall)
  | device (devintr : List (ℕ × ℕ)) (timer : Bool)
  | fault

def exitIfKilled (close : Balanced) (p : Slot) : Code Unit := do
  if ← act (.killed p) then exit close (-1) else pure ()

/-- `close` is what the process does with its open files if it comes to exit. -/
def usertrap (lab : Lab) (cause : Cause) (close : Balanced) : Code Unit := do
  act .uservec
  let p ← myproc
  match cause with
  | .syscall k =>
    exitIfKilled close p
    act .intrOn
    syscall lab close k
    exitIfKilled close p
    usertrapret
  | .device devintr timer =>
    signals devintr
    exitIfKilled close p
    if timer then
      yield
      usertrapret
    else usertrapret
  | .fault =>
    act (.setKilled p none)
    exitIfKilled close p
    usertrapret

/-! ### The machine -/

def schedulerOne (lab : Lab) (p : Slot) : Code (Option Unit) := do
  acquire (.proc p)
  if (← look p).state = .RUNNABLE then
    set p (.state .RUNNING)
    act (.setProc (some p))
    match lab with
    | .two =>
      act (.swtchTo p)
      act (.setProc none)
    | .four =>
      act (.pvminithart p)
      act (.swtchTo p)
      act .kvminithart
      act (.setProc none)
    release (.proc p)
    pure none
  else
    release (.proc p)
    pure none

/-- One turn of the scheduler's loop. -/
def scheduler (lab : Lab) : Code Unit := do
  act .intrOn
  let _ ← scan (schedulerOne lab) slots

inductive Call where
  | scheduler
  | kerneltrap (devintr : List (ℕ × ℕ)) (timer : Bool)
  | usertrap (cause : Cause) (close : Balanced)

def offers : Thread → Kernel → Call → Bool
  | .sched _, _, .scheduler => true
  | .proc p, s, .usertrap (.syscall (.other l)) _ => bracketed (s.inside p) l
  | .proc _, _, .usertrap _ _ => true
  | _, _, _ => false

def interrupts (t : Thread) (s : Kernel) : Call → Bool
  | .kerneltrap _ _ =>
    match s.on t with
    | some c => (s.hart c).sie && !(s.hart c).user
    | none => false
  | _ => false

def machine (lab : Lab) (fsinit : Balanced) : Machine Thread Act Res Kernel Call where
  exec := exec
  starts
    | .context p => some (.proc p, forkret fsinit)
    | _ => none
  body
    | .scheduler => scheduler lab
    | .kerneltrap devintr timer => kerneltrap devintr timer
    | .usertrap cause close => usertrap lab cause close
  offers := offers
  interrupts := interrupts

/-- CPU 0 makes the first process; the others wait for it. -/
def main (lab : Lab) (mem : Memory) (c : Core) : Code Unit :=
  if c = 0 then do
    userinit lab mem
    act .setStarted
    act (.setProc none)
  else do
    act .started
    act (.setProc none)

def boot (lab : Lab) (mem : Memory) : Conf Thread Act Res Kernel where
  shared := {}
  code
    | .sched c => main lab mem c
    | .proc _ => cut

def Reachable (lab : Lab) (fsinit : Balanced) (mem : Memory) (c : Conf Thread Act Res Kernel) : Prop :=
  (machine lab fsinit).Runs (boot lab mem) c

end Xv6Labs.Proc
