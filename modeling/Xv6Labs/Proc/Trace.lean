import Xv6Labs.Proc.State

/-!
# `trace`

The masks of Lab 2, from `fork` and `sys_trace` to the lines `syscall` prints. `fork` is one step for each of its
assignments that matter here, and holds `p->lock` of the child all the while. Which free slot `allocproc` finds,
which zombie `wait` finds and what other calls return is left open.
-/

namespace Xv6Labs.Trace

open Proc (ProcState Slot)

inductive Sys where
  | sys_fork | sys_exit | sys_wait | sys_pipe | sys_read | sys_kill | sys_exec | sys_fstat | sys_chdir | sys_dup |
      sys_getpid | sys_sbrk
  | sys_sleep | sys_uptime | sys_open | sys_write | sys_mknod | sys_unlink | sys_link | sys_mkdir | sys_close |
      sys_trace | sys_sysinfo
  deriving DecidableEq

open Sys

def Sys.name : Sys → String
  | sys_fork => "sys_fork"
  | sys_exit => "sys_exit"
  | sys_wait => "sys_wait"
  | sys_pipe => "sys_pipe"
  | sys_read => "sys_read"
  | sys_kill => "sys_kill"
  | sys_exec => "sys_exec"
  | sys_fstat => "sys_fstat"
  | sys_chdir => "sys_chdir"
  | sys_dup => "sys_dup"
  | sys_getpid => "sys_getpid"
  | sys_sbrk => "sys_sbrk"
  | sys_sleep => "sys_sleep"
  | sys_uptime => "sys_uptime"
  | sys_open => "sys_open"
  | sys_write => "sys_write"
  | sys_mknod => "sys_mknod"
  | sys_unlink => "sys_unlink"
  | sys_link => "sys_link"
  | sys_mkdir => "sys_mkdir"
  | sys_close => "sys_close"
  | sys_trace => "sys_trace"
  | sys_sysinfo => "sys_sysinfo"

/-- `syscalls`, with the numbers of `syscall.h`. -/
def syscalls : ℕ → Option Sys
  | 1 => some sys_fork
  | 2 => some sys_exit
  | 3 => some sys_wait
  | 4 => some sys_pipe
  | 5 => some sys_read
  | 6 => some sys_kill
  | 7 => some sys_exec
  | 8 => some sys_fstat
  | 9 => some sys_chdir
  | 10 => some sys_dup
  | 11 => some sys_getpid
  | 12 => some sys_sbrk
  | 13 => some sys_sleep
  | 14 => some sys_uptime
  | 15 => some sys_open
  | 16 => some sys_write
  | 17 => some sys_mknod
  | 18 => some sys_unlink
  | 19 => some sys_link
  | 20 => some sys_mkdir
  | 21 => some sys_close
  | 22 => some sys_trace
  | 23 => some sys_sysinfo
  | _ => none

def sys_call_num : List String :=
  ["sys_fork", "sys_exit", "sys_wait", "sys_pipe", "sys_read", "sys_kill", "sys_exec", "sys_fstat", "sys_chdir",
    "sys_dup", "sys_getpid",
    "sys_sbrk", "sys_sleep", "sys_uptime", "sys_open", "sys_write", "sys_mknod", "sys_unlink", "sys_link",
    "sys_mkdir", "sys_close", "sys_trace", "sys_sysinfo"]

theorem sys_call_num_eq {n : ℕ} {c : Sys} (call : syscalls n = some c) :
    sys_call_num.getD (n - 1) "" = c.name ∧ n < 32 := by
  unfold syscalls at call
  split at call <;> cases call <;> exact ⟨rfl, by decide⟩

/-- `printf("%d: %s(%d) -> %d\n", …)` -/
structure Line where
  pid : ℤ
  name : String
  arg : ℤ
  ret : ℤ
  deriving DecidableEq

/-- What happened, for processes by their births. -/
inductive Event where
  | entered (b : ℕ) (a7 a0 : BitVec 64)
  | traced (b : ℕ)
  | forked (parent child : ℕ) (pid : ℤ)
  | returned (b : ℕ) (ret : BitVec 64) (line : Option Line)
  | unknown (pid : ℤ) (name : String) (num : ℤ)

/-- `a7` and `a0` as a process last passed them on entry. -/
def entryOf : List Event → ℕ → BitVec 64 × BitVec 64
  | [], _ => (0, 0)
  | .entered b a7 a0 :: h, c => if b = c then (a7, a0) else entryOf h c
  | _ :: h, c => entryOf h c

/-- The argument of the last `trace` of a process, or what its parent had at the `fork`. -/
def maskOf : List Event → ℕ → BitVec 32
  | [], _ => 0
  | .traced b :: h, c => if b = c then (entryOf h b).2.setWidth 32 else maskOf h c
  | .forked parent child _ :: h, c => if child = c then maskOf h parent else maskOf h c
  | _ :: h, c => maskOf h c

def pidOf : List Event → ℕ → ℤ
  | [], _ => 1
  | .forked _ child pid :: h, c => if child = c then pid else pidOf h c
  | _ :: h, c => pidOf h c

/-- A call returned as it should after `h`: with a line if and only if the bit of its number is set. -/
def Printed (h : List Event) (b : ℕ) (ret : BitVec 64) (line : Option Line) : Prop :=
  ∃ c, syscalls ((entryOf h b).1.setWidth 32).toNat = some c ∧
    line = if (maskOf h b).getLsbD ((entryOf h b).1.setWidth 32).toNat = true then
      some ⟨pidOf h b, c.name, ((entryOf h b).2.setWidth 32).toInt, (ret.setWidth 32).toInt⟩ else none

/-- How far the `fork` that has `p->lock` is. -/
inductive Stage where
  | found | runnable | masked
  deriving DecidableEq

inductive Pc where
  | user
  -- in `syscalls[num]()`
  | call
  | forking (np : Slot)
  | leaving (ret : BitVec 64)
  deriving DecidableEq

/-- `num` and `a` are the variables of `syscall`. `birth` numbers the processes; the code does not have it. -/
structure Process where
  state : ProcState := .UNUSED
  pid : ℤ := 0
  mask : BitVec 32 := 0
  name : String := ""
  a7 : BitVec 64 := 0
  a0 : BitVec 64 := 0
  pc : Pc := .user
  num : BitVec 32 := 0
  a : BitVec 32 := 0
  held : Option Stage := none
  birth : ℕ := 0

structure State where
  slot : Slot → Process
  nextpid : ℤ
  births : ℕ
  history : List Event

/-- After `userinit`. -/
def start : State :=
  { slot := fun p => if p = 0 then { state := .RUNNABLE, pid := 1, name := "initcode" } else {}
    nextpid := 2
    births := 1
    history := [] }

/-- What of `freeproc` is modelled; it does not clear `mask`. -/
def freeproc (x : Process) : Process := { x with state := .UNUSED, pid := 0, name := "" }

inductive Act where
  | ecall (a7 a0 : BitVec 64)
  | leave
  | sys_trace
  -- `fork`, and how it may end before the child is there
  | noProc
  | allocproc (np : Slot)
  | noTrapframe
  | noMemory
  | runnable
  | copyMask
  | release
  | exit
  | wait (np : Slot)
  | exec (name : String)
  | other (ret : BitVec 64)

namespace State

def setSlot (s : State) (p : Slot) (x : Process) : State := { s with slot := Function.update s.slot p x }

def emit (s : State) (e : Event) : State := { s with history := e :: s.history }

/-- `p` is in a call to `c`. -/
def Calls (s : State) (p : Slot) (c : Sys) : Prop := (s.slot p).pc = .call ∧ syscalls (s.slot p).num.toNat = some c

instance (s : State) (p : Slot) (c : Sys) : Decidable (s.Calls p c) := inferInstanceAs (Decidable (_ ∧ _))

def ecall (s : State) (p : Slot) (a7 a0 : BitVec 64) : State :=
  let num := a7.setWidth 32
  let a := a0.setWidth 32
  let x := { s.slot p with a7, a0, num, a }
  if 0 < num.toInt ∧ num.toInt < 24 ∧ (syscalls num.toNat).isSome then
    (s.setSlot p { x with pc := .call }).emit (.entered x.birth a7 a0)
  else ((s.setSlot p { x with a0 := -1 }).emit (.entered x.birth a7 a0)).emit (.unknown x.pid x.name num.toInt)

/-- `if(((1 << num) & mask) !=0) printf(…)` -/
def leave (s : State) (p : Slot) (ret : BitVec 64) : State :=
  let x := { s.slot p with a0 := ret, pc := .user }
  let line : Option Line := if (1#32 <<< x.num.toNat) &&& x.mask ≠ 0 then
    some ⟨x.pid, sys_call_num.getD (x.num.toNat - 1) "", x.a.toInt, (x.a0.setWidth 32).toInt⟩ else none
  (s.setSlot p x).emit (.returned x.birth ret line)

/-- What `p` does when it runs. -/
def step (s : State) (p : Slot) : Act → Option State
  | .ecall a7 a0 => if (s.slot p).pc = .user then some (s.ecall p a7 a0) else none
  | .leave =>
    match (s.slot p).pc with
    | .leaving ret => some (s.leave p ret)
    | _ => none
  | .sys_trace =>
    let x := s.slot p
    if s.Calls p .sys_trace then
      some ((s.setSlot p { x with mask := x.a0.setWidth 32, pc := .leaving 0 }).emit (.traced x.birth))
    else none
  | .noProc => if s.Calls p .sys_fork then some (s.setSlot p { s.slot p with pc := .leaving (-1) }) else none
  | .allocproc np =>
    let x := s.slot np
    if s.Calls p .sys_fork ∧ x.held = none ∧ x.state = .UNUSED then
      let found := { s.setSlot np { x with pid := s.nextpid, held := some .found, birth := s.births } with
        nextpid := Proc.int32 (s.nextpid + 1), births := s.births + 1 }
      some (found.setSlot p { s.slot p with pc := .forking np })
    else none
  | .noTrapframe =>
    match (s.slot p).pc with
    | .forking np =>
      if (s.slot np).held = some .found then
        some ((s.setSlot p { s.slot p with pc := .leaving (-1) }).setSlot np { s.slot np with held := none })
      else none
    | _ => none
  | .noMemory =>
    match (s.slot p).pc with
    | .forking np =>
      if (s.slot np).held = some .found then
        some ((s.setSlot p { s.slot p with pc := .leaving (-1) }).setSlot np { freeproc (s.slot np) with held := none })
      else none
    | _ => none
  | .runnable =>
    match (s.slot p).pc with
    | .forking np =>
      let x := s.slot p
      if (s.slot np).held = some .found then
        some (s.setSlot np { s.slot np with
          a7 := x.a7, a0 := 0, name := x.name, pc := .user, state := .RUNNABLE, held := some .runnable })
      else none
    | _ => none
  | .copyMask =>
    match (s.slot p).pc with
    | .forking np =>
      let x := s.slot np
      if x.held = some .runnable then
        some ((s.setSlot np { x with mask := (s.slot p).mask, held := some .masked }).emit
          (.forked (s.slot p).birth x.birth x.pid))
      else none
    | _ => none
  | .release =>
    match (s.slot p).pc with
    | .forking np =>
      if (s.slot np).held = some .masked then
        let pid := BitVec.ofInt 64 (s.slot np).pid
        some ((s.setSlot p { s.slot p with pc := .leaving pid }).setSlot np { s.slot np with held := none })
      else none
    | _ => none
  | .exit =>
    if (s.slot p).pc = .user ∨ s.Calls p .sys_exit then some (s.setSlot p { s.slot p with state := .ZOMBIE }) else none
  | .wait np =>
    if s.Calls p .sys_wait ∧ (s.slot np).held = none ∧ (s.slot np).state = .ZOMBIE then
      let pid := BitVec.ofInt 64 (s.slot np).pid
      some ((s.setSlot p { s.slot p with pc := .leaving pid }).setSlot np (freeproc (s.slot np)))
    else none
  | .exec name => if s.Calls p .sys_exec then some (s.setSlot p { s.slot p with name }) else none
  | .other ret =>
    if (s.slot p).pc = .call ∧ ∀ c ∈ [Sys.sys_fork, .sys_exit, .sys_trace], ¬ s.Calls p c then
      some (s.setSlot p { s.slot p with pc := .leaving ret })
    else none

end State

/-- A running process takes a step, or the scheduler, `sleep`, `wakeup` or `kill` change the state of one. -/
inductive Step : State → State → Prop where
  | run {s s' : State} (p : Slot) (a : Act) (running : (s.slot p).state = .RUNNING) (step : s.step p a = some s') :
      Step s s'
  | turn {s : State} (p : Slot) (st : ProcState) (free : (s.slot p).held = none)
      (states : (s.slot p).state ∈ [ProcState.SLEEPING, .RUNNABLE, .RUNNING] ∧
        st ∈ [ProcState.SLEEPING, .RUNNABLE, .RUNNING]) :
      Step s (s.setSlot p { s.slot p with state := st })

def Reachable : State → Prop := Relation.ReflTransGen Step start

theorem shift_and_ne_zero {mask : BitVec 32} {n : ℕ} (small : n < 32) :
    (1#32 <<< n) &&& mask ≠ 0 ↔ mask.getLsbD n = true := by
  rw [← BitVec.twoPow_eq, BitVec.and_comm, BitVec.and_twoPow]
  cases bit : mask.getLsbD n with
  | false => simp
  | true =>
    simp only [if_true, iff_true]
    intro zero
    have := congrArg (BitVec.getLsbD · n) zero
    simp [small] at this

/-- The process that an event is about. -/
def Event.birth? : Event → Option ℕ
  | .entered b _ _ => some b
  | .traced b => some b
  | .forked _ child _ => some child
  | .returned .. => none
  | .unknown .. => none

section Others

variable {h : List Event} {e : Event} {b : ℕ}

theorem entryOf_cons (other : e.birth? ≠ some b) : entryOf (e :: h) b = entryOf h b := by
  cases e with
  | entered c a7 a0 => exact if_neg fun same => other (congrArg some same)
  | _ => rfl

theorem maskOf_cons (other : e.birth? ≠ some b) : maskOf (e :: h) b = maskOf h b := by
  cases e with
  | traced c => exact if_neg fun same => other (congrArg some same)
  | forked parent child pid => exact if_neg fun same => other (congrArg some same)
  | _ => rfl

theorem pidOf_cons (other : e.birth? ≠ some b) : pidOf (e :: h) b = pidOf h b := by
  cases e with
  | forked parent child pid => exact if_neg fun same => other (congrArg some same)
  | _ => rfl

end Others

/-- The slot of a process has what the history says. -/
structure Process.Ok (h : List Event) (x : Process) : Prop where
  mask : x.mask = maskOf h x.birth
  pid : x.pid = pidOf h x.birth
  entry : x.pc ≠ .user → entryOf h x.birth = (x.a7, x.a0)
  called : x.pc ≠ .user → x.num = x.a7.setWidth 32 ∧ x.a = x.a0.setWidth 32 ∧ ∃ c, syscalls x.num.toNat = some c

/-- Where `np->lock` is still held, the child has not run, and has its mask only in the end. -/
def Process.Embryo (x : Process) : Prop :=
  ∀ stage, x.held = some stage → x.state = (if stage = .found then ProcState.UNUSED else .RUNNABLE) ∧
    (stage ≠ .found → x.pc = .user)

def Process.Ready (x : Process) : Prop := x.state ≠ .UNUSED ∧ (x.held = none ∨ x.held = some .masked)

def Process.Taken (x : Process) : Prop := x.state ≠ .UNUSED ∨ x.held ≠ none

def Right (h : List Event) : Prop :=
  ∀ later b ret line earlier, h = later ++ .returned b ret line :: earlier → Printed earlier b ret line

structure Inv (s : State) : Prop where
  ok : ∀ p, (s.slot p).Ready → (s.slot p).Ok s.history
  embryo : ∀ p, (s.slot p).Embryo
  held : ∀ p np, (s.slot p).pc = .forking np → np ≠ p ∧ (s.slot np).held ≠ none
  once : ∀ p q np, (s.slot p).pc = .forking np → (s.slot q).pc = .forking np → p = q
  older : ∀ p, (s.slot p).Taken → (s.slot p).birth < s.births
  distinct : ∀ p q, (s.slot p).Taken → (s.slot q).Taken → (s.slot p).birth = (s.slot q).birth → p = q
  right : Right s.history

variable {s s' : State} {p np : Slot} {x y : Process} {h : List Event} {e : Event}

theorem right_cons (right : Right h) (new : ∀ b ret line, e = .returned b ret line → Printed h b ret line) :
    Right (e :: h) := by
  intro later b ret line earlier same
  rcases List.cons_eq_append_iff.mp same with ⟨rfl, whole⟩ | ⟨rest, rfl, tail⟩
  · obtain ⟨rfl, rfl⟩ := List.cons.inj whole
    exact new b ret line rfl
  · exact right rest b ret line earlier tail

theorem Process.Ok.cons (ok : x.Ok h) (other : e.birth? ≠ some x.birth) : x.Ok (e :: h) :=
  ⟨ok.mask.trans (maskOf_cons other).symm, ok.pid.trans (pidOf_cons other).symm,
    fun busy => (entryOf_cons other).trans (ok.entry busy), ok.called⟩

theorem Process.Embryo.awake (embryo : x.Embryo) (running : x.state = .RUNNING) : x.held = none := by
  cases held : x.held with
  | none => rfl
  | some stage =>
    have state := (embryo stage held).1
    rw [running] at state
    split at state <;> exact absurd state (by simp)

theorem Inv.update {births : ℕ} {nextpid : ℤ} (inv : Inv s) (ok : x.Ready → x.Ok h) (embryo : x.Embryo)
    (held : ∀ q ≠ p, (s.slot q).pc = .forking p → x.held ≠ none)
    (forking : ∀ np, x.pc = .forking np → np ≠ p ∧ (s.slot np).held ≠ none ∧ ∀ q ≠ p, (s.slot q).pc ≠ .forking np)
    (grows : s.births ≤ births) (older : x.Taken → x.birth < births)
    (distinct : x.Taken → ∀ q ≠ p, (s.slot q).Taken → (s.slot q).birth ≠ x.birth)
    (others : ∀ q ≠ p, (s.slot q).Ready → (s.slot q).Ok s.history → (s.slot q).Ok h) (right : Right h) :
    Inv { s.setSlot p x with births, nextpid, history := h } := by
  have changed : (s.setSlot p x).slot p = x := Function.update_self ..
  have same : ∀ q ≠ p, (s.setSlot p x).slot q = s.slot q := fun q other => Function.update_of_ne other ..
  refine ⟨fun q => ?_, fun q => ?_, fun q r => ?_, fun q r n => ?_, fun q => ?_, fun q r => ?_, right⟩ <;> dsimp only
  · by_cases here : q = p
    · rw [here, changed]; exact ok
    · rw [same q here]; exact fun ready => others q here ready (inv.ok q ready)
  · by_cases here : q = p
    · rw [here, changed]; exact embryo
    · rw [same q here]; exact inv.embryo q
  · intro pc
    by_cases first : q = p
    · rw [first, changed] at pc
      obtain ⟨other, held, -⟩ := forking r pc
      rw [first, same r other]
      exact ⟨other, held⟩
    · rw [same q first] at pc
      by_cases second : r = p
      · subst second
        rw [changed]
        exact ⟨Ne.symm first, held q first pc⟩
      · rw [same r second]
        exact inv.held q r pc
  · by_cases first : q = p <;> by_cases second : r = p
    · exact fun _ _ => first.trans second.symm
    · rw [first, changed, same r second]
      exact fun pc pc' => absurd pc' ((forking n pc).2.2 r second)
    · rw [second, changed, same q first]
      exact fun pc' pc => absurd pc' ((forking n pc).2.2 q first)
    · rw [same q first, same r second]
      exact inv.once q r n
  · by_cases here : q = p
    · rw [here, changed]; exact older
    · rw [same q here]; exact fun taken => (inv.older q taken).trans_le grows
  · by_cases first : q = p <;> by_cases second : r = p
    · exact fun _ _ _ => first.trans second.symm
    · rw [first, changed, same r second]
      exact fun taken taken' equal => absurd equal.symm (distinct taken r second taken')
    · rw [second, changed, same q first]
      exact fun taken' taken equal => absurd equal (distinct taken q first taken')
    · rw [same q first, same r second]
      exact inv.distinct q r

/-- A slot keeps its process, or is freed. -/
theorem Inv.setSlot (inv : Inv s) (ok : x.Ready → x.Ok s.history) (embryo : x.Embryo)
    (held : ∀ q ≠ p, (s.slot q).pc = .forking p → x.held ≠ none)
    (forking : ∀ np, x.pc = .forking np → np ≠ p ∧ (s.slot np).held ≠ none ∧ ∀ q ≠ p, (s.slot q).pc ≠ .forking np)
    (taken : x.Taken → (s.slot p).Taken ∧ x.birth = (s.slot p).birth) : Inv (s.setSlot p x) := by
  refine inv.update ok embryo held forking le_rfl (fun used => ?_) (fun used q other used' same => ?_)
    (fun _ _ _ ok => ok) inv.right
  · rw [(taken used).2]
    exact inv.older p (taken used).1
  · exact other (inv.distinct q p used' (taken used).1 (same.trans (taken used).2))

/-- The slot of a running process. -/
theorem Inv.running (inv : Inv s) (running : (s.slot p).state = .RUNNING) :
    (s.slot p).held = none ∧ (s.slot p).Ok s.history ∧ (s.slot p).Taken ∧ ∀ q, (s.slot q).pc ≠ .forking p := by
  have used : (s.slot p).state ≠ .UNUSED := by simp [running]
  have free := (inv.embryo p).awake running
  exact ⟨free, inv.ok p ⟨used, .inl free⟩, .inl used, fun q pc => (inv.held q p pc).2 free⟩

theorem Inv.forking (inv : Inv s) (pc : (s.slot p).pc = .forking np) :
    np ≠ p ∧ (s.slot np).held ≠ none ∧ ∀ q ≠ p, (s.slot q).pc ≠ .forking np :=
  ⟨(inv.held p np pc).1, (inv.held p np pc).2, fun q other pc' => other (inv.once q p np pc' pc)⟩

/-- A running process changes its own slot, and an event is about it. -/
theorem Inv.own (inv : Inv s) (running : (s.slot p).state = .RUNNING) (ok : x.Ok h) (held : x.held = none)
    (outside : ∀ np, x.pc ≠ .forking np) (birth : x.birth = (s.slot p).birth)
    (hist : h = s.history ∨ ∃ e, h = e :: s.history ∧
      (∀ b, e.birth? = some b → b = x.birth) ∧ ∀ b ret line, e = .returned b ret line → Printed s.history b ret line) :
    Inv { s.setSlot p x with history := h } := by
  obtain ⟨-, -, taken, alone⟩ := inv.running running
  have embryo : x.Embryo := fun stage some => absurd (held.symm.trans some) (by simp)
  have distinct : ∀ q ≠ p, (s.slot q).Taken → (s.slot q).birth ≠ x.birth := fun q other taken' same =>
    other (inv.distinct q p taken' taken (same.trans birth))
  refine inv.update (fun _ => ok) embryo (fun q _ pc => absurd pc (alone q))
    (fun np pc => absurd pc (outside np)) le_rfl
    (fun _ => birth ▸ inv.older p taken) (fun _ => distinct) (fun q other ready before => ?_) ?_
  · rcases hist with rfl | ⟨e, rfl, about, -⟩
    · exact before
    · exact before.cons fun same => distinct q other (.inl ready.1) (about _ same)
  · rcases hist with rfl | ⟨e, rfl, -, new⟩
    · exact inv.right
    · exact right_cons inv.right new

theorem Inv.ecall (inv : Inv s) (running : (s.slot p).state = .RUNNING) (user : (s.slot p).pc = .user)
    (a7 a0 : BitVec 64) :
    Inv (s.ecall p a7 a0) := by
  obtain ⟨held, ok, -⟩ := inv.running running
  have hist : ∀ b, (Event.entered (s.slot p).birth a7 a0).birth? = some b → b = (s.slot p).birth := fun b same =>
    (Option.some_inj.mp same).symm
  unfold State.ecall
  dsimp only
  split
  · rename_i test
    obtain ⟨c, call⟩ := Option.isSome_iff_exists.mp test.2.2
    refine inv.own running ⟨ok.mask, ok.pid, fun _ => if_pos rfl, fun _ => ⟨rfl, rfl, c, call⟩⟩ held (by simp) rfl
      (.inr ⟨_, rfl, hist, by simp⟩)
  · have before := inv.own (h := .entered (s.slot p).birth a7 a0 :: s.history)
      (x := { s.slot p with a7, a0 := -1, num := a7.setWidth 32, a := a0.setWidth 32 }) running
      ⟨ok.mask, ok.pid, fun busy => absurd user busy, fun busy => absurd user busy⟩ held (by simp [user]) rfl
      (.inr ⟨_, rfl, hist, by simp⟩)
    exact { before with
      ok := fun q ready => (before.ok q ready).cons (by simp [Event.birth?])
      right := right_cons before.right (by simp) }

theorem Inv.leave {ret : BitVec 64} (inv : Inv s) (running : (s.slot p).state = .RUNNING)
    (pc : (s.slot p).pc = .leaving ret) :
    Inv (s.leave p ret) := by
  obtain ⟨held, ok, -⟩ := inv.running running
  have busy : (s.slot p).pc ≠ .user := by simp [pc]
  obtain ⟨num, a, c, call⟩ := ok.called busy
  have entry := ok.entry busy
  refine inv.own running ⟨ok.mask, ok.pid, fun out => absurd rfl out, fun out => absurd rfl out⟩ held (by simp) rfl
    (.inr ⟨_, rfl, by simp [Event.birth?], fun b r line same => ?_⟩)
  obtain ⟨rfl, rfl, rfl⟩ := Event.returned.inj same
  refine ⟨c, ?_, ?_⟩
  · rw [entry, ← num]
    exact call
  · have name := sys_call_num_eq call
    simp only [shift_and_ne_zero name.2, name.1, entry, ← num, ← a, ← ok.mask, ← ok.pid]

theorem Inv.trace (inv : Inv s) (running : (s.slot p).state = .RUNNING) (call : s.Calls p .sys_trace) :
    Inv ((s.setSlot p { s.slot p with mask := (s.slot p).a0.setWidth 32, pc := .leaving 0 }).emit
      (.traced (s.slot p).birth)) := by
  obtain ⟨held, ok, -⟩ := inv.running running
  have busy : (s.slot p).pc ≠ .user := by simp [call.1]
  have entry := ok.entry busy
  refine inv.own running ⟨?_, ok.pid, fun _ => entry, fun _ => ok.called busy⟩ held (by simp) rfl
    (.inr ⟨_, rfl, fun b same => (Option.some_inj.mp same).symm, by simp⟩)
  exact ((if_pos rfl).trans (congrArg (fun e : BitVec 64 × BitVec 64 => e.2.setWidth 32) entry)).symm

/-- A call goes on to its end. -/
theorem Inv.leaving (inv : Inv s) (running : (s.slot p).state = .RUNNING) (busy : (s.slot p).pc ≠ .user)
    (ret : BitVec 64) :
    Inv (s.setSlot p { s.slot p with pc := .leaving ret }) := by
  obtain ⟨held, ok, -⟩ := inv.running running
  exact inv.own running ⟨ok.mask, ok.pid, fun _ => ok.entry busy, fun _ => ok.called busy⟩ held (by simp) rfl (.inl rfl)

theorem Inv.allocproc (inv : Inv s) (running : (s.slot p).state = .RUNNING) (call : s.Calls p .sys_fork)
    (free : (s.slot np).held = none) (unused : (s.slot np).state = .UNUSED) {t : State}
    (found : t = { s.setSlot np { s.slot np with pid := s.nextpid, held := some .found, birth := s.births } with
      nextpid := Proc.int32 (s.nextpid + 1), births := s.births + 1 }) :
    Inv (t.setSlot p { s.slot p with pc := .forking np }) := by
  have other : p ≠ np := by
    rintro rfl
    exact absurd (running.symm.trans unused) (by simp)
  have alone : ∀ q, (s.slot q).pc ≠ .forking np := fun q pc => (inv.held q np pc).2 free
  have child : t.slot np = { s.slot np with pid := s.nextpid, held := some .found, birth := s.births } := by
    rw [found]
    exact Function.update_self ..
  have same : ∀ q ≠ np, t.slot q = s.slot q := by
    intro q other
    rw [found]
    exact Function.update_of_ne other ..
  have pcs : ∀ q, (t.slot q).pc = (s.slot q).pc := by
    intro q
    by_cases here : q = np
    · rw [here, child]
    · rw [same q here]
  have before : Inv t := by
    rw [found]
    refine inv.update (fun ready => absurd unused ready.1) (fun stage same => ?_) (by simp)
      (fun _ pc => inv.forking pc) (by omega)
      (fun _ => by simp) (fun _ q _ taken => (inv.older q taken).ne) (fun _ _ _ ok => ok) inv.right
    obtain rfl := Option.some_inj.mp same
    exact ⟨unused, fun out => absurd rfl out⟩
  have runs : (t.slot p).state = .RUNNING := by rwa [same p other]
  obtain ⟨held, ok, taken, -⟩ := before.running runs
  rw [same p other] at held ok taken
  have busy : (s.slot p).pc ≠ .user := by simp [call.1]
  refine before.setSlot (fun _ => ⟨ok.mask, ok.pid, fun _ => ok.entry busy, fun _ => ok.called busy⟩) ?_ ?_ ?_ ?_
  · exact fun stage some => absurd (held.symm.trans some) (by simp)
  · intro q _ pc
    exact absurd held (inv.held q p ((pcs q).symm.trans pc)).2
  · intro n pc
    obtain rfl := Pc.forking.inj pc
    refine ⟨other.symm, ?_, fun q _ => (pcs q).trans_ne (alone q)⟩
    rw [child]
    exact Option.some_ne_none _
  · rw [same p other]
    exact fun _ => ⟨taken, rfl⟩

/-- The end of a `fork`: the parent goes on, and the lock of the child is free. -/
theorem Inv.forked (inv : Inv s) (running : (s.slot p).state = .RUNNING) (pc : (s.slot p).pc = .forking np)
    (ret : BitVec 64) (held : x.held = none) (ok : x.Ready → x.Ok s.history) (birth : x.birth = (s.slot np).birth)
    (out : x.pc = (s.slot np).pc) :
    Inv ((s.setSlot p { s.slot p with pc := .leaving ret }).setSlot np x) := by
  obtain ⟨other, locked, alone⟩ := inv.forking pc
  have before := inv.leaving running (by simp [pc]) ret
  have child : (s.setSlot p { s.slot p with pc := .leaving ret }).slot np = s.slot np := Function.update_of_ne other ..
  refine before.setSlot ok (fun stage some => absurd (held.symm.trans some) (by simp)) ?_ ?_ ?_
  · intro q _ pc'
    by_cases same : q = p
    · rw [same] at pc'
      exact absurd ((congrArg Process.pc (Function.update_self ..)).symm.trans pc') (by simp)
    · exact absurd ((congrArg Process.pc (Function.update_of_ne same ..)).symm.trans pc') (alone q same)
  · intro n pc'
    rw [out, ← child] at pc'
    exact before.forking pc'
  · rw [child]
    exact fun _ => ⟨.inr locked, birth⟩

/-- `fork` goes on with the child, whose lock it keeps. -/
theorem Inv.child {stage : Stage} (inv : Inv s) (pc : (s.slot p).pc = .forking np) (held : x.held = some stage)
    (embryo : x.Embryo) (user : x.pc = .user) (birth : x.birth = (s.slot np).birth) (ok : x.Ready → x.Ok h)
    (others : ∀ q ≠ np, (s.slot q).Ready → (s.slot q).Ok s.history → (s.slot q).Ok h) (right : Right h) :
    Inv { s.setSlot np x with history := h } := by
  obtain ⟨other, locked, -⟩ := inv.forking pc
  refine inv.update ok embryo (fun _ _ _ => by simp [held]) (fun n pc => absurd (user.symm.trans pc) (by simp)) le_rfl
    (fun _ => birth ▸ inv.older np (.inr locked)) (fun _ q other taken same => ?_) others right
  exact other (inv.distinct q np taken (.inr locked) (same.trans birth))

theorem Inv.run {a : Act} (inv : Inv s) (running : (s.slot p).state = .RUNNING) (step : s.step p a = some s') :
    Inv s' := by
  cases a with
  | ecall a7 a0 =>
    simp only [State.step, Option.ite_none_right_eq_some, Option.some.injEq] at step
    obtain ⟨user, rfl⟩ := step
    exact inv.ecall running user a7 a0
  | leave =>
    simp only [State.step] at step
    split at step
    · rename_i ret pc
      obtain rfl := Option.some_inj.mp step
      exact inv.leave running pc
    · exact absurd step (by simp)
  | sys_trace =>
    simp only [State.step, Option.ite_none_right_eq_some, Option.some.injEq] at step
    obtain ⟨call, rfl⟩ := step
    exact inv.trace running call
  | noProc =>
    simp only [State.step, Option.ite_none_right_eq_some, Option.some.injEq] at step
    obtain ⟨call, rfl⟩ := step
    exact inv.leaving running (by simp [call.1]) _
  | allocproc np =>
    simp only [State.step, Option.ite_none_right_eq_some, Option.some.injEq] at step
    obtain ⟨⟨call, free, unused⟩, rfl⟩ := step
    exact inv.allocproc running call free unused rfl
  | noTrapframe =>
    simp only [State.step] at step
    split at step
    · rename_i np pc
      obtain ⟨held, same⟩ := Option.ite_none_right_eq_some.mp step
      obtain rfl := Option.some_inj.mp same
      exact inv.forked running pc _ rfl (fun ready => absurd (inv.embryo np _ held).1 ready.1) rfl rfl
    · exact absurd step (by simp)
  | noMemory =>
    simp only [State.step] at step
    split at step
    · rename_i np pc
      obtain ⟨held, same⟩ := Option.ite_none_right_eq_some.mp step
      obtain rfl := Option.some_inj.mp same
      exact inv.forked running pc _ rfl (fun ready => absurd rfl ready.1) rfl rfl
    · exact absurd step (by simp)
  | runnable =>
    simp only [State.step] at step
    split at step
    · rename_i np pc
      obtain ⟨held, same⟩ := Option.ite_none_right_eq_some.mp step
      obtain rfl := Option.some_inj.mp same
      refine inv.child pc rfl (fun stage same => ?_) rfl rfl (fun ready => absurd ready.2 (by simp))
        (fun _ _ _ ok => ok) inv.right
      obtain rfl := Option.some_inj.mp same
      exact ⟨rfl, fun _ => rfl⟩
    · exact absurd step (by simp)
  | copyMask =>
    simp only [State.step] at step
    split at step
    · rename_i np pc
      obtain ⟨held, same⟩ := Option.ite_none_right_eq_some.mp step
      obtain rfl := Option.some_inj.mp same
      obtain ⟨other, locked, -⟩ := inv.forking pc
      obtain ⟨-, ok, taken, -⟩ := inv.running running
      have young := inv.embryo np _ held
      have user := young.2 (by simp)
      refine inv.child pc rfl (fun stage same => ?_) user rfl (fun _ => ?_)
        (fun q different ready before => before.cons ?_)
        (right_cons inv.right (by simp))
      · obtain rfl := Option.some_inj.mp same
        exact ⟨young.1, fun _ => user⟩
      · refine ⟨ok.mask.trans ?_, ?_, fun busy => absurd user busy, fun busy => absurd user busy⟩
        · exact (if_pos rfl).symm
        · exact (if_pos rfl).symm
      · intro same
        exact different (inv.distinct q np (.inl ready.1) (.inr locked) (Option.some_inj.mp same).symm)
    · exact absurd step (by simp)
  | release =>
    simp only [State.step] at step
    split at step
    · rename_i np pc
      obtain ⟨held, same⟩ := Option.ite_none_right_eq_some.mp step
      obtain rfl := Option.some_inj.mp same
      have state := (inv.embryo np _ held).1
      have ok := inv.ok np ⟨by simp [state], .inr held⟩
      exact inv.forked running pc _ rfl (fun _ => ⟨ok.mask, ok.pid, ok.entry, ok.called⟩) rfl rfl
    · exact absurd step (by simp)
  | exit =>
    simp only [State.step, Option.ite_none_right_eq_some, Option.some.injEq] at step
    obtain ⟨where_, rfl⟩ := step
    obtain ⟨held, ok, -⟩ := inv.running running
    refine inv.own running ⟨ok.mask, ok.pid, ok.entry, ok.called⟩ held (fun np pc => ?_) rfl (.inl rfl)
    rcases where_ with user | call
    · exact absurd (user.symm.trans pc) (by simp)
    · exact absurd (call.1.symm.trans pc) (by simp)
  | wait np =>
    simp only [State.step, Option.ite_none_right_eq_some, Option.some.injEq] at step
    obtain ⟨⟨call, free, zombie⟩, rfl⟩ := step
    have other : np ≠ p := by
      rintro rfl
      exact absurd (running.symm.trans zombie) (by simp)
    have before := inv.leaving running (by simp [call.1]) (BitVec.ofInt 64 (s.slot np).pid)
    have child := Function.update_of_ne other { s.slot p with pc := .leaving (BitVec.ofInt 64 (s.slot np).pid) } s.slot
    have free' := (congrArg Process.held child).trans free
    refine before.setSlot (fun ready => absurd rfl ready.1)
      (fun stage some => absurd (free.symm.trans some) (by simp)) ?_ ?_ ?_
    · exact fun q _ pc => absurd free' (before.held q np pc).2
    · exact fun n pc => before.forking ((congrArg Process.pc child).trans pc)
    · exact fun taken => taken.elim (fun used => absurd rfl used) (absurd free)
  | exec name =>
    simp only [State.step, Option.ite_none_right_eq_some, Option.some.injEq] at step
    obtain ⟨call, rfl⟩ := step
    obtain ⟨held, ok, -⟩ := inv.running running
    exact inv.own running ⟨ok.mask, ok.pid, ok.entry, ok.called⟩ held
      (fun np pc => absurd (call.1.symm.trans pc) (by simp)) rfl (.inl rfl)
  | other ret =>
    simp only [State.step, Option.ite_none_right_eq_some, Option.some.injEq] at step
    obtain ⟨⟨call, -⟩, rfl⟩ := step
    exact inv.leaving running (by simp [call]) ret

theorem Inv.step (inv : Inv s) (step : Step s s') : Inv s' := by
  cases step with
  | run p a running step => exact inv.run running step
  | turn p st free states =>
    have used : (s.slot p).state ≠ .UNUSED := by
      intro unused
      rw [unused] at states
      exact absurd states.1 (by decide)
    refine inv.setSlot (fun _ => ?_) (fun stage some => absurd (free.symm.trans some) (by simp)) ?_
      (fun np pc => inv.forking pc) ?_
    · have ok := inv.ok p ⟨used, .inl free⟩
      exact ⟨ok.mask, ok.pid, ok.entry, ok.called⟩
    · exact fun q _ pc => absurd free (inv.held q p pc).2
    · exact fun _ => ⟨.inl used, rfl⟩

theorem inv_start : Inv start := by
  have others : ∀ p, (start.slot p).state ≠ .UNUSED → p = 0 := by
    intro p used
    by_contra other
    exact used (congrArg Process.state (if_neg other))
  have free : ∀ p, (start.slot p).held = none := by
    intro p
    by_cases init : p = 0
    · exact congrArg Process.held (if_pos init)
    · exact congrArg Process.held (if_neg init)
  have user : ∀ p, (start.slot p).pc = .user := by
    intro p
    by_cases init : p = 0
    · exact congrArg Process.pc (if_pos init)
    · exact congrArg Process.pc (if_neg init)
  have only : ∀ p, (start.slot p).Taken → p = 0 := fun p taken => taken.elim (others p) fun held => absurd (free p) held
  refine ⟨fun p ready => ?_, fun p stage some => ?_, fun p np pc => ?_, fun p q np pc => ?_, fun p taken => ?_,
    fun p q taken taken' _ => ?_, ?_⟩
  · obtain rfl := others p ready.1
    exact ⟨rfl, rfl, fun busy => absurd rfl busy, fun busy => absurd rfl busy⟩
  · exact absurd ((free p).symm.trans some) (by simp)
  · exact absurd ((user p).symm.trans pc) (by simp)
  · exact absurd ((user p).symm.trans pc) (by simp)
  · obtain rfl := only p taken
    exact Nat.one_pos
  · exact (only p taken).trans (only q taken').symm
  · intro later b ret line earlier same
    exact absurd same (by simp [start])

theorem inv_of_reachable (reach : Reachable s) : Inv s := by
  induction reach with
  | refl => exact inv_start
  | tail _ step inv => exact inv.step step

theorem masks_follow_forks (reach : Reachable s) :
    (∀ p, (s.slot p).state ≠ .UNUSED → (s.slot p).held = none →
      (s.slot p).mask = maskOf s.history (s.slot p).birth ∧ (s.slot p).pid = pidOf s.history (s.slot p).birth) ∧
    (∀ p q, (s.slot p).state ≠ .UNUSED → (s.slot q).state ≠ .UNUSED → (s.slot p).birth = (s.slot q).birth → p = q) ∧
    (∀ p, (s.slot p).state = .RUNNING → (s.slot p).held = none) ∧
    ∀ later b ret line earlier, s.history = later ++ .returned b ret line :: earlier → Printed earlier b ret line := by
  have inv := inv_of_reachable reach
  refine ⟨fun p used free => ?_, fun p q used used' => inv.distinct p q (.inl used) (.inl used'),
    fun p => (inv.embryo p).awake, inv.right⟩
  have ok := inv.ok p ⟨used, .inl free⟩
  exact ⟨ok.mask, ok.pid⟩

theorem Reachable.foldlM (p : Slot) (acts : List Act) (reach : Reachable s)
    (run : acts.foldlM (fun s a => if (s.slot p).state = .RUNNING then s.step p a else none) s = some s') :
    Reachable s' := by
  induction acts generalizing s with
  | nil =>
    obtain rfl := Option.some_inj.mp run
    exact reach
  | cons a acts ih =>
    rw [List.foldlM_cons] at run
    obtain ⟨t, step, run⟩ := Option.bind_eq_some_iff.mp run
    obtain ⟨running, step⟩ := Option.ite_none_right_eq_some.mp step
    exact ih (reach.tail (.run p a running step)) run

/-- `init` traces `fork` (a mask with bit 1), and forks a child that has the mask. -/
theorem masks_follow_forks_init :
    ∃ s, Reachable s ∧ (s.slot 1).state = .RUNNABLE ∧ (s.slot 1).mask = 2 ∧ maskOf s.history (s.slot 1).birth = 2 ∧
      ∃ earlier, s.history = .returned 0 2 (some ⟨1, "sys_fork", 7, 2⟩) :: earlier ∧
        Printed earlier 0 2 (some ⟨1, "sys_fork", 7, 2⟩) := by
  have first : Reachable _ := Relation.ReflTransGen.refl.tail (Step.turn (s := start) 0 .RUNNING rfl (by decide))
  have run := Reachable.foldlM 0 [.ecall 22 2, .sys_trace, .leave, .ecall 1 7, .allocproc 1, .runnable, .copyMask,
    .release, .leave] first rfl
  have follow := masks_follow_forks run
  exact ⟨_, run, rfl, rfl, (follow.1 1 (by decide) rfl).1.symm, _, rfl, follow.2.2.2 [] 0 2 _ _ rfl⟩

end Xv6Labs.Trace
