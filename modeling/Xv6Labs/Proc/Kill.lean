import Xv6Labs.Proc.State

/-!
# `kill`

The fields of `struct proc` that `kill` looks at, and what `fork`, `exit`, `wait` and the scheduler of Lab 2 do to
them. Each step is a critical section of one `p->lock`, except that `fork` holds the lock of the slot from
`allocproc` to its end. `kill` looks at one slot in each step.
-/

namespace Xv6Labs.Kill

open Proc (ProcState Slot)

/-- `held` is `p->lock` in the hands of `fork`. -/
structure Process where
  state : ProcState := .UNUSED
  pid : ℤ := 0
  killed : Bool := false
  held : Bool := false

/-- A process that is in use has that pid. -/
def Process.Named (x : Process) (pid : ℤ) : Prop := x.state ≠ .UNUSED ∧ x.pid = pid

/-- A `kill` before slot `next`. `there` are the slots that have had a process of that pid ever since the call. -/
structure Scan where
  pid : ℤ
  next : ℕ := 0
  there : Slot → Prop

inductive Outcome where
  /-- `kill(pid)` has set `killed` of a process, as it was then, and returned 0. -/
  | hit (pid : ℤ) (x : Process)
  /-- `kill(pid)` has returned -1. -/
  | miss (pid : ℤ) (there : Slot → Prop)
  /-- `fork` has returned, with `killed` of the child. -/
  | forked (killed : Bool)

structure State where
  slot : Slot → Process := fun _ => {}
  nextpid : ℤ := 1
  scan : ℕ → Option Scan := fun _ => none
  log : List Outcome := []

inductive Act where
  -- `allocproc`, and how it and the rest of `fork` may end
  | allocproc (p : Slot)
  | noTrapframe (p : Slot)
  | noMemory (p : Slot)
  | fork (p : Slot)
  -- the scheduler, `sleep`, `wakeup`, `exit` and `usertrap`
  | turn (p : Slot) (st : ProcState)
  | fault (p : Slot)
  -- `freeproc` in `wait`
  | reap (p : Slot)
  -- a thread calls `kill`; one slot of its loop, or its end
  | kill (t : ℕ) (pid : ℤ)
  | look (t : ℕ)

namespace State

def setSlot (s : State) (p : Slot) (x : Process) : State :=
  { s with
    slot := Function.update s.slot p x
    scan := fun t => (s.scan t).map fun k => { k with there := fun q => k.there q ∧ (q = p → x.Named k.pid) } }

def setScan (s : State) (t : ℕ) (k : Option Scan) : State := { s with scan := Function.update s.scan t k }

def report (s : State) (o : Outcome) : State := { s with log := o :: s.log }

/-- `if(p->pid == pid){ p->killed = 1; if(p->state == SLEEPING) p->state = RUNNABLE; return 0; }` -/
def look (s : State) (t : ℕ) (k : Scan) (p : Slot) : State :=
  let x := s.slot p
  if x.pid = k.pid then
    let y := { x with killed := true, state := if x.state = .SLEEPING then .RUNNABLE else x.state }
    ((s.setSlot p y).setScan t none).report (.hit k.pid x)
  else s.setScan t (some { k with next := k.next + 1 })

def step (s : State) : Act → Option State
  | .allocproc p =>
    let x := s.slot p
    if x.held = false ∧ x.state = .UNUSED then
      some { s.setSlot p { x with pid := s.nextpid, held := true } with nextpid := Proc.int32 (s.nextpid + 1) }
    else none
  | .noTrapframe p => if (s.slot p).held = true then some (s.setSlot p { s.slot p with held := false }) else none
  | .noMemory p => if (s.slot p).held = true then some (s.setSlot p {}) else none
  | .fork p =>
    let x := s.slot p
    if x.held = true then some ((s.setSlot p { x with state := .RUNNABLE, held := false }).report (.forked x.killed))
    else none
  | .turn p st =>
    let x := s.slot p
    if x.held = false ∧ x.state ∈ [ProcState.SLEEPING, .RUNNABLE, .RUNNING] ∧ st ≠ .UNUSED then
      some (s.setSlot p { x with state := st })
    else none
  | .fault p => if (s.slot p).state = .RUNNING then some (s.setSlot p { s.slot p with killed := true }) else none
  | .reap p => if (s.slot p).held = false ∧ (s.slot p).state = .ZOMBIE then some (s.setSlot p {}) else none
  | .kill t pid =>
    match s.scan t with
    | none => some (s.setScan t (some { pid, there := fun q => (s.slot q).Named pid }))
    | some _ => none
  | .look t =>
    match s.scan t with
    | none => none
    | some k =>
      if h : k.next < nproc then
        if (s.slot ⟨k.next, h⟩).held = false then some (s.look t k ⟨k.next, h⟩) else none
      else some ((s.setScan t none).report (.miss k.pid k.there))

end State

/-- The outcome is right: 0 for a process in use, -1 if there was none all the time, and a child is not killed. -/
def Outcome.Right : Outcome → Prop
  | .hit pid x => x.Named pid
  | .miss _ there => ∀ q, ¬ there q
  | .forked killed => killed = false

/-- `kill` does not come to a free slot that has the pid it looks for. -/
def Fresh (s : State) : Act → Prop
  | .look t => ∀ k, s.scan t = some k →
      ∀ h : k.next < nproc, (s.slot ⟨k.next, h⟩).state = .UNUSED → (s.slot ⟨k.next, h⟩).pid ≠ k.pid
  | _ => True

/-- Runs whose steps all meet a condition. -/
def Along (P : State → Act → Prop) : State → Prop :=
  Relation.ReflTransGen (fun s s' => ∃ a, P s a ∧ s.step a = some s') {}

/-- What `kill` promises: a call ends as it should; only `kill`, or a fault of the process, sets a flag; and `kill` sets
that of the process that it returns 0 for, which has its argument as its pid, and no other. (`allocpid` counts in an
`int`: of two processes with one pid, `kill` finds the first.) -/
structure Exact (s : State) : Prop where
  right : ∀ o ∈ s.log, o.Right
  only : ∀ a s', Fresh s a → s.step a = some s' → ∀ p, (s.slot p).killed = false → (s'.slot p).killed = true →
    a = .fault p ∨ ∃ t k, a = .look t ∧ s.scan t = some k ∧ (s.slot p).Named k.pid ∧
      s'.scan t = none ∧ s'.log = .hit k.pid (s.slot p) :: s.log ∧ ∀ q, q ≠ p → s'.slot q = s.slot q
  sets : ∀ t s' pid x, s.step (.look t) = some s' → s'.log = .hit pid x :: s.log →
    ∃ p, s.slot p = x ∧ (s'.slot p).killed = true

structure Inv (s : State) : Prop where
  clean : ∀ p, (s.slot p).state = .UNUSED → (s.slot p).killed = false
  embryo : ∀ p, (s.slot p).held = true → (s.slot p).state = .UNUSED
  ahead : ∀ t k, s.scan t = some k → ∀ q, k.there q → k.next ≤ q.val ∧ (s.slot q).Named k.pid
  right : ∀ o ∈ s.log, o.Right

variable {s s' : State} {p : Slot} {x : Process} {t : ℕ} {k : Scan}

theorem Inv.report {o : Outcome} (inv : Inv s) (right : o.Right) : Inv (s.report o) :=
  { inv with right := List.forall_mem_cons.mpr ⟨right, inv.right⟩ }

theorem Inv.setScan {k : Option Scan} (inv : Inv s)
    (ahead : ∀ k', k = some k' → ∀ q, k'.there q → k'.next ≤ q.val ∧ (s.slot q).Named k'.pid) :
    Inv (s.setScan t k) := by
  refine { inv with ahead := fun t' k' found => ?_ }
  change Function.update s.scan t k t' = some k' at found
  by_cases same : t' = t
  · rw [same, Function.update_self] at found
    exact ahead k' found
  · rw [Function.update_of_ne same] at found
    exact inv.ahead t' k' found

theorem Inv.setSlot {pid : ℤ} (inv : Inv s) (clean : x.state = .UNUSED → x.killed = false)
    (embryo : x.held = true → x.state = .UNUSED) : Inv { s.setSlot p x with nextpid := pid } := by
  have changed : (s.setSlot p x).slot p = x := Function.update_self ..
  have others : ∀ q ≠ p, (s.setSlot p x).slot q = s.slot q := fun q other => Function.update_of_ne other ..
  refine ⟨fun q => ?_, fun q => ?_, fun t k found q there => ?_, inv.right⟩
  · dsimp only
    by_cases same : q = p
    · rw [same, changed]; exact clean
    · rw [others q same]; exact inv.clean q
  · dsimp only
    by_cases same : q = p
    · rw [same, changed]; exact embryo
    · rw [others q same]; exact inv.embryo q
  · obtain ⟨k', found', rfl⟩ := Option.map_eq_some_iff.mp found
    obtain ⟨next, named⟩ := inv.ahead t k' found' q there.1
    refine ⟨next, ?_⟩
    dsimp only
    by_cases same : q = p
    · rw [same, changed]; exact there.2 same
    · rw [others q same]; exact named

/-- A process after `kill` has found it. -/
def Process.kill (x : Process) : Process :=
  { x with killed := true, state := if x.state = .SLEEPING then .RUNNABLE else x.state }

theorem kill_state (used : x.state ≠ .UNUSED) : x.kill.state ≠ .UNUSED := by
  unfold Process.kill
  dsimp only
  split
  · simp
  · exact used

theorem look_hit (same : (s.slot p).pid = k.pid) :
    s.look t k p = ((s.setSlot p (s.slot p).kill).setScan t none).report (.hit k.pid (s.slot p)) := if_pos same

theorem look_miss (other : (s.slot p).pid ≠ k.pid) : s.look t k p = s.setScan t (some { k with next := k.next + 1 }) :=
  if_neg other

theorem Inv.look (inv : Inv s) (found : s.scan t = some k) (h : k.next < nproc)
    (free : (s.slot ⟨k.next, h⟩).held = false)
    (fresh : (s.slot ⟨k.next, h⟩).state = .UNUSED → (s.slot ⟨k.next, h⟩).pid ≠ k.pid) :
    Inv (s.look t k ⟨k.next, h⟩) := by
  by_cases same : (s.slot ⟨k.next, h⟩).pid = k.pid
  · rw [look_hit same]
    have used : (s.slot ⟨k.next, h⟩).state ≠ .UNUSED := fun unused => fresh unused same
    refine Inv.report ?_ ⟨used, same⟩
    refine Inv.setScan ?_ fun _ none => absurd none (by simp)
    refine inv.setSlot (fun unused => absurd unused (kill_state used)) fun held => ?_
    · exact absurd (held.symm.trans free) (by simp)
  · rw [look_miss same]
    refine inv.setScan fun k' equal q there => ?_
    obtain rfl := Option.some_inj.mp equal
    obtain ⟨next, named⟩ := inv.ahead t k found q there
    refine ⟨?_, named⟩
    have : k.next ≠ q.val := by
      intro here
      obtain rfl : q = ⟨k.next, h⟩ := Fin.ext here.symm
      exact same named.2
    exact Nat.lt_of_le_of_ne next this

theorem Inv.step {a : Act} (inv : Inv s) (fresh : Fresh s a) (step : s.step a = some s') : Inv s' := by
  cases a with
  | allocproc p =>
    simp only [State.step, Option.ite_none_right_eq_some, Option.some.injEq] at step
    obtain ⟨⟨-, unused⟩, rfl⟩ := step
    exact inv.setSlot (fun _ => inv.clean p unused) fun _ => unused
  | noTrapframe p =>
    simp only [State.step, Option.ite_none_right_eq_some, Option.some.injEq] at step
    obtain ⟨held, rfl⟩ := step
    have unused := inv.embryo p held
    exact inv.setSlot (fun _ => inv.clean p unused) fun held => absurd held (by simp)
  | noMemory p =>
    simp only [State.step, Option.ite_none_right_eq_some, Option.some.injEq] at step
    obtain ⟨held, rfl⟩ := step
    exact inv.setSlot (fun _ => rfl) fun _ => rfl
  | fork p =>
    simp only [State.step, Option.ite_none_right_eq_some, Option.some.injEq] at step
    obtain ⟨held, rfl⟩ := step
    refine Inv.report ?_ (inv.clean p (inv.embryo p held))
    exact inv.setSlot (fun unused => absurd unused (by simp)) fun held => absurd held (by simp)
  | turn p st =>
    simp only [State.step, Option.ite_none_right_eq_some, Option.some.injEq] at step
    obtain ⟨⟨free, -, stays⟩, rfl⟩ := step
    exact inv.setSlot (fun unused => absurd unused stays) fun held => absurd (held.symm.trans free) (by simp)
  | fault p =>
    simp only [State.step, Option.ite_none_right_eq_some, Option.some.injEq] at step
    obtain ⟨running, rfl⟩ := step
    have used : (s.slot p).state ≠ .UNUSED := by simp [running]
    exact inv.setSlot (fun unused => absurd unused used) (inv.embryo p)
  | reap p =>
    simp only [State.step, Option.ite_none_right_eq_some, Option.some.injEq] at step
    obtain ⟨-, rfl⟩ := step
    exact inv.setSlot (fun _ => rfl) fun _ => rfl
  | kill t pid =>
    simp only [State.step] at step
    split at step
    · obtain rfl := Option.some_inj.mp step
      refine inv.setScan fun k equal q there => ?_
      obtain rfl := Option.some_inj.mp equal
      exact ⟨Nat.zero_le _, there⟩
    · exact absurd step (by simp)
  | look t =>
    simp only [State.step] at step
    split at step
    · exact absurd step (by simp)
    · rename_i k found
      split at step
      · rename_i h
        obtain ⟨free, rfl⟩ := Option.ite_none_right_eq_some.mp step |>.imp_right Option.some_inj.mp
        exact inv.look found h free (fresh k found h)
      · rename_i done
        obtain rfl := Option.some_inj.mp step
        refine Inv.report ?_ fun q there => ?_
        · exact inv.setScan fun _ none => absurd none (by simp)
        · exact absurd (q.isLt.trans_le' (inv.ahead t k found q there).1) done

theorem inv_init : Inv {} :=
  ⟨fun _ _ => rfl, fun _ held => absurd held (by simp), fun _ _ found => absurd found (by simp), by simp⟩

theorem inv_of_along (run : Along Fresh s) : Inv s := by
  induction run with
  | refl => exact inv_init
  | tail _ step inv =>
    obtain ⟨a, fresh, step⟩ := step
    exact inv.step fresh step

theorem setSlot_rises {q : Slot} (after : ((s.setSlot q x).slot p).killed = true) (before : (s.slot p).killed = false) :
    q = p ∧ x.killed = true := by
  change (Function.update s.slot q x p).killed = true at after
  by_cases here : p = q
  · rw [here, Function.update_self] at after
    exact ⟨here.symm, after⟩
  · rw [Function.update_of_ne here] at after
    exact absurd (before.symm.trans after) (by simp)

theorem Fresh.only {a : Act} (fresh : Fresh s a) (step : s.step a = some s') (before : (s.slot p).killed = false)
    (after : (s'.slot p).killed = true) :
    a = .fault p ∨ ∃ t k, a = .look t ∧ s.scan t = some k ∧ (s.slot p).Named k.pid ∧
      s'.scan t = none ∧ s'.log = .hit k.pid (s.slot p) :: s.log ∧ ∀ q, q ≠ p → s'.slot q = s.slot q := by
  have still : ¬ (s.slot p).killed = true := by simp [before]
  cases a with
  | allocproc q =>
    simp only [State.step, Option.ite_none_right_eq_some, Option.some.injEq] at step
    obtain ⟨-, rfl⟩ := step
    obtain ⟨rfl, killed⟩ := setSlot_rises after before
    exact absurd killed still
  | noTrapframe q =>
    simp only [State.step, Option.ite_none_right_eq_some, Option.some.injEq] at step
    obtain ⟨-, rfl⟩ := step
    obtain ⟨rfl, killed⟩ := setSlot_rises after before
    exact absurd killed still
  | fork q =>
    simp only [State.step, Option.ite_none_right_eq_some, Option.some.injEq] at step
    obtain ⟨-, rfl⟩ := step
    obtain ⟨rfl, killed⟩ := setSlot_rises after before
    exact absurd killed still
  | turn q st =>
    simp only [State.step, Option.ite_none_right_eq_some, Option.some.injEq] at step
    obtain ⟨-, rfl⟩ := step
    obtain ⟨rfl, killed⟩ := setSlot_rises after before
    exact absurd killed still
  | noMemory q =>
    simp only [State.step, Option.ite_none_right_eq_some, Option.some.injEq] at step
    obtain ⟨-, rfl⟩ := step
    exact absurd (setSlot_rises after before).2 (by simp)
  | reap q =>
    simp only [State.step, Option.ite_none_right_eq_some, Option.some.injEq] at step
    obtain ⟨-, rfl⟩ := step
    exact absurd (setSlot_rises after before).2 (by simp)
  | fault q =>
    simp only [State.step, Option.ite_none_right_eq_some, Option.some.injEq] at step
    obtain ⟨-, rfl⟩ := step
    exact .inl (congrArg Act.fault (setSlot_rises after before).1)
  | kill t pid =>
    simp only [State.step] at step
    split at step
    · obtain rfl := Option.some_inj.mp step
      exact absurd after still
    · exact absurd step (by simp)
  | look t =>
    simp only [State.step] at step
    split at step
    · exact absurd step (by simp)
    · rename_i k found
      split at step
      · rename_i h
        obtain ⟨-, rfl⟩ := Option.ite_none_right_eq_some.mp step |>.imp_right Option.some_inj.mp
        by_cases same : (s.slot ⟨k.next, h⟩).pid = k.pid
        · rw [look_hit same] at after ⊢
          obtain ⟨rfl, -⟩ := setSlot_rises after before
          have named : (s.slot ⟨k.next, h⟩).Named k.pid := ⟨fun unused => fresh k found h unused same, same⟩
          exact .inr ⟨t, k, rfl, found, named, Function.update_self .., rfl, fun q other => Function.update_of_ne other ..⟩
        · rw [look_miss same] at after
          exact absurd after still
      · obtain rfl := Option.some_inj.mp step
        exact absurd after still

/-- A 0 is returned for a process whose flag is set. -/
theorem look_sets {pid : ℤ} (step : s.step (.look t) = some s') (hit : s'.log = .hit pid x :: s.log) :
    ∃ p, s.slot p = x ∧ (s'.slot p).killed = true := by
  simp only [State.step] at step
  split at step
  · exact absurd step (by simp)
  · rename_i k found
    split at step
    · rename_i h
      obtain ⟨-, rfl⟩ := Option.ite_none_right_eq_some.mp step |>.imp_right Option.some_inj.mp
      by_cases same : (s.slot ⟨k.next, h⟩).pid = k.pid
      · rw [look_hit same] at hit ⊢
        obtain ⟨-, rfl⟩ := Outcome.hit.inj (List.cons.inj hit).1
        refine ⟨_, rfl, ?_⟩
        change (Function.update s.slot _ (s.slot ⟨k.next, h⟩).kill _).killed = true
        rw [Function.update_self]
        rfl
      · rw [look_miss same] at hit
        exact (List.cons_ne_self _ _ hit.symm).elim
    · obtain rfl := Option.some_inj.mp step
      cases (List.cons.inj hit).1

theorem kill_exact (run : Along Fresh s) : Exact s :=
  have inv := inv_of_along run
  ⟨inv.right, fun _ _ fresh step _ => fresh.only step, fun _ _ _ _ step => look_sets step⟩

theorem not_exact_of_stale {a : Act} (stale : ¬ Fresh s a) (step : s.step a = some s') : ¬ Exact s' := by
  cases a with
  | look t =>
    simp only [Fresh, not_forall, not_not] at stale
    obtain ⟨k, found, h, unused, same⟩ := stale
    simp only [State.step, found, h, dite_true, Option.ite_none_right_eq_some, Option.some.injEq] at step
    obtain ⟨-, rfl⟩ := step
    intro exact
    unfold State.look at exact
    rw [if_pos same] at exact
    exact (exact.right _ List.mem_cons_self).1 unused
  | _ => exact absurd trivial stale

/-- What lets no free slot have a pid that `kill` may look for. -/
def Ordinary : Act → Prop
  | .noTrapframe _ => False
  | .kill _ pid => pid ≠ 0
  | _ => True

structure Clear (s : State) : Prop where
  free : ∀ p, (s.slot p).state = .UNUSED → (s.slot p).held = false → (s.slot p).pid = 0
  named : ∀ t k, s.scan t = some k → k.pid ≠ 0

theorem Clear.fresh {a : Act} (clear : Clear s) (step : s.step a = some s') : Fresh s a := by
  cases a with
  | look t =>
    intro k found h unused same
    simp only [State.step, found, h, dite_true, Option.ite_none_right_eq_some] at step
    exact clear.named t k found (same.symm.trans (clear.free ⟨k.next, h⟩ unused step.1))
  | _ => exact trivial

theorem Clear.report {o : Outcome} (clear : Clear s) : Clear (s.report o) := ⟨clear.free, clear.named⟩

theorem Clear.setScan {k : Option Scan} (clear : Clear s) (named : ∀ k', k = some k' → k'.pid ≠ 0) :
    Clear (s.setScan t k) := by
  refine ⟨clear.free, fun t' k' found => ?_⟩
  change Function.update s.scan t k t' = some k' at found
  by_cases same : t' = t
  · rw [same, Function.update_self] at found
    exact named k' found
  · rw [Function.update_of_ne same] at found
    exact clear.named t' k' found

theorem Clear.setSlot {pid : ℤ} (clear : Clear s) (free : x.state = .UNUSED → x.held = false → x.pid = 0) :
    Clear { s.setSlot p x with nextpid := pid } := by
  refine ⟨fun q => ?_, fun t k found => ?_⟩
  · change (Function.update s.slot p x q).state = _ → (Function.update s.slot p x q).held = _ →
      (Function.update s.slot p x q).pid = _
    by_cases same : q = p
    · rw [same, Function.update_self]; exact free
    · rw [Function.update_of_ne same]; exact clear.free q
  · obtain ⟨k', found', rfl⟩ := Option.map_eq_some_iff.mp found
    exact clear.named t k' found'

theorem Clear.step {a : Act} (clear : Clear s) (ordinary : Ordinary a) (step : s.step a = some s') : Clear s' := by
  cases a with
  | allocproc p =>
    simp only [State.step, Option.ite_none_right_eq_some, Option.some.injEq] at step
    obtain ⟨-, rfl⟩ := step
    exact clear.setSlot fun _ held => absurd held (by simp)
  | noTrapframe p => exact ordinary.elim
  | noMemory p =>
    simp only [State.step, Option.ite_none_right_eq_some, Option.some.injEq] at step
    obtain ⟨-, rfl⟩ := step
    exact clear.setSlot fun _ _ => rfl
  | fork p =>
    simp only [State.step, Option.ite_none_right_eq_some, Option.some.injEq] at step
    obtain ⟨-, rfl⟩ := step
    exact Clear.report (clear.setSlot fun unused => absurd unused (by simp))
  | turn p st =>
    simp only [State.step, Option.ite_none_right_eq_some, Option.some.injEq] at step
    obtain ⟨⟨-, -, stays⟩, rfl⟩ := step
    exact clear.setSlot fun unused => absurd unused stays
  | fault p =>
    simp only [State.step, Option.ite_none_right_eq_some, Option.some.injEq] at step
    obtain ⟨running, rfl⟩ := step
    exact clear.setSlot fun unused => absurd (running.symm.trans unused) (by simp)
  | reap p =>
    simp only [State.step, Option.ite_none_right_eq_some, Option.some.injEq] at step
    obtain ⟨-, rfl⟩ := step
    exact clear.setSlot fun _ _ => rfl
  | kill t pid =>
    simp only [State.step] at step
    split at step
    · obtain rfl := Option.some_inj.mp step
      refine clear.setScan fun k equal => ?_
      obtain rfl := Option.some_inj.mp equal
      exact ordinary
    · exact absurd step (by simp)
  | look t =>
    simp only [State.step] at step
    split at step
    · exact absurd step (by simp)
    · rename_i k found
      split at step
      · rename_i h
        obtain ⟨free, rfl⟩ := Option.ite_none_right_eq_some.mp step |>.imp_right Option.some_inj.mp
        by_cases same : (s.slot ⟨k.next, h⟩).pid = k.pid
        · rw [look_hit same]
          have named : (s.slot ⟨k.next, h⟩).state ≠ .UNUSED := fun unused =>
            clear.named t k found (same.symm.trans (clear.free ⟨k.next, h⟩ unused free))
          refine Clear.report (Clear.setScan (clear.setSlot fun unused _ => ?_) fun _ none => absurd none (by simp))
          exact absurd unused (kill_state named)
        · rw [look_miss same]
          refine clear.setScan fun k' equal => ?_
          obtain rfl := Option.some_inj.mp equal
          exact clear.named t k found
      · obtain rfl := Option.some_inj.mp step
        exact Clear.report (clear.setScan fun _ none => absurd none (by simp))

/-- Without a `fork` that gets no trapframe and without `kill(0)`, `kill` comes to no free slot with its pid. -/
theorem Along.fresh (run : Along (fun _ => Ordinary) s) : Along Fresh s := by
  suffices Along Fresh s ∧ Clear s from this.1
  induction run with
  | refl => exact ⟨.refl, fun _ _ _ => rfl, fun _ _ found => absurd found (by simp)⟩
  | tail _ step before =>
    obtain ⟨a, ordinary, step⟩ := step
    exact ⟨before.1.tail ⟨a, before.2.fresh step, step⟩, before.2.step ordinary step⟩

theorem Along.foldlM {P : Act → Prop} (acts : List Act) (all : ∀ a ∈ acts, P a) (before : Along (fun _ => P) s)
    (run : acts.foldlM State.step s = some s') : Along (fun _ => P) s' := by
  induction acts generalizing s with
  | nil =>
    obtain rfl := Option.some_inj.mp run
    exact before
  | cons a acts ih =>
    rw [List.foldlM_cons] at run
    obtain ⟨s₁, step, run⟩ := Option.bind_eq_some_iff.mp run
    exact ih (fun a mem => all a (List.mem_cons_of_mem _ mem)) (before.tail ⟨a, all a List.mem_cons_self, step⟩) run

theorem kill_exact_forked :
    ∃ s, [.allocproc 0, .fork 0, .allocproc 1, .fork 1, .kill 0 2, .look 0, .look 0].foldlM State.step {} = some s ∧
      s.log.length = 3 ∧ (s.slot 1).killed = true ∧ Exact s :=
  ⟨_, rfl, rfl, rfl, kill_exact (Along.fresh (Along.foldlM
    [.allocproc 0, .fork 0, .allocproc 1, .fork 1, .kill 0 2, .look 0, .look 0] (by simp [Ordinary]) .refl rfl))⟩

/-- The slot of a `fork` that gets no trapframe keeps its pid, and a process forked into it inherits the `kill`. -/
theorem kill_free_slot :
    ∃ s x, [.allocproc 0, .fork 0, .allocproc 1, .noTrapframe 1, .kill 0 2, .look 0, .look 0, .allocproc 1,
        .fork 1].foldlM State.step {} = some s ∧
      s.log = [.forked true, .hit 2 x, .forked false] ∧ x.state = .UNUSED ∧ ¬ Exact s := by
  refine ⟨_, { pid := 2 }, rfl, rfl, rfl, fun exact => ?_⟩
  have right := exact.right (.forked true) List.mem_cons_self
  exact absurd right (by simp [Outcome.Right])

end Xv6Labs.Kill
