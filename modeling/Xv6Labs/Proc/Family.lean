import Xv6Labs.Proc.Run

/-!
# Parents, and the CPU of a process

What the invariant says in a state where locks are free: parent pointers lead to init, and a RUNNING process is on
one CPU.
-/

namespace Xv6Labs.Proc

open Threads

variable {lab : Lab} {fsinit : Balanced} {mem : Memory} {conf : Conf Thread Act Res Kernel} {s : Table}

def ParentOf (s : Table) (q r : Slot) : Prop := (s.proc q).parent = some r

theorem exists_init (tree : s.Tree) {q : Slot} (used : (s.proc q).state ≠ .UNUSED) : ∃ i, s.initproc = some i := by
  cases found : s.initproc with
  | none => exact absurd (tree.before found q).1 used
  | some i => exact ⟨i, rfl⟩

/-- By induction on births: a parent is older than its children. -/
theorem reaches_init (tree : s.Tree) {i : Slot} (found : s.initproc = some i) (q : Slot)
    (used : (s.proc q).state ≠ .UNUSED) : Relation.ReflTransGen (ParentOf s) q i := by
  induction birth : (s.proc q).birth using Nat.strong_induction_on generalizing q with
  | _ n ih =>
    by_cases root : s.initproc = some q
    · rw [found] at root
      cases root
      exact .refl
    · obtain ⟨r, parent, older, alive⟩ := tree.parent q used root
      rw [birth] at older
      exact .head parent (ih _ older r alive.1 rfl)

theorem parents_form_tree (h : Reachable lab fsinit mem conf) (free : ∀ p, conf.shared.owner (.proc p) = none) :
    (∀ q, (conf.shared.proc q).state ≠ .UNUSED → conf.shared.initproc ≠ some q →
      ∃ r, (conf.shared.proc q).parent = some r ∧ (conf.shared.proc r).state ≠ .UNUSED ∧
        (conf.shared.proc r).state ≠ .ZOMBIE) ∧
    (∀ q, (conf.shared.proc q).state ≠ .UNUSED →
      ∃ i, conf.shared.initproc = some i ∧ Relation.ReflTransGen (ParentOf conf.shared.toTable) q i) ∧
    ∀ q, (conf.shared.proc q).state = .UNUSED → (conf.shared.proc q).parent = none := by
  have inv := reachable_inv h
  refine ⟨fun q used other => ?_, fun q used => ?_, fun q unused => (inv.settled q (free q)).unused unused⟩
  · obtain ⟨r, parent, -, alive⟩ := inv.tree.parent q used other
    exact ⟨r, parent, alive⟩
  · obtain ⟨i, found⟩ := exists_init inv.tree used
    exact ⟨i, found, reaches_init inv.tree found q used⟩

/-- All allocations succeed. -/
def plenty : Memory := { trapframe := true, kpgtbl := some 0, pagetable := true, uvmcopy := true }

def acts (n : ℕ) (t : Thread) : List (Move Thread Call) := List.replicate n (.act t)

def noOps : Balanced := ⟨[], rfl⟩

/-- Init forks, and then no lock is held. -/
def firstFork : List (Move Thread Call) :=
  acts 13 (.sched 0) ++ .call (.sched 0) .scheduler :: acts 6 (.sched 0) ++ acts 6 (.proc 0) ++
    .call (.proc 0) (.usertrap (.syscall (.fork plenty)) noOps) :: acts 26 (.proc 0)

theorem parents_form_tree_fork : ∃ conf, Reachable .two ⟨[], rfl⟩ plenty conf ∧
    (∀ p, conf.shared.owner (.proc p) = none) ∧ (conf.shared.proc 1).state = .RUNNABLE ∧
    Relation.ReflTransGen (ParentOf conf.shared.toTable) 1 0 := by
  have played : (((machine .two ⟨[], rfl⟩).play firstFork (boot .two plenty)).any fun conf =>
      decide (∀ p, conf.shared.owner (.proc p) = none) && decide (conf.shared.initproc = some 0) &&
        decide ((conf.shared.proc 1).state = .RUNNABLE)) = true := by decide +kernel
  obtain ⟨conf, run, facts⟩ := Machine.exists_of_play played
  simp only [Bool.and_eq_true, decide_eq_true_eq] at facts
  obtain ⟨⟨free, init⟩, child⟩ := facts
  refine ⟨conf, run, free, child, ?_⟩
  obtain ⟨i, found, reaches⟩ := (parents_form_tree run free).2.1 1 (by simp [child])
  rw [init] at found
  cases found
  exact reaches

/-- Besides, whoever releases a lock is on the CPU that holds it, also where the lock came through `swtch`. -/
theorem running_iff_one_cpu (h : Reachable lab fsinit mem conf) :
    (∀ p, conf.shared.owner (.proc p) = none →
      ((conf.shared.proc p).state = .RUNNING ↔ ∃! c, (conf.shared.cpu c).proc = some p) ∧
      ((conf.shared.proc p).state ≠ .RUNNING → ∀ c, (conf.shared.cpu c).proc ≠ some p)) ∧
    ∀ t c a k, conf.code t = .act a k → conf.shared.on t = some c →
      (∀ p, a = .swtchTo p → conf.shared.owner (.proc p) = some c) ∧
      (a = .swtchBack → ∃ p, t = .proc p ∧ conf.shared.owner (.proc p) = some c) ∧
      ∀ lk, a = .release lk → conf.shared.owner lk = some c := by
  have inv := reachable_inv h
  refine ⟨fun p free => ?_, fun t c a k point here => ?_⟩
  · have running := (inv.settled p free).running
    refine ⟨?_, fun stopped c there => stopped (running.mpr ⟨c, there⟩)⟩
    rw [running]
    constructor
    · rintro ⟨c, there⟩
      exact ⟨c, there, fun d there' => inv.unique d c p there' there⟩
    · rintro ⟨c, there, -⟩
      exact ⟨c, there⟩
  · have runs := runs_of_on here
    have allowed := (reachable_kept h).ok point c runs
    refine ⟨?_, ?_, ?_⟩
    · rintro p rfl
      exact allowed.1
    · rintro rfl
      obtain ⟨p, there, owner⟩ := allowed
      exact ⟨p, runs.symm.trans there, owner⟩
    · rintro lk rfl
      exact allowed

theorem running_iff_one_cpu_fork : ∃ conf, Reachable .two ⟨[], rfl⟩ plenty conf ∧
    conf.shared.owner (.proc 0) = none ∧ (conf.shared.proc 0).state = .RUNNING ∧
    ∃! c, (conf.shared.cpu c).proc = some 0 := by
  have played : (((machine .two ⟨[], rfl⟩).play firstFork (boot .two plenty)).any fun conf =>
      decide (conf.shared.owner (.proc 0) = none) && decide ((conf.shared.proc 0).state = .RUNNING)) = true := by
    decide +kernel
  obtain ⟨conf, run, facts⟩ := Machine.exists_of_play played
  simp only [Bool.and_eq_true, decide_eq_true_eq] at facts
  obtain ⟨free, running⟩ := facts
  exact ⟨conf, run, free, running, (((running_iff_one_cpu run).1 0 free).1.mp running)⟩

end Xv6Labs.Proc
