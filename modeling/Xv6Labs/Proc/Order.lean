import Xv6Labs.Proc.Family
import Xv6Labs.Proc.Steps

/-!
# Who spins on whose process lock

A parent's lock is taken before the lock of its child, which is younger. `exit` is the exception: it reads `p->parent`,
lets go of `p->lock`, and takes the lock of the slot that it remembers. If that slot has a new process by then, the
order is wrong, and there can be a deadlock. In runs in which no process is made in such a slot there is none.
-/

namespace Xv6Labs.Proc

open Threads

variable {lab : Lab} {fsinit : Balanced} {mem : Memory} {conf : Conf Thread Act Res Kernel}

/-- Thread `t` spins on the lock of a process, and `u` is on the CPU that holds it. -/
def SpinsOn (conf : Conf Thread Act Res Kernel) (t u : Thread) : Prop :=
  ∃ p k c d, conf.code t = .act (.acquire (.proc p)) k ∧ conf.shared.on t = some c ∧
    conf.shared.owner (.proc p) = some d ∧ conf.shared.on u = some d

/-- No process is made in a slot that a process in the middle of `exit` remembers as its parent. -/
def NotReused (_ : Thread) (a : Act) (s : Kernel) : Prop :=
  ∀ q, a = .set q (.state .RUNNABLE) → (s.proc q).state = .UNUSED → ∀ p, s.Alive p →
    (s.notes p).remembered ≠ some q

structure Ordered (s : Table) : Prop where
  older : ∀ p o, s.Alive p → (s.notes p).remembered = some o → s.rank o < s.rank p
  blank : ∀ p, (s.proc p).state = .UNUSED → 0 < (s.proc p).birth → (s.notes p).remembered = none

namespace Ordered

variable {s s' : Table} {q : Slot}

theorem rank_pos (tree : s.Tree) (alive : s.Alive q) : 0 < s.rank q := by
  rw [Table.rank, if_neg alive.1]
  exact tree.born q alive.1

/-- A write to a process that exists. -/
theorem write (ordered : Ordered s) (notes : s'.notes = s.notes)
    (state : ∀ k, (s'.proc k).state = .UNUSED ↔ (s.proc k).state = .UNUSED)
    (birth : ∀ k, (s'.proc k).birth = (s.proc k).birth)
    (alive : ∀ k, s'.Alive k → s.Alive k) : Ordered s' := by
  have rank (k : Slot) : s'.rank k = s.rank k := by
    unfold Table.rank
    simp only [state, birth]
  constructor
  · intro p o here noted
    rw [notes] at noted
    rw [rank, rank]
    exact ordered.older p o (alive p here) noted
  · intro p unused born
    rw [state] at unused
    rw [birth] at born
    rw [notes]
    exact ordered.blank p unused born

/-- A new process, in a slot that nobody remembers. -/
theorem make (ordered : Ordered s) (unused : (s.proc q).state = .UNUSED) (born : 0 < (s.proc q).birth)
    (forgotten : ∀ p, s.Alive p → (s.notes p).remembered ≠ some q) :
    Ordered (s.put q { s.proc q with state := .RUNNABLE }) := by
  have rank {k : Slot} (other : k ≠ q) : (s.put q { s.proc q with state := .RUNNABLE }).rank k = s.rank k := by
    unfold Table.rank
    rw [Table.put_of_ne other]
  constructor
  · intro p o alive noted
    change (s.notes p).remembered = some o at noted
    have other : p ≠ q := by
      rintro rfl
      rw [ordered.blank p unused born] at noted
      cases noted
    have alive' : s.Alive p := by
      unfold Table.Alive at alive
      rwa [Table.put_of_ne other] at alive
    have other' : o ≠ q := by
      rintro rfl
      exact forgotten p alive' noted
    rw [rank other, rank other']
    exact ordered.older p o alive' noted
  · intro p unused' born'
    by_cases here : p = q
    · subst here
      rw [Table.put_self] at unused'
      cases unused'
    · rw [Table.put_of_ne here] at unused' born'
      exact ordered.blank p unused' born'

theorem free (ordered : Ordered s) (tree : s.Tree) : Ordered (s.put q {}) := by
  have rank {k : Slot} (other : k ≠ q) : (s.put q {}).rank k = s.rank k := by
    unfold Table.rank
    rw [Table.put_of_ne other]
  constructor
  · intro p o alive noted
    change (s.notes p).remembered = some o at noted
    have other : p ≠ q := by
      rintro rfl
      exact alive.1 (by rw [Table.put_self])
    have alive' : s.Alive p := by
      unfold Table.Alive at alive
      rwa [Table.put_of_ne other] at alive
    rw [rank other]
    by_cases here : o = q
    · subst here
      have zero : (s.put o {}).rank o = 0 := by
        unfold Table.rank
        rw [Table.put_self]
        rfl
      rw [zero]
      exact rank_pos tree alive'
    · rw [rank here]
      exact ordered.older p o alive' noted
  · intro p unused born
    by_cases here : p = q
    · subst here
      rw [Table.put_self] at born
      exact absurd born (lt_irrefl 0)
    · rw [Table.put_of_ne here] at unused born
      exact ordered.blank p unused born

theorem bear (ordered : Ordered s) (unused : (s.proc q).state = .UNUSED) : Ordered (s.bear q) := by
  have rank (k : Slot) : (s.bear q).rank k = s.rank k := by
    by_cases here : k = q
    · subst here
      have unused' : ((s.bear k).proc k).state = .UNUSED := (congrArg Process.state Table.put_self).trans unused
      unfold Table.rank
      rw [if_pos unused', if_pos unused]
    · have same : (s.bear q).proc k = s.proc k := Table.put_of_ne here
      unfold Table.rank
      rw [same]
  have other {p : Slot} (alive : (s.bear q).Alive p) : p ≠ q := by
    rintro rfl
    exact alive.1 ((congrArg Process.state Table.put_self).trans unused)
  constructor
  · intro p o alive noted
    have ne := other alive
    have same : (s.bear q).proc p = s.proc p := Table.put_of_ne ne
    have notes : (s.bear q).notes p = s.notes p := Function.update_of_ne ne ..
    rw [notes] at noted
    unfold Table.Alive at alive
    rw [same] at alive
    rw [rank, rank]
    exact ordered.older p o alive noted
  · intro p unused' born
    by_cases here : p = q
    · subst here
      have notes : (s.bear p).notes p = {} := Function.update_self ..
      rw [notes]
    · have same : (s.bear q).proc p = s.proc p := Table.put_of_ne here
      have notes : (s.bear q).notes p = s.notes p := Function.update_of_ne here ..
      rw [same] at unused' born
      rw [notes]
      exact ordered.blank p unused' born

theorem note {n : Notes} {p : Slot} (ordered : Ordered s) (alive : s.Alive p)
    (older : ∀ o, n.remembered = some o → s.rank o < s.rank p) : Ordered (s.note p n) := by
  constructor
  · intro k o here noted
    by_cases same : k = p
    · subst same
      have now : (s.note k n).notes k = n := Function.update_self ..
      rw [now] at noted
      exact older o noted
    · have before : (s.note p n).notes k = s.notes k := Function.update_of_ne same ..
      rw [before] at noted
      exact ordered.older k o here noted
  · intro k unused born
    have other : k ≠ p := by
      rintro rfl
      exact alive.1 unused
    have before : (s.note p n).notes k = s.notes k := Function.update_of_ne other ..
    rw [before]
    exact ordered.blank k unused born

theorem congr (ordered : Ordered s) (proc : s'.proc = s.proc) (notes : s'.notes = s.notes) : Ordered s' := by
  refine ordered.write notes ?_ ?_ ?_
  all_goals simp only [Table.Alive, proc]
  · simp
  · simp
  · exact fun _ alive => alive

theorem set {f : Field} (ordered : Ordered s) (field : AllowedField q s f)
    (forgotten : f = .state .RUNNABLE → (s.proc q).state = .UNUSED → ∀ p, s.Alive p → (s.notes p).remembered ≠ some q) :
    Ordered (s.put q (f.write (s.proc q))) := by
  -- nothing changes in the order unless a slot comes into use
  have other (state : (f.write (s.proc q)).state = .UNUSED ↔ (s.proc q).state = .UNUSED)
      (alive : (f.write (s.proc q)).state ≠ .UNUSED → (f.write (s.proc q)).state ≠ .ZOMBIE → s.Alive q) :
      Ordered (s.put q (f.write (s.proc q))) := by
    have birth : (f.write (s.proc q)).birth = (s.proc q).birth := by cases f <;> rfl
    refine ordered.write rfl (fun k => ?_) (fun k => ?_) fun k here => ?_
    all_goals by_cases same : k = q
    · rw [same, Table.put_self]
      exact state
    · rw [Table.put_of_ne same]
    · rw [same, Table.put_self]
      exact birth
    · rw [Table.put_of_ne same]
    · subst same
      unfold Table.Alive at here
      rw [Table.put_self] at here
      exact alive here.1 here.2
    · unfold Table.Alive at here
      rwa [Table.put_of_ne same] at here
  cases f with
  | state v =>
    obtain ⟨used, live, new, -⟩ := field
    by_cases unused : (s.proc q).state = .UNUSED
    · obtain ⟨rfl, born⟩ := new unused
      exact ordered.make unused born (forgotten rfl unused)
    · exact other ⟨fun h => absurd h used, fun h => absurd h unused⟩ fun _ _ => ⟨unused, live⟩
  | _ => exact other Iff.rfl fun used live => ⟨used, live⟩

end Ordered

theorem ordered_step {s s' : Kernel} {c : Core} {a : Act} {r : Res a} (inv : terms.inv s)
    (allowed : Allowed c a s.toTable) (met : NotReused (s.runs c) a s) (ran : s.perform c a = some (r, s'))
    (ordered : Ordered s.toTable) : Ordered s'.toTable := by
  rcases perform_cases ran with
    ⟨q, f, rfl, proc, notes, -⟩ | ⟨q, w, rfl, proc, notes, -⟩ | ⟨q, rfl, proc, notes, -⟩ |
    ⟨p, o, rfl, proc, notes, -⟩ | ⟨e, rfl, rfl⟩ | ⟨q, w, rfl, ⟨proc, notes, -, -⟩, -⟩ | ⟨⟨proc, notes, -, -⟩, -⟩
  · refine (ordered.set (q := q) (f := f) allowed.2 fun same => ?_).congr proc notes
    rw [same] at met
    exact met q rfl
  · exact (ordered.free (q := q) inv.1.tree).congr proc notes
  · exact (ordered.bear (q := q) allowed.2.1).congr proc notes
  · obtain ⟨-, alive, older⟩ := allowed
    exact (ordered.note (p := p) (n := { s.notes p with remembered := o }) alive older).congr proc notes
  · cases e with
    | exited b v =>
      obtain ⟨p, here, alive, -⟩ := allowed
      have thread : (s.cpu c).thread = some p := runs_proc.mp here
      refine (ordered.note (p := p) (n := { s.notes p with leaving := some v }) alive ?_).congr ?_ ?_
      · exact fun o noted => ordered.older p o alive noted
      · exact (record_proc _).1
      · simp only [Kernel.record, thread, Kernel.note, Table.note]
    | forked => exact ordered.congr rfl rfl
    | waited => exact allowed.elim
  · exact ordered.congr proc notes
  · exact ordered.congr proc notes

/-- In the order of ranks, each lock that is waited for comes after the one before. -/
theorem rank_lt_of_spins {u : Thread} {p q : Slot} {k : Unit → Code Unit} {c : Core}
    (kept : conf.Kept terms exec idle) (ordered : Ordered conf.shared.toTable)
    (holder : conf.shared.owner (.proc p) = some c) (here : conf.shared.on u = some c)
    (spins : conf.code u = .act (.acquire (.proc q)) k) : conf.shared.rank p < conf.shared.rank q := by
  have allowed := kept.ok spins c (runs_of_on here)
  rcases allowed p holder with below | ⟨r, -, alive, noted, above⟩
  · exact below
  · exact lt_of_lt_of_le (ordered.older r p alive noted) above

theorem no_deadlock (h : (machine lab fsinit).Along (Machine.Meets NotReused) (boot lab mem) conf) (t : Thread) :
    ¬Relation.TransGen (SpinsOn conf) t t := by
  have kept := reachable_kept (Machine.Along.runs h)
  have ordered : Ordered conf.shared.toTable := by
    refine invariant_of_allowed (J := fun s => Ordered s.toTable) ?_
      (fun c a s r s' inv allowed met ran _ => ordered_step inv allowed met ran) h
    exact ⟨fun _ _ alive => absurd rfl alive.1, fun _ _ born => absurd born (lt_irrefl 0)⟩
  -- along a chain of threads the locks that they wait for go up
  have up {t u : Thread} (chain : Relation.TransGen (SpinsOn conf) t u) :
      ∀ p k q k', conf.code t = .act (.acquire (.proc p)) k → conf.code u = .act (.acquire (.proc q)) k' →
        conf.shared.rank p < conf.shared.rank q := by
    induction chain with
    | single edge =>
      intro p k q k' spins spins'
      obtain ⟨p', _, _, d, spins₁, -, holder, here⟩ := edge
      rw [spins] at spins₁
      cases spins₁
      exact rank_lt_of_spins kept ordered holder here spins'
    | tail _ edge ih =>
      intro p k q k' spins spins'
      obtain ⟨p', _, _, d, spins₁, -, holder, here⟩ := edge
      exact (ih p k p' _ spins spins₁).trans (rank_lt_of_spins kept ordered holder here spins')
  intro cycle
  obtain ⟨u, edge, -⟩ := Relation.TransGen.head'_iff.mp cycle
  obtain ⟨p, k, -, -, spins, -⟩ := edge
  exact absurd (up cycle p k p k spins spins) (lt_irrefl _)

/-- The process whose lock a thread is about to take. -/
def target (conf : Conf Thread Act Res Kernel) (t : Thread) : Option Slot :=
  match conf.code t with
  | .act (.acquire (.proc p)) _ => some p
  | _ => none

theorem code_of_target {t : Thread} {p : Slot} (h : target conf t = some p) :
    ∃ k, conf.code t = .act (.acquire (.proc p)) k := by
  unfold target at h
  split at h
  case h_1 q k point =>
    cases h
    exact ⟨k, point⟩
  case h_2 => cases h

theorem spins_of_target {t u : Thread} {p : Slot} {c d : Core} (spins : target conf t = some p)
    (here : conf.shared.on t = some c) (owner : conf.shared.owner (.proc p) = some d)
    (there : conf.shared.on u = some d) : SpinsOn conf t u := by
  obtain ⟨k, point⟩ := code_of_target spins
  exact ⟨p, k, c, d, point, here, owner, there⟩

def notReused (_ : Thread) : Act → Kernel → Bool
  | .set q (.state .RUNNABLE), s =>
    decide ((s.proc q).state = .UNUSED → ∀ p, (s.proc p).state ≠ .UNUSED → (s.proc p).state ≠ .ZOMBIE →
      (s.notes p).remembered ≠ some q)
  | _, _ => true

theorem notReused_iff (t : Thread) (a : Act) (s : Kernel) (h : notReused t a s = true) : NotReused t a s := by
  rintro q rfl unused p alive
  exact of_decide_eq_true h unused p alive.1 alive.2

/-- Init has its own lock in `wait`, and its child, in `exit`, spins on it. -/
def exitDuringWait : List (Move Thread Call) :=
  firstFork ++ acts 2 (.sched 1) ++ .call (.sched 1) .scheduler :: acts 9 (.sched 1) ++ acts 6 (.proc 1) ++
    .call (.proc 1) (.usertrap (.syscall (.exit 7)) noOps) :: acts 16 (.proc 1) ++
    .call (.proc 0) (.usertrap (.syscall (.wait none 1)) noOps) :: acts 6 (.proc 0)

theorem no_deadlock_wait : ∃ conf, (machine .two ⟨[], rfl⟩).Along (Machine.Meets NotReused) (boot .two plenty) conf ∧
    SpinsOn conf (.proc 1) (.proc 0) ∧ ¬Relation.TransGen (SpinsOn conf) (.proc 1) (.proc 1) := by
  have played : (((machine .two ⟨[], rfl⟩).playIf notReused exitDuringWait (boot .two plenty)).any fun conf =>
      decide (target conf (.proc 1) = some 0) && decide (conf.shared.on (.proc 1) = some 1) &&
        decide (conf.shared.owner (.proc 0) = some 0) && decide (conf.shared.on (.proc 0) = some 0)) = true := by
    decide +kernel
  obtain ⟨conf, run, facts⟩ := Machine.exists_of_playIf played
  simp only [Bool.and_eq_true, decide_eq_true_eq] at facts
  obtain ⟨⟨⟨spins, here⟩, owner⟩, there⟩ := facts
  have run := run.mono notReused_iff
  exact ⟨conf, run, spins_of_target spins here owner there, no_deadlock run _⟩

/-- Process 2 remembers process 1 as its parent, and before it takes the lock, process 1 exits and is waited for, and
process 3, a child of process 2, forks a child into slot 1. -/
def reusedParent : List (Move Thread Call) :=
  let syscall (p : Slot) (k : Syscall) : Move Thread Call := .call (.proc p) (.usertrap (.syscall k) noOps)
  firstFork ++ acts 2 (.sched 1) ++ acts 2 (.sched 2) ++ acts 2 (.sched 3) ++
    .call (.sched 1) .scheduler :: acts 9 (.sched 1) ++ acts 6 (.proc 1) ++
    syscall 1 (.fork plenty) :: acts 29 (.proc 1) ++
    .call (.sched 2) .scheduler :: acts 12 (.sched 2) ++ acts 6 (.proc 2) ++
    syscall 2 (.fork plenty) :: acts 32 (.proc 2) ++
    .call (.sched 3) .scheduler :: acts 15 (.sched 3) ++ acts 6 (.proc 3) ++
    syscall 2 (.exit 0) :: acts 16 (.proc 2) ++
    syscall 1 (.exit 0) :: acts 98 (.proc 1) ++ acts 2 (.sched 1) ++
    syscall 0 (.wait none 1) :: acts 17 (.proc 0) ++
    syscall 3 (.fork plenty) :: acts 26 (.proc 3) ++
    syscall 3 (.wait none 1) :: acts 8 (.proc 3) ++ acts 6 (.proc 2)

/-- Process 3 holds its own lock in `wait` and wants its child's, and process 2 in `exit` holds that lock, which it
took for its parent's, and wants its child's. -/
theorem deadlock_reused_parent : ∃ conf, Reachable .two ⟨[], rfl⟩ plenty conf ∧
    Relation.TransGen (SpinsOn conf) (.proc 2) (.proc 2) := by
  have played : (((machine .two ⟨[], rfl⟩).play reusedParent (boot .two plenty)).any fun conf =>
      decide (target conf (.proc 2) = some 3) && decide (conf.shared.on (.proc 2) = some 2) &&
        decide (conf.shared.owner (.proc 3) = some 3) && decide (conf.shared.on (.proc 3) = some 3) &&
        decide (target conf (.proc 3) = some 1) && decide (conf.shared.owner (.proc 1) = some 2)) = true := by
    decide +kernel
  obtain ⟨conf, run, facts⟩ := Machine.exists_of_play played
  simp only [Bool.and_eq_true, decide_eq_true_eq] at facts
  obtain ⟨⟨⟨⟨⟨spins, here⟩, owner⟩, there⟩, spins'⟩, owner'⟩ := facts
  exact ⟨conf, run, .tail (.single (spins_of_target spins here owner there)) (spins_of_target spins' there owner' here)⟩

end Xv6Labs.Proc
