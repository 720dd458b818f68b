import Xv6Labs.Proc.Code

/-!
# What holds of the process table

`Has s t L`: thread `t` is on a CPU, and `L` are the spinlocks of that CPU. A process is `Settled` while its lock is
free: it is RUNNING exactly when a CPU has it as `c->proc`. `Tree` is about parents and about processes that sleep in
`wait`. `Past t L` is what others leave alone between two states in which `t` has the locks `L` throughout.
-/

namespace Xv6Labs.Proc

open Threads

namespace Table

variable (s : Table)

def Alive (p : Slot) : Prop := (s.proc p).state ≠ .UNUSED ∧ (s.proc p).state ≠ .ZOMBIE

/-- The thread that a CPU executes. -/
def runs (c : Core) : Thread :=
  match (s.cpu c).thread with
  | none => .sched c
  | some p => .proc p

structure Owns (c : Core) (L : List Lock) : Prop where
  nodup : L.Nodup
  mem : ∀ lk, s.owner lk = some c ↔ lk ∈ L
  noff : (s.cpu c).noff = L.length

def Has (t : Thread) (L : List Lock) : Prop := ∃ c, s.runs c = t ∧ s.Owns c L

def Off (t : Thread) : Prop := ∀ c, s.runs c ≠ t

/-- Locks of processes are taken in the order of ranks: a parent comes before its children. -/
def rank (q : Slot) : ℕ := if (s.proc q).state = .UNUSED then 0 else (s.proc q).birth

structure Settled (p : Slot) : Prop where
  running : (s.proc p).state = .RUNNING ↔ ∃ c, (s.cpu c).proc = some p
  unused : (s.proc p).state = .UNUSED → (s.proc p).parent = none
  blank : (s.proc p).state = .UNUSED → (s.proc p).birth = 0

structure Tree : Prop where
  before : s.initproc = none → ∀ q, (s.proc q).state = .UNUSED ∧ (s.proc q).parent = none
  init : ∀ i, s.initproc = some i → (s.proc i).parent = none ∧ (s.proc i).state ≠ .ZOMBIE ∧
    ((s.proc i).state = .UNUSED → ∀ q, (s.proc q).state = .UNUSED ∧ (s.proc q).parent = none)
  parent : ∀ q, (s.proc q).state ≠ .UNUSED → s.initproc ≠ some q →
    ∃ r, (s.proc q).parent = some r ∧ (s.proc r).birth < (s.proc q).birth ∧ s.Alive r
  building : ∀ q r, (s.proc q).state = .UNUSED → (s.proc q).parent = some r →
    ∃ c, s.owner (.proc q) = some c ∧ s.runs c = .proc r
  births : ∀ q, (s.proc q).birth < s.births
  born : ∀ q, (s.proc q).state ≠ .UNUSED → 0 < (s.proc q).birth
  distinct : ∀ q r, (s.proc q).birth = (s.proc r).birth → 0 < (s.proc q).birth → q = r
  eldest : ∀ i q, s.initproc = some i → (s.proc q).state ≠ .UNUSED → q ≠ i → (s.proc i).birth < (s.proc q).birth
  asleep : ∀ p q, s.initproc ≠ some p → (s.proc p).state = .SLEEPING → (s.proc p).chan = some (.proc p) →
    (s.proc q).parent = some p → (s.proc q).state ≠ .ZOMBIE

structure Inv : Prop where
  thread : ∀ c p, s.runs c = .proc p → (s.cpu c).proc = some p
  unique : ∀ c c' p, (s.cpu c).proc = some p → (s.cpu c').proc = some p → c = c'
  held : ∀ c lk, s.owner lk = some c → (s.cpu c).noff ≠ 0
  idle : ∀ c, s.runs c = .sched c → (s.cpu c).noff = 0 → (s.cpu c).proc = none
  settled : ∀ p, s.owner (.proc p) = none → s.Settled p
  tree : s.Tree

end Table

/-- For a process: who its children are, and that it stays as it is. While it holds its own lock, none of its children
becomes a zombie, unless it is init: others may give init their children at any time. For CPU 0: that nobody else
makes the first process. -/
structure Since (t : Thread) (L : List Lock) (s x : Table) : Prop where
  init : ∀ i, s.initproc = some i → x.initproc = some i
  first : t = .sched 0 → x.initproc = s.initproc
  births : s.births ≤ x.births
  own : ∀ p, t = .proc p → s.Alive p → x.Alive p ∧ (x.proc p).birth = (s.proc p).birth ∧
    ((x.proc p).parent = (s.proc p).parent ∨ ∃ i, x.initproc = some i ∧ (x.proc p).parent = some i)
  kids : ∀ p q, t = .proc p → (s.proc q).parent = some p → (x.proc q).parent = some p ∧
    (x.proc q).birth = (s.proc q).birth ∧ ((s.proc q).state ≠ .UNUSED → (x.proc q).state ≠ .UNUSED) ∧
    ((s.proc q).state = .ZOMBIE → x.proc q = s.proc q)
  nobody : ∀ p q, t = .proc p → x.initproc ≠ some p → (x.proc q).parent = some p → (s.proc q).parent = some p
  waiting : ∀ p q, t = .proc p → .proc p ∈ L → x.initproc ≠ some p → (s.proc q).parent = some p →
    (s.proc q).state ≠ .ZOMBIE → (x.proc q).state ≠ .ZOMBIE
  notes : ∀ p, t = .proc p → x.notes p = s.notes p ∨ x.notes p = {} ∧ ¬s.Alive p

structure Past (t : Thread) (L : List Lock) (s x : Table) : Prop extends Since t L s x where
  same : ∀ q, .proc q ∈ L → x.proc q = s.proc q ∧ ∀ c, (x.cpu c).proc = some q ↔ (s.cpu c).proc = some q
  running : ∀ p, t = .proc p → (s.proc p).state = .RUNNING → (x.proc p).state = .RUNNING
  proc : ∀ c, t = .sched c → (x.cpu c).proc = (s.cpu c).proc

/-- What others may do while `t` does nothing: a thread that is off its CPU comes back with one lock, the one that
passes through `swtch`. -/
structure Frame (t : Thread) (s x : Table) : Prop where
  since : Since t [] s x
  on : ∀ L, s.Has t L → x.Has t L ∧ Past t L s x
  offProc : ∀ p, t = .proc p → s.Off t → x.Off t ∨ x.Has t [.proc p] ∧ (x.proc p).state = .RUNNING
  offSched : ∀ c p, t = .sched c → (s.cpu c).thread = some p → (x.cpu c).thread = some p ∨
    x.Has t [.proc p] ∧ (x.cpu c).proc = some p ∧ (x.proc p).state ≠ .RUNNING ∧ (x.proc p).state ≠ .UNUSED

variable {t u : Thread} {L L' : List Lock} {s x y : Table} {c c' : Core} {p q : Slot}

theorem Since.of_same (proc : x.proc = s.proc) (initproc : x.initproc = s.initproc) (births : s.births ≤ x.births)
    (notes : x.notes = s.notes) : Since t L s x where
  init i found := by rw [initproc, found]
  first _ := initproc
  births := births
  own p _ alive := by
    unfold Table.Alive at alive ⊢
    rw [proc]
    exact ⟨alive, rfl, .inl rfl⟩
  kids p q _ child := by
    rw [proc]
    exact ⟨child, rfl, id, fun _ => rfl⟩
  nobody p q _ _ child := by rwa [proc] at child
  waiting p q _ _ _ _ live := by rwa [proc]
  notes p _ := .inl (by rw [notes])

theorem Since.refl : Since t L s s := .of_same rfl rfl le_rfl rfl

theorem Since.trans (h : Since t L s x) (h' : Since t L x y) : Since t L s y where
  init i found := h'.init i (h.init i found)
  first me := (h'.first me).trans (h.first me)
  births := h.births.trans h'.births
  own p me alive := by
    obtain ⟨alive', birth, parent⟩ := h.own p me alive
    obtain ⟨alive'', birth', parent'⟩ := h'.own p me alive'
    refine ⟨alive'', birth'.trans birth, ?_⟩
    rcases parent' with same | given
    · rcases parent with same' | ⟨i, found, given⟩
      · exact .inl (same.trans same')
      · exact .inr ⟨i, h'.init i found, same.trans given⟩
    · exact .inr given
  kids p q me child := by
    obtain ⟨child', birth, used, zombie⟩ := h.kids p q me child
    obtain ⟨child'', birth', used', zombie'⟩ := h'.kids p q me child'
    refine ⟨child'', birth'.trans birth, fun state => used' (used state), fun state => ?_⟩
    have first := zombie state
    rw [zombie' (by rw [first]; exact state), first]
  nobody p q me notInit child := by
    have notInit' : x.initproc ≠ some p := fun found => notInit (h'.init p found)
    exact h.nobody p q me notInit' (h'.nobody p q me notInit child)
  waiting p q me held notInit child live := by
    have notInit' : x.initproc ≠ some p := fun found => notInit (h'.init p found)
    exact h'.waiting p q me held notInit (h.kids p q me child).1 (h.waiting p q me held notInit' child live)
  notes p me := by
    rcases h'.notes p me with same' | ⟨blank, dead⟩
    · rw [same']
      exact h.notes p me
    · exact .inr ⟨blank, fun alive => dead (h.own p me alive).1⟩

theorem Since.mono (h : Since t L s x) (fewer : ∀ lk, lk ∈ L' → lk ∈ L) : Since t L' s x where
  init := h.init
  first := h.first
  births := h.births
  own := h.own
  kids := h.kids
  nobody := h.nobody
  waiting p q me held := h.waiting p q me (fewer _ held)
  notes := h.notes

/-- What a process has noted, others leave alone. -/
theorem Since.noted (h : Since (.proc p) L s x) (alive : s.Alive p) : x.notes p = s.notes p := by
  rcases h.notes p rfl with same | ⟨-, dead⟩
  · exact same
  · exact absurd alive dead

theorem Since.blank (h : Since (.proc p) L s x) (blank : s.notes p = {}) : x.notes p = {} := by
  rcases h.notes p rfl with same | ⟨blank', -⟩
  · rw [same, blank]
  · exact blank'

theorem Past.refl : Past t L s s where
  toSince := .refl
  same _ _ := ⟨rfl, fun _ => .rfl⟩
  running _ _ h := h
  proc _ _ := rfl

theorem Past.trans (h : Past t L s x) (h' : Past t L x y) : Past t L s y where
  toSince := h.toSince.trans h'.toSince
  same q held := by
    obtain ⟨same, iff⟩ := h.same q held
    obtain ⟨same', iff'⟩ := h'.same q held
    exact ⟨same'.trans same, fun c => (iff' c).trans (iff c)⟩
  running p me state := h'.running p me (h.running p me state)
  proc c me := (h'.proc c me).trans (h.proc c me)

theorem Past.mono (h : Past t L s x) (fewer : ∀ lk, lk ∈ L' → lk ∈ L) : Past t L' s x where
  toSince := h.toSince.mono fewer
  same q held := h.same q (fewer _ held)
  running := h.running
  proc := h.proc

theorem Frame.refl : Frame t s s where
  since := .refl
  on _ has := ⟨has, .refl⟩
  offProc _ _ off := .inl off
  offSched _ _ _ away := .inl away

theorem Frame.trans (h : Frame t s x) (h' : Frame t x y) : Frame t s y where
  since := h.since.trans h'.since
  on L has := by
    obtain ⟨has', past⟩ := h.on L has
    obtain ⟨has'', past'⟩ := h'.on L has'
    exact ⟨has'', past.trans past'⟩
  offProc p me off := by
    rcases h.offProc p me off with off' | ⟨has, state⟩
    · exact h'.offProc p me off'
    · obtain ⟨has', past⟩ := h'.on _ has
      exact .inr ⟨has', past.running p me state⟩
  offSched c p me away := by
    rcases h.offSched c p me away with away' | ⟨has, current, state⟩
    · exact h'.offSched c p me away'
    · obtain ⟨has', past⟩ := h'.on _ has
      refine .inr ⟨has', (past.proc c me).trans current, ?_⟩
      rwa [(past.same p (by simp)).1]

/-- A scheduler that is not about to run a process. -/
def Calm (t : Thread) (s : Table) : Prop := ∀ c, t = .sched c → (s.cpu c).proc = none

theorem calm_proc : Calm (.proc p) s := by rintro _ ⟨⟩

theorem Calm.past (calm : Calm t s) (past : Past t L s x) : Calm t x :=
  fun c me => (past.proc c me).trans (calm c me)

/-! ### Threads and CPUs -/

theorem runs_sched : s.runs c = .sched c' ↔ c = c' ∧ (s.cpu c).thread = none := by
  unfold Table.runs
  cases (s.cpu c).thread with
  | none => simp
  | some p => simp

theorem runs_proc : s.runs c = .proc p ↔ (s.cpu c).thread = some p := by
  unfold Table.runs
  cases (s.cpu c).thread with
  | none => simp
  | some q => simp

theorem runs_inj (inv : s.Inv) (h : s.runs c = t) (h' : s.runs c' = t) : c = c' := by
  cases t with
  | sched d => rw [(runs_sched.mp h).1, (runs_sched.mp h').1]
  | proc p => exact inv.unique c c' p (inv.thread c p h) (inv.thread c' p h')

theorem runs_of_on {s : Kernel} (h : s.on t = some c) : s.runs c = t := by
  cases t with
  | sched d =>
    unfold Kernel.on at h
    dsimp only at h
    split at h
    case isFalse => cases h
    case isTrue found =>
      cases h
      exact runs_sched.mpr ⟨rfl, found⟩
  | proc p =>
    have found := List.find?_some h
    exact runs_proc.mpr (of_decide_eq_true found)

theorem has_owner (inv : s.Inv) (has : s.Has t L) (here : s.runs c = t) : s.Owns c L := by
  obtain ⟨d, there, owns⟩ := has
  rwa [runs_inj inv here there]

/-- Code on one CPU does not change what threads on the others have. -/
theorem has_other (here : s.runs c = t) (other : u ≠ t) (has : s.Has u L) (cpus : ∀ d, d ≠ c → x.cpu d = s.cpu d)
    (owners : ∀ d lk, d ≠ c → (x.owner lk = some d ↔ s.owner lk = some d)) : x.Has u L := by
  obtain ⟨d, there, owns⟩ := has
  have ne : d ≠ c := by
    rintro rfl
    exact other (there.symm.trans here)
  refine ⟨d, ?_, owns.nodup, fun lk => (owners d lk ne).trans (owns.mem lk), ?_⟩
  · unfold Table.runs at there ⊢
    rwa [cpus d ne]
  · rw [cpus d ne]
    exact owns.noff

/-- What a write to a field of process `q` requires. -/
def AllowedField (q : Slot) (s : Table) : Field → Prop
  | .state v => v ≠ .UNUSED ∧ (s.proc q).state ≠ .ZOMBIE ∧
      ((s.proc q).state = .UNUSED → v = .RUNNABLE ∧ 0 < (s.proc q).birth) ∧
      (v = .ZOMBIE → s.Alive q ∧ (s.notes q).leaving = some (s.proc q).xstate)
  | .xstate _ => s.Alive q
  | .pid _ => (s.proc q).state = .UNUSED ∧ (s.proc q).birth = 0
  | _ => True

/-- What `a` requires of code on CPU `c`; the panics of `proc.c` that the code rules out are among it. A process that
exits takes the lock of the parent that it remembers out of order. -/
def Allowed (c : Core) (a : Act) (s : Table) : Prop :=
  match a with
  | .acquire (.proc q) => ∀ r, s.owner (.proc r) = some c → s.rank r < s.rank q ∨
      ∃ p, s.runs c = .proc p ∧ s.Alive p ∧ (s.notes p).remembered = some r ∧ s.rank p ≤ s.rank q
  | .release lk => s.owner lk = some c
  | .set q f => s.owner (.proc q) = some c ∧ AllowedField q s f
  | .setKilled q (some pid) => s.owner (.proc q) = some c ∧ (s.proc q).pid = pid
  | .setKilled q none => s.runs c = .proc q ∧ s.Alive q
  | .freeproc q none => s.owner (.proc q) = some c ∧ (∀ d, (s.cpu d).proc ≠ some q) ∧ (s.proc q).state = .UNUSED
  | .freeproc q (some (pid, status)) => s.owner (.proc q) = some c ∧ (∀ d, (s.cpu d).proc ≠ some q) ∧
      (s.proc q).state = .ZOMBIE ∧ (∃ p, s.runs c = .proc p ∧ (s.proc q).parent = some p) ∧
      pid = (s.proc q).pid ∧ (status = none ∨ status = some (s.proc q).xstate)
  | .context p => s.owner (.proc p) = some c ∧ (s.proc p).state = .UNUSED ∧ s.Off (.proc p)
  | .swtchTo p => s.owner (.proc p) = some c ∧ (s.cpu c).proc = some p
  | .swtchBack => ∃ p, s.runs c = .proc p ∧ s.owner (.proc p) = some c
  | .pvminit q _ | .copyTrapframe q _ => s.owner (.proc q) = some c ∧ ∀ d, (s.cpu d).proc ≠ some q
  | .usertrapret p => s.runs c = .proc p
  | .remember p o => s.runs c = .proc p ∧ s.Alive p ∧ ∀ r, o = some r → s.rank r < s.rank p
  | .unstored q => ∃ p, s.runs c = .proc p ∧ (s.proc q).state = .ZOMBIE ∧ (s.proc q).parent = some p
  | .record (.forked b pid) => ∃ q, s.owner (.proc q) = some c ∧ (s.proc q).birth = b ∧ 0 < b ∧ (s.proc q).pid = pid
  | .record (.exited b _) => ∃ p, s.runs c = .proc p ∧ s.Alive p ∧ b = (s.proc p).birth ∧ (s.notes p).leaving = none
  | .record (.waited ..) => False
  | .panic .wakeup1 | .panic .schedLock | .panic .schedLocks | .panic .schedRunning
  | .panic .schedInterruptible => False
  | _ => True

def terms : Terms Thread Act Kernel where
  inv s := s.Inv ∧ ∀ c, (s.hart c).sie = true → (s.cpu c).noff = 0
  frame t s x := Frame t s.toTable x.toTable
  refl _ _ := .refl
  trans _ _ _ _ := .trans
  ok t a s := ∀ c, s.runs c = t → Allowed c a s.toTable

end Xv6Labs.Proc
