import Xv6Labs.Lib.Layers
import Xv6Labs.Proc.Run

/-!
# What `satp` points to

In Lab 4 a process runs on its own kernel page table, and whoever frees the process frees that table. `Loaded` says
what `satp` of each CPU points to, and every action that is fit keeps it.
-/

namespace Xv6Labs.Proc

open Threads Prog

variable {α : Type} {t u : Thread} {s s' x y : Kernel} {c d : Core} {p q : Slot} {a : Act} {lab : Lab}

/-! ### What a CPU has loaded -/

structure LoadedOn (s : Kernel) (c : Core) : Prop where
  process : ∀ page, (s.hart c).satp = .process page → ∃ p, (s.cpu c).proc = some p ∧ s.kpgtbl p = some page
  user : ∀ p, (s.hart c).satp = .user p →
    s.runs c = .proc p ∧ ∃ page, s.kernelSatp p = .process page ∧ s.kpgtbl p = some page
  mode : (s.hart c).user = true ↔ ∃ p, (s.hart c).satp = .user p
  own : ∀ p, s.runs c = .proc p → (s.hart c).satp ≠ .kernel

structure Loaded (s : Kernel) : Prop where
  core : ∀ c, LoadedOn s c
  distinct : ∀ p q page, s.kpgtbl p = some page → s.kpgtbl q = some page → p = q

/-- `p` is in the kernel if it is anywhere. -/
def InKernel (p : Slot) (s : Kernel) : Prop := ∀ c, s.runs c = .proc p → ∃ page, (s.hart c).satp = .process page

/-- What others leave alone. -/
structure Stays (t : Thread) (s x : Kernel) : Prop where
  proc : ∀ p, t = .proc p → InKernel p s → InKernel p x
  sched : ∀ c, t = .sched c → (s.cpu c).thread = none →
    (x.cpu c).thread = none ∧ (x.hart c).satp = (s.hart c).satp ∧ (x.cpu c).proc = (s.cpu c).proc

theorem Stays.refl : Stays t s s := ⟨fun _ _ here => here, fun _ _ none => ⟨none, rfl, rfl⟩⟩

theorem Stays.trans (h : Stays t s x) (h' : Stays t x y) : Stays t s y where
  proc p me here := h'.proc p me (h.proc p me here)
  sched c me none := by
    obtain ⟨none', satp, proc⟩ := h.sched c me none
    obtain ⟨none'', satp', proc'⟩ := h'.sched c me none'
    exact ⟨none'', satp'.trans satp, proc'.trans proc⟩

/-- What is required of CPU `c`. -/
def Fit (c : Core) (s : Kernel) : Act → Prop
  | .setProc _ => (s.hart c).satp = .kernel
  | .pvminithart p => (s.cpu c).thread = none ∧ (s.cpu c).proc = some p
  | .kvminithart => (s.cpu c).thread = none
  | .swtchTo _ | .usertrapret _ => ∃ page, (s.hart c).satp = .process page
  | .swtchBack => (s.cpu c).thread = none ∨ ∃ page, (s.hart c).satp = .process page
  | _ => True

def tableTerms : Terms Thread Act Kernel where
  inv := Loaded
  frame := Stays
  refl _ _ := .refl
  trans _ _ _ _ := .trans
  ok t a s := ∀ c, s.runs c = t → Fit c s a

/-! ### What one action does -/

/-- Actions that neither the scheduler nor the way to user mode consists of. -/
def Plain : Act → Prop
  | .setProc _ | .swtchTo _ | .pvminithart _ | .kvminithart | .uservec | .usertrapret _ => False
  | _ => True

/-- Actions that change page tables, or the thread of a CPU. -/
def Remaps : Act → Prop
  | .freeproc _ _ | .pvminit _ _ | .copyTrapframe _ _ | .swtchBack => True
  | _ => False

/-- The CPUs have the same threads and tables. -/
structure Alike (s s' : Kernel) : Prop where
  proc : ∀ d, (s'.cpu d).proc = (s.cpu d).proc
  thread : ∀ d, (s'.cpu d).thread = (s.cpu d).thread
  satp : ∀ d, (s'.hart d).satp = (s.hart d).satp
  user : ∀ d, (s'.hart d).user = (s.hart d).user

/-- Besides, the tables are the same. -/
structure Untouched (s s' : Kernel) : Prop extends Alike s s' where
  kpgtbl : s'.kpgtbl = s.kpgtbl
  kernelSatp : s'.kernelSatp = s.kernelSatp

theorem runs_congr (thread : (s'.cpu d).thread = (s.cpu d).thread) : s'.runs d = s.runs d := by
  unfold Table.runs
  rw [thread]

theorem Alike.of (cpu : s'.cpu = s.cpu) (hart : s'.hart = s.hart) : Alike s s' := by
  refine ⟨fun d => ?_, fun d => ?_, fun d => ?_, fun d => ?_⟩
  · rw [cpu]
  · rw [cpu]
  · rw [hart]
  · rw [hart]

theorem Untouched.of (cpu : s'.cpu = s.cpu) (hart : s'.hart = s.hart) (kpgtbl : s'.kpgtbl = s.kpgtbl)
    (kernelSatp : s'.kernelSatp = s.kernelSatp) : Untouched s s' := ⟨.of cpu hart, kpgtbl, kernelSatp⟩

theorem Untouched.trans (h : Untouched s x) (h' : Untouched x y) : Untouched s y where
  proc d := (h'.proc d).trans (h.proc d)
  thread d := (h'.thread d).trans (h.thread d)
  satp d := (h'.satp d).trans (h.satp d)
  user d := (h'.user d).trans (h.user d)
  kpgtbl := h'.kpgtbl.trans h.kpgtbl
  kernelSatp := h'.kernelSatp.trans h.kernelSatp

theorem untouched_putHart {v : Hart} (satp : v.satp = (s.hart c).satp) (user : v.user = (s.hart c).user) :
    Untouched s (s.putHart c v) := by
  have same (d : Core) : ((s.putHart c v).hart d).satp = (s.hart d).satp ∧
      ((s.putHart c v).hart d).user = (s.hart d).user := by
    by_cases here : d = c
    · subst here
      rw [Kernel.putHart_self]
      exact ⟨satp, user⟩
    · rw [Kernel.putHart_of_ne _ here]
      exact ⟨rfl, rfl⟩
  exact ⟨⟨fun _ => rfl, fun _ => rfl, fun d => (same d).1, fun d => (same d).2⟩, rfl, rfl⟩

theorem untouched_putCpu {v : Cpu} (proc : v.proc = (s.cpu c).proc) (thread : v.thread = (s.cpu c).thread) :
    Untouched s (s.putCpu c v) := by
  have same (d : Core) : ((s.putCpu c v).cpu d).proc = (s.cpu d).proc ∧
      ((s.putCpu c v).cpu d).thread = (s.cpu d).thread := by
    by_cases here : d = c
    · subst here
      rw [Kernel.putCpu_self]
      exact ⟨proc, thread⟩
    · rw [Kernel.putCpu_of_ne _ here]
      exact ⟨rfl, rfl⟩
  exact ⟨⟨fun d => (same d).1, fun d => (same d).2, fun _ => rfl, fun _ => rfl⟩, rfl, rfl⟩

theorem untouched_pushOff : Untouched s (s.pushOff c) := by
  unfold Kernel.pushOff
  refine Untouched.trans (untouched_putHart ?_ ?_) (untouched_putCpu ?_ ?_)
  all_goals rfl

theorem untouched_popOff : Untouched s (s.popOff c) := by
  unfold Kernel.popOff
  refine Untouched.trans (untouched_putHart ?_ ?_) (untouched_putCpu ?_ ?_)
  all_goals rfl

theorem untouched_wake (q : Slot) (f : Field) : Untouched s (s.wake q f) := by
  unfold Kernel.wake
  split <;> exact .of rfl rfl rfl rfl

theorem untouched_within (n : ℕ) (b : Bool) : Untouched s (s.within c n b) := by
  unfold Kernel.within
  split <;> exact .of rfl rfl rfl rfl

theorem untouched_record (e : Event) : Untouched s (s.record c e) := by
  unfold Kernel.record
  dsimp only
  split <;> exact .of rfl rfl rfl rfl

theorem untouched_reap (q : Slot) (w : Option (Int × Option Int)) : Untouched s (s.reap c q w) := by
  unfold Kernel.reap
  split
  · exact .of rfl rfl rfl rfl
  · split <;> exact .of rfl rfl rfl rfl

theorem untouched_of_perform {r : Res a} (plain : Plain a) (stays : ¬Remaps a) (ran : s.perform c a = some (r, s')) :
    Untouched s s' := by
  cases a with
  | setProc | swtchTo | pvminithart | kvminithart | uservec | usertrapret => exact plain.elim
  | freeproc | pvminit | copyTrapframe | swtchBack => exact absurd trivial stays
  | acquire lk =>
    simp only [Kernel.perform] at ran
    split at ran
    case isFalse => cases ran
    case isTrue =>
      cases ran
      exact untouched_pushOff.trans (.of rfl rfl rfl rfl)
  | release lk =>
    simp only [Kernel.perform] at ran
    split at ran
    case isFalse => cases ran
    case isTrue =>
      cases ran
      have unowned : Untouched s (s.setOwner lk none) := .of rfl rfl rfl rfl
      exact unowned.trans untouched_popOff
  | intrOn | intrOff | setIntena =>
    cases ran
    exact untouched_putHart rfl rfl
  | set q f =>
    cases ran
    exact (untouched_wake q f).trans (.of rfl rfl rfl rfl)
  | setLocked n b =>
    cases ran
    exact (untouched_within n b).trans (.of rfl rfl rfl rfl)
  | record e =>
    cases ran
    exact untouched_record e
  | panic | cut => cases ran
  | started =>
    simp only [Kernel.perform] at ran
    split at ran
    case isFalse => cases ran
    case isTrue =>
      cases ran
      exact .of rfl rfl rfl rfl
  | _ =>
    cases ran
    exact .of rfl rfl rfl rfl

/-- What a plain action does to CPUs: only a process that switches back leaves one. -/
theorem alike_of_perform {r : Res a} (plain : Plain a) (back : a ≠ .swtchBack) (ran : s.perform c a = some (r, s')) :
    Alike s s' := by
  by_cases remaps : Remaps a
  · cases a with
    | freeproc q w =>
      cases ran
      obtain ⟨⟨proc, thread, satp, user⟩, -, -⟩ := untouched_reap (s := s) (c := c) q w
      exact ⟨proc, thread, satp, user⟩
    | copyTrapframe q p =>
      cases ran
      exact .of rfl rfl
    | pvminit q page =>
      simp only [Kernel.perform] at ran
      split at ran
      case isFalse => cases ran
      case isTrue =>
        cases ran
        exact .of rfl rfl
    | swtchBack => exact absurd rfl back
    | _ => exact remaps.elim
  · exact (untouched_of_perform plain remaps ran).toAlike

/-- An action does nothing to other CPUs. -/
theorem elsewhere {r : Res a} (ran : s.perform c a = some (r, s')) (ne : d ≠ c) : (s'.cpu d).proc = (s.cpu d).proc ∧
    (s'.cpu d).thread = (s.cpu d).thread ∧ (s'.hart d).satp = (s.hart d).satp ∧ (s'.hart d).user = (s.hart d).user := by
  have onCpu (v : Cpu) : ((s.putCpu c v).cpu d).proc = (s.cpu d).proc ∧
      ((s.putCpu c v).cpu d).thread = (s.cpu d).thread := by
    rw [Kernel.putCpu_of_ne _ ne]
    exact ⟨rfl, rfl⟩
  have onHart (v : Hart) : ((s.putHart c v).hart d).satp = (s.hart d).satp ∧
      ((s.putHart c v).hart d).user = (s.hart d).user := by
    rw [Kernel.putHart_of_ne _ ne]
    exact ⟨rfl, rfl⟩
  by_cases plain : Plain a ∧ a ≠ .swtchBack
  · have alike := alike_of_perform plain.1 plain.2 ran
    exact ⟨alike.proc d, alike.thread d, alike.satp d, alike.user d⟩
  · cases a with
    | setProc | swtchTo | swtchBack =>
      cases ran
      exact ⟨(onCpu _).1, (onCpu _).2, rfl, rfl⟩
    | kvminithart | usertrapret =>
      cases ran
      exact ⟨rfl, rfl, (onHart _).1, (onHart _).2⟩
    | pvminithart q =>
      simp only [Kernel.perform] at ran
      split at ran
      case h_1 =>
        cases ran
        exact ⟨rfl, rfl, (onHart _).1, (onHart _).2⟩
      case h_2 => cases ran
    | uservec =>
      simp only [Kernel.perform] at ran
      split at ran
      case h_1 =>
        cases ran
        exact ⟨rfl, rfl, (onHart _).1, (onHart _).2⟩
      case h_2 => cases ran
    | _ => exact absurd ⟨trivial, by rintro ⟨⟩⟩ plain

/-! ### The invariant -/

theorem LoadedOn.congr (h : LoadedOn s d) (inv : s.Inv) (proc : (s'.cpu d).proc = (s.cpu d).proc)
    (thread : (s'.cpu d).thread = (s.cpu d).thread) (satp : (s'.hart d).satp = (s.hart d).satp)
    (user : (s'.hart d).user = (s.hart d).user)
    (tables : ∀ p, (s.cpu d).proc = some p → s'.kpgtbl p = s.kpgtbl p ∧ s'.kernelSatp p = s.kernelSatp p) :
    LoadedOn s' d where
  process page there := by
    obtain ⟨p, current, table⟩ := h.process page (satp.symm.trans there)
    exact ⟨p, proc.trans current, (tables p current).1.trans table⟩
  user p there := by
    obtain ⟨here, page, saved, table⟩ := h.user p (satp.symm.trans there)
    obtain ⟨same, same'⟩ := tables p (inv.thread d p here)
    exact ⟨(runs_congr thread).trans here, page, same'.trans saved, same.trans table⟩
  mode := by
    rw [user, satp]
    exact h.mode
  own p here := by
    rw [satp]
    exact h.own p ((runs_congr thread).symm.trans here)

theorem LoadedOn.alike (h : LoadedOn s d) (inv : s.Inv) (alike : Alike s s')
    (tables : ∀ p, (s.cpu d).proc = some p → s'.kpgtbl p = s.kpgtbl p ∧ s'.kernelSatp p = s.kernelSatp p) :
    LoadedOn s' d :=
  h.congr inv (alike.proc d) (alike.thread d) (alike.satp d) (alike.user d) tables

theorem LoadedOn.in_kernel (h : LoadedOn s c) (elsewhere : ∀ p, (s.hart c).satp ≠ .user p) :
    (s.hart c).user = false := by
  rw [← Bool.not_eq_true, h.mode]
  rintro ⟨p, there⟩
  exact elsewhere p there

/-- A CPU in its scheduler is not in user mode. -/
theorem LoadedOn.not_user (h : LoadedOn s c) (none : (s.cpu c).thread = none) (p : Slot) :
    (s.hart c).satp ≠ .user p := by
  intro there
  have here := runs_proc.mp (h.user p there).1
  rw [none] at here
  cases here

theorem LoadedOn.on_kernel (satp : (s.hart c).satp = .kernel) (user : (s.hart c).user = false)
    (away : ∀ p, s.runs c ≠ .proc p) : LoadedOn s c where
  process page there := by cases satp.symm.trans there
  user p there := by cases satp.symm.trans there
  mode := by
    rw [user, satp]
    simp
  own p here := absurd here (away p)

theorem LoadedOn.on_process {page : ℕ} (satp : (s.hart c).satp = .process page) (user : (s.hart c).user = false)
    (current : (s.cpu c).proc = some p) (table : s.kpgtbl p = some page) : LoadedOn s c where
  process page' there := by
    cases satp.symm.trans there
    exact ⟨p, current, table⟩
  user q there := by cases satp.symm.trans there
  mode := by
    rw [user, satp]
    simp
  own q _ there := by cases satp.symm.trans there

theorem LoadedOn.in_user {page : ℕ} (satp : (s.hart c).satp = .user p) (user : (s.hart c).user = true)
    (here : s.runs c = .proc p) (saved : s.kernelSatp p = .process page) (table : s.kpgtbl p = some page) :
    LoadedOn s c where
  process page' there := by cases satp.symm.trans there
  user q there := by
    cases satp.symm.trans there
    exact ⟨here, page, saved, table⟩
  mode := ⟨fun _ => ⟨p, satp⟩, fun _ => user⟩
  own q _ there := by cases satp.symm.trans there

theorem Loaded.spare {r : Res a} (h : Loaded s) (inv : s.Inv) (plain : Plain a) (back : a ≠ .swtchBack)
    (ran : s.perform c a = some (r, s')) (unused : ∀ d, (s.cpu d).proc ≠ some q)
    (tables : ∀ p, p ≠ q → s'.kpgtbl p = s.kpgtbl p ∧ s'.kernelSatp p = s.kernelSatp p)
    (distinct : ∀ p q page, s'.kpgtbl p = some page → s'.kpgtbl q = some page → p = q) : Loaded s' where
  core d := by
    apply (h.core d).alike inv (alike_of_perform plain back ran)
    rintro p current
    apply tables
    rintro rfl
    exact unused d current
  distinct := distinct

/-- What an action leaves on its own CPU decides. -/
theorem Loaded.here {r : Res a} (h : Loaded s) (inv : s.Inv) (ran : s.perform c a = some (r, s'))
    (kpgtbl : s'.kpgtbl = s.kpgtbl)
    (saved : ∀ d p, d ≠ c → (s.cpu d).proc = some p → s'.kernelSatp p = s.kernelSatp p) (core : LoadedOn s' c) :
    Loaded s' where
  core d := by
    by_cases here : d = c
    · subst here
      exact core
    · obtain ⟨proc, thread, satp, user⟩ := elsewhere ran here
      exact (h.core d).congr inv proc thread satp user fun p current => ⟨congrFun kpgtbl p, saved d p here current⟩
  distinct := by
    rw [kpgtbl]
    exact h.distinct

theorem Loaded.freeproc {w : Option (Int × Option Int)} {r : Unit} (h : Loaded s) (inv : s.Inv)
    (unused : ∀ d, (s.cpu d).proc ≠ some q) (ran : s.perform c (.freeproc q w) = some (r, s')) : Loaded s' := by
  have same := untouched_reap (s := s) (c := c) q w
  refine h.spare (a := .freeproc q w) inv trivial (by rintro ⟨⟩) ran unused ?_ ?_
  · intro p ne
    cases ran
    exact ⟨(Function.update_of_ne ne _ _).trans (congrFun same.kpgtbl p), congrFun same.kernelSatp p⟩
  · intro p p' page table table'
    cases ran
    change Function.update (s.reap c q w).kpgtbl q none p = some page at table
    change Function.update (s.reap c q w).kpgtbl q none p' = some page at table'
    rw [same.kpgtbl, Function.update_apply] at table table'
    split at table
    case isTrue => cases table
    case isFalse =>
      split at table'
      case isTrue => cases table'
      case isFalse => exact h.distinct p p' page table table'

/-- `kalloc` does not return a page table that is in use. -/
theorem Loaded.pvminit {page : ℕ} {r : Unit} (h : Loaded s) (inv : s.Inv) (unused : ∀ d, (s.cpu d).proc ≠ some q)
    (ran : s.perform c (.pvminit q page) = some (r, s')) : Loaded s' := by
  have ran' := ran
  simp only [Kernel.perform] at ran
  split at ran
  case isFalse => cases ran
  case isTrue fresh =>
    cases ran
    refine h.spare (a := .pvminit q page) (c := c) inv trivial (by rintro ⟨⟩) ran' unused ?_ ?_
    · exact fun p ne => ⟨Function.update_of_ne ne _ _, rfl⟩
    · intro p p' page' table table'
      dsimp only at table table'
      rw [Function.update_apply] at table table'
      split at table
      case isTrue same =>
        split at table'
        case isTrue same' => rw [same, same']
        case isFalse =>
          cases table
          exact absurd table' (fresh p')
      case isFalse =>
        split at table'
        case isTrue =>
          cases table'
          exact absurd table (fresh p)
        case isFalse => exact h.distinct p p' page' table table'

theorem Loaded.usertrapret {page : ℕ} {r : Unit} (h : Loaded s) (inv : s.Inv) (here : s.runs c = .proc p)
    (loaded : (s.hart c).satp = .process page) (ran : s.perform c (.usertrapret p) = some (r, s')) : Loaded s' := by
  have current := inv.thread c p here
  obtain ⟨q, current', table⟩ := (h.core c).process page loaded
  rw [current] at current'
  cases current'
  refine h.here (a := .usertrapret p) inv ran (by cases ran; rfl) (fun d q ne there => ?_) ?_
  · cases ran
    refine Function.update_of_ne ?_ _ _
    rintro rfl
    exact ne (inv.unique d c q there current)
  · cases ran
    have hart (v : Hart) : (s.putHart c v).hart c = v := Kernel.putHart_self ..
    exact .in_user (congrArg Hart.satp (hart _)) (congrArg Hart.user (hart _)) here
      ((Function.update_self ..).trans loaded) table

theorem Loaded.putCpu {v : Cpu} {r : Res a} (h : Loaded s) (inv : s.Inv) (ran : s.perform c a = some (r, s.putCpu c v))
    (core : LoadedOn (s.putCpu c v) c) : Loaded (s.putCpu c v) := h.here inv ran rfl (fun _ _ _ _ => rfl) core

theorem Loaded.putHart {v : Hart} {r : Res a} (h : Loaded s) (inv : s.Inv)
    (ran : s.perform c a = some (r, s.putHart c v))
    (core : LoadedOn (s.putHart c v) c) : Loaded (s.putHart c v) := h.here inv ran rfl (fun _ _ _ _ => rfl) core

theorem Loaded.step {r : Res a} (h : Loaded s) (inv : s.Inv) (ok : Allowed c a s.toTable) (fit : Fit c s a)
    (ran : s.perform c a = some (r, s')) : Loaded s' := by
  by_cases quiet : Plain a ∧ ¬Remaps a
  · have same := untouched_of_perform quiet.1 quiet.2 ran
    refine ⟨fun d => ?_, by rw [same.kpgtbl]; exact h.distinct⟩
    exact (h.core d).alike inv same.toAlike fun p _ => ⟨congrFun same.kpgtbl p, congrFun same.kernelSatp p⟩
  have core := h.core c
  cases a with
  | freeproc q w =>
    refine h.freeproc inv ?_ ran
    cases w with
    | none => exact ok.2.1
    | some w => exact ok.2.1
  | pvminit q page => exact h.pvminit inv ok.2 ran
  | copyTrapframe q p =>
    refine h.spare (a := .copyTrapframe q p) inv trivial (by rintro ⟨⟩) ran ok.2 ?_ ?_
    · intro p' ne
      cases ran
      exact ⟨rfl, Function.update_of_ne ne _ _⟩
    · cases ran
      exact h.distinct
  | setProc v =>
    have kernel : (s.hart c).satp = .kernel := fit
    have ran' := ran
    cases ran
    refine h.putCpu inv ran' (.on_kernel kernel (core.in_kernel fun p there => ?_) fun p here => core.own p ?_ kernel)
    · cases kernel.symm.trans there
    · rw [← here]
      exact (runs_congr (by rw [Kernel.putCpu_self])).symm
  | swtchTo p =>
    obtain ⟨page, loaded⟩ := fit
    obtain ⟨q, current, table⟩ := core.process page loaded
    have ran' := ran
    cases ran
    refine h.putCpu inv ran' (.on_process (p := q) loaded (core.in_kernel fun p there => ?_) ?_ table)
    · cases loaded.symm.trans there
    · rwa [Kernel.putCpu_self]
  | swtchBack =>
    have away : ∀ p, (s.hart c).satp ≠ .user p := by
      rcases fit with none | ⟨page, loaded⟩
      · exact core.not_user none
      · intro p there
        cases loaded.symm.trans there
    have ran' := ran
    cases ran
    refine h.putCpu inv ran' ?_
    cases satp : (s.hart c).satp with
    | kernel =>
      refine .on_kernel satp (core.in_kernel away) fun p here => ?_
      have there := runs_proc.mp here
      rw [Kernel.putCpu_self] at there
      cases there
    | process page =>
      obtain ⟨p, current, table⟩ := core.process page satp
      exact .on_process (p := p) satp (core.in_kernel away) (by rwa [Kernel.putCpu_self]) table
    | user p => exact absurd satp (away p)
  | pvminithart p =>
    obtain ⟨none, current⟩ := fit
    have ran' := ran
    simp only [Kernel.perform] at ran
    split at ran
    case h_2 => cases ran
    case h_1 page table =>
      cases ran
      refine h.putHart (a := .pvminithart p) inv ran' (.on_process (p := p) ?_ ?_ current table)
      · rw [Kernel.putHart_self]
      · rw [Kernel.putHart_self]
        exact core.in_kernel (core.not_user none)
  | kvminithart =>
    have none : (s.cpu c).thread = none := fit
    have ran' := ran
    cases ran
    refine h.putHart inv ran' (.on_kernel ?_ ?_ fun p here => ?_)
    · rw [Kernel.putHart_self]
    · rw [Kernel.putHart_self]
      exact core.in_kernel (core.not_user none)
    · have there : (s.cpu c).thread = some p := runs_proc.mp here
      rw [none] at there
      cases there
  | uservec =>
    have ran' := ran
    simp only [Kernel.perform] at ran
    split at ran
    case h_2 => cases ran
    case h_1 p there =>
      cases ran
      obtain ⟨here, page, saved, table⟩ := core.user p there
      refine h.putHart (a := .uservec) inv ran' (.on_process (p := p) ?_ ?_ (inv.thread c p here) table)
      · rw [Kernel.putHart_self]
        exact saved
      · rw [Kernel.putHart_self]
  | usertrapret p =>
    obtain ⟨page, loaded⟩ := fit
    exact h.usertrapret inv ok loaded ran
  | _ => exact absurd ⟨trivial, id⟩ quiet

/-! ### What others leave alone -/

theorem thread_of_perform {r : Res a} (ran : s.perform c a = some (r, s')) : (s'.cpu c).thread = (s.cpu c).thread ∨
    (s'.cpu c).thread = none ∨ ∃ q, a = .swtchTo q ∧ s'.hart = s.hart := by
  by_cases plain : Plain a ∧ a ≠ .swtchBack
  · exact .inl ((alike_of_perform plain.1 plain.2 ran).thread c)
  cases a with
  | swtchBack =>
    cases ran
    exact .inr (.inl (by rw [Kernel.putCpu_self]))
  | swtchTo q =>
    cases ran
    exact .inr (.inr ⟨q, rfl, rfl⟩)
  | setProc v =>
    cases ran
    exact .inl (by rw [Kernel.putCpu_self])
  | kvminithart | usertrapret =>
    cases ran
    exact .inl rfl
  | pvminithart | uservec =>
    simp only [Kernel.perform] at ran
    split at ran
    case h_1 =>
      cases ran
      exact .inl rfl
    case h_2 => cases ran
  | _ => exact absurd ⟨trivial, by rintro ⟨⟩⟩ plain

theorem stays_other {r : Res a} (here : s.runs c = t) (other : u ≠ t) (fit : Fit c s a)
    (ran : s.perform c a = some (r, s')) :
    Stays u s s' where
  proc p me inside d there := by
    by_cases same : d = c
    · subst same
      rcases thread_of_perform ran with thread | none | ⟨q, rfl, hart⟩
      · refine absurd ?_ other
        rw [me, ← there, runs_congr thread, here]
      · rw [runs_proc.mp there] at none
        cases none
      · rw [hart]
        exact fit
    · obtain ⟨-, thread, satp, -⟩ := elsewhere ran same
      obtain ⟨page, loaded⟩ := inside d ((runs_congr thread).symm.trans there)
      exact ⟨page, satp.trans loaded⟩
  sched d me none := by
    have ne : d ≠ c := by
      rintro rfl
      refine other (me.trans (Eq.trans ?_ here))
      exact (runs_sched.mpr ⟨rfl, none⟩).symm
    obtain ⟨proc, thread, satp, -⟩ := elsewhere ran ne
    exact ⟨thread.trans none, satp, proc⟩

theorem stays_plain {r : Res a} (here : s.runs c = t) (plain : Plain a) (ran : s.perform c a = some (r, s')) :
    Stays t s s' where
  proc p me inside d there := by
    by_cases back : a = .swtchBack
    · subst back
      have ne : d ≠ c := by
        rintro rfl
        have running := runs_proc.mp there
        cases ran
        rw [Kernel.putCpu_self] at running
        cases running
      obtain ⟨-, thread, satp, -⟩ := elsewhere ran ne
      obtain ⟨page, loaded⟩ := inside d ((runs_congr thread).symm.trans there)
      exact ⟨page, satp.trans loaded⟩
    · have alike := alike_of_perform plain back ran
      obtain ⟨page, loaded⟩ := inside d ((runs_congr (alike.thread d)).symm.trans there)
      exact ⟨page, (alike.satp d).trans loaded⟩
  sched d me none := by
    by_cases back : a = .swtchBack
    · subst back
      rw [me] at here
      obtain ⟨rfl, -⟩ := runs_sched.mp here
      cases ran
      exact ⟨by rw [Kernel.putCpu_self], rfl, by rw [Kernel.putCpu_self]⟩
    · have alike := alike_of_perform plain back ran
      exact ⟨(alike.thread d).trans none, alike.satp d, alike.proc d⟩

end Xv6Labs.Proc
