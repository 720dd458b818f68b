import Xv6Labs.Proc.Family
import Xv6Labs.Proc.Satp

/-!
# Kernel page tables in use

The code of a process never touches `satp` between `uservec` and `usertrapret`; the scheduler loads a table before it
switches to a process, and leaves it when the process has switched back. So a page table that is freed is in no CPU.
-/

namespace Xv6Labs.Proc

open Threads Prog

variable {α : Type} {t : Thread} {s x y : Kernel} {c : Core} {p : Slot} {a : Act} {lab : Lab}

/-! ### Code that leaves `satp` alone -/

theorem plain_act (plain : Plain a) : (act a).Only Plain := ⟨plain, fun _ => trivial⟩

theorem plain_panic {m : Msg} : (panic m : Code α).Only Plain := ⟨trivial, fun r => (show Empty from r).elim⟩

theorem plain_cut : (cut : Code α).Only Plain := ⟨trivial, fun r => (show Empty from r).elim⟩

theorem plain_check {b : Bool} {m : Msg} : (check b m).Only Plain := .ite plain_panic trivial

theorem plain_deref {o : Option Slot} : (deref o).Only Plain := by
  cases o with
  | none => exact plain_panic
  | some p => trivial

theorem plain_myproc : myproc.Only Plain := .bind (plain_act trivial) fun _ => plain_deref

theorem plain_scan {body : Slot → Code (Option α)} {l : List Slot} (plain : ∀ p, (body p).Only Plain) :
    (scan body l).Only Plain := by
  induction l with
  | nil => trivial
  | cons p rest ih =>
    refine .bind (plain p) fun r => ?_
    cases r with
    | none => exact ih
    | some a => trivial

theorem plain_sched : sched.Only Plain := by
  refine .bind plain_myproc fun p => .bind (plain_act trivial) fun _ => .bind plain_check fun _ => ?_
  refine .bind (plain_act trivial) fun _ => .bind plain_check fun _ => ?_
  refine .bind (plain_act trivial) fun _ => .bind plain_check fun _ => ?_
  refine .bind (plain_act trivial) fun _ => .bind plain_check fun _ => ?_
  exact .bind (plain_act trivial) fun _ => .bind (plain_act trivial) fun _ => plain_act trivial

theorem plain_yield : yield.Only Plain := by
  refine .bind plain_myproc fun p => .bind (plain_act trivial) fun _ => .bind (plain_act trivial) fun _ => ?_
  exact .bind plain_sched fun _ => plain_act trivial

theorem plain_goToSleep {chan : Chan} : (goToSleep p chan).Only Plain :=
  .bind (plain_act trivial) fun _ => .bind (plain_act trivial) fun _ => .bind plain_sched fun _ => plain_act trivial

theorem plain_sleep {chan : Chan} {lk : Lock} : (sleep chan lk).Only Plain := by
  refine .bind plain_myproc fun p => .bind (plain_act trivial) fun _ => .ite ?_ plain_goToSleep
  refine .bind (plain_act trivial) fun _ => .bind (plain_act trivial) fun _ => .bind plain_goToSleep fun _ => ?_
  exact .bind (plain_act trivial) fun _ => plain_act trivial

theorem plain_wakeup {chan : Chan} : (wakeup chan).Only Plain := by
  refine .bind (plain_scan fun p => ?_) fun _ => trivial
  refine .bind (plain_act trivial) fun _ => .bind (plain_act trivial) fun _ => .ite ?_ ?_
  · exact .bind (plain_act trivial) fun _ => .bind (plain_act trivial) fun _ => trivial
  · exact .bind (plain_act trivial) fun _ => trivial

theorem plain_wakeup1 : (wakeup1 p).Only Plain := by
  refine .bind (plain_act trivial) fun _ => .bind plain_check fun _ => .bind (plain_act trivial) fun _ => ?_
  exact .ite (plain_act trivial) trivial

theorem plain_acquiresleep {n rounds : ℕ} : (acquiresleep n rounds).Only Plain := by
  refine .bind (plain_act trivial) fun _ => ?_
  induction rounds with
  | zero => exact plain_cut
  | succ rounds ih =>
    refine .bind (plain_act trivial) fun _ => .ite (.bind plain_sleep fun _ => ih) ?_
    refine .bind (plain_act trivial) fun _ => .bind plain_myproc fun _ => .bind (plain_act trivial) fun _ => ?_
    exact .bind (plain_act trivial) fun _ => plain_act trivial

theorem plain_sleeps {chan lk rounds : ℕ} : (sleeps chan lk rounds).Only Plain := by
  induction rounds with
  | zero => trivial
  | succ rounds ih => exact .bind plain_sleep fun _ => ih

theorem plain_op (op : Op) : op.code.Only Plain := by
  cases op with
  | pause => exact .bind (plain_act trivial) fun _ => .bind plain_sleeps fun _ => plain_act trivial
  | signal => exact .bind (plain_act trivial) fun _ => .bind plain_wakeup fun _ => plain_act trivial
  | acquiresleep => exact plain_acquiresleep
  | releasesleep =>
    refine .bind (plain_act trivial) fun _ => .bind (plain_act trivial) fun _ => .bind (plain_act trivial) fun _ => ?_
    exact .bind plain_wakeup fun _ => plain_act trivial
  | holdingsleep =>
    refine .bind ?_ fun _ => trivial
    refine .bind (plain_act trivial) fun _ => .bind (plain_act trivial) fun _ => .bind (plain_act trivial) fun _ => ?_
    refine .bind plain_myproc fun _ => .bind (plain_act trivial) fun _ => ?_
    exact .bind (plain_act trivial) fun _ => trivial

theorem plain_ops {l : List Op} : (ops l).Only Plain := by
  induction l with
  | nil => trivial
  | cons op rest ih => exact .bind (plain_op op) fun _ => ih

theorem plain_signals {l : List (ℕ × ℕ)} : (signals l).Only Plain := by
  induction l with
  | nil => trivial
  | cons d rest ih => exact .bind (plain_op _) fun _ => ih

theorem plain_allocproc {mem : Memory} : (allocproc lab mem).Only Plain := by
  refine .bind (plain_scan fun p => ?_) fun found => ?_
  · refine .bind (plain_act trivial) fun _ => .bind (plain_act trivial) fun _ => .ite trivial ?_
    exact .bind (plain_act trivial) fun _ => trivial
  cases found with
  | none => trivial
  | some p =>
    have pages : (kernelPages lab mem p).Only Plain := by
      unfold kernelPages
      split
      · trivial
      · exact plain_act trivial
      · exact plain_panic
    refine .bind ?_ fun _ => .bind (plain_act trivial) fun _ => .ite (.bind pages fun _ => .ite ?_ ?_) ?_
    · refine .bind (plain_act trivial) fun _ => .bind (plain_act trivial) fun _ => .bind (plain_act trivial) fun _ => ?_
      exact .bind (plain_act trivial) fun _ => trivial
    · exact .bind (plain_act trivial) fun _ => trivial
    · exact .bind (plain_act trivial) fun _ => .bind (plain_act trivial) fun _ => trivial
    · exact .bind (plain_act trivial) fun _ => trivial

theorem plain_fork {mem : Memory} : (fork lab mem).Only Plain := by
  refine .bind plain_myproc fun p => .bind plain_allocproc fun child => ?_
  cases child with
  | none => trivial
  | some np =>
    refine .ite ?_ ?_
    · refine .bind (plain_act trivial) fun _ => .bind (plain_act trivial) fun _ => .bind (plain_act trivial) fun _ => ?_
      refine .bind (plain_act trivial) fun _ => .bind (plain_act trivial) fun _ => ?_
      exact .bind (plain_act trivial) fun _ => trivial
    · exact .bind (plain_act trivial) fun _ => .bind (plain_act trivial) fun _ => trivial

theorem plain_userinit {mem : Memory} : (userinit lab mem).Only Plain := by
  refine .bind plain_allocproc fun _ => .bind plain_deref fun p => .bind (plain_act trivial) fun _ => ?_
  exact .bind (plain_act trivial) fun _ => plain_act trivial

theorem plain_reparent : (reparent p).Only Plain := by
  refine .bind (plain_scan fun pp => ?_) fun _ => trivial
  refine .bind (plain_act trivial) fun _ => .ite ?_ trivial
  refine .bind (plain_act trivial) fun _ => .bind (plain_act trivial) fun _ => .bind (plain_act trivial) fun _ => ?_
  exact .bind (plain_act trivial) fun _ => trivial

theorem plain_exit {close : Balanced} {status : Int} : (exit close status).Only Plain := by
  refine .bind plain_myproc fun p => .bind (plain_act trivial) fun _ => .bind plain_deref fun init => ?_
  refine .bind plain_check fun _ => .bind (plain_act trivial) fun _ => .bind (plain_act trivial) fun _ => ?_
  refine .bind plain_ops fun _ => .bind (plain_act trivial) fun _ => .bind plain_wakeup1 fun _ => ?_
  refine .bind (plain_act trivial) fun _ => .bind (plain_act trivial) fun _ => .bind (plain_act trivial) fun _ => ?_
  refine .bind (plain_act trivial) fun _ => .bind (plain_act trivial) fun _ => .bind plain_deref fun parent => ?_
  refine .bind (plain_act trivial) fun _ => .bind (plain_act trivial) fun _ => .bind plain_reparent fun _ => ?_
  refine .bind plain_wakeup1 fun _ => .bind (plain_act trivial) fun _ => .bind (plain_act trivial) fun _ => ?_
  exact .bind (plain_act trivial) fun _ => .bind plain_sched fun _ => plain_panic

theorem plain_waitScan {addr : Option Bool} {l : List Slot} {havekids : Bool} :
    (waitScan p addr l havekids).Only Plain := by
  induction l generalizing havekids with
  | nil => trivial
  | cons np rest ih =>
    refine .bind (plain_act trivial) fun _ => .ite ?_ ih
    refine .bind (plain_act trivial) fun _ => .bind (plain_act trivial) fun _ => .ite (.ite ?_ ?_) ?_
    · refine .bind (plain_act trivial) fun _ => .bind (plain_act trivial) fun _ => ?_
      exact .bind (plain_act trivial) fun _ => trivial
    · refine .bind (plain_act trivial) fun _ => .bind (plain_act trivial) fun _ => ?_
      exact .bind (plain_act trivial) fun _ => trivial
    · exact .bind (plain_act trivial) fun _ => ih

theorem plain_wait {addr : Option Bool} {rounds : ℕ} : (wait addr rounds).Only Plain := by
  refine .bind plain_myproc fun p => .bind (plain_act trivial) fun _ => ?_
  induction rounds with
  | zero => exact plain_cut
  | succ rounds ih =>
    refine .bind plain_waitScan fun result => ?_
    cases result with
    | inl pid => trivial
    | inr havekids =>
      refine .bind (plain_act trivial) fun _ => .ite ?_ (.bind plain_sleep fun _ => ih)
      exact .bind (plain_act trivial) fun _ => trivial

theorem plain_kill {pid : Int} : (kill pid).Only Plain := by
  refine .bind (plain_scan fun p => ?_) fun found => ?_
  · refine .bind (plain_act trivial) fun _ => .bind (plain_act trivial) fun _ => .ite ?_ ?_
    · refine .bind (plain_act trivial) fun _ => .bind (plain_act trivial) fun _ => .ite ?_ ?_
      · exact .bind (plain_act trivial) fun _ => .bind (plain_act trivial) fun _ => trivial
      · exact .bind (plain_act trivial) fun _ => trivial
    · exact .bind (plain_act trivial) fun _ => trivial
  · cases found with
    | none => trivial
    | some r => trivial

theorem plain_syscall {close : Balanced} (k : Syscall) : (syscall lab close k).Only Plain := by
  cases k with
  | fork mem => exact .bind plain_fork fun _ => trivial
  | exit status => exact plain_exit
  | wait addr rounds => exact .bind plain_wait fun _ => trivial
  | kill pid => exact .bind plain_kill fun _ => trivial
  | other l => exact plain_ops

theorem plain_exitIfKilled {close : Balanced} : (exitIfKilled close p).Only Plain :=
  .bind (plain_act trivial) fun _ => .ite plain_exit trivial

theorem plain_kerneltrap {devintr : List (ℕ × ℕ)} {timer : Bool} : (kerneltrap devintr timer).Only Plain := by
  refine .bind (plain_act trivial) fun _ => .bind plain_signals fun _ => .ite ?_ (plain_act trivial)
  refine .bind (plain_act trivial) fun current => ?_
  cases current with
  | none => exact plain_act trivial
  | some p =>
    refine .bind (plain_act trivial) fun _ => .ite ?_ (plain_act trivial)
    exact .bind plain_yield fun _ => plain_act trivial

/-! ### The code of the machine -/

/-- A process in the kernel; nothing of a scheduler. -/
def Inside (t : Thread) (s : Kernel) : Prop := ∀ p, t = .proc p → InKernel p s

theorem Inside.stays (h : Inside t s) (stays : Stays t s x) : Inside t x := fun p me => stays.proc p me (h p me)

theorem inside_sched : Inside (.sched c) s := by rintro _ ⟨⟩

theorem inside_proc (h : InKernel p s) : Inside (.proc p) s := by
  rintro _ ⟨⟩
  exact h

theorem fit_plain (here : s.runs c = t) (inside : Inside t s) (plain : Plain a) : Fit c s a := by
  cases a with
  | swtchBack =>
    cases t with
    | sched d =>
      obtain ⟨-, none⟩ := runs_sched.mp here
      exact .inl none
    | proc p => exact .inr (inside p rfl c here)
  | setProc | swtchTo | pvminithart | kvminithart | usertrapret => exact plain.elim
  | _ => trivial

abbrev Over {α : Type} (t : Thread) (p : Code α) (post : α → Kernel → Prop) (s : Kernel) : Prop :=
  keeps terms tableTerms (terms.checked exec) t p post s

theorem over_act {post : Res a → Kernel → Prop} (fit : ∀ x : Kernel, Stays t s x → ∀ c, x.runs c = t → Fit c x a)
    (after : ∀ (x : Kernel) c r x', Stays t s x → x.Inv → Loaded x → x.runs c = t → x.perform c a = some (r, x') →
      ∀ y, Stays t x' y → post r y) : Over t (act a) post s := by
  apply keeps_lift
  intro x frame inv
  refine ⟨fun c here => fit x frame.2 c here, fun r x' ran known _ => ?_⟩
  obtain ⟨ok, ran⟩ := Terms.checked_eq_some.mp ran
  obtain ⟨c, here, ran⟩ := exec_cases ran
  have fits := fit x frame.2 c here
  have loaded := inv.2.step inv.1.1 (ok c here) fits ran
  exact ⟨loaded, fun u ne => stays_other here ne fits ran,
    fun y frame' _ => after x c r x' frame.2 inv.1.1 inv.2 here ran y frame'.2⟩

theorem over_only {p : Code α} {post : α → Kernel → Prop} (only : p.Only Plain) (inside : Inside t s)
    (after : ∀ r y, Stays t s y → Inside t y → post r y) : Over t p post s := by
  have kept : Over t p (fun _ y => Stays t s y ∧ Inside t y) s := by
    refine keeps_only only ?_ ?_ ⟨.refl, inside⟩
    · intro x y h frame
      exact ⟨h.1.trans frame.2, h.2.stays frame.2⟩
    · intro a x plain h inv
      refine ⟨fun c here => fit_plain here h.2 plain, fun r x' ran known => ?_⟩
      obtain ⟨ok, ran⟩ := Terms.checked_eq_some.mp ran
      obtain ⟨c, here, ran⟩ := exec_cases ran
      have fits := fit_plain here h.2 plain
      have own := stays_plain here plain ran
      exact ⟨inv.2.step inv.1.1 (ok c here) fits ran, fun u ne => stays_other here ne fits ran, h.1.trans own,
        h.2.stays own⟩
  exact keeps_mono kept fun r y _ h => after r y h.1 h.2

theorem over_usertrapret (inside : InKernel p s) : Over (.proc p) usertrapret (fun _ _ => True) s := by
  apply keeps_bind
  apply over_only plain_myproc (inside_proc inside)
  intro q x _ inside₁
  apply keeps_bind
  apply over_only (plain_act (by trivial)) inside₁
  intro _ y _ inside₂
  exact over_act (fun z stays c here => (inside₂.stays stays) p rfl c here) fun _ _ _ _ _ _ _ _ _ _ _ => trivial

theorem over_forkret {fsinit : Balanced} (inside : InKernel p s) :
    Over (.proc p) (forkret fsinit) (fun _ _ => True) s := by
  apply keeps_bind
  apply over_only plain_myproc (inside_proc inside)
  intro q x₁ _ inside₁
  apply keeps_bind
  apply over_only (plain_act (by trivial)) inside₁
  intro _ x₂ _ inside₂
  apply keeps_bind
  apply over_only (plain_act (by trivial)) inside₂
  intro b x₃ _ inside₃
  split
  · apply keeps_bind
    apply over_only plain_ops inside₃
    intro _ x₄ _ inside₄
    exact over_usertrapret (inside₄ p rfl)
  · exact over_usertrapret (inside₃ p rfl)

/-- The trampoline loads the table that `usertrapret` has saved. -/
theorem over_uservec {post : Unit → Kernel → Prop} (after : ∀ y, Inside (.proc p) y → post () y) :
    Over (.proc p) (act .uservec) post s := by
  apply over_act
  · exact fun _ _ _ _ => trivial
  · intro x c _ x' _ inv loaded here ran y stays
    apply after
    refine (inside_proc fun d there => ?_ : Inside (.proc p) x').stays stays
    simp only [Kernel.perform] at ran
    split at ran
    case h_2 => cases ran
    case h_1 q user =>
      cases ran
      have same : d = c := runs_inj inv there here
      subst same
      obtain ⟨-, page, saved, -⟩ := (loaded.core d).user q user
      exact ⟨page, by rw [Kernel.putHart_self]; exact saved⟩

theorem over_usertrap {cause : Cause} {close : Balanced} :
    Over (.proc p) (usertrap lab cause close) (fun _ _ => True) s := by
  apply keeps_bind
  apply over_uservec
  intro x inside
  apply keeps_bind
  apply over_only plain_myproc inside
  intro q x₁ _ inside₁
  cases cause with
  | syscall k =>
    apply keeps_bind
    apply over_only plain_exitIfKilled inside₁
    intro _ x₂ _ inside₂
    apply keeps_bind
    apply over_only (plain_act (by trivial)) inside₂
    intro _ x₃ _ inside₃
    apply keeps_bind
    apply over_only (plain_syscall k) inside₃
    intro _ x₄ _ inside₄
    apply keeps_bind
    apply over_only plain_exitIfKilled inside₄
    intro _ x₅ _ inside₅
    exact over_usertrapret (inside₅ p rfl)
  | device devintr timer =>
    apply keeps_bind
    apply over_only plain_signals inside₁
    intro _ x₂ _ inside₂
    apply keeps_bind
    apply over_only plain_exitIfKilled inside₂
    intro _ x₃ _ inside₃
    split
    · apply keeps_bind
      apply over_only plain_yield inside₃
      intro _ x₄ _ inside₄
      exact over_usertrapret (inside₄ p rfl)
    · exact over_usertrapret (inside₃ p rfl)
  | fault =>
    apply keeps_bind
    apply over_only (plain_act (by trivial)) inside₁
    intro _ x₂ _ inside₂
    apply keeps_bind
    apply over_only plain_exitIfKilled inside₂
    intro _ x₃ _ inside₃
    exact over_usertrapret (inside₃ p rfl)

/-! ### The scheduler -/

/-- The scheduler of `c` runs, on the page table of the kernel. -/
structure OnKernel (c : Core) (s : Kernel) : Prop where
  thread : (s.cpu c).thread = none
  satp : (s.hart c).satp = .kernel

theorem OnKernel.stays (h : OnKernel c s) (stays : Stays (.sched c) s x) : OnKernel c x := by
  obtain ⟨thread, satp, -⟩ := stays.sched c rfl h.thread
  exact ⟨thread, satp.trans h.satp⟩

theorem over_plain {p : Code α} (only : p.Only Plain) (onKernel : OnKernel c s) :
    Over (.sched c) p (fun _ y => OnKernel c y) s :=
  over_only only inside_sched fun _ _ stays _ => onKernel.stays stays

/-- To a process and back. -/
theorem over_setProc {v : Option Slot} {post : Unit → Kernel → Prop} (onKernel : OnKernel c s)
    (after : ∀ y, OnKernel c y → (y.cpu c).proc = v → post () y) : Over (.sched c) (act (.setProc v)) post s := by
  apply over_act
  · intro x stays d here
    obtain ⟨rfl, -⟩ := runs_sched.mp here
    exact (onKernel.stays stays).satp
  · intro x d _ x' stays _ _ here ran y stays'
    obtain ⟨rfl, -⟩ := runs_sched.mp here
    have before := onKernel.stays stays
    cases ran
    have thread : ((x.putCpu d { x.cpu d with proc := v }).cpu d).thread = none := by
      rw [Kernel.putCpu_self]
      exact before.thread
    obtain ⟨thread', satp, proc⟩ := stays'.sched d rfl thread
    rw [Kernel.putCpu_self] at proc
    exact after y ⟨thread', satp.trans before.satp⟩ proc

theorem over_pvminithart {post : Unit → Kernel → Prop} (thread : (s.cpu c).thread = none)
    (current : (s.cpu c).proc = some p)
    (after : ∀ y : Kernel, (∃ page, (y.hart c).satp = .process page) → (y.cpu c).thread = none → post () y) :
    Over (.sched c) (act (.pvminithart p)) post s := by
  apply over_act
  · intro x stays d here
    obtain ⟨rfl, -⟩ := runs_sched.mp here
    obtain ⟨thread', -, proc⟩ := stays.sched d rfl thread
    exact ⟨thread', proc.trans current⟩
  · intro x d _ x' stays _ _ here ran y stays'
    obtain ⟨rfl, none⟩ := runs_sched.mp here
    simp only [Kernel.perform] at ran
    split at ran
    case h_2 => cases ran
    case h_1 page _ =>
      cases ran
      obtain ⟨thread', satp, -⟩ := stays'.sched d rfl none
      rw [Kernel.putHart_self] at satp
      exact after y ⟨page, satp⟩ thread'

theorem over_kvminithart {post : Unit → Kernel → Prop} (after : ∀ y, OnKernel c y → post () y) :
    Over (.sched c) (act .kvminithart) post s := by
  apply over_act
  · intro x _ d here
    exact (runs_sched.mp here).2
  · intro x d _ x' _ _ _ here ran y stays'
    obtain ⟨rfl, none⟩ := runs_sched.mp here
    cases ran
    obtain ⟨thread, satp, -⟩ := stays'.sched d rfl none
    rw [Kernel.putHart_self] at satp
    exact after y ⟨thread, satp⟩

theorem over_schedulerOne (onKernel : OnKernel c s) :
    Over (.sched c) (schedulerOne .four p) (fun _ y => OnKernel c y) s := by
  apply keeps_bind
  apply keeps_mono (over_plain (plain_act (by trivial)) onKernel)
  intro _ x₁ _ on₁
  apply keeps_bind
  apply keeps_mono (over_plain (plain_act (by trivial)) on₁)
  intro v x₂ _ on₂
  have finish {x : Kernel} (on : OnKernel c x) :
      Over (.sched c) (do release (.proc p); pure none) (fun (_ : Option Unit) y => OnKernel c y) x :=
    over_plain (.bind (plain_act trivial) fun _ => trivial) on
  split
  case isFalse => exact finish on₂
  case isTrue =>
    apply keeps_bind
    apply keeps_mono (over_plain (plain_act (by trivial)) on₂)
    intro _ x₃ _ on₃
    apply keeps_bind
    apply over_setProc on₃
    intro x₄ on₄ current
    apply keeps_bind
    apply over_pvminithart on₄.thread current
    intro x₅ loaded thread
    apply keeps_bind
    apply over_act
    · intro x stays d here
      obtain ⟨rfl, -⟩ := runs_sched.mp here
      obtain ⟨page, loaded⟩ := loaded
      obtain ⟨-, satp, -⟩ := stays.sched d rfl thread
      exact ⟨page, satp.trans loaded⟩
    intro _ _ _ _ _ _ _ _ _ x₆ _
    apply keeps_bind
    apply over_kvminithart
    intro x₇ on₇
    apply keeps_bind
    apply over_setProc on₇
    intro x₈ on₈ _
    exact finish on₈

theorem over_scheduler (onKernel : OnKernel c s) : Over (.sched c) (scheduler .four) (fun _ y => OnKernel c y) s := by
  have turn (l : List Slot) {x : Kernel} (on : OnKernel c x) :
      Over (.sched c) (scan (schedulerOne .four) l) (fun _ y => OnKernel c y) x := by
    induction l generalizing x with
    | nil => exact over_plain trivial on
    | cons p rest ih =>
      apply keeps_bind
      apply keeps_mono (over_schedulerOne on)
      intro r y _ on'
      cases r with
      | none => exact ih on'
      | some u => exact over_plain trivial on'
  apply keeps_bind
  apply keeps_mono (over_plain (plain_act (by trivial)) onKernel)
  intro _ x _ on
  apply keeps_bind
  apply keeps_mono (turn slots on)
  intro _ y _ on'
  exact over_plain trivial on'

theorem over_main {mem : Memory} (onKernel : OnKernel c s) :
    Over (.sched c) (main .four mem c) (fun _ y => OnKernel c y) s := by
  unfold main
  split
  · apply keeps_bind
    apply keeps_mono (over_plain plain_userinit onKernel)
    intro _ x _ on
    apply keeps_bind
    apply keeps_mono (over_plain (plain_act (by trivial)) on)
    intro _ y _ on'
    exact over_setProc on' fun _ on'' _ => on''
  · apply keeps_bind
    apply keeps_mono (over_plain (plain_act (by trivial)) onKernel)
    intro _ y _ on'
    exact over_setProc on' fun _ on'' _ => on''

/-! ### Runs -/

def atRest (t : Thread) (s : Kernel) : Prop := ∀ c, t = .sched c → OnKernel c s

theorem table_honours (fsinit : Balanced) :
    (machine .four fsinit).Honours (terms.and tableTerms) (fun t s => idle t s ∧ atRest t s) where
  calls t s k inv ready offered := by
    refine keeps_and_checked ((honours .four fsinit).calls t s k inv.1 ready.1 offered) ?_
    cases t with
    | sched c =>
      have rest {x : Kernel} (on : OnKernel c x) : atRest (.sched c) x := by
        rintro _ ⟨⟩
        exact on
      cases k with
      | scheduler => exact keeps_mono (over_scheduler (ready.2 c rfl)) fun _ _ _ on => rest on
      | kerneltrap => cases offered
      | usertrap => cases offered
    | proc p =>
      cases k with
      | scheduler => cases offered
      | kerneltrap => cases offered
      | usertrap cause close => exact keeps_mono over_usertrap fun _ _ _ _ c me => by cases me
  traps t s k inv allowed := by
    refine keeps_and_checked ((honours .four fsinit).traps t s k inv.1 allowed) ?_
    have inside : Inside t s := by
      rintro p rfl d there
      change interrupts (.proc p) s k = true at allowed
      unfold interrupts at allowed
      split at allowed
      case h_2 => cases allowed
      case h_1 =>
        split at allowed
        case h_2 => cases allowed
        case h_1 c found =>
          have same : d = c := runs_inj inv.1.1 there (runs_of_on found)
          subst same
          rw [Bool.and_eq_true, Bool.not_eq_true'] at allowed
          have core := inv.2.core d
          cases satp : (s.hart d).satp with
          | kernel => exact absurd satp (core.own p there)
          | process page => exact ⟨page, rfl⟩
          | user q =>
            have user := core.mode.mpr ⟨q, satp⟩
            rw [allowed.2] at user
            cases user
    cases k with
    | scheduler => cases allowed
    | usertrap => cases allowed
    | kerneltrap devintr timer => exact over_only plain_kerneltrap inside fun _ _ stays _ => stays
  starts t a s r s' u code inv ok ran inv' begun := by
    refine keeps_and_checked ((honours .four fsinit).starts t a s r s' u code inv.1 ok.1 ran inv'.1 begun) ?_
    cases a with
    | context p =>
      cases begun
      change exec t (.context p) s = some (r, s') at ran
      obtain ⟨c, here, ran⟩ := exec_cases ran
      obtain ⟨-, -, off⟩ := ok.1 c here
      cases ran
      exact keeps_mono (over_forkret fun d there => absurd there (off d)) fun _ _ _ _ c me => by cases me
    | _ => cases begun

theorem boot_loaded : Loaded ({} : Kernel) where
  core c :=
    { process := fun _ there => by cases there
      user := fun _ there => by cases there
      mode := ⟨fun user => (by cases user), by rintro ⟨_, there⟩; cases there⟩
      own := fun _ here => by cases here }
  distinct _ _ _ table := by cases table

theorem reachable_loaded {fsinit : Balanced} {mem : Memory} {conf : Conf Thread Act Res Kernel}
    (h : Reachable .four fsinit mem conf) :
    conf.Kept (terms.and tableTerms) (machine .four fsinit).exec (fun t s => idle t s ∧ atRest t s) := by
  have start : (boot .four mem).Kept (terms.and tableTerms) (machine .four fsinit).exec
      (fun t s => idle t s ∧ atRest t s) := by
    refine ⟨⟨boot_inv, boot_loaded⟩, fun t => ?_⟩
    refine keeps_and_checked ((boot_kept .four fsinit mem).2 t) ?_
    cases t with
    | sched c =>
      refine keeps_mono (over_main ⟨rfl, rfl⟩) ?_
      rintro _ y _ on _ ⟨⟩
      exact on
    | proc p => exact over_only plain_cut (inside_proc fun _ here => by cases here) fun _ _ _ _ c me => by cases me
  exact start.runs (table_honours fsinit) h

/-- A CPU in the kernel is on the page table of the kernel or on the one of its process; a process in user mode returns
to its own; and a table is freed when no CPU has it loaded or will load it. -/
theorem tables_in_use {fsinit : Balanced} {mem : Memory} {conf : Conf Thread Act Res Kernel}
    (h : Reachable .four fsinit mem conf) :
    (∀ c, (conf.shared.hart c).user = false → (conf.shared.hart c).satp = .kernel ∨ ∃ p page,
      (conf.shared.hart c).satp = .process page ∧ conf.shared.kpgtbl p = some page ∧ (conf.shared.cpu c).proc = some p ∧
      (conf.shared.owner (.proc p) = none → (conf.shared.proc p).state = .RUNNING)) ∧
    (∀ c, (conf.shared.hart c).user = true → ∃ p page, (conf.shared.hart c).satp = .user p ∧
      conf.shared.runs c = .proc p ∧
      conf.shared.kernelSatp p = .process page ∧ conf.shared.kpgtbl p = some page) ∧
    ∀ t q w k r s page, conf.code t = .act (.freeproc q w) k → exec t (.freeproc q w) conf.shared = some (r, s) →
      conf.shared.kpgtbl q = some page → ∀ c, (conf.shared.hart c).satp ≠ .process page ∧
        ∀ p, (conf.shared.hart c).satp = .user p → conf.shared.kernelSatp p ≠ .process page := by
  have kept := reachable_loaded h
  have inv := kept.1.1.1
  have loaded : Loaded conf.shared := kept.1.2
  refine ⟨fun c kernel => ?_, fun c user => ?_, ?_⟩
  · have core := loaded.core c
    cases satp : (conf.shared.hart c).satp with
    | kernel => exact .inl rfl
    | process page =>
      obtain ⟨p, current, table⟩ := core.process page satp
      exact .inr ⟨p, page, rfl, table, current, fun free => (inv.settled p free).running.mpr ⟨c, current⟩⟩
    | user p =>
      have user := core.mode.mpr ⟨p, satp⟩
      rw [kernel] at user
      cases user
  · obtain ⟨p, satp⟩ := (loaded.core c).mode.mp user
    obtain ⟨here, page, saved, table⟩ := (loaded.core c).user p satp
    exact ⟨p, page, satp, here, saved, table⟩
  · intro t q w k r s page point ran table c
    obtain ⟨d, here, -⟩ := exec_cases ran
    have unused : ∀ e, (conf.shared.cpu e).proc ≠ some q := by
      have allowed := (kept.ok point).1 d here
      cases w with
      | none => exact allowed.2.1
      | some w => exact allowed.2.1
    refine ⟨fun satp => ?_, fun p satp saved => ?_⟩
    · obtain ⟨p, current, table'⟩ := (loaded.core c).process page satp
      rw [loaded.distinct p q page table' table] at current
      exact unused c current
    · obtain ⟨there, page', saved', table'⟩ := (loaded.core c).user p satp
      cases saved.symm.trans saved'
      rw [loaded.distinct p q page table' table] at there
      exact unused c (inv.thread c q there)

/-- CPU 0 makes init and runs it up to user mode. -/
def firstInit : List (Move Thread Call) :=
  acts 14 (.sched 0) ++ .call (.sched 0) .scheduler :: acts 7 (.sched 0) ++ acts 6 (.proc 0)

theorem tables_in_use_init : ∃ conf, Reachable .four ⟨[], rfl⟩ plenty conf ∧ (conf.shared.hart 0).user = true ∧
    ∃ p page, (conf.shared.hart 0).satp = .user p ∧ conf.shared.runs 0 = .proc p ∧
      conf.shared.kernelSatp p = .process page ∧ conf.shared.kpgtbl p = some page := by
  have played : (((machine .four ⟨[], rfl⟩).play firstInit (boot .four plenty)).any fun conf =>
      (conf.shared.hart 0).user) = true := by decide +kernel
  obtain ⟨conf, run, user⟩ := Machine.exists_of_play played
  exact ⟨conf, run, user, (tables_in_use run).2.1 0 user⟩

end Xv6Labs.Proc
