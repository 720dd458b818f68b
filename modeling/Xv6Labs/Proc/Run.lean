import Xv6Labs.Proc.Calls

/-!
# Every run keeps the terms

Traps, the scheduler and the machine that it makes: in every state of every run
the invariant of the process table holds, and every thread is about to do something that it may.
-/

namespace Xv6Labs.Proc

open Threads

variable {t : Thread} {L : List Lock} {s : Kernel} {c : Core} {p q i : Slot} {lab : Lab}

/-! ### Traps -/

theorem keeps_signals {post : Unit → Kernel → Prop} {l : List (ℕ × ℕ)} (has : s.Has t []) (calm : Calm t s.toTable)
    (after : ∀ y : Kernel, terms.inv y → y.Has t [] → Past t [] s.toTable y.toTable → post () y) :
    Keeps t (signals l) post s := by
  induction l generalizing s with
  | nil => exact keeps_pure has after
  | cons d rest ih =>
    apply keeps_bind
    apply keeps_signal has calm
    intro y _ has₁ past₁
    apply ih has₁ (calm.past past₁)
    intro z inv has₂ past₂
    exact after z inv has₂ (past₁.trans past₂)

theorem silent_intrOff : Silent .intrOff := by
  apply silent_of_hart
  intro x c r x' ran
  cases ran
  exact ⟨rfl, _, rfl, nofun⟩

theorem silent_usertrapret : Silent (.usertrapret p) := by
  apply silent_of_hart
  intro x c r x' ran
  cases ran
  exact ⟨rfl, _, rfl, id⟩

theorem silent_uservec : Silent .uservec := by
  apply silent_of_hart
  intro x c r x' ran
  simp only [Kernel.perform] at ran
  split at ran
  case h_1 =>
    cases ran
    exact ⟨rfl, _, rfl, by rintro ⟨⟩⟩
  case h_2 => cases ran

theorem silent_pvminithart : Silent (.pvminithart p) := by
  apply silent_of_hart
  intro x c r x' ran
  simp only [Kernel.perform] at ran
  split at ran
  case h_1 =>
    cases ran
    exact ⟨rfl, _, rfl, id⟩
  case h_2 => cases ran

theorem silent_kvminithart : Silent .kvminithart := by
  apply silent_of_hart
  intro x c r x' ran
  cases ran
  exact ⟨rfl, _, rfl, id⟩

theorem silent_started : Silent .started := by
  intro x c r x' ran
  simp only [Kernel.perform] at ran
  split at ran
  case isFalse => cases ran
  case isTrue =>
    cases ran
    exact ⟨rfl, fun _ on => on⟩

theorem keeps_intrOff {post : Unit → Kernel → Prop} (has : s.Has t L)
    (after : ∀ y : Kernel, terms.inv y → y.Has t L → Past t L s.toTable y.toTable → post () y) :
    Keeps t (act .intrOff) post s :=
  keeps_aside has (fun _ _ => trivial) silent_intrOff fun _ y inv has past => after y inv has past

theorem has_nil {s : Table} (inv : s.Inv) (here : s.runs c = t) (noff : (s.cpu c).noff = 0) : s.Has t [] := by
  refine ⟨c, here, List.nodup_nil, fun lk => ⟨fun owner => absurd noff (inv.held c lk owner), fun h => ?_⟩, noff⟩
  simp at h

theorem calm_nil {s : Table} (inv : s.Inv) (has : s.Has t []) : Calm t s := by
  rintro c rfl
  obtain ⟨d, here, owns⟩ := has
  obtain ⟨rfl, -⟩ := runs_sched.mp here
  exact inv.idle d here owns.noff

/-- A thread that was interrupted without a lock does not notice. -/
theorem frame_of_past {s y : Table} (inv : s.Inv) (has : s.Has t []) (has' : y.Has t []) (past : Past t [] s y) :
    Frame t s y where
  since := past.toSince
  on L hasL := by
    obtain ⟨c, here, owns⟩ := has
    have nil : L = [] := by
      have noff := (has_owner inv hasL here).noff
      rw [owns.noff] at noff
      exact List.length_eq_zero_iff.mp noff.symm
    subst nil
    exact ⟨has', past⟩
  offProc _ _ off := by
    obtain ⟨c, here, -⟩ := has
    exact absurd here (off c)
  offSched c p me away := by
    obtain ⟨d, here, -⟩ := has
    rw [me] at here
    obtain ⟨rfl, none⟩ := runs_sched.mp here
    rw [none] at away
    cases away

theorem keeps_kerneltrap {post : Unit → Kernel → Prop} {devintr : List (ℕ × ℕ)} {timer : Bool} (inv : terms.inv s)
    (has : s.Has t []) (after : ∀ y : Kernel, terms.inv y → Frame t s.toTable y.toTable → post () y) :
    Keeps t (kerneltrap devintr timer) post s := by
  have back {x : Kernel} (has' : x.Has t []) (past : Past t [] s.toTable x.toTable) : Keeps t (act .intrOn) post x := by
    apply keeps_intrOn has'
    intro y inv' has'' past'
    exact after y inv' (frame_of_past inv.1 has has'' (past.trans past'))
  apply keeps_bind
  apply keeps_intrOff has
  intro x inv₁ has₁ past₁
  apply keeps_bind
  apply keeps_signals has₁ (calm_nil inv₁.1 has₁)
  intro x₁ inv₂ has₂ past₂
  have sofar := past₁.trans past₂
  split
  case isFalse => exact back has₂ sofar
  apply keeps_bind
  apply keeps_quiet has₂
  intro x₂ inv₃ past₃ c here owns
  refine ⟨trivial, fun r x' ran => ?_⟩
  cases ran
  refine ⟨rfl, inv₃.2, fun y inv₄ has₄ past₄ => ?_⟩
  have sofar₄ := (sofar.trans past₃).trans past₄
  cases t with
  | sched d =>
    obtain ⟨rfl, -⟩ := runs_sched.mp here
    rw [inv₃.1.idle c here owns.noff]
    exact back has₄ sofar₄
  | proc p =>
    rw [inv₃.1.thread c p here]
    apply keeps_bind
    apply keeps_look has₄
    intro z w _ inv₅ has₅ past₅ past₆
    split
    case isFalse => exact back has₅ ((sofar₄.trans past₅).trans past₆)
    case isTrue running =>
      apply keeps_bind
      apply keeps_yield has₅ (past₆.running p rfl running)
      intro v _ has₆ _ past₇
      exact back has₆ (((sofar₄.trans past₅).trans past₆).trans past₇)

theorem keeps_usertrapret {post : Unit → Kernel → Prop} (ready : Ready p [] {} i s)
    (after : ∀ y : Kernel, terms.inv y → Ready p [] {} i y → post () y) : Keeps (.proc p) usertrapret post s := by
  apply keeps_bind
  apply keeps_myproc ready.has
  intro x inv has past
  apply keeps_bind
  apply keeps_intrOff has
  intro x₁ inv₁ has₁ past₁
  refine keeps_silent has₁ silent_usertrapret (fun _ _ _ _ here _ => here) fun _ y inv₂ has₂ past₂ => ?_
  exact after y inv₂ (ready.past has₂ ((past.trans past₁).trans past₂))

/-- A process begins where its parent left it, with nothing noted. -/
theorem keeps_forkret {post : Unit → Kernel → Prop} {fsinit : Balanced} (out : Out p s.toTable)
    (blank : s.notes p = {}) (after : ∀ (y : Kernel) i, terms.inv y → Ready p [] {} i y → post () y) :
    Keeps (.proc p) (forkret fsinit) post s := by
  apply keeps_bind
  apply keeps_bind
  refine keeps_back (a := .myproc) out (fun _ _ => trivial) (silent_of fun _ _ => ⟨_, _, rfl, rfl, rfl⟩) ?_
  intro x y c r x' inv here ran inv₁ has running since
  cases ran
  rw [inv.1.thread c p here]
  obtain ⟨i, found⟩ := inv₁.1.tree.found_init (q := p) (by simp [running])
  have ready : Ready p [.proc p] {} i y := ⟨has, running, since.blank blank, found⟩
  refine keeps_pure has fun x₁ inv₂ has₁ past₁ => ?_
  have ready₁ := ready.past has₁ past₁
  apply keeps_bind
  apply keeps_release has₁ (by simp)
  · rintro _ ⟨⟩
    exact settled_running inv₂.1 has₁ ready₁.running
  intro x₂ inv₃ has₂ past₂
  rw [List.erase_cons_head] at has₂ past₂
  apply keeps_bind
  refine keeps_aside (a := .first) has₂ (fun _ _ => trivial) (silent_of fun _ _ => ⟨_, _, rfl, rfl, rfl⟩)
    fun b x₃ inv₄ has₃ past₃ => ?_
  have ready₃ := ready₁.past has₃ (past₂.trans past₃)
  split
  case isTrue =>
    apply keeps_bind
    apply keeps_ops ready₃
    intro z _ ready₄
    exact keeps_usertrapret ready₄ fun w => after w i
  case isFalse => exact keeps_usertrapret ready₃ fun w => after w i

theorem keeps_exitIfKilled {post : Unit → Kernel → Prop} {close : Balanced} (ready : Ready p [] {} i s)
    (after : ∀ y : Kernel, terms.inv y → Ready p [] {} i y → post () y) :
    Keeps (.proc p) (exitIfKilled close p) post s := by
  apply keeps_bind
  refine keeps_aside (a := .killed p) ready.has (fun _ _ => trivial) (silent_of fun _ _ => ⟨_, _, rfl, rfl, rfl⟩)
    fun b x inv has past => ?_
  have ready₁ := ready.past has past
  split
  case isTrue => exact keeps_exit ready₁
  case isFalse =>
    refine keeps_pure has fun y inv₁ has₁ past₁ => ?_
    exact after y inv₁ (ready₁.past has₁ past₁)

theorem keeps_syscall {post : Unit → Kernel → Prop} {close : Balanced} {k : Syscall} (ready : Ready p [] {} i s)
    (after : ∀ y : Kernel, terms.inv y → Ready p [] {} i y → post () y) :
    Keeps (.proc p) (syscall lab close k) post s := by
  have finish {x : Kernel} (ready : Ready p [] {} i x) : Keeps (.proc p) (pure ()) post x := by
    refine keeps_pure ready.has fun y inv has₁ past => ?_
    exact after y inv (ready.past has₁ past)
  cases k with
  | fork mem =>
    apply keeps_bind
    apply keeps_fork ready
    intro _ y _ ready'
    exact finish ready'
  | exit status => exact keeps_exit ready
  | wait addr rounds =>
    apply keeps_bind
    apply keeps_wait ready
    intro _ y _ ready'
    exact finish ready'
  | kill pid =>
    apply keeps_bind
    apply keeps_kill ready.has (by simp) calm_proc
    intro _ y _ has past
    exact finish (ready.past has past)
  | other l => exact keeps_ops ready after

theorem keeps_usertrap {post : Unit → Kernel → Prop} {cause : Cause} {close : Balanced} (ready : Ready p [] {} i s)
    (after : ∀ y : Kernel, terms.inv y → Ready p [] {} i y → post () y) :
    Keeps (.proc p) (usertrap lab cause close) post s := by
  apply keeps_bind
  refine keeps_aside (a := .uservec) ready.has (fun _ _ => trivial) silent_uservec fun _ x inv has past => ?_
  apply keeps_bind
  apply keeps_myproc has
  intro x₁ inv₁ has₁ past₁
  have ready₁ := ready.past has₁ (past.trans past₁)
  cases cause with
  | syscall k =>
    apply keeps_bind
    apply keeps_exitIfKilled ready₁
    intro x₂ _ ready₂
    apply keeps_bind
    apply keeps_intrOn ready₂.has
    intro x₃ _ has₃ past₃
    apply keeps_bind
    apply keeps_syscall (ready₂.past has₃ past₃)
    intro x₄ _ ready₄
    apply keeps_bind
    apply keeps_exitIfKilled ready₄
    intro x₅ _ ready₅
    exact keeps_usertrapret ready₅ after
  | device devintr timer =>
    apply keeps_bind
    apply keeps_signals ready₁.has calm_proc
    intro x₂ _ has₂ past₂
    apply keeps_bind
    apply keeps_exitIfKilled (ready₁.past has₂ past₂)
    intro x₃ _ ready₃
    split
    case isTrue =>
      apply keeps_bind
      apply keeps_yield ready₃.has ready₃.running
      intro x₄ _ has₄ _ past₄
      exact keeps_usertrapret (ready₃.past has₄ past₄) after
    case isFalse => exact keeps_usertrapret ready₃ after
  | fault =>
    apply keeps_bind
    refine keeps_silent (a := .setKilled p none) ready₁.has (silent_of fun _ _ => ⟨_, _, rfl, rfl, rfl⟩) ?_
      fun _ x₂ _ has₂ past₂ => ?_
    · intro x _ past c here _
      exact ⟨here, (past.own p rfl ready₁.alive).1⟩
    apply keeps_bind
    apply keeps_exitIfKilled (ready₁.past has₂ past₂)
    intro x₃ _ ready₃
    exact keeps_usertrapret ready₃ after

/-! ### The scheduler -/

/-- An action of a scheduler that is back on its CPU. -/
theorem keeps_away {a : Act} {post : Res a → Kernel → Prop} (away : Away c p s.toTable) (ok : ∀ d x, Allowed d a x)
    (silent : Silent a) (after : ∀ r (y : Kernel), terms.inv y → Away c p y.toTable → post r y) :
    Keeps (.sched c) (act a) post s := by
  apply keeps_step
  intro x inv frame d here
  refine ⟨ok d x.toTable, fun r x' ran => ?_⟩
  obtain ⟨same, sie⟩ := silent x d r x' ran
  refine ⟨⟨by rw [same]; exact inv.1, fun e on => ?_⟩, fun u _ => by rw [same]; exact .refl, fun y inv' frame' => ?_⟩
  · rw [same]
    exact inv.2 e (sie e on)
  · rw [same] at frame'
    exact after r y inv' ((away.frame frame).frame frame')

theorem idle_proc {s : Table} (inv : s.Inv) (has : s.Has (.sched c) []) : (s.cpu c).proc = none :=
  calm_nil inv has c rfl

theorem keeps_schedulerOne {post : Option Unit → Kernel → Prop} (inv : terms.inv s) (has : s.Has (.sched c) [])
    (after : ∀ y : Kernel, terms.inv y → y.Has (.sched c) [] → post none y) :
    Keeps (.sched c) (schedulerOne lab p) post s := by
  have idle := idle_proc inv.1 has
  -- both ways to the end of the loop release the lock of a settled process
  have finish {x : Kernel} (has : x.Has (.sched c) [.proc p]) (idle : (x.cpu c).proc = none) (settled : x.Settled p) :
      Keeps (.sched c) (do release (.proc p); pure none) post x := by
    apply keeps_bind
    apply keeps_release_any has (by simp)
    · rintro _ ⟨⟩
      exact idle
    · rintro _ ⟨⟩
      exact settled
    intro y _ has' _
    rw [List.erase_cons_head] at has'
    exact keeps_pure has' fun z inv' has'' _ => after z inv' has''
  apply keeps_bind
  apply keeps_acquire has (by simp)
  intro x _ has₁ past₁ settled
  have settled := settled p rfl
  have idle₁ := (past₁.proc c rfl).trans idle
  apply keeps_bind
  apply keeps_look_locked has₁ (by simp)
  intro x₂ _ has₂ past₂ same₂
  have settled₂ := past₂.settled (by simp) settled
  have idle₂ := (past₂.proc c rfl).trans idle₁
  split
  case isFalse => exact finish has₂ idle₂ settled₂
  case isTrue runnable =>
    rw [← same₂] at runnable
    have alone : ∀ d, (x₂.cpu d).proc ≠ some p := by
      intro d there
      have running := settled₂.running.mpr ⟨d, there⟩
      simp [runnable] at running
    apply keeps_bind
    apply keeps_set_alive has₂ (by simp) rfl (by simp)
    · exact ⟨by simp [runnable], by simp [runnable]⟩
    · simp [Field.write]
    · simp [Field.write]
    · rfl
    · rfl
    · simp [runnable]
    · simp [Field.write]
    intro x₃ _ has₃ _ wrote
    apply keeps_bind
    apply keeps_setProc has₃ ((wrote.current c rfl).trans idle₂) fun d there => alone d ((wrote.cpus d).mp there)
    intro x₄ _ has₄ current same₄
    have running : (x₄.proc p).state = .RUNNING := by rw [same₄, wrote.proc]; rfl
    cases lab with
    | two =>
      apply keeps_bind
      apply keeps_swtchTo has₄ current running
      intro x₅ _ away
      apply keeps_bind
      apply keeps_setProc_none away
      intro x₆ _ has₆ idle₆ settled₆
      exact finish has₆ idle₆ settled₆
    | four =>
      apply keeps_bind
      refine keeps_aside (a := .pvminithart p) has₄ (fun _ _ => trivial) silent_pvminithart
        fun _ x₅ _ has₅ past₅ => ?_
      apply keeps_bind
      apply keeps_swtchTo has₅ ((past₅.proc c rfl).trans current) (by rw [(past₅.same p (by simp)).1]; exact running)
      intro x₆ _ away
      apply keeps_bind
      refine keeps_away (a := .kvminithart) away (fun _ _ => trivial) silent_kvminithart fun _ x₇ _ away₇ => ?_
      apply keeps_bind
      apply keeps_setProc_none away₇
      intro x₈ _ has₈ idle₈ settled₈
      exact finish has₈ idle₈ settled₈

theorem keeps_scheduler {post : Unit → Kernel → Prop} (has : s.Has (.sched c) [])
    (after : ∀ y : Kernel, terms.inv y → y.Has (.sched c) [] → post () y) :
    Keeps (.sched c) (scheduler lab) post s := by
  apply keeps_bind
  apply keeps_intrOn has
  intro x _ has₁ _
  apply keeps_bind
  refine keeps_scan (fun _ x => x.Has (.sched c) []) ?_ ?_ ?_ has₁
  · intro _ x y has₂ frame
    exact (frame.on [] has₂).1
  · intro p _ x has₂ inv
    exact keeps_schedulerOne inv has₂ fun y _ has₃ => has₃
  · intro y has₂ _
    exact keeps_pure has₂ fun z inv has₃ _ => after z inv has₃

theorem keeps_main {post : Unit → Kernel → Prop} {mem : Memory} (inv : terms.inv s) (has : s.Has (.sched c) [])
    (first : s.initproc = none) (after : ∀ y : Kernel, terms.inv y → y.Has (.sched c) [] → post () y) :
    Keeps (.sched c) (main lab mem c) post s := by
  have finish {x : Kernel} (has : x.Has (.sched c) []) : Keeps (.sched c) (act (.setProc none)) post x := by
    apply keeps_quiet has
    intro y inv _ d here owns
    refine ⟨trivial, fun r y' ran => ?_⟩
    obtain ⟨rfl, -⟩ := runs_sched.mp here
    have idle := inv.1.idle d here owns.noff
    cases ran
    refine ⟨?_, inv.2, fun z inv' has' _ => after z inv' has'⟩
    have cpu : { y.cpu d with proc := none } = y.cpu d := by rw [← idle]
    change ({ y.toTable with cpu := Function.update y.cpu d { y.cpu d with proc := none } } : Table) = y.toTable
    rw [cpu, Function.update_eq_self]
  unfold main
  split
  case isTrue zero =>
    subst zero
    apply keeps_bind
    apply keeps_userinit has first (idle_proc inv.1 has)
    intro x _ has₁ _
    apply keeps_bind
    exact keeps_aside (a := .setStarted) has₁ (fun _ _ => trivial) (silent_of fun _ _ => ⟨_, _, rfl, rfl, rfl⟩)
      fun _ x₂ _ has₂ _ => finish has₂
  case isFalse =>
    apply keeps_bind
    exact keeps_aside (a := .started) has (fun _ _ => trivial) silent_started fun _ x₂ _ has₂ _ => finish has₂

/-! ### Runs -/

/-- A scheduler between two turns, and a process in user mode. -/
def idle : Thread → Kernel → Prop
  | .sched c, s => s.Has (.sched c) []
  | .proc p, s => ∃ i, Ready p [] {} i s

theorem has_of_interrupts {k : Call} (inv : terms.inv s) (h : interrupts t s k = true) : s.Has t [] := by
  unfold interrupts at h
  split at h
  case h_2 => cases h
  case h_1 =>
    split at h
    case h_2 => cases h
    case h_1 c found =>
      rw [Bool.and_eq_true] at h
      exact has_nil inv.1 (runs_of_on found) (inv.2 c h.1)

theorem exec_cases {a : Act} {r : Res a} {s' : Kernel} (ran : exec t a s = some (r, s')) :
    ∃ c, s.runs c = t ∧ s.perform c a = some (r, s') := by
  unfold exec at ran
  cases found : s.on t with
  | none =>
    rw [found] at ran
    cases ran
  | some c =>
    rw [found] at ran
    exact ⟨c, runs_of_on found, ran⟩

theorem honours (lab : Lab) (fsinit : Balanced) : (machine lab fsinit).Honours terms idle where
  calls t s k inv ready offered := by
    cases t with
    | sched c =>
      cases k with
      | scheduler => exact keeps_scheduler ready fun y _ has => has
      | kerneltrap => cases offered
      | usertrap => cases offered
    | proc p =>
      cases k with
      | scheduler => cases offered
      | kerneltrap => cases offered
      | usertrap cause close =>
        obtain ⟨i, ready⟩ := ready
        exact keeps_usertrap ready fun y _ ready' => ⟨i, ready'⟩
  traps t s k inv allowed := by
    have has := has_of_interrupts inv allowed
    cases k with
    | scheduler => cases allowed
    | usertrap => cases allowed
    | kerneltrap devintr timer => exact keeps_kerneltrap inv has fun y _ frame => frame
  starts t a s r s' u code inv ok ran inv' begun := by
    cases a with
    | context p =>
      cases begun
      change exec t (.context p) s = some (r, s') at ran
      obtain ⟨c, here, ran⟩ := exec_cases ran
      obtain ⟨-, -, off⟩ := ok c here
      cases ran
      exact keeps_forkret (.inl off) (Function.update_self ..) fun y i _ ready => ⟨i, ready⟩
    | _ => cases begun

theorem boot_inv : terms.inv ({} : Kernel) where
  left :=
    { thread := fun _ _ there => by cases there
      unique := fun _ _ _ there => by cases there
      held := fun _ _ owner => by cases owner
      idle := fun _ _ _ => rfl
      settled := fun _ _ =>
        { running := ⟨fun state => (by cases state), fun ⟨_, found⟩ => (by cases found)⟩
          unused := fun _ => rfl
          blank := fun _ => rfl }
      tree :=
        { before := fun _ _ => ⟨rfl, rfl⟩
          init := fun _ found => by cases found
          parent := fun _ used => absurd rfl used
          building := fun _ _ _ parent => by cases parent
          births := fun _ => Nat.zero_lt_one
          born := fun _ used => absurd rfl used
          distinct := fun _ _ _ pos => absurd pos (lt_irrefl 0)
          eldest := fun _ _ found => by cases found
          asleep := fun _ _ _ state => by cases state } }
  right := fun _ on => by cases on

theorem boot_kept (lab : Lab) (fsinit : Balanced) (mem : Memory) :
    (boot lab mem).Kept terms (machine lab fsinit).exec idle := by
  refine ⟨boot_inv, fun t => ?_⟩
  cases t with
  | sched c =>
    have has : ({} : Kernel).Has (.sched c) [] := has_nil boot_inv.1 rfl rfl
    exact keeps_main boot_inv has rfl fun y _ has' => has'
  | proc p => exact keeps_cut

theorem reachable_kept {fsinit : Balanced} {mem : Memory} {conf : Conf Thread Act Res Kernel}
    (h : Reachable lab fsinit mem conf) : conf.Kept terms (machine lab fsinit).exec idle :=
  (boot_kept lab fsinit mem).runs (honours lab fsinit) h

/-- Whatever every allowed action keeps, every run keeps. -/
theorem invariant_of_allowed {fsinit : Balanced} {mem : Memory} {conf : Conf Thread Act Res Kernel}
    {P : Thread → Act → Kernel → Prop} {J : Kernel → Prop} (start : J {})
    (step : ∀ c a s r s', terms.inv s → Allowed c a s.toTable → P (s.runs c) a s → s.perform c a = some (r, s') →
      terms.inv s' → J s → J s')
    (h : (machine lab fsinit).Along (Machine.Meets P) (boot lab mem) conf) : J conf.shared := by
  refine (boot_kept lab fsinit mem).along (honours lab fsinit) start (fun t a s r s' inv ok met ran inv' now => ?_) h
  obtain ⟨c, here, ran⟩ := exec_cases ran
  rw [← here] at met
  exact step c a s r s' inv (ok c here) met ran inv' now

theorem reachable_inv {fsinit : Balanced} {mem : Memory} {conf : Conf Thread Act Res Kernel}
    (h : Reachable lab fsinit mem conf) : conf.shared.Inv := (reachable_kept h).1.1

end Xv6Labs.Proc
