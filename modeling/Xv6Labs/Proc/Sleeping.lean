import Xv6Labs.Proc.Rules

/-!
# Code that sleeps and wakes

`sched`, `sleep`, `wakeup` and sleep-locks keep the terms, if they are called with the locks that their comments in
the source ask for, and return with what the caller needs. `sched` is called with one lock, so none of its panics is
reached.
-/

namespace Xv6Labs.Proc

open Threads

variable {α β : Type} {t : Thread} {L : List Lock} {s : Kernel} {c : Core} {p q : Slot}

theorem keeps_check {post : Unit → Kernel → Prop} {m : Msg} (has : s.Has t L)
    (after : ∀ y : Kernel, terms.inv y → y.Has t L → Past t L s.toTable y.toTable → post () y) :
    Keeps t (check false m) post s := keeps_pure has after

/-- A panic that the terms allow. -/
theorem keeps_panic {post : α → Kernel → Prop} {m : Msg} (ok : ∀ c x, Allowed c (.panic m) x) :
    Keeps t (panic m) post s := by
  intro x _ _
  exact ⟨fun c _ => ok c x.toTable, fun r => nomatch r⟩

theorem keeps_cut {post : α → Kernel → Prop} : Keeps t cut post s := by
  intro x _ _
  exact ⟨fun _ _ => trivial, fun r => nomatch r⟩

/-- The loop over the table: `I` holds before each slot. -/
theorem keeps_scan {body : Slot → Code (Option α)} {post : Option α → Kernel → Prop} {l : List Slot}
    (I : List Slot → Kernel → Prop) (stable : ∀ l s s', I l s → terms.frame t s s' → I l s')
    (step : ∀ p rest s, I (p :: rest) s → terms.inv s → Keeps t (body p) (fun r s' =>
      match r with
      | none => I rest s'
      | some a => ∀ y, terms.frame t s' y → terms.inv y → post (some a) y) s)
    (done : ∀ s, I [] s → terms.inv s → post none s) (start : I l s) : Keeps t (scan body l) post s := by
  induction l generalizing s with
  | nil =>
    apply keeps_ret
    intro y frame inv
    exact done y (stable _ _ _ start frame.2) inv.2
  | cons p rest ih =>
    apply keeps_intro
    intro x frame inv
    apply keeps_bind
    apply keeps_mono (step p rest x (stable _ _ _ start frame.2) inv.2)
    intro r y _ result
    cases r with
    | none => exact ih result
    | some a =>
      apply keeps_ret
      intro z frame' inv'
      exact result z frame'.2 inv'.2

/-- The loop over the table when nothing is to be remembered from one slot to the next. -/
theorem keeps_scan_past {body : Slot → Code (Option α)} {post : Option α → Kernel → Prop} {l : List Slot}
    (has : s.Has t L)
    (step : ∀ p x, terms.inv x → x.Has t L → Past t L s.toTable x.toTable → Keeps t (body p) (fun r y =>
      match r with
      | none => y.Has t L ∧ Past t L s.toTable y.toTable
      | some a => ∀ z, terms.frame t y z → terms.inv z → post (some a) z) x)
    (done : ∀ y, terms.inv y → y.Has t L → Past t L s.toTable y.toTable → post none y) :
    Keeps t (scan body l) post s := by
  refine keeps_scan (fun _ x => x.Has t L ∧ Past t L s.toTable x.toTable) ?_ ?_ ?_ ⟨has, .refl⟩
  · rintro _ x y ⟨has', past⟩ frame
    obtain ⟨has'', past'⟩ := frame.on L has'
    exact ⟨has'', past.trans past'⟩
  · rintro p rest x ⟨has', past⟩ inv
    exact step p x inv has' past
  · rintro y ⟨has', past⟩ inv
    exact done y inv has' past

theorem Wrote.past {s y : Table} {v : Process} {K : List Lock} (wrote : Wrote t K q v s y) (since : Since t K s y)
    (fewer : ∀ lk, lk ∈ L → lk ∈ K) (fresh : .proc q ∉ L)
    (running : t = .proc q → (s.proc q).state = .RUNNING → v.state = .RUNNING) : Past t L s y where
  toSince := since.mono fewer
  same k held := by
    apply wrote.same k _ (fewer _ held)
    rintro rfl
    exact fresh held
  running p me state := by
    by_cases same : p = q
    · subst same
      rw [wrote.proc]
      exact running me state
    · exact wrote.running p me same state
  proc := wrote.current

theorem Has.fresh {s : Table} {lk : Lock} (has : s.Has t (lk :: L)) : lk ∉ L := by
  obtain ⟨c, _, owns⟩ := has
  exact (List.nodup_cons.mp owns.nodup).1

/-- Who is woken stays settled: it was not running, and is not now. -/
theorem Wrote.settled {s y : Table} {v : Process} (wrote : Wrote t L q v s y) (settled : s.Settled q)
    (running : v.state = .RUNNING ↔ (s.proc q).state = .RUNNING) (unused : v.state = .UNUSED → v.parent = none)
    (blank : v.state = .UNUSED → v.birth = 0) : y.Settled q where
  running := by
    rw [wrote.proc, running, settled.running]
    simp only [wrote.cpus]
  unused := by
    rw [wrote.proc]
    exact unused
  blank := by
    rw [wrote.proc]
    exact blank

/-! ### wakeup and sched -/

theorem keeps_wakeupOne {post : Option Unit → Kernel → Prop} {chan : Chan} (has : s.Has t L)
    (clear : ∀ r, .proc r ∉ L) (calm : Calm t s.toTable)
    (after : ∀ y : Kernel, terms.inv y → y.Has t L → Past t L s.toTable y.toTable → post none y) :
    Keeps t (wakeupOne chan q) post s := by
  apply keeps_bind
  apply keeps_acquire has fun _ r _ => clear r
  intro y inv has' past settled
  have settled := settled q rfl
  have fresh := Has.fresh has'
  apply keeps_bind
  apply keeps_look_locked has' (by simp)
  intro z inv' has'' past' same
  have settled' := past'.settled (by simp) settled
  have sofar := past.trans (past'.mono fun _ => List.mem_cons_of_mem _)
  split
  case isTrue asleep =>
    rw [← same] at asleep
    obtain ⟨asleep, -⟩ := asleep
    apply keeps_bind
    apply keeps_set_alive has'' (by simp) rfl (by simp)
    · exact ⟨by simp [asleep], by simp [asleep]⟩
    · simp [Field.write]
    · simp [Field.write]
    · rfl
    · rfl
    · simp [asleep]
    · simp [Field.write]
    · intro x inv₂ has₂ since wrote
      have woken := wrote.past since (fun _ => List.mem_cons_of_mem _) fresh (by simp [asleep])
      apply keeps_bind
      apply keeps_release_any has₂ (by simp) ((calm.past sofar).past woken)
      · rintro _ ⟨⟩
        exact wrote.settled settled' (by simp [Field.write, asleep]) (by simp [Field.write]) (by simp [Field.write])
      · intro w inv₃ has₃ past₃
        rw [List.erase_cons_head] at has₃ past₃
        refine keeps_pure has₃ fun v inv₄ has₄ past₄ => ?_
        exact after v inv₄ has₄ (((sofar.trans woken).trans past₃).trans past₄)
  case isFalse =>
    apply keeps_bind
    apply keeps_release_any has'' (by simp) (calm.past sofar)
    · rintro _ ⟨⟩
      exact settled'
    · intro w inv₃ has₃ past₃
      rw [List.erase_cons_head] at has₃ past₃
      refine keeps_pure has₃ fun v inv₄ has₄ past₄ => ?_
      exact after v inv₄ has₄ ((sofar.trans past₃).trans past₄)

theorem keeps_wakeup {post : Unit → Kernel → Prop} {chan : Chan} (has : s.Has t L) (clear : ∀ r, .proc r ∉ L)
    (calm : Calm t s.toTable)
    (after : ∀ y : Kernel, terms.inv y → y.Has t L → Past t L s.toTable y.toTable → post () y) :
    Keeps t (wakeup chan) post s := by
  apply keeps_bind
  apply keeps_scan_past has
  · intro p x inv has' past
    apply keeps_wakeupOne has' clear (calm.past past)
    intro y inv' has'' past'
    exact ⟨has'', past.trans past'⟩
  · intro y inv has' past
    refine keeps_pure has' fun z inv' has'' past' => ?_
    exact after z inv' has'' (past.trans past')

theorem Past.wrote {s y : Table} (past : Past t L s y) (locked : .proc q ∈ L) : Wrote t L q (s.proc q) s y where
  init := past.init
  births := past.births
  proc := (past.same q locked).1
  cpus := (past.same q locked).2
  same k _ := past.same k
  running p me _ := past.running p me
  current := past.proc
  notes p me _ := past.notes p me

/-- Afterwards `q` does not sleep in `wait`. -/
theorem keeps_wakeup1 {post : Unit → Kernel → Prop} (has : s.Has t L) (locked : .proc q ∈ L) (settled : s.Settled q)
    (after : ∀ (y : Kernel) v, terms.inv y → y.Has t L → Since t L s.toTable y.toTable →
      Wrote t L q v s.toTable y.toTable → (v = s.proc q ∨
        (s.proc q).state = .SLEEPING ∧ v = { s.proc q with state := .RUNNABLE }) →
      ¬(v.state = .SLEEPING ∧ v.chan = some (.proc q)) → y.Settled q → post () y) :
    Keeps t (wakeup1 q) post s := by
  apply keeps_bind
  apply keeps_holding has locked
  intro y inv has' past
  apply keeps_bind
  refine keeps_check has' fun z inv' has'' past' => ?_
  apply keeps_bind
  apply keeps_look_locked has'' locked
  intro x inv₂ has₂ past₂ same
  have sofar := (past.trans past').trans past₂
  have same' := (sofar.same q locked).1
  have settled' := sofar.settled locked settled
  rw [← same, same']
  split
  case isTrue asleep =>
    obtain ⟨chan, state⟩ := asleep
    have state' : (x.proc q).state = .SLEEPING := by rwa [same']
    apply keeps_set_alive has₂ locked rfl (by simp)
    · exact ⟨by simp [state'], by simp [state']⟩
    · simp [Field.write]
    · simp [Field.write]
    · rfl
    · rfl
    · simp [state']
    · simp [Field.write]
    · intro w inv₃ has₃ since wrote
      rw [same'] at wrote
      refine after w _ inv₃ has₃ (sofar.toSince.trans since) ⟨?_, ?_, wrote.proc, ?_, ?_, ?_, ?_, ?_⟩
        (.inr ⟨state, rfl⟩) (by simp [Field.write])
          (wrote.settled settled' ?_ (by simp [Field.write]) (by simp [Field.write]))
      · exact fun i found => wrote.init i (sofar.init i found)
      · exact sofar.births.trans wrote.births
      · exact fun d => (wrote.cpus d).trans ((sofar.same q locked).2 d)
      · intro k ne held
        obtain ⟨same₁, iff₁⟩ := sofar.same k held
        obtain ⟨same₂, iff₂⟩ := wrote.same k ne held
        exact ⟨same₂.trans same₁, fun d => (iff₂ d).trans (iff₁ d)⟩
      · exact fun p me ne running => wrote.running p me ne (sofar.running p me running)
      · exact fun d me => (wrote.current d me).trans (sofar.proc d me)
      · exact fun p me _ => (sofar.toSince.trans since).notes p me
      · simp [Field.write, state']
  case isFalse awake =>
    refine keeps_pure has₂ fun w inv₃ has₃ past₃ => ?_
    have whole := sofar.trans past₃
    refine after w (s.proc q) inv₃ has₃ whole.toSince (whole.wrote locked) (.inl rfl) ?_ (past₃.settled locked settled')
    rintro ⟨state, chan⟩
    exact awake ⟨chan, state⟩

theorem keeps_sched {post : Unit → Kernel → Prop} (has : s.Has (.proc p) [.proc p])
    (stopped : (s.proc p).state ≠ .RUNNING) (used : (s.proc p).state ≠ .UNUSED)
    (after : ∀ y : Kernel, terms.inv y → y.Has (.proc p) [.proc p] → (y.proc p).state = .RUNNING →
      Since (.proc p) [] s.toTable y.toTable → post () y) : Keeps (.proc p) sched post s := by
  apply keeps_bind
  apply keeps_myproc has
  intro x inv has past
  apply keeps_bind
  apply keeps_holding has (by simp)
  intro x₁ inv₁ has₁ past₁
  apply keeps_bind
  refine keeps_check has₁ fun x₂ inv₂ has₂ past₂ => ?_
  apply keeps_bind
  apply keeps_noff has₂
  intro x₃ inv₃ has₃ past₃
  apply keeps_bind
  refine keeps_check has₃ fun x₄ inv₄ has₄ past₄ => ?_
  apply keeps_bind
  apply keeps_look_locked has₄ (by simp)
  intro x₅ inv₅ has₅ past₅ same₅
  have sofar := ((((past.trans past₁).trans past₂).trans past₃).trans past₄).trans past₅
  have same := (sofar.same p (by simp)).1
  rw [← same₅, same, decide_eq_false stopped]
  apply keeps_bind
  refine keeps_check has₅ fun x₆ inv₆ has₆ past₆ => ?_
  apply keeps_bind
  apply keeps_intrGet has₆ (by simp)
  intro x₇ inv₇ has₇ past₇
  apply keeps_bind
  refine keeps_check has₇ fun x₈ inv₈ has₈ past₈ => ?_
  apply keeps_bind
  refine keeps_aside (a := .intena) has₈ (fun _ _ => trivial) (silent_of fun _ _ => ⟨_, _, rfl, rfl, rfl⟩)
    fun b x₉ inv₉ has₉ past₉ => ?_
  have whole := (((sofar.trans past₆).trans past₇).trans past₈).trans past₉
  have same' := (whole.same p (by simp)).1
  rw [← same'] at stopped used
  apply keeps_bind
  apply keeps_swtchBack has₉ stopped used
  intro y invY out since
  refine keeps_back (a := .setIntena b) out (fun _ _ => trivial) ?_ ?_
  · intro x c r x' ran
    cases ran
    refine ⟨rfl, fun d on => ?_⟩
    by_cases here : d = c
    · subst here
      simpa using on
    · rwa [Kernel.putHart_of_ne _ here] at on
  · intro _ z _ _ _ _ _ _ invZ hasZ running since'
    exact after z invZ hasZ running ((whole.toSince.mono (by simp)).trans (since.trans since'))

/-- What a process keeps when it gives up the CPU without a lock. -/
theorem past_of_since {s y : Table} (since : Since (.proc p) [] s y) (running : (y.proc p).state = .RUNNING) :
    Past (.proc p) [] s y where
  toSince := since
  same _ held := by simp at held
  running q me _ := by
    cases me
    exact running
  proc _ me := by cases me

theorem settled_running {s : Table} (inv : s.Inv) (has : s.Has (.proc p) L) (running : (s.proc p).state = .RUNNING) :
    s.Settled p := by
  obtain ⟨c, here, _⟩ := has
  exact ⟨⟨fun _ => ⟨c, inv.thread c p here⟩, fun _ => running⟩, by simp [running], by simp [running]⟩

theorem keeps_yield {post : Unit → Kernel → Prop} (has : s.Has (.proc p) []) (running : (s.proc p).state = .RUNNING)
    (after : ∀ y : Kernel, terms.inv y → y.Has (.proc p) [] → (y.proc p).state = .RUNNING →
      Past (.proc p) [] s.toTable y.toTable → post () y) : Keeps (.proc p) yield post s := by
  apply keeps_bind
  apply keeps_myproc has
  intro x inv has past
  apply keeps_bind
  apply keeps_acquire has (by simp)
  intro x₁ inv₁ has₁ past₁ _
  have sofar := past.trans past₁
  have running₁ := sofar.running p rfl running
  apply keeps_bind
  apply keeps_set_alive has₁ (by simp) rfl (by simp)
  · exact ⟨by simp [running₁], by simp [running₁]⟩
  · simp [Field.write]
  · simp [Field.write]
  · rfl
  · rfl
  · simp
  · simp [Field.write]
  intro x₂ inv₂ has₂ since₂ wrote
  apply keeps_bind
  apply keeps_sched has₂ (by simp [wrote.proc, Field.write]) (by simp [wrote.proc, Field.write])
  intro x₃ inv₃ has₃ running₃ since₃
  apply keeps_release has₃ (by simp)
  · rintro _ ⟨⟩
    exact settled_running inv₃.1 has₃ running₃
  · intro y inv₄ has₄ past₄
    rw [List.erase_cons_head] at has₄ past₄
    have running₄ := past₄.running p rfl running₃
    apply after y inv₄ has₄ running₄
    have since := sofar.toSince.trans ((since₂.mono (by simp)).trans (since₃.trans past₄.toSince))
    exact past_of_since since running₄

/-- Nobody but init sleeps in `wait` while it has a zombie child. -/
theorem keeps_goToSleep {post : Unit → Kernel → Prop} {chan : Chan} (has : s.Has (.proc p) [.proc p])
    (running : (s.proc p).state = .RUNNING)
    (kids : chan = .proc p → s.initproc ≠ some p → ∀ k, (s.proc k).parent = some p → (s.proc k).state ≠ .ZOMBIE)
    (after : ∀ y : Kernel, terms.inv y → y.Has (.proc p) [.proc p] → (y.proc p).state = .RUNNING →
      Since (.proc p) [] s.toTable y.toTable → post () y) : Keeps (.proc p) (goToSleep p chan) post s := by
  apply keeps_bind
  apply keeps_set_alive has (by simp) rfl (by simp)
  · exact ⟨by simp [running], by simp [running]⟩
  · simp [Field.write, running]
  · simp [Field.write, running]
  · rfl
  · rfl
  · simp
  · simp [Field.write, running]
  intro x₁ inv₁ has₁ since₁ wrote₁
  have running₁ : (x₁.proc p).state = .RUNNING := by
    rw [wrote₁.proc]
    exact running
  apply keeps_bind
  apply keeps_set_alive has₁ (by simp) rfl (by simp)
  · exact ⟨by simp [running₁], by simp [running₁]⟩
  · simp [Field.write]
  · simp [Field.write]
  · rfl
  · rfl
  · simp
  · intro _ same
    rw [Field.write, wrote₁.proc] at same
    refine ⟨rfl, fun notInit k child => ?_⟩
    have child' := since₁.nobody p k rfl notInit child
    have notInit' : s.initproc ≠ some p := fun found => notInit (since₁.init p found)
    exact since₁.waiting p k rfl (by simp) notInit child' (kids (Option.some.inj same) notInit' k child')
  intro x₂ inv₂ has₂ since₂ wrote₂
  apply keeps_bind
  apply keeps_sched has₂ (by simp [wrote₂.proc, Field.write]) (by simp [wrote₂.proc, Field.write])
  intro x₃ inv₃ has₃ running₃ since₃
  apply keeps_set_alive has₃ (by simp) rfl (by simp)
  · exact ⟨by simp [running₃], by simp [running₃]⟩
  · simp [Field.write, running₃]
  · simp [Field.write, running₃]
  · rfl
  · rfl
  · simp
  · simp [Field.write]
  intro y inv₄ has₄ since₄ wrote₄
  apply after y inv₄ has₄
  · rw [wrote₄.proc]
    exact running₃
  · have first : Since (.proc p) [] s.toTable x₂.toTable := (since₁.trans since₂).mono (by simp)
    exact (first.trans since₃).trans (since₄.mono (by simp))

theorem keeps_intend {post : Unit → Kernel → Prop} {chan : Chan} (has : s.Has t L)
    (after : ∀ y : Kernel, terms.inv y → y.Has t L → Past t L s.toTable y.toTable → post () y) :
    Keeps t (act (.intend p chan)) post s := by
  refine keeps_aside has (fun _ _ => trivial) (silent_of fun _ _ => ⟨_, _, rfl, rfl, rfl⟩)
    fun _ y inv has past => after y inv has past

/-- `sleep` of a process that holds one lock, and not its own. -/
theorem keeps_sleep {post : Unit → Kernel → Prop} {chan : Chan} {lk : Lock} (has : s.Has (.proc p) [lk])
    (running : (s.proc p).state = .RUNNING) (other : ∀ q, lk ≠ .proc q) (notWait : ∀ q, chan ≠ .proc q)
    (after : ∀ y : Kernel, terms.inv y → y.Has (.proc p) [lk] → (y.proc p).state = .RUNNING →
      Past (.proc p) [] s.toTable y.toTable → post () y) : Keeps (.proc p) (sleep chan lk) post s := by
  apply keeps_bind
  apply keeps_myproc has
  intro x inv has past
  apply keeps_bind
  apply keeps_intend has
  intro x₁ inv₁ has₁ past₁
  rw [if_pos (other p)]
  apply keeps_bind
  apply keeps_acquire has₁ fun _ r _ held => other r (List.mem_singleton.mp held).symm
  intro x₂ inv₂ has₂ past₂ _
  have sofar := (past.trans past₁).trans past₂
  have running₂ := sofar.running p rfl running
  apply keeps_bind
  apply keeps_release has₂ (by simp) fun q same => absurd same (other q)
  intro x₃ inv₃ has₃ past₃
  rw [List.erase_cons_tail (by simpa using (other p).symm), List.erase_cons_head] at has₃ past₃
  apply keeps_bind
  apply keeps_goToSleep has₃ (past₃.running p rfl running₂) fun same => absurd same (notWait p)
  intro x₄ inv₄ has₄ running₄ since₄
  apply keeps_bind
  apply keeps_release has₄ (by simp)
  · rintro _ ⟨⟩
    exact settled_running inv₄.1 has₄ running₄
  intro x₅ inv₅ has₅ past₅
  rw [List.erase_cons_head] at has₅ past₅
  apply keeps_acquire has₅ (by simp)
  intro y inv₆ has₆ past₆ _
  have last := past₅.trans past₆
  have running₆ := last.running p rfl running₄
  apply after y inv₆ has₆ running₆
  have first : Since (.proc p) [] s.toTable x₃.toTable :=
    (sofar.toSince.mono (by simp)).trans (past₃.toSince.mono (by simp))
  exact past_of_since ((first.trans since₄).trans last.toSince) running₆

/-- The `sleep` of `wait`. -/
theorem keeps_sleep_wait {post : Unit → Kernel → Prop} (has : s.Has (.proc p) [.proc p])
    (running : (s.proc p).state = .RUNNING)
    (kids : s.initproc ≠ some p → ∀ k, (s.proc k).parent = some p → (s.proc k).state ≠ .ZOMBIE)
    (after : ∀ y : Kernel, terms.inv y → y.Has (.proc p) [.proc p] → (y.proc p).state = .RUNNING →
      Since (.proc p) [] s.toTable y.toTable → post () y) :
    Keeps (.proc p) (sleep (.proc p) (.proc p)) post s := by
  apply keeps_bind
  apply keeps_myproc has
  intro x inv has past
  apply keeps_bind
  apply keeps_intend has
  intro x₁ inv₁ has₁ past₁
  have sofar := past.trans past₁
  rw [if_neg (by simp)]
  apply keeps_goToSleep has₁ (sofar.running p rfl running)
  · intro _ notInit k child
    have notInit' : s.initproc ≠ some p := fun found => notInit (sofar.init p found)
    have child' := sofar.nobody p k rfl notInit child
    exact sofar.waiting p k rfl (by simp) notInit child' (kids notInit' k child')
  · intro y inv₂ has₂ running₂ since₂
    exact after y inv₂ has₂ running₂ ((sofar.toSince.mono (by simp)).trans since₂)

/-! ### Sleep-locks and other code that sleeps -/

theorem keeps_locked {post : Bool → Kernel → Prop} {n : ℕ} (has : s.Has t L)
    (after : ∀ b (y : Kernel), terms.inv y → y.Has t L → Past t L s.toTable y.toTable → post b y) :
    Keeps t (act (.locked n)) post s := by
  refine keeps_aside has (fun _ _ => trivial) (silent_of fun _ _ => ⟨_, _, rfl, rfl, rfl⟩)
    after

theorem keeps_setLocked {post : Unit → Kernel → Prop} {n : ℕ} {b : Bool} (has : s.Has t L)
    (after : ∀ y : Kernel, terms.inv y → y.Has t L → Past t L s.toTable y.toTable → post () y) :
    Keeps t (act (.setLocked n b)) post s := by
  refine keeps_aside has (fun _ _ => trivial) ?_ fun _ y inv has past => after y inv has past
  intro x c r x' ran
  cases ran
  exact ⟨x.within_toTable c n b, fun d on => by rwa [← x.within_hart c n b]⟩

theorem keeps_setLockPid {post : Unit → Kernel → Prop} {n : ℕ} {pid : Int} (has : s.Has t L)
    (after : ∀ y : Kernel, terms.inv y → y.Has t L → Past t L s.toTable y.toTable → post () y) :
    Keeps t (act (.setLockPid n pid)) post s := by
  refine keeps_aside has (fun _ _ => trivial) (silent_of fun _ _ => ⟨_, _, rfl, rfl, rfl⟩)
    fun _ y inv has past => after y inv has past

variable {m : Notes} {i : Slot}

/-- `sleep` of a process that holds one lock, and not its own. -/
theorem keeps_sleep_ready {post : Unit → Kernel → Prop} {chan : Chan} {lk : Lock} (ready : Ready p [lk] m i s)
    (other : ∀ q, lk ≠ .proc q) (notWait : ∀ q, chan ≠ .proc q)
    (after : ∀ y : Kernel, terms.inv y → Ready p [lk] m i y → post () y) : Keeps (.proc p) (sleep chan lk) post s := by
  apply keeps_sleep ready.has ready.running other notWait
  intro y inv has _ past
  exact after y inv (ready.past has past)

theorem keeps_acquiresleepLoop {post : Unit → Kernel → Prop} {n rounds : ℕ} (ready : Ready p [.sleeplock n] m i s)
    (after : ∀ y : Kernel, terms.inv y → Ready p [] m i y → post () y) :
    Keeps (.proc p) (acquiresleepLoop n rounds) post s := by
  induction rounds generalizing s with
  | zero => exact keeps_cut
  | succ rounds ih =>
    apply keeps_bind
    apply keeps_locked ready.has
    intro b x inv has past
    have ready₁ := ready.past has past
    split
    case isTrue =>
      apply keeps_bind
      apply keeps_sleep_ready ready₁ (by simp) (by simp)
      intro y _ ready₂
      exact ih ready₂
    case isFalse =>
      apply keeps_bind
      apply keeps_setLocked has
      intro x₁ inv₁ has₁ past₁
      apply keeps_bind
      apply keeps_myproc has₁
      intro x₂ inv₂ has₂ past₂
      apply keeps_bind
      apply keeps_look has₂
      intro _ x₃ _ inv₃ has₃ past₃ past₃'
      apply keeps_bind
      apply keeps_setLockPid has₃
      intro x₄ inv₄ has₄ past₄
      have ready₄ := ready₁.past has₄ ((((past₁.trans past₂).trans past₃).trans past₃').trans past₄)
      apply keeps_release has₄ (by simp) (by rintro _ ⟨⟩)
      intro y inv₅ has₅ past₅
      rw [List.erase_cons_head] at has₅ past₅
      exact after y inv₅ (ready₄.past has₅ past₅)

theorem keeps_acquiresleep {post : Unit → Kernel → Prop} {n rounds : ℕ} (ready : Ready p [] m i s)
    (after : ∀ y : Kernel, terms.inv y → Ready p [] m i y → post () y) :
    Keeps (.proc p) (acquiresleep n rounds) post s := by
  apply keeps_bind
  apply keeps_acquire ready.has (by simp)
  intro x inv has past _
  exact keeps_acquiresleepLoop (ready.past has past) after

theorem keeps_releasesleep {post : Unit → Kernel → Prop} {n : ℕ} (ready : Ready p [] m i s)
    (after : ∀ y : Kernel, terms.inv y → Ready p [] m i y → post () y) : Keeps (.proc p) (releasesleep n) post s := by
  apply keeps_bind
  apply keeps_acquire ready.has (by simp)
  intro x inv has past _
  have ready₁ := ready.past has past
  apply keeps_bind
  apply keeps_setLocked has
  intro x₁ inv₁ has₁ past₁
  apply keeps_bind
  apply keeps_setLockPid has₁
  intro x₂ inv₂ has₂ past₂
  apply keeps_bind
  apply keeps_wakeup has₂ (by simp) calm_proc
  intro x₃ inv₃ has₃ past₃
  have ready₃ := ready₁.past has₃ ((past₁.trans past₂).trans past₃)
  apply keeps_release has₃ (by simp) (by rintro _ ⟨⟩)
  intro y inv₄ has₄ past₄
  rw [List.erase_cons_head] at has₄ past₄
  exact after y inv₄ (ready₃.past has₄ past₄)

theorem keeps_holdingsleep {post : Bool → Kernel → Prop} {n : ℕ} (ready : Ready p [] m i s)
    (after : ∀ b (y : Kernel), terms.inv y → Ready p [] m i y → post b y) :
    Keeps (.proc p) (holdingsleep n) post s := by
  apply keeps_bind
  apply keeps_acquire ready.has (by simp)
  intro x inv has past _
  have ready₁ := ready.past has past
  apply keeps_bind
  apply keeps_locked has
  intro b x₁ inv₁ has₁ past₁
  apply keeps_bind
  refine keeps_aside (a := .lockPid n) has₁ (fun _ _ => trivial) (silent_of fun _ _ => ⟨_, _, rfl, rfl, rfl⟩)
    fun pid x₂ inv₂ has₂ past₂ => ?_
  apply keeps_bind
  apply keeps_myproc has₂
  intro x₃ inv₃ has₃ past₃
  apply keeps_bind
  apply keeps_look has₃
  intro _ x₄ _ inv₄ has₄ past₄ past₄'
  have ready₄ := ready₁.past has₄ ((((past₁.trans past₂).trans past₃).trans past₄).trans past₄')
  apply keeps_bind
  apply keeps_release has₄ (by simp) (by rintro _ ⟨⟩)
  intro x₅ inv₅ has₅ past₅
  rw [List.erase_cons_head] at has₅ past₅
  refine keeps_pure has₅ fun y inv₆ has₆ past₆ => ?_
  exact after _ y inv₆ (ready₄.past has₆ (past₅.trans past₆))

theorem keeps_sleeps {post : Unit → Kernel → Prop} {chan lk rounds : ℕ} (ready : Ready p [.other lk] m i s)
    (after : ∀ y : Kernel, terms.inv y → Ready p [.other lk] m i y → post () y) :
    Keeps (.proc p) (sleeps chan lk rounds) post s := by
  induction rounds generalizing s with
  | zero =>
    refine keeps_pure ready.has fun y inv has past => ?_
    exact after y inv (ready.past has past)
  | succ rounds ih =>
    apply keeps_bind
    apply keeps_sleep_ready ready (by simp) (by simp)
    intro y _ ready₁
    exact ih ready₁

theorem keeps_signal {post : Unit → Kernel → Prop} {chan lk : ℕ} (has : s.Has t []) (calm : Calm t s.toTable)
    (after : ∀ y : Kernel, terms.inv y → y.Has t [] → Past t [] s.toTable y.toTable → post () y) :
    Keeps t (Op.signal chan lk).code post s := by
  apply keeps_bind
  apply keeps_acquire has (by simp)
  intro x inv has past _
  apply keeps_bind
  apply keeps_wakeup has (by simp) (calm.past past)
  intro x₁ inv₁ has₁ past₁
  have sofar := past.trans (past₁.mono fun _ => List.mem_cons_of_mem _)
  apply keeps_release_any has₁ (by simp) (calm.past sofar) (by rintro _ ⟨⟩)
  intro y inv₂ has₂ past₂
  rw [List.erase_cons_head] at has₂ past₂
  exact after y inv₂ has₂ (sofar.trans past₂)

theorem keeps_op {post : Unit → Kernel → Prop} {op : Op} (ready : Ready p [] m i s)
    (after : ∀ y : Kernel, terms.inv y → Ready p [] m i y → post () y) : Keeps (.proc p) op.code post s := by
  cases op with
  | pause chan lk rounds =>
    apply keeps_bind
    apply keeps_acquire ready.has (by simp)
    intro x inv has past _
    apply keeps_bind
    apply keeps_sleeps (ready.past has past)
    intro x₁ inv₁ ready₁
    apply keeps_release ready₁.has (by simp) (by rintro _ ⟨⟩)
    intro y inv₂ has₂ past₂
    rw [List.erase_cons_head] at has₂ past₂
    exact after y inv₂ (ready₁.past has₂ past₂)
  | signal chan lk =>
    apply keeps_signal ready.has calm_proc
    intro y inv has past
    exact after y inv (ready.past has past)
  | acquiresleep n rounds => exact keeps_acquiresleep ready after
  | releasesleep n => exact keeps_releasesleep ready after
  | holdingsleep n =>
    apply keeps_bind
    apply keeps_holdingsleep ready
    intro _ y inv ready₁
    refine keeps_pure ready₁.has fun z inv' has past => ?_
    exact after z inv' (ready₁.past has past)

theorem keeps_ops {post : Unit → Kernel → Prop} {l : List Op} (ready : Ready p [] m i s)
    (after : ∀ y : Kernel, terms.inv y → Ready p [] m i y → post () y) : Keeps (.proc p) (ops l) post s := by
  induction l generalizing s with
  | nil =>
    refine keeps_pure ready.has fun y inv has past => ?_
    exact after y inv (ready.past has past)
  | cons op rest ih =>
    apply keeps_bind
    apply keeps_op ready
    intro y _ ready₁
    exact ih ready₁

end Xv6Labs.Proc
