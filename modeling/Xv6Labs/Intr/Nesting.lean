import Xv6Labs.Intr.Steps

/-!
# Interrupts survive nesting and `swtch`
-/

namespace Xv6Labs.Intr

variable {C P L : Type} [DecidableEq C] [DecidableEq P] {s s' : State C P L} {c : C} {p : P} {table : List P}
  {a : Act P L}

theorem Inv.interrupt (inv : Inv s) (enabled : (s.cpu c).intr = true) :
    Inv ((s.setIntr c false).setHere c
      { s.here c with pc := .between .code, behind := (s.here c).pc :: (s.here c).behind }) := by
  have fits := inv.fits c
  have none := inv.enabled enabled
  have ok := fits.pc
  rw [none] at ok
  refine inv.stay ⟨fits.count, fun _ => rfl, ?_, fun pc mem => ?_, fits.origin⟩ rfl fun p rest away => ?_
  · change Trusted _ (s.here c).unmatched
    rw [none]
    exact trusted_nil
  · rcases List.mem_cons.mp mem with rfl | mem
    · exact ok.waiting enabled
    · exact fits.behind pc mem
  · rw [away] at ok
    exact absurd ok.2.1 (by simp)

theorem Inv.sret {pc : Pc C P L} {behind : List (Pc C P L)} (inv : Inv s) (code : (s.here c).pc = .between .code)
    (none : (s.here c).unmatched = []) (interrupted : (s.here c).behind = pc :: behind) :
    Inv ((s.setIntr c true).setHere c { s.here c with pc, behind }) := by
  have fits := inv.fits c
  have waiting := fits.behind
  rw [interrupted] at waiting
  refine inv.stay ⟨fits.count, fun some => absurd none some, ?_,
    fun pc' mem => waiting pc' (List.mem_cons_of_mem pc mem), fits.origin⟩ rfl
    (by simp [code])
  change PcOk _ _ _ _ (s.here c).unmatched _
  rw [none]
  exact waiting pc List.mem_cons_self _ _ _ rfl

omit [DecidableEq C] in
/-- `p->state`, by who holds `p->lock`. -/
theorem Inv.setState {st : Proc.ProcState} (inv : Inv s) (held : s.lock (.proc p) = some c)
    (still : s.state p ≠ .RUNNING ∨ s.on c = .proc p)
    (stops : st ≠ .RUNNING) (used : s.on c = .proc p → st ≠ .UNUSED) : Inv (s.setState p st) := by
  have holder : ∀ d, s.on d = .proc p → d = c := by
    intro d on
    rcases still with still | mine
    · rcases inv.busy d p on with running | ⟨held', -⟩
      · exact absurd running still
      · exact Option.some_inj.mp (held'.symm.trans held)
    · exact inv.once d c p on mine
  have states : ∀ q, q ≠ p → (s.setState p st).state q = s.state q := fun q other => Function.update_of_ne other ..
  have changed : (s.setState p st).state p = st := Function.update_self ..
  refine ⟨inv.fits, inv.home, inv.once, inv.proc, inv.away, fun d q on => ?_, inv.idle, fun q off => ?_⟩
  · by_cases same : q = p
    · subst same
      obtain rfl := holder d on
      rw [changed]
      exact .inr ⟨held, used on⟩
    · rw [states q same]
      exact inv.busy d q on
  · by_cases same : q = p
    · subst same
      rw [changed]
      exact ⟨(inv.parked q off).1, stops⟩
    · rw [states q same]
      exact inv.parked q off

theorem Inv.start (inv : Inv s) (held : s.lock (.proc p) = some c) (unused : s.state p = .UNUSED) :
    Inv { s.setState p .RUNNABLE with thread := Function.update s.thread (.proc p) { pc := .fresh } } := by
  have off : ∀ d, s.on d ≠ .proc p := by
    intro d on
    rcases inv.busy d p on with running | ⟨-, used⟩
    · exact absurd (unused.symm.trans running) (by decide)
    · exact used unused
  have ready : Inv (s.setState p .RUNNABLE) :=
    inv.setState held (.inl (by rw [unused]; decide)) (by decide) fun _ => by decide
  have threads : ∀ t, t ≠ .proc p → Function.update s.thread (.proc p) { pc := .fresh } t = s.thread t :=
    fun t other => Function.update_of_ne other ..
  have here : ∀ d, Function.update s.thread (.proc p) { pc := .fresh } (s.on d) = s.here d := fun d => threads _ (off d)
  refine ⟨fun d => ?_, inv.home, inv.once, inv.proc, fun d q on => ?_, ready.busy, fun d d' on => ?_,
    fun q idle => ⟨?_, (ready.parked q idle).2⟩⟩
  · have fits := inv.fits d
    rw [← here d] at fits
    exact fits
  · change Away d q (Function.update s.thread (.proc p) { pc := .fresh } (.scheduler d))
    rw [threads _ (by simp)]
    exact inv.away d q on
  · have idle := inv.idle d d' on
    rw [← here d] at idle
    exact idle
  · change Parked q (Function.update s.thread (.proc p) { pc := .fresh } (.proc q))
    by_cases same : q = p
    · rw [same, Function.update_self]
      exact ⟨.inl rfl, fun _ h => absurd h List.not_mem_nil, origin_nil⟩
    · rw [threads _ (by simpa using same)]
      exact (inv.parked q idle).1

variable [DecidableEq L]

theorem Inv.step (inv : Inv s) (h : s.step table c a = some s') : Inv s' := by
  have fits := inv.fits c
  cases a with
  | go => exact inv.go h
  | interrupt =>
    simp only [State.step, Option.ite_none_right_eq_some, Option.some.injEq] at h
    obtain ⟨enabled, rfl⟩ := h
    exact inv.interrupt enabled
  | sret =>
    simp only [State.step, Option.ite_none_right_eq_some] at h
    obtain ⟨⟨code, none⟩, h⟩ := h
    cases interrupted : (s.here c).behind with
    | nil => simp [interrupted] at h
    | cons pc behind =>
      simp only [interrupted, Option.some.injEq] at h
      subst h
      exact inv.sret code none interrupted
  | pushOff =>
    simp only [State.step, Option.ite_none_right_eq_some, Option.some.injEq] at h
    obtain ⟨code, rfl⟩ := h
    exact inv.pushOff (inv.trusted code) (.inl rfl) (by simp [code])
  | popOff =>
    simp only [State.step, Option.ite_none_right_eq_some, Option.some.injEq] at h
    obtain ⟨⟨code, some⟩, rfl⟩ := h
    exact inv.goto ⟨rfl, some, .inl ⟨rfl, inv.trusted code⟩⟩ (by simp [code])
  | acquire lk =>
    simp only [State.step, Option.ite_none_right_eq_some, Option.some.injEq] at h
    obtain ⟨code, rfl⟩ := h
    exact inv.pushOff (inv.trusted code) (.inl rfl) (by simp [code])
  | release lk =>
    simp only [State.step, Option.ite_none_right_eq_some, Option.some.injEq] at h
    obtain ⟨⟨code, some, own⟩, rfl⟩ := h
    refine inv.release some (.inl ⟨rfl, inv.trusted code⟩) (fun q on mine => ?_) fun d on =>
      inv.none_of_scheduler code on
    rw [inv.proc c q on] at own
    simpa [mine] using own
  | intrOn =>
    simp only [State.step, Option.ite_none_right_eq_some, Option.some.injEq] at h
    obtain ⟨⟨code, none⟩, rfl⟩ := h
    rw [State.setIntr, State.setCpu_eq]
    refine inv.stay ⟨fits.count, fun some => absurd none some, ?_, fits.behind, fits.origin⟩ rfl (by simp [code])
    rw [code]
    exact inv.trusted code
  | intrOff =>
    simp only [State.step, Option.ite_none_right_eq_some, Option.some.injEq] at h
    obtain ⟨code, rfl⟩ := h
    rw [State.setIntr, State.setCpu_eq]
    refine inv.stay ⟨fits.count, fun _ => rfl, ?_, fits.behind, fits.origin⟩ rfl (by simp [code])
    rw [code]
    exact inv.trusted code
  | leave st =>
    simp only [State.step, Option.bind_eq_some_iff, Option.ite_none_right_eq_some, Option.some.injEq] at h
    obtain ⟨p, mine, ⟨code, held, -, leaves⟩, rfl⟩ := h
    refine inv.setState held (.inr (inv.on_proc code mine)) ?_ fun _ => ?_
    all_goals
      rintro rfl
      exact absurd leaves (by decide)
  | sched =>
    simp only [State.step, Option.bind_eq_some_iff, Option.ite_none_right_eq_some, Option.some.injEq] at h
    obtain ⟨p, mine, code, rfl⟩ := h
    exact inv.sched code mine
  | wakeup p =>
    simp only [State.step, Option.ite_none_right_eq_some, Option.some.injEq] at h
    obtain ⟨⟨-, held, sleeping⟩, rfl⟩ := h
    exact inv.setState held (.inl (by rw [sleeping]; decide)) (by decide) fun _ => by decide
  | freeproc p =>
    simp only [State.step, Option.ite_none_right_eq_some, Option.some.injEq] at h
    obtain ⟨⟨-, held, zombie, other⟩, rfl⟩ := h
    exact inv.setState held (.inl (by rw [zombie]; decide)) (by decide) fun on => absurd (inv.proc c p on) other
  | start p =>
    simp only [State.step, Option.ite_none_right_eq_some, Option.some.injEq] at h
    obtain ⟨⟨-, held, unused⟩, rfl⟩ := h
    exact inv.start held unused
  | scheduler =>
    simp only [State.step, Option.ite_none_right_eq_some, Option.some.injEq] at h
    obtain ⟨⟨code, on, -, none⟩, rfl⟩ := h
    have put : (s.setCpu c { s.cpu c with proc := Option.none }).goto c (.between (.visit [])) =
        s.put c { s.cpu c with proc := Option.none } s.lock { s.here c with pc := .between (.visit []) } := rfl
    rw [put]
    refine inv.put ⟨fits.count, fits.off, ⟨⟨c, on⟩, none⟩, fits.behind, fits.origin⟩
      (fun q process => absurd (on.symm.trans process) (by simp))
      (fun _ _ => .inl rfl) (fun _ _ _ h => h) fun _ _ _ h => h

theorem Reach.inv (reach : Reach table s) : Inv s := by
  induction reach with
  | refl => exact boot_inv
  | tail _ step ih =>
    obtain ⟨c, a, step⟩ := step
    exact ih.step step

/-- A process returns from its last `pop_off` to what it came from, wherever it has been since. -/
theorem interrupts_survive (reach : Reach table s) (c : C) :
    (0 < (s.cpu c).noff → (s.cpu c).intr = false) ∧
      ((s.cpu c).noff = (s.here c).unmatched.length ∧ Origin (s.on c) (s.here c).unmatched) ∧
        ((s.here c).pc ≠ .panic .popOff ∧ (s.here c).pc ≠ .panic .interruptible) ∧
          ∀ p outer k, s.on c = .proc p → (s.here c).pc = .popReturn outer k → (s.cpu c).noff = 0 →
            ∃ x, outer = some x ∧ (s.cpu c).intr = x.enabled := by
  have inv := reach.inv
  have fits := inv.fits c
  have ok := fits.pc
  refine ⟨fun positive => fits.off ?_, ⟨fits.count, fits.origin⟩, ⟨fun pc => ?_, fun pc => ?_⟩,
    fun p outer k on pc zero => ?_⟩
  · rintro none
    rw [fits.count, none] at positive
    exact absurd positive (by simp)
  · rw [pc] at ok
    exact ok.1 rfl
  · rw [pc] at ok
    exact ok.2 rfl
  · rw [pc] at ok
    rw [fits.count, Nat.cast_eq_zero, List.length_eq_zero_iff] at zero
    rcases ok with ⟨-, -, outermost⟩ | ⟨d, rest, scheduler, -⟩
    · exact outermost zero
    · exact absurd (scheduler.symm.trans on) (by simp)

/-! ### A first run of a process -/

theorem reach_of_run {moves : List (C × Act P L)} (reach : Reach table s) (h : run table moves s = some s') :
    Reach table s' := by
  induction moves generalizing s with
  | nil =>
    rw [run, Option.some_inj] at h
    exact h ▸ reach
  | cons move moves ih =>
    rw [run, Option.bind_eq_some_iff] at h
    obtain ⟨s₁, step, rest⟩ := h
    exact ih (reach.tail ⟨_, _, step⟩) rest

def goes (n : ℕ) : List (Fin 1 × Act (Fin 1) Empty) := List.replicate n (0, .go)

/-- `userinit`, the call of `scheduler`, and its first `swtch`. -/
def firstRun : List (Fin 1 × Act (Fin 1) Empty) :=
  (0, .acquire (.proc 0)) :: goes 6 ++ (0, .start 0) :: (0, .release (.proc 0)) :: goes 4 ++ (0, .scheduler) :: goes 9

/-- In `forkret` a new thread has not called `push_off`. -/
theorem noff_forkret : ∃ s : State (Fin 1) (Fin 1) Empty, Reach [0] s ∧ s.on 0 = .proc 0 ∧ (s.cpu 0).noff = 1 ∧
    (s.here 0).unmatched.countP (fun x => x.thread = s.on 0) = 0 := by
  have seen : (run [0] firstRun (boot : State (Fin 1) (Fin 1) Empty)).map (fun s =>
      decide (s.on 0 = .proc 0 ∧ (s.cpu 0).noff = 1 ∧ (s.here 0).unmatched.countP (fun x => x.thread = s.on 0) = 0))
        = some true := by decide
  rw [Option.map_eq_some_iff] at seen
  obtain ⟨s, ran, facts⟩ := seen
  exact ⟨s, reach_of_run .refl ran, of_decide_eq_true facts⟩

theorem interrupts_survive_forkret : ∃ s : State (Fin 1) (Fin 1) Empty, Reach
    [0] s ∧ s.on 0 = .proc 0 ∧ (s.cpu 0).noff = 0 ∧
    (s.cpu 0).intr = true := by
  have seen : (run [0] (firstRun ++ (0, .release (.proc 0)) :: goes 3) (boot : State (Fin 1) (Fin 1) Empty)).map
    (fun s =>
      decide (s.on 0 = .proc 0 ∧ (s.here 0).pc = .popReturn (some ⟨.scheduler 0, true⟩) .code ∧
        (s.cpu 0).noff = 0)) = some true := by decide
  rw [Option.map_eq_some_iff] at seen
  obtain ⟨s, ran, facts⟩ := seen
  obtain ⟨on, pc, zero⟩ := of_decide_eq_true facts
  obtain ⟨x, outer, enabled⟩ := (interrupts_survive (reach_of_run .refl ran) 0).2.2.2 0 _ _ on pc zero
  obtain rfl := Option.some_inj.mp outer
  exact ⟨s, reach_of_run .refl ran, on, zero, enabled⟩

end Xv6Labs.Intr
