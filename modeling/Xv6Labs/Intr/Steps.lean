import Xv6Labs.Intr.Inv

/-!
# Every step keeps the invariant
-/

namespace Xv6Labs.Intr

variable {C P L : Type} [DecidableEq C] [DecidableEq P] {s s' : State C P L} {c : C} {p : P} {rest table : List P}
  {k : Place P} {lk : Lock P L} {old e : Bool} {v : Bool} {a : Act P L} {lko : Option (Lock P L)}

/-! ### `push_off` -/

theorem Inv.pushClear (inv : Inv s) (pc : (s.here c).pc = .pushClear old e lko k) :
    Inv ((s.setIntr c false).goto c (.pushSave old e lko k)) := by
  have fits := inv.fits c
  have ok := fits.pc
  rw [pc] at ok
  obtain ⟨before, before', trusted, into⟩ := ok
  have put : (s.setIntr c false).goto c (.pushSave old e lko k) =
      s.put c { s.cpu c with intr := false } s.lock { s.here c with pc := .pushSave old e lko k } := rfl
  rw [put]
  refine inv.stay ⟨fits.count, fun _ => rfl, ⟨rfl, before.trans before'.symm, trusted, into⟩, fits.behind,
    fits.origin⟩ rfl ?_
  simp [pc]

theorem Inv.pushSave (inv : Inv s) (pc : (s.here c).pc = .pushSave old e lko k) :
    Inv ((if (s.cpu c).noff = 0 then s.setCpu c { s.cpu c with intena := old } else s).goto c
      (.pushCount e lko k)) := by
  have fits := inv.fits c
  have ok := fits.pc
  rw [pc] at ok
  obtain ⟨off, rfl, trusted, into⟩ := ok
  by_cases outermost : (s.cpu c).noff = 0
  · have none : (s.here c).unmatched = [] := by
      rw [fits.count] at outermost
      exact List.length_eq_zero_iff.mp (by exact_mod_cast outermost)
    have put : (s.setCpu c { s.cpu c with intena := old }).goto c (.pushCount old lko k) =
        s.put c { s.cpu c with intena := old } s.lock { s.here c with pc := .pushCount old lko k } := rfl
    rw [if_pos outermost, put]
    refine inv.stay ⟨fits.count, fits.off, ⟨off, fun _ => rfl, ?_, into⟩, fits.behind, fits.origin⟩ rfl (by simp [pc])
    change Trusted _ (s.here c).unmatched
    rw [none]
    exact trusted_nil
  · have some : (s.here c).unmatched ≠ [] := by
      intro none
      rw [fits.count, none] at outermost
      exact outermost rfl
    rw [if_neg outermost]
    exact inv.goto ⟨off, fun none => absurd none some, trusted, into⟩ (by simp [pc])

theorem Inv.pushCount (inv : Inv s) (pc : (s.here c).pc = .pushCount e lko k) (pc' : Pc C P L)
    (ok' : PcOk s.lock c (s.on c) { s.cpu c with noff := (s.cpu c).noff + 1 }
    (⟨s.on c, e⟩ :: (s.here c).unmatched) pc') :
    Inv ((s.setCpu c { s.cpu c with noff := (s.cpu c).noff + 1 }).setHere c
      { s.here c with pc := pc', unmatched := ⟨s.on c, e⟩ :: (s.here c).unmatched }) := by
  have fits := inv.fits c
  have ok := fits.pc
  rw [pc] at ok
  refine inv.stay ⟨?_, fun _ => ok.1, ok', fits.behind, fits.origin.cons⟩ rfl (by simp [pc])
  rw [List.length_cons, Nat.cast_succ, ← fits.count]

/-! ### `pop_off` -/

theorem Inv.popCount {d : C} (inv : Inv s) (pc : (s.here c).pc = .popCount d k) :
    Inv ((s.setCpu d { s.cpu d with noff := (s.cpu d).noff - 1 }).setHere c
      { s.here c with pc := .popSet d (s.here c).unmatched.getLast? k, unmatched := (s.here c).unmatched.tail }) := by
  have fits := inv.fits c
  have ok := fits.pc
  rw [pc] at ok
  obtain ⟨rfl, some, back⟩ := ok
  have off := fits.off some
  obtain ⟨x, u, cons⟩ := List.exists_cons_of_ne_nil some
  refine inv.stay ⟨?_, fun _ => off, ⟨rfl, off, ?_⟩, fits.behind, fits.origin.tail⟩ rfl (by simp [pc])
  · have count := fits.count
    rw [cons, List.length_cons, Nat.cast_succ] at count
    change (s.cpu d).noff - 1 = ((s.here d).unmatched.tail.length : ℤ)
    rw [cons, List.tail_cons]
    omega
  · change Outof 0 (s.on d) (s.here d).unmatched.tail k _
    rcases back with ⟨code, trusted⟩ | ⟨b, rest, loop, visit, one⟩
    · refine .inl ⟨code, ?_, ?_⟩
      · rw [cons] at trusted ⊢
        intro y last
        refine trusted y ?_
        cases u with
        | nil => exact absurd last (by simp)
        | cons z u => exact last
      · intro empty
        change (s.here d).unmatched.tail = [] at empty
        rw [cons, List.tail_cons] at empty
        subst empty
        rw [cons] at trusted ⊢
        exact ⟨x, rfl, trusted x rfl⟩
    · refine .inr ⟨b, rest, loop, visit, ?_⟩
      rw [List.length_tail, one]

theorem Inv.popSet {d : C} {outer : Option (Push C P)} (inv : Inv s) (pc : (s.here c).pc = .popSet d outer k) :
    Inv ((if (s.cpu d).noff = 0 ∧ (s.cpu d).intena = true then s.setIntr c true else s).goto c
      (.popReturn outer k)) := by
  have fits := inv.fits c
  have ok := fits.pc
  rw [pc] at ok
  obtain ⟨rfl, off, back⟩ := ok
  have zero : (s.cpu d).noff = 0 ↔ (s.here d).unmatched = [] := by
    rw [fits.count, Nat.cast_eq_zero, List.length_eq_zero_iff]
  by_cases enables : (s.cpu d).noff = 0 ∧ (s.cpu d).intena = true
  · have none := zero.mp enables.1
    have put : (s.setIntr d true).goto d (.popReturn outer k) =
        s.put d { s.cpu d with intr := true } s.lock { s.here d with pc := .popReturn outer k } := rfl
    rw [if_pos enables, put]
    refine inv.stay ⟨fits.count, fun some => absurd none some, ?_, fits.behind, fits.origin⟩ rfl (by simp [pc])
    rcases back with ⟨code, trusted, outermost⟩ | loop
    · obtain ⟨x, outer, before⟩ := outermost none
      exact .inl ⟨code, trusted, fun _ => ⟨x, outer, enables.2.symm.trans before⟩⟩
    · exact .inr loop
  · rw [if_neg enables]
    refine inv.goto ?_ (by simp [pc])
    rcases back with ⟨code, trusted, outermost⟩ | loop
    · refine .inl ⟨code, trusted, fun none => ?_⟩
      obtain ⟨x, outer, before⟩ := outermost none
      have disabled : (s.cpu d).intena = false := by
        rw [Bool.eq_false_iff]
        exact fun enabled => enables ⟨zero.mpr none, enabled⟩
      exact ⟨x, outer, off.trans (disabled.symm.trans before)⟩
    · exact .inr loop

/-! ### `swtch` -/

/-- A `swtch` on `c` between its scheduler and `p`. -/
theorem Inv.switch (inv : Inv s) (ons : ∀ d, d ≠ c → s'.on d = s.on d) (cpus : ∀ d, d ≠ c → s'.cpu d = s.cpu d)
    (locks : s'.lock = s.lock)
    (states : ∀ q, q ≠ p → s'.state q = s.state q) (threads : ∀ t, t ≠ .proc p → t ≠ .scheduler c →
      s'.thread t = s.thread t)
    (off : ∀ d, d ≠ c → s.on d ≠ .proc p) (was : s.on c = .scheduler c ∨ s.on c = .proc p)
    (fits : Fits s'.lock c (s'.on c) (s'.cpu c) (s'.here c))
    (now : (s'.on c = .proc p ∧ (s'.cpu c).proc = some p ∧ Away c p (s'.thread (.scheduler c)) ∧
      s'.state p = .RUNNING) ∨
      (s'.on c = .scheduler c ∧ (∃ q rest, (s'.here c).pc = .between (.away q rest)) ∧
        Parked p (s'.thread (.proc p)) ∧ s'.state p ≠ .RUNNING)) :
    Inv s' := by
  have here : ∀ d, d ≠ c → s'.here d = s.here d := by
    intro d other
    rw [State.here, ons d other]
    exact threads _ (off d other) fun same => other (inv.home d c same).symm
  have runs : ∀ q, s'.on c = .proc q → q = p ∧ (s'.cpu c).proc = some p ∧ Away c p (s'.thread (.scheduler c)) ∧
      s'.state p = .RUNNING := by
    intro q on
    rcases now with ⟨process, rest⟩ | ⟨scheduler, -⟩
    · rw [process, Thread.proc.injEq] at on
      exact ⟨on.symm, rest⟩
    · exact absurd (scheduler.symm.trans on) (by simp)
  refine ⟨fun d => ?_, fun d d' on => ?_, fun d d' q on on' => ?_, fun d q on => ?_, fun d q on => ?_,
    fun d q on => ?_, fun d d' on => ?_, fun q idle => ?_⟩
  · by_cases same : d = c
    · exact same ▸ fits
    · rw [cpus d same, here d same, ons d same, locks]
      exact inv.fits d
  · by_cases same : d = c
    · rcases now with ⟨process, -⟩ | ⟨scheduler, -⟩
      · exact absurd ((same ▸ process).symm.trans on) (by simp)
      · rw [same] at on ⊢
        exact (Thread.scheduler.inj (scheduler.symm.trans on)).symm
    · exact inv.home d d' ((ons d same).symm.trans on)
  · by_cases same : d = c <;> by_cases same' : d' = c
    · exact same.trans same'.symm
    · obtain ⟨rfl, -⟩ := runs q (same ▸ on)
      exact absurd ((ons d' same').symm.trans on') (off d' same')
    · obtain ⟨rfl, -⟩ := runs q (same' ▸ on')
      exact absurd ((ons d same).symm.trans on) (off d same)
    · exact inv.once d d' q ((ons d same).symm.trans on) ((ons d' same').symm.trans on')
  · by_cases same : d = c
    · subst same
      obtain ⟨rfl, proc, -⟩ := runs q on
      exact proc
    · rw [cpus d same]
      exact inv.proc d q ((ons d same).symm.trans on)
  · by_cases same : d = c
    · subst same
      obtain ⟨rfl, -, away, -⟩ := runs q on
      exact away
    · rw [threads _ (by simp) (by simpa using same)]
      exact inv.away d q ((ons d same).symm.trans on)
  · by_cases same : d = c
    · subst same
      obtain ⟨rfl, -, -, running⟩ := runs q on
      exact .inl running
    · have before := (ons d same).symm.trans on
      have other : q ≠ p := by
        rintro rfl
        exact off d same before
      rw [states q other, locks]
      exact inv.busy d q before
  · by_cases same : d = c
    · subst same
      rcases now with ⟨process, -⟩ | ⟨-, away, -⟩
      · exact absurd (process.symm.trans on) (by simp)
      · exact .inr away
    · rw [cpus d same, here d same]
      exact inv.idle d d' ((ons d same).symm.trans on)
  · by_cases other : q = p
    · subst other
      rcases now with ⟨process, -⟩ | ⟨-, -, parked⟩
      · exact absurd process (idle c)
      · exact parked
    · rw [threads _ (by simpa using other) (by simp), states q other]
      refine inv.parked q fun d process => ?_
      by_cases same : d = c
      · subst same
        rcases was with scheduler | running
        · exact absurd (scheduler.symm.trans process) (by simp)
        · exact other (Thread.proc.inj (process.symm.trans running))
      · exact idle d ((ons d same).trans process)

theorem Inv.dispatch (inv : Inv s) (pc : (s.here c).pc = .between (.locked p rest)) (ready : s.state p = .RUNNABLE) :
    Inv (s.dispatch c p rest) := by
  have fits := inv.fits c
  have ok := fits.pc
  rw [pc] at ok
  obtain ⟨⟨b, on⟩, one, trusted, held⟩ := ok
  obtain rfl := inv.home c b on
  have pushed : (s.here b).unmatched ≠ [] := by
    rw [← List.length_pos_iff, one]
    exact Nat.zero_lt_one
  have off : ∀ d, s.on d ≠ .proc p := inv.off held (by rw [ready]; decide) (by rw [on]; simp)
  have onHere : (s.dispatch b p rest).on b = .proc p := Function.update_self ..
  have cpuHere : (s.dispatch b p rest).cpu b = { s.cpu b with proc := some p } := Function.update_self ..
  have entered : (s.dispatch b p rest).thread (.proc p) = (s.thread (.proc p)).entered (s.here b).unmatched :=
    Function.update_self ..
  have left : (s.dispatch b p rest).thread (.scheduler b) = { s.here b with pc := .between (.away p rest) } := by
    rw [← on]
    exact (Function.update_of_ne (by rw [on]; simp) ..).trans (Function.update_self ..)
  refine inv.switch (fun d other => Function.update_of_ne other ..) (fun d other => Function.update_of_ne other ..) rfl
    (fun q other => Function.update_of_ne other ..) (fun t process other => ?_) (fun d _ => off d) (.inl on) ?_
      (.inl ⟨onHere, ?_, ?_, ?_⟩)
  · refine (Function.update_of_ne process ..).trans (Function.update_of_ne ?_ ..)
    exact fun same => other (same.trans on)
  · rw [cpuHere, State.here, onHere, entered]
    exact (inv.parked p off).1.entered fits.count one (fits.off pushed) trusted (on ▸ fits.origin)
  · rw [cpuHere]
  · rw [left]
    exact ⟨⟨rest, rfl⟩, one, on ▸ fits.behind, on ▸ fits.origin⟩
  · exact Function.update_self ..

theorem Inv.sched (inv : Inv s) (pc : (s.here c).pc = .between .code) (mine : (s.cpu c).proc = some p) :
    Inv (s.sched c p) := by
  have on := inv.on_proc pc mine
  have notAway : ∀ q rest, (s.here c).pc ≠ .between (.away q rest) := by simp [pc]
  rw [State.sched]
  by_cases held : s.lock (.proc p) = some c
  swap
  · rw [if_pos held]
    exact inv.goto ⟨by decide, by decide⟩ notAway
  by_cases one : (s.cpu c).noff = 1
  swap
  · rw [if_neg (not_not.mpr held), if_pos one]
    exact inv.goto ⟨by decide, by decide⟩ notAway
  by_cases running : s.state p = .RUNNING
  · rw [if_neg (not_not.mpr held), if_neg (not_not.mpr one), if_pos running]
    exact inv.goto ⟨by decide, by decide⟩ notAway
  by_cases enabled : (s.cpu c).intr = true
  · rw [if_neg (not_not.mpr held), if_neg (not_not.mpr one), if_neg running, if_pos enabled]
    exact inv.goto ⟨by decide, by decide⟩ notAway
  rw [if_neg (not_not.mpr held), if_neg (not_not.mpr one), if_neg running, if_neg enabled]
  have fits := inv.fits c
  have ok := fits.pc
  rw [pc] at ok
  have single : ∃ x, (s.here c).unmatched = [x] := by
    rw [← List.length_eq_one_iff]
    exact_mod_cast fits.count.symm.trans one
  obtain ⟨x, single⟩ := single
  obtain ⟨away, scheduled, behind, origin⟩ := inv.away c p on
  have onHere : (s.swtch c).on c = .scheduler c := Function.update_self ..
  have asleep : (s.swtch c).thread (.scheduler c) = s.thread (.scheduler c) :=
    Function.update_of_ne (by rw [on]; simp) ..
  have saved : (s.swtch c).thread (.proc p) = { s.here c with pc := .switched (s.cpu c).intena } := by
    rw [← on]
    exact Function.update_self ..
  refine inv.switch (fun d other => Function.update_of_ne other ..) (fun _ _ => rfl) rfl (fun _ _ => rfl)
    (fun t process _ => ?_) (fun d other => ?_)
    (.inr on) ?_ (.inr ⟨onHere, ?_, ?_, running⟩)
  · exact Function.update_of_ne (fun same => process (same.trans on)) ..
  · exact fun process => other (inv.once d c p process on)
  · rw [State.here, onHere, asleep]
    obtain ⟨rest, away⟩ := away
    refine ⟨?_, fun _ => Bool.eq_false_iff.mpr enabled, ?_, behind, origin⟩
    · rw [scheduled]
      exact one
    · rw [away]
      exact ⟨⟨c, rfl⟩, scheduled, held⟩
  · rw [State.here, onHere, asleep]
    obtain ⟨rest, away⟩ := away
    exact ⟨p, rest, away⟩
  · rw [saved]
    refine ⟨.inr ⟨_, x, rfl, single, ok x ?_⟩, on ▸ fits.behind, on ▸ fits.origin⟩
    rw [single]
    rfl

/-! ### The loop of `scheduler` -/

theorem Inv.go [DecidableEq L] (inv : Inv s) (h : s.go table c = some s') : Inv s' := by
  have fits := inv.fits c
  have ok := fits.pc
  cases pc : (s.here c).pc with
  | between k =>
    rw [pc] at ok
    cases k with
    | code => simp [State.go, pc] at h
    | visit rest =>
      obtain ⟨⟨b, on⟩, none⟩ := ok
      cases rest with
      | nil =>
        simp only [State.go, pc, Option.some.injEq] at h
        subst h
        have put : (s.setIntr c true).goto c (.between (.visit table)) =
            s.put c { s.cpu c with intr := true } s.lock { s.here c with pc := .between (.visit table) } := rfl
        rw [put]
        exact inv.stay ⟨fits.count, fun some => absurd none some, ⟨⟨b, on⟩, none⟩, fits.behind, fits.origin⟩ rfl
          (by simp [pc])
      | cons p rest =>
        simp only [State.go, pc, Option.some.injEq] at h
        subst h
        refine inv.pushOff ?_ (.inr ⟨b, p, rest, on, rfl, rfl, ?_⟩) (by simp [pc])
        · rw [none]
          exact trusted_nil
        · rw [none]
          rfl
    | locked p rest =>
      simp only [State.go, pc, Option.some.injEq] at h
      subst h
      obtain ⟨⟨b, on⟩, one, trusted, held⟩ := ok
      by_cases ready : s.state p = .RUNNABLE
      · rw [if_pos ready]
        exact inv.dispatch pc ready
      · rw [if_neg ready]
        refine inv.release ?_ (.inr ⟨b, rest, on, rfl, one⟩)
          (fun q running => absurd (on.symm.trans running) (by simp)) fun d running => ?_
        · rw [← List.length_pos_iff, one]
          exact Nat.zero_lt_one
        · rcases inv.idle c d running with none | ⟨q, rest', away⟩
          · exact none
          · exact absurd (pc.symm.trans away) (by simp)
    | away p rest =>
      simp only [State.go, pc, Option.some.injEq] at h
      subst h
      obtain ⟨⟨b, on⟩, one, held⟩ := ok
      have cleared : Inv (s.setCpu c { s.cpu c with proc := none }) := by
        rw [State.setCpu_eq]
        refine inv.put ⟨fits.count, fits.off, ?_, fits.behind, fits.origin⟩
          (fun q running => absurd (on.symm.trans running) (by simp))
          (fun _ _ => .inl rfl) (fun _ _ _ h => h) fun _ _ _ h => h
        rw [pc]
        exact ⟨⟨b, on⟩, one, held⟩
      refine cleared.release ?_ (.inr ⟨b, rest, on, rfl, one⟩)
        (fun q running => absurd (on.symm.trans running) (by simp)) fun d running => ?_
      · rw [← List.length_pos_iff]
        exact one.symm ▸ Nat.zero_lt_one
      · simp [State.setCpu]
  | pushGet e lk k =>
    simp only [State.go, pc, Option.some.injEq] at h
    subst h
    rw [pc] at ok
    exact inv.goto ⟨rfl, ok⟩ (by simp [pc])
  | pushClear old e lk k =>
    simp only [State.go, pc, Option.some.injEq] at h
    subst h
    exact inv.pushClear pc
  | pushSave old e lk k =>
    simp only [State.go, pc, Option.some.injEq] at h
    subst h
    exact inv.pushSave pc
  | pushCount e lk k =>
    simp only [State.go, pc, Option.some.injEq] at h
    subst h
    rw [pc] at ok
    obtain ⟨off, first, trusted, into⟩ := ok
    refine inv.pushCount pc _ ?_
    have trusted' : Trusted { s.cpu c with noff := (s.cpu c).noff + 1 } (⟨s.on c, e⟩ :: (s.here c).unmatched) :=
      trusted_cons trusted first rfl
    cases lk with
    | none =>
      rcases into with rfl | ⟨b, p, rest, -, -, lock, -⟩
      · exact trusted'
      · exact absurd lock (by simp)
    | some lk => exact ⟨List.cons_ne_nil _ _, trusted', into.succ⟩
  | holding lk k =>
    simp only [State.go, pc, Option.some.injEq] at h
    subst h
    rw [pc] at ok
    by_cases held : s.lock lk = some c
    · rw [if_pos held]
      exact inv.goto ⟨by decide, by decide⟩ (by simp [pc])
    · rw [if_neg held]
      exact inv.goto ok (by simp [pc])
  | spin lk k =>
    rw [pc] at ok
    obtain ⟨pushed, trusted, into⟩ := ok
    simp only [State.go, pc, Option.ite_none_right_eq_some, Option.some.injEq] at h
    obtain ⟨free, rfl⟩ := h
    rw [State.setLock_goto]
    have still : ∀ lk' d, s.lock lk' = some d → Function.update s.lock lk (some c) lk' = some d := by
      intro lk' d before
      rw [Function.update_of_ne fun same => absurd (free.symm.trans (same ▸ before)) (by simp)]
      exact before
    refine inv.put ⟨fits.count, fits.off, ?_, fits.behind, fits.origin⟩ (fun _ _ => rfl) (fun d on => .inl ?_)
      (fun lk' d _ => still lk' d) fun p _ _ => still _ c
    · rcases into with rfl | ⟨b, p, rest, on, rfl, lock, one⟩
      · exact trusted
      · obtain rfl := Option.some_inj.mp lock
        exact ⟨⟨b, on⟩, one, trusted, Function.update_self ..⟩
    · rcases inv.idle c d on with none | ⟨q, rest, away⟩
      · exact none
      · exact absurd (pc.symm.trans away) (by simp)
  | popCheck d k =>
    simp only [State.go, pc, Option.some.injEq] at h
    subst h
    rw [pc] at ok
    obtain ⟨rfl, some, back⟩ := ok
    have positive : ¬ (s.cpu d).noff < 1 := by
      have := List.length_pos_iff.mpr some
      rw [fits.count]
      omega
    rw [if_neg (by simp [fits.off some]), if_neg positive]
    exact inv.goto ⟨rfl, some, back⟩ (by simp [pc])
  | popCount d k =>
    simp only [State.go, pc, Option.some.injEq] at h
    subst h
    exact inv.popCount pc
  | popSet d outer k =>
    simp only [State.go, pc, Option.some.injEq] at h
    subst h
    exact inv.popSet pc
  | popReturn outer k =>
    simp only [State.go, pc, Option.some.injEq] at h
    subst h
    rw [pc] at ok
    refine inv.goto ?_ (by simp [pc])
    rcases ok with ⟨rfl, trusted, -⟩ | ⟨b, rest, on, rfl, none⟩
    · exact trusted
    · exact ⟨⟨b, on⟩, List.length_eq_zero_iff.mp none⟩
  | fresh => simp [State.go, pc] at h
  | switched v =>
    simp only [State.go, pc, Option.some.injEq] at h
    subst h
    rw [pc] at ok
    obtain ⟨-, x, single, rfl⟩ := ok
    have put : (s.setCpu c { s.cpu c with intena := x.enabled }).goto c (.between .code) =
        s.put c { s.cpu c with intena := x.enabled } s.lock { s.here c with pc := .between .code } := rfl
    rw [put]
    refine inv.stay ⟨fits.count, fits.off, ?_, fits.behind, fits.origin⟩ rfl (by simp [pc])
    intro y last
    change (s.here c).unmatched.getLast? = some y at last
    rw [single, List.getLast?_singleton, Option.some_inj] at last
    rw [← last]
  | panic why => simp [State.go, pc] at h

end Xv6Labs.Intr
