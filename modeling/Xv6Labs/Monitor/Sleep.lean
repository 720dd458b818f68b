import Xv6Labs.Monitor.Locks

/-!
# `sleep`, `wakeup` and `kill`

Inside, `wakeup` leaves nobody on its channel: its scan finds each process asleep, since a process that is on its way to
sleep has its lock until it is, and nobody else goes to sleep meanwhile. `sleep` needs the contract to hold with the
caller asleep, and returns inside again.
-/

namespace Xv6Labs.Monitor

open Threads Prog
open Proc (Slot ProcState)

variable {O : Object} {D : Duty O} {t u : Thread} {L : List Lock} {p q : Slot} {c : O.Chan} {s s' : State O}
  {A : O.Data → Waits O → Prop} {V : O.Data → Prop}

/-! ### wakeup and kill -/

theorem lasts_awake (lasts : Lasts D t [.cond] A) (q : Slot) : Lasts D t [.cond] fun d w => A d w ∧ w q ≠ some c := by
  intro d d' w w' view inside ⟨fact, awake⟩
  obtain ⟨drift, sub⟩ := inside List.mem_cons_self
  exact ⟨lasts d d' w w' view inside fact, fun there => awake (sub q c there)⟩

theorem triple_wakeupAt (l : List Slot) (lasts : Lasts D t [.cond] A) :
    Triple D t (Knows t [.cond] A) (wakeupAt c l) fun _ =>
      Knows t [.cond] fun d w => A d w ∧ ∀ q ∈ l, w q ≠ some c := by
  induction l generalizing A with
  | nil =>
    refine Triple.pure (stable_knows lasts) fun s _ knows => ⟨knows.owns, knows.running, knows.fact, ?_⟩
    exact fun q mem => nomatch mem
  | cons q rest ih =>
    have lasts' := lasts_awake (c := c) lasts q
    unfold wakeupAt
    refine (triple_acquireProc lasts).bind fun _ => (triple_sleepsOn lasts).bind fun found => ?_
    have woken : Triple D t (Has t q [.cond] A fun st ch w => Calm st ch w ∧
      found = decide (st = .SLEEPING ∧ ch = some c))
        (whenever found (act (.setRunnable q))) fun _ =>
          Has t q [.cond] A fun st ch w => Calm st ch w ∧ w ≠ some c := by
      cases found with
      | true =>
        refine (triple_setRunnable lasts ?_).mono (fun _ _ => id) ?_
        · intro st ch w ⟨_, found⟩
          exact (of_decide_eq_true found.symm).1
        · intro _ s _ has
          have none : s.waits q = none := has.about
          refine ⟨has.knows, ?_⟩
          rw [none]
          exact ⟨nofun, nofun⟩
      | false =>
        refine Triple.pure (stable_has lasts) fun s _ has => ⟨has.knows, has.about.1, fun there => ?_⟩
        exact of_decide_eq_false has.about.2.symm (has.about.1 c there)
    refine woken.bind fun _ => (triple_releaseProc lasts lasts' (by simp) (fun _ _ _ => And.left) ?_).bind fun _ => ?_
    · exact fun d w st ch fact about => ⟨fact, about.2⟩
    · refine (ih lasts').mono (fun _ _ => id) fun _ s _ knows => ⟨knows.owns, knows.running, knows.fact.1.1, ?_⟩
      intro r mem
      rcases List.mem_cons.mp mem with rfl | mem
      · exact knows.fact.1.2
      · exact knows.fact.2 r mem

theorem triple_wakeup (lasts : Lasts D t [.cond] A) :
    Triple D t (Knows t [.cond] A) (wakeup c) fun _ => Knows t [.cond] fun d w => A d w ∧ ∀ q, w q ≠ some c :=
  (triple_wakeupAt slots lasts).mono (fun _ _ => id) fun _ _ _ knows =>
    ⟨knows.owns, knows.running, knows.fact.1, fun q => knows.fact.2 q (List.mem_finRange q)⟩

theorem triple_killed (lasts : Lasts D t L A) : Triple D t (Knows t L A) killed fun _ => Knows t L A := by
  refine Triple.act (stable_knows lasts) (fun _ => stable_knows lasts) fun s inv knows => ⟨trivial, fun r s' ran => ?_⟩
  cases t with
  | intr n => cases ran
  | proc p =>
    cases ran
    exact ⟨inv, fun u _ => (terms D).refl u s, knows⟩

theorem triple_setKilled {B : About O} (lasts : Lasts D t L A) :
    Triple D t (Has t q L A B) (act (.setKilled q)) fun _ => Has t q L A B := by
  refine Triple.act (stable_has lasts) (fun _ => stable_has lasts) fun s inv has => ⟨trivial, fun r s' ran => ?_⟩
  cases ran
  refine ⟨⟨inv.1, inv.2.1, inv.2.2.asleep, inv.2.2.waits⟩, fun u _ => ?_,
    ⟨has.knows.owns, has.knows.running, has.knows.fact⟩, has.about⟩
  exact ⟨fun _ => Iff.rfl, fun _ _ => ⟨rfl, rfl, rfl⟩, fun _ => ⟨D.drift_refl _, Sub.refl _⟩, fun _ _ => id,
    D.view_refl u _⟩

theorem triple_killAt (target : Option Slot) (l : List Slot) (lasts : Lasts D t [] A) :
    Triple D t (Knows t [] A) (killAt target l) fun _ => Knows t [] A := by
  induction l with
  | nil => exact Triple.pure (stable_knows lasts) fun _ _ => id
  | cons q rest ih =>
    unfold killAt
    refine (triple_acquireProc lasts).bind fun _ => ?_
    by_cases found : target = some q
    · rw [if_pos found]
      refine (triple_setKilled lasts).bind fun _ => (triple_sleeps lasts).bind fun asleep => ?_
      have woken : Triple D t (Has t q [] A fun st ch w => Calm st ch w ∧ asleep = decide (st = .SLEEPING))
          (whenever asleep (act (.setRunnable q))) fun _ => Has t q [] A Calm := by
        cases asleep with
        | true =>
          refine (triple_setRunnable lasts ?_).mono (fun _ _ => id) ?_
          · exact fun st ch w about => of_decide_eq_true about.2.symm
          · intro _ s _ has
            have none : s.waits q = none := has.about
            refine ⟨has.knows, ?_⟩
            rw [none]
            exact nofun
        | false => exact Triple.pure (stable_has lasts) fun s _ has => ⟨has.knows, has.about.1⟩
      exact woken.bind fun _ => triple_releaseProc lasts lasts (by simp) (fun _ _ _ => id) fun _ _ _ _ fact _ => fact
    · rw [if_neg found]
      exact (triple_releaseProc lasts lasts (by simp) (fun _ _ _ => id) fun _ _ _ _ fact _ => fact).bind fun _ => ih

theorem triple_kill (target : Option Slot) (lasts : Lasts D t [] A) :
    Triple D t (Knows t [] A) (kill target) fun _ => Knows t [] A := triple_killAt target slots lasts

/-! ### Operations on the data -/

/-- An operation of a thread that has the lock. -/
theorem triple_op {x : O.Op} {A' : O.Res x → O.Data → Waits O → Prop} (lasts : Lasts D t [.cond] A)
    (lasts' : ∀ r, Lasts D t [.cond] (A' r))
    (step : ∀ d w, D.always d → A d w → D.ok t x d ∧ ∀ r d', O.perform t x d w = some (r, d') →
      D.always d' ∧ (∀ u, u ≠ t → D.view u d d') ∧ A' r d' w) :
    Triple D t (Knows t [.cond] A) (op x) fun r => Knows t [.cond] (A' r) := by
  refine Triple.act (stable_knows lasts) (fun r => stable_knows (lasts' r)) fun s inv knows => ?_
  obtain ⟨ok, next⟩ := step _ _ inv.1 knows.fact
  have mine : s.owner .cond = some t := (knows.owns _).mpr List.mem_cons_self
  refine ⟨ok, fun r s' ran => ?_⟩
  obtain ⟨⟨r', d'⟩, done, same⟩ := Option.map_eq_some_iff.mp ran
  cases same
  obtain ⟨always, view, fact⟩ := next r d' done
  refine ⟨⟨always, (fun free => nomatch mine.symm.trans free), inv.2.2.asleep, inv.2.2.waits⟩, fun u other => ?_,
    knows.owns, knows.running, fact⟩
  refine ⟨fun _ => Iff.rfl, fun _ _ => ⟨rfl, rfl, rfl⟩, fun theirs => ?_, fun _ _ => id, view u other⟩
  exact absurd (Option.some.inj (theirs.symm.trans mine)) other

/-- An operation that is allowed while somebody else has the lock. -/
theorem triple_drift {x : O.Op} {V' : O.Res x → O.Data → Prop} (stable : ∀ d d', D.view t d d' → V d → V d')
    (stable' : ∀ r d d', D.view t d d' → V' r d → V' r d')
    (step : ∀ d w, D.always d → V d → D.ok t x d ∧ ∀ r d', O.perform t x d w = some (r, d') →
      D.always d' ∧ D.drift d d' ∧ (D.inv d w → D.inv d' w) ∧ V' r d') :
    Triple D t (Knows t [] fun d _ => V d) (op x) fun r => Knows t [] fun d _ => V' r d := by
  refine Triple.act (stable_knows (Lasts.outside stable))
    (fun r => stable_knows (Lasts.outside (stable' r))) fun s inv knows => ?_
  obtain ⟨ok, next⟩ := step _ s.waits inv.1 knows.fact
  refine ⟨ok, fun r s' ran => ?_⟩
  obtain ⟨⟨r', d'⟩, done, same⟩ := Option.map_eq_some_iff.mp ran
  cases same
  obtain ⟨always, drift, kept, fact⟩ := next r d' done
  refine ⟨⟨always, fun free => kept (inv.2.1 free), inv.2.2.asleep, inv.2.2.waits⟩, fun u other => ?_, knows.owns,
    knows.running, fact⟩
  exact ⟨fun _ => Iff.rfl, fun _ _ => ⟨rfl, rfl, rfl⟩, fun _ => ⟨drift, Sub.refl _⟩, fun _ _ => id,
    D.drift_view u drift⟩

/-! ### sleep -/

theorem triple_doze (stable : ∀ d d', D.view (.proc p) d d' → V d → V d') (lasts : Lasts D (.proc p) [.cond] A)
    (inv : ∀ d w, D.always d → A d w → D.inv d (Function.update w p (some c))) (kept : ∀ d w, A d w → V d) :
    Triple D (.proc p) (Has (.proc p) p [.cond] A Calm) (act (.doze c)) fun _ =>
      Has (.proc p) p [] (fun d _ => V d) fun _ _ w => w = some c := by
  refine Triple.act (stable_has lasts) (fun _ => stable_has (Lasts.outside stable)) fun s now has =>
    ⟨trivial, fun r s' ran => ?_⟩
  cases ran
  have cond : s.owner .cond = some (.proc p) := (has.knows.owns _).mpr (by simp)
  have mine : s.owner (.proc p) = some (.proc p) := (has.knows.owns _).mpr (by simp)
  have running := has.knows.running p rfl
  have waits {r : Slot} (ne : r ≠ p) : ((s.setOwner .cond none).setWaits p (some c)).waits r = s.waits r :=
    Function.update_of_ne ne ..
  have owner (r : Slot) : ((s.setOwner .cond none).setWaits p (some c)).owner (.proc r) = s.owner (.proc r) := by
    simp [State.setOwner, State.setWaits]
  refine ⟨⟨now.1, fun _ => inv _ _ now.1 has.knows.fact, ⟨fun r c' free there => ?_, fun r c' state chan => ?_⟩⟩,
    fun u other => ?_,
    ⟨fun lk => ?_, fun r same => has.knows.running r same, kept _ _ has.knows.fact⟩, Function.update_self ..⟩
  · rw [owner] at free
    by_cases same : r = p
    · subst same
      cases mine.symm.trans free
    · rw [waits same] at there
      exact now.2.2.asleep r c' free there
  · by_cases same : r = p
    · subst same
      cases running.symm.trans state
    · rw [waits same]
      exact now.2.2.waits r c' state chan
  · have released : State.Frame D u s (s.setOwner .cond none) := frame_setOwner other (.inr cond) (.inl rfl)
    refine ⟨released.locks, fun r owns => ⟨rfl, rfl, waits ?_⟩, fun theirs => ?_, released.running, released.view⟩
    · rintro rfl
      exact absurd (Option.some.inj (owns.symm.trans mine)) other
    · exact absurd (Option.some.inj (theirs.symm.trans cond)) other
  · by_cases same : lk = .cond
    · subst same
      simp [State.setOwner, State.setWaits]
    · have before := has.knows.owns lk
      simp only [List.mem_cons, List.not_mem_nil, or_false, same] at before ⊢
      rw [← before]
      simp [State.setOwner, State.setWaits, same]

theorem triple_setChan {B B' : About O} {v : Option O.Chan} (lasts : Lasts D (.proc p) L A)
    (next : ∀ st ch w, B st ch w → B' st v w) :
    Triple D (.proc p) (Has (.proc p) p L A B) (act (.setChan v)) fun _ => Has (.proc p) p L A B' := by
  refine Triple.act (stable_has lasts) (fun _ => stable_has lasts) fun s now has => ⟨trivial, fun r s' ran => ?_⟩
  cases ran
  have mine : s.owner (.proc p) = some (.proc p) := (has.knows.owns _).mpr (by simp)
  have running := has.knows.running p rfl
  have other {r : Slot} (ne : r ≠ p) : Function.update s.chan p v r = s.chan r := Function.update_of_ne ne ..
  refine ⟨⟨now.1, now.2.1, ⟨fun r c free waits => ?_, fun r c state chan => ?_⟩⟩, fun u ne => ?_,
    ⟨has.knows.owns, has.knows.running, has.knows.fact⟩, ?_⟩
  · by_cases same : r = p
    · subst same
      exact nomatch mine.symm.trans free
    · obtain ⟨state, chan⟩ := now.2.2.asleep r c free waits
      exact ⟨state, (other same).trans chan⟩
  · by_cases same : r = p
    · subst same
      exact nomatch running.symm.trans state
    · exact now.2.2.waits r c state ((other same).symm.trans chan)
  · exact frame_proc ne mine rfl rfl (fun r ne => ⟨rfl, other ne, rfl⟩) (Sub.refl _) fun _ => id
  · have chan : Function.update s.chan p v p = v := Function.update_self ..
    change B' (s.state p) (Function.update s.chan p v p) (s.waits p)
    rw [chan]
    exact next _ _ _ has.about

/-- A process that has its own lock and is asleep, or on its way to be. -/
structure Asleep (p : Slot) (c : O.Chan) (V : O.Data → Prop) (s : State O) : Prop where
  owns : Owns (.proc p) [.proc p] s
  fact : V s.data
  state : s.state p = .SLEEPING
  chan : s.chan p = some c
  waits : s.waits p = some c

theorem stable_asleep (stable : ∀ d d', D.view (.proc p) d d' → V d → V d') : Stable D (.proc p) (Asleep p c V) := by
  intro s s' frame _ asleep
  obtain ⟨state, chan, waits⟩ := frame.own p ((asleep.owns _).mpr (by simp))
  exact ⟨asleep.owns.frame frame, stable _ _ frame.view asleep.fact, state.trans asleep.state, chan.trans asleep.chan,
    waits.trans asleep.waits⟩

theorem triple_setSleeping (stable : ∀ d d', D.view (.proc p) d d' → V d → V d') :
    Triple D (.proc p) (Has (.proc p) p [] (fun d _ => V d) fun _ ch w => ch = some c ∧ w = some c) (act .setSleeping)
      fun _ => Asleep p c V := by
  refine Triple.act (stable_has (Lasts.outside stable)) (fun _ => stable_asleep stable) fun s now has =>
    ⟨trivial, fun r s' ran => ?_⟩
  cases ran
  have mine : s.owner (.proc p) = some (.proc p) := (has.knows.owns _).mpr (by simp)
  have other {r : Slot} (ne : r ≠ p) : (s.setState p .SLEEPING).state r = s.state r := Function.update_of_ne ne ..
  have self : (s.setState p .SLEEPING).state p = .SLEEPING := Function.update_self ..
  refine ⟨⟨now.1, now.2.1, ⟨fun r c' free waits => ?_, fun r c' state chan => ?_⟩⟩, fun u ne => ?_,
    ⟨has.knows.owns, has.knows.fact, self, has.about.1, has.about.2⟩⟩
  · by_cases same : r = p
    · subst same
      exact nomatch mine.symm.trans free
    · obtain ⟨state, chan⟩ := now.2.2.asleep r c' free waits
      exact ⟨(other same).trans state, chan⟩
  · by_cases same : r = p
    · subst same
      exact has.about.2.trans (has.about.1.symm.trans chan)
    · exact now.2.2.waits r c' ((other same).symm.trans state) chan
  · refine frame_proc ne mine rfl rfl (fun r ne => ⟨other ne, rfl, rfl⟩) (Sub.refl _) fun here => ?_
    exact absurd here ne

/-- A process that is not running code, and its lock is not its own. -/
structure Away (p : Slot) (V : O.Data → Prop) (s : State O) : Prop where
  owns : Owns (.proc p) [] s
  fact : V s.data

theorem stable_away (stable : ∀ d d', D.view (.proc p) d d' → V d → V d') : Stable D (.proc p) (Away p V) :=
  fun _ _ frame _ away => ⟨away.owns.frame frame, stable _ _ frame.view away.fact⟩

theorem triple_swtch (stable : ∀ d d', D.view (.proc p) d d' → V d → V d') :
    Triple D (.proc p) (Asleep p c V) (act .swtch) fun _ => Away p V := by
  refine Triple.act (stable_asleep stable) (fun _ => stable_away stable) fun s now asleep =>
    ⟨trivial, fun r s' ran => ?_⟩
  cases ran
  have mine : s.owner (.proc p) = some (.proc p) := (asleep.owns _).mpr (by simp)
  refine ⟨⟨now.1, fun free => now.2.1 ?_, settled_setOwner now.2.2 fun q c' same _ waits => ?_⟩,
    fun u other => frame_setOwner other (.inr mine) (.inl rfl), owns_release asleep.owns (by simp), asleep.fact⟩
  · simpa [State.setOwner] using free
  · cases same
    cases asleep.waits.symm.trans waits
    exact ⟨asleep.state, asleep.chan⟩

theorem triple_resume (stable : ∀ d d', D.view (.proc p) d d' → V d → V d') :
    Triple D (.proc p) (Away p V) (act .resume) fun _ => Has (.proc p) p [] (fun d _ => V d) fun _ _ w => w = none := by
  refine Triple.act (stable_away stable) (fun _ => stable_has (Lasts.outside stable)) fun s now away =>
    ⟨trivial, fun r s' ran => ?_⟩
  simp only [exec, State.performProc] at ran
  split at ran
  case isFalse => cases ran
  case isTrue ready =>
    obtain ⟨free, runnable⟩ := ready
    cases ran
    have none : s.waits p = none := by
      by_contra some'
      obtain ⟨c, waits⟩ := Option.ne_none_iff_exists'.mp some'
      cases runnable.symm.trans (now.2.2.asleep p c free waits).1
    have other {r : Slot} (ne : r ≠ p) :
      ((s.setOwner (.proc p) (some (.proc p))).setState p .RUNNING).state r = s.state r :=
      Function.update_of_ne ne ..
    have self : ((s.setOwner (.proc p) (some (.proc p))).setState p .RUNNING).state p = .RUNNING :=
      Function.update_self ..
    refine ⟨⟨now.1, fun free' => now.2.1 ?_, ⟨fun r c free' waits => ?_, fun r c state chan => ?_⟩⟩, fun u ne => ?_,
      ⟨⟨owns_acquire away.owns, ?_, away.fact⟩, none⟩⟩
    · simpa [State.setOwner, State.setState] using free'
    · by_cases same : r = p
      · subst same
        cases none.symm.trans waits
      · obtain ⟨state, chan⟩ := now.2.2.asleep r c (by simpa [State.setOwner, State.setState, same] using free') waits
        exact ⟨(other same).trans state, chan⟩
    · by_cases same : r = p
      · subst same
        cases self.symm.trans state
      · exact now.2.2.waits r c ((other same).symm.trans state) chan
    · have taken : State.Frame D u s (s.setOwner (.proc p) (some (.proc p))) := frame_setOwner ne (.inl free) (.inr rfl)
      refine ⟨taken.locks, fun r owns => ⟨other ?_, rfl, rfl⟩, taken.inside, fun r here state => ?_, taken.view⟩
      · rintro rfl
        cases free.symm.trans owns
      · have different : r ≠ p := by
          rintro rfl
          exact ne here
        exact (other different).trans state
    · intro r same
      cases same
      exact self

/-- The caller leaves the object as its contract wants it, with itself asleep. -/
theorem triple_sleep (stable : ∀ d d', D.view (.proc p) d d' → V d → V d') (lasts : Lasts D (.proc p) [.cond] A)
    (inv : ∀ d w, D.always d → A d w → D.inv d (Function.update w p (some c))) (kept : ∀ d w, A d w → V d) :
    Triple D (.proc p) (Knows (.proc p) [.cond] A) (sleep p c) fun _ s =>
      ∃ d w, (D.always d ∧ D.inv d w ∧ V d) ∧ Inside D (.proc p) [.cond] d w s := by
  have outside : Lasts D (.proc p) [] fun d (_ : Waits O) => V d := Lasts.outside stable
  unfold sleep
  refine (triple_acquireProc lasts).bind fun _ => (triple_doze stable lasts inv kept).bind fun _ => ?_
  have named : Triple D (.proc p) (Has (.proc p) p [] (fun d _ => V d) fun _ _ w => w = some c)
    (act (.setChan (some c)))
      fun _ => Has (.proc p) p [] (fun d _ => V d) fun _ ch w => ch = some c ∧ w = some c :=
    triple_setChan outside fun _ _ _ there => ⟨rfl, there⟩
  have tidy : Triple D (.proc p) (Has (.proc p) p [] (fun d _ => V d) fun _ _ w => w = none) (act (.setChan none))
      fun _ => Has (.proc p) p [] (fun d _ => V d) fun _ _ w => w = none :=
    triple_setChan outside fun _ _ _ none => none
  refine named.bind fun _ => ?_
  refine (triple_setSleeping stable).bind fun _ => (triple_swtch stable).bind fun _ =>
    (triple_resume stable).bind fun _ => ?_
  refine tidy.bind fun _ => ?_
  refine (triple_releaseProc outside outside (by simp) ?_ fun _ _ _ _ fact _ => fact).bind fun _ =>
    triple_acquire stable
  intro _ _ w none c there
  exact nomatch none.symm.trans there

end Xv6Labs.Monitor
