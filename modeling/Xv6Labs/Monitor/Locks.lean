import Xv6Labs.Monitor.Rules

/-!
# One step at a time

The rules for the actions of `sleep`, `wakeup` and `kill`. A thread `Knows` which locks it has, and a fact `A` about the
data and the waiting processes; of a process whose lock it has it knows a fact `B` about its state, its channel and
what it waits for.
-/

namespace Xv6Labs.Monitor

open Threads Prog
open Proc (Slot ProcState)

variable {O : Object} {D : Duty O} {t u : Thread} {L : List Lock} {p q : Slot} {c : O.Chan} {s s' : State O}
  {A A' : O.Data → Waits O → Prop} {V : O.Data → Prop}

/-- The facts that a thread with the locks `L` can rely on. -/
def Lasts (D : Duty O) (t : Thread) (L : List Lock) (A : O.Data → Waits O → Prop) : Prop :=
  ∀ d d' w w', D.view t d d' → (.cond ∈ L → D.drift d d' ∧ Sub w' w) → A d w → A d' w'

def Owns (t : Thread) (L : List Lock) (s : State O) : Prop := ∀ lk, s.owner lk = some t ↔ lk ∈ L

def Running (t : Thread) (s : State O) : Prop := ∀ p, t = .proc p → s.state p = .RUNNING

structure Knows (t : Thread) (L : List Lock) (A : O.Data → Waits O → Prop) (s : State O) : Prop where
  owns : Owns t L s
  running : Running t s
  fact : A s.data s.waits

abbrev About (O : Object) : Type := ProcState → Option O.Chan → Option O.Chan → Prop

/-- Besides `L`, the thread has the lock of the process `q`. -/
structure Has (t : Thread) (q : Slot) (L : List Lock) (A : O.Data → Waits O → Prop) (B : About O)
    (s : State O) : Prop where
  knows : Knows t (.proc q :: L) A s
  about : B (s.state q) (s.chan q) (s.waits q)

theorem Owns.frame (owns : Owns t L s) (frame : State.Frame D t s s') : Owns t L s' :=
  fun lk => (frame.locks lk).symm.trans (owns lk)

theorem Lasts.frame (lasts : Lasts D t L A) (owns : Owns t L s) (frame : State.Frame D t s s')
    (fact : A s.data s.waits) :
    A s'.data s'.waits :=
  lasts _ _ _ _ frame.view (fun mem => frame.inside ((owns .cond).mpr mem)) fact

/-- A fact about the data alone. -/
theorem Lasts.outside (stable : ∀ d d', D.view t d d' → V d → V d') : Lasts D t L fun d _ => V d :=
  fun d d' _ _ view _ => stable d d' view

theorem Lasts.cons (lasts : Lasts D t L A) : Lasts D t (.proc q :: L) A := by
  intro d d' w w' view inside
  exact lasts d d' w w' view fun mem => inside (List.mem_cons_of_mem _ mem)

theorem stable_knows (lasts : Lasts D t L A) : Stable D t (Knows t L A) := by
  intro s s' frame _ knows
  refine ⟨knows.owns.frame frame, fun p same => frame.running p same (knows.running p same), ?_⟩
  exact lasts.frame knows.owns frame knows.fact

theorem stable_has {B : About O} (lasts : Lasts D t L A) : Stable D t (Has t q L A B) := by
  intro s s' frame inv has
  refine ⟨stable_knows lasts.cons s s' frame inv has.knows, ?_⟩
  obtain ⟨state, chan, waits⟩ := frame.own q ((has.knows.owns _).mpr List.mem_cons_self)
  rw [state, chan, waits]
  exact has.about

/-! ### What others see of a step -/

theorem frame_setOwner {lk : Lock} {v : Option Thread} (other : u ≠ t) (free : s.owner lk = none ∨ s.owner lk = some t)
    (value : v = none ∨ v = some t) : State.Frame D u s (s.setOwner lk v) where
  locks lk' := by
    by_cases same : lk' = lk
    · subst same
      simp only [State.setOwner, Function.update_self]
      constructor
      · intro mine
        rcases free with free | free
        · exact nomatch free.symm.trans mine
        · exact absurd (Option.some.inj (mine.symm.trans free)) other
      · rintro rfl
        rcases value with none | mine
        · cases none
        · exact absurd (Option.some.inj mine) other
    · simp only [State.setOwner, Function.update_of_ne same]
  own _ _ := ⟨rfl, rfl, rfl⟩
  inside _ := ⟨D.drift_refl _, Sub.refl _⟩
  running _ _ state := state
  view := D.view_refl u _

/-- A step that writes to nothing but a process whose lock the thread has. -/
theorem frame_proc (other : u ≠ t) (mine : s.owner (.proc q) = some t) (owner : s'.owner = s.owner)
    (data : s'.data = s.data) (same : ∀ r, r ≠ q → s'.state r = s.state r ∧ s'.chan r = s.chan r ∧
      s'.waits r = s.waits r)
    (sub : Sub s'.waits s.waits) (running : u = .proc q → s.state q = .RUNNING → s'.state q = .RUNNING) :
    State.Frame D u s s' where
  locks lk := by rw [owner]
  own r owns := by
    refine same r ?_
    rintro rfl
    exact absurd (Option.some.inj (owns.symm.trans mine)) other
  inside _ := by
    rw [data]
    exact ⟨D.drift_refl _, sub⟩
  running r here state := by
    by_cases there : r = q
    · subst there
      exact running here state
    · rw [(same r there).1]
      exact state
  view := by
    rw [data]
    exact D.view_refl u _

/-! ### Locks -/

theorem owns_acquire {lk : Lock} (owns : Owns t L s) : Owns t (lk :: L) (s.setOwner lk (some t)) := by
  intro lk'
  by_cases same : lk' = lk
  · subst same
    simp [State.setOwner]
  · simp only [State.setOwner, Function.update_of_ne same, List.mem_cons, same, false_or]
    exact owns lk'

theorem owns_release {lk : Lock} (owns : Owns t (lk :: L) s) (once : lk ∉ L) : Owns t L (s.setOwner lk none) := by
  intro lk'
  by_cases same : lk' = lk
  · subst same
    simp [State.setOwner, once]
  · simp only [State.setOwner, Function.update_of_ne same]
    rw [owns lk', List.mem_cons, or_iff_right same]

theorem settled_setOwner {lk : Lock} {v : Option Thread} (settled : s.Settled)
    (free : ∀ q c, lk = .proc q → v = none → s.waits q = some c → s.state q = .SLEEPING ∧ s.chan q = some c) :
    (s.setOwner lk v).Settled where
  asleep q c none waits := by
    by_cases same : Lock.proc q = lk
    · refine free q c same.symm ?_ waits
      simpa [State.setOwner, same] using none
    · refine settled.asleep q c ?_ waits
      simpa only [State.setOwner, Function.update_of_ne same] using none
  waits := settled.waits

/-- Inside, with everything as it was while the lock was free. -/
def Inside (D : Duty O) (t : Thread) (L : List Lock) (d : O.Data) (w : Waits O) : State O → Prop :=
  Knows t L fun d' w' => D.drift d d' ∧ Sub w' w

theorem lasts_drift {d : O.Data} {w : Waits O} (mem : .cond ∈ L) :
    Lasts D t L fun d' w' => D.drift d d' ∧ Sub w' w := by
  intro d₁ d₂ w₁ w₂ _ inside ⟨drift, sub⟩
  obtain ⟨drift', sub'⟩ := inside mem
  exact ⟨D.drift_trans drift drift', sub'.trans sub⟩

theorem triple_acquire (stable : ∀ d d', D.view t d d' → V d → V d') :
    Triple D t (Knows t [] fun d _ => V d) (acquire .cond) fun _ s =>
      ∃ d w, (D.always d ∧ D.inv d w ∧ V d) ∧ Inside D t [.cond] d w s := by
  refine Triple.act (stable_knows (Lasts.outside stable)) (fun _ s s' frame inv => ?_) fun s inv knows =>
    ⟨trivial, fun r s' ran => ?_⟩
  · rintro ⟨d, w, facts, inside⟩
    exact ⟨d, w, facts, stable_knows (lasts_drift List.mem_cons_self) s s' frame inv inside⟩
  · simp only [exec] at ran
    split at ran
    case isFalse => cases ran
    case isTrue free =>
      cases ran
      refine ⟨⟨inv.1, fun taken => ?_, settled_setOwner inv.2.2 fun q c same => nomatch same⟩,
        fun u other => frame_setOwner other (.inl free) (.inr rfl), s.data, s.waits, ⟨inv.1, inv.2.1 free, knows.fact⟩,
        owns_acquire knows.owns, knows.running, D.drift_refl _, Sub.refl _⟩
      simp [State.setOwner] at taken

theorem triple_release (stable : ∀ d d', D.view t d d' → V d → V d') (lasts : Lasts D t [.cond] A)
    (inv : ∀ d w, D.always d → A d w → D.inv d w) (kept : ∀ d w, A d w → V d) :
    Triple D t (Knows t [.cond] A) (release .cond) fun _ => Knows t [] fun d _ => V d := by
  refine Triple.act (stable_knows lasts) (fun _ => stable_knows (Lasts.outside stable)) fun s now knows =>
    ⟨trivial, fun r s' ran => ?_⟩
  cases ran
  have mine : s.owner .cond = some t := (knows.owns _).mpr List.mem_cons_self
  exact ⟨⟨now.1, fun _ => inv _ _ now.1 knows.fact, settled_setOwner now.2.2 fun q c same => nomatch same⟩,
    fun u other => frame_setOwner other (.inr mine) (.inl rfl), owns_release knows.owns (by simp), knows.running,
    kept _ _ knows.fact⟩

/-- Of a process whose lock was free. -/
def Calm (st : ProcState) (ch w : Option O.Chan) : Prop := ∀ c, w = some c → st = .SLEEPING ∧ ch = some c

theorem triple_acquireProc (lasts : Lasts D t L A) :
    Triple D t (Knows t L A) (acquire (.proc q)) fun _ => Has t q L A Calm := by
  refine Triple.act (stable_knows lasts) (fun _ => stable_has lasts) fun s inv knows => ⟨trivial, fun r s' ran => ?_⟩
  simp only [exec] at ran
  split at ran
  case isFalse => cases ran
  case isTrue free =>
    cases ran
    refine ⟨⟨inv.1, fun open' => inv.2.1 ?_, settled_setOwner inv.2.2 fun r c _ none => nomatch none⟩,
      fun u other => frame_setOwner other (.inl free) (.inr rfl),
      ⟨owns_acquire knows.owns, knows.running, knows.fact⟩, fun c waits => inv.2.2.asleep q c free waits⟩
    simpa [State.setOwner] using open'

theorem triple_releaseProc {B : About O} (lasts : Lasts D t L A) (lasts' : Lasts D t L A') (once : .proc q ∉ L)
    (calm : ∀ st ch w, B st ch w → Calm st ch w) (next : ∀ d w st ch, A d w → B st ch (w q) → A' d w) :
    Triple D t (Has t q L A B) (release (.proc q)) fun _ => Knows t L A' := by
  refine Triple.act (stable_has lasts) (fun _ => stable_knows lasts') fun s inv has => ⟨trivial, fun r s' ran => ?_⟩
  cases ran
  have mine : s.owner (.proc q) = some t := (has.knows.owns _).mpr List.mem_cons_self
  refine ⟨⟨inv.1, fun open' => inv.2.1 ?_, settled_setOwner inv.2.2 fun r c same _ waits => ?_⟩,
    fun u other => frame_setOwner other (.inr mine) (.inl rfl), owns_release has.knows.owns once, has.knows.running,
    next _ _ _ _ has.knows.fact has.about⟩
  · simpa [State.setOwner] using open'
  · cases same
    exact calm _ _ _ has.about c waits

/-! ### Wakeups -/

theorem triple_sleepsOn {B : About O} (lasts : Lasts D t L A) :
    Triple D t (Has t q L A B) (sleepsOn q c) fun r =>
      Has t q L A fun st ch w => B st ch w ∧ r = decide (st = .SLEEPING ∧ ch = some c) := by
  refine Triple.act (stable_has lasts) (fun _ => stable_has lasts) fun s inv has => ⟨trivial, fun r s' ran => ?_⟩
  cases ran
  exact ⟨inv, fun u _ => (terms D).refl u s, has.knows, has.about, rfl⟩

theorem triple_sleeps {B : About O} (lasts : Lasts D t L A) :
    Triple D t (Has t q L A B) (sleeps q) fun r => Has t q L A fun st ch w => B st ch w ∧
      r = decide (st = .SLEEPING) := by
  refine Triple.act (stable_has lasts) (fun _ => stable_has lasts) fun s inv has => ⟨trivial, fun r s' ran => ?_⟩
  cases ran
  exact ⟨inv, fun u _ => (terms D).refl u s, has.knows, has.about, rfl⟩

theorem sub_update_none (w : Waits O) : Sub (Function.update w q none) w := by
  intro r c there
  by_cases same : r = q
  · subst same
    simp at there
  · rwa [Function.update_of_ne same] at there

theorem triple_setRunnable {B : About O} (lasts : Lasts D t L A) (asleep : ∀ st ch w, B st ch w → st = .SLEEPING) :
    Triple D t (Has t q L A B) (act (.setRunnable q)) fun _ => Has t q L A fun _ _ w => w = none := by
  refine Triple.act (stable_has lasts) (fun _ => stable_has lasts) fun s inv has => ⟨trivial, fun r s' ran => ?_⟩
  cases ran
  have mine : s.owner (.proc q) = some t := (has.knows.owns _).mpr List.mem_cons_self
  have sleeping : s.state q = .SLEEPING := asleep _ _ _ has.about
  have other {r : Slot} (ne : r ≠ q) : ((s.setState q .RUNNABLE).setWaits q none).state r = s.state r ∧
      ((s.setState q .RUNNABLE).setWaits q none).chan r = s.chan r ∧
      ((s.setState q .RUNNABLE).setWaits q none).waits r = s.waits r :=
    ⟨Function.update_of_ne ne .., rfl, Function.update_of_ne ne ..⟩
  refine ⟨⟨inv.1, fun free => D.shrink (inv.2.1 free) (sub_update_none s.waits),
    ⟨fun r c free waits => ?_, fun r c state chan => ?_⟩⟩,
    fun u ne => frame_proc ne mine rfl rfl (fun r ne => other ne) (sub_update_none s.waits) fun _ running => ?_,
    ⟨has.knows.owns, fun r same => ?_, ?_⟩, Function.update_self ..⟩
  · by_cases same : r = q
    · subst same
      exact nomatch mine.symm.trans free
    · rw [(other same).2.2] at waits
      rw [(other same).1]
      exact inv.2.2.asleep r c free waits
  · by_cases same : r = q
    · subst same
      have now : ((s.setState r .RUNNABLE).setWaits r none).state r = .RUNNABLE := Function.update_self ..
      exact nomatch now.symm.trans state
    · rw [(other same).1] at state
      rw [(other same).2.2]
      exact inv.2.2.waits r c state chan
  · exact nomatch sleeping.symm.trans running
  · have running := has.knows.running r same
    have ne : r ≠ q := by
      rintro rfl
      exact nomatch sleeping.symm.trans running
    rw [(other ne).1]
    exact running
  · refine lasts s.data s.data s.waits _ (D.view_refl t _)
      (fun _ => ⟨D.drift_refl _, sub_update_none s.waits⟩) has.knows.fact

end Xv6Labs.Monitor
