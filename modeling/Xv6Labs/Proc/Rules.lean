import Xv6Labs.Proc.Tree

/-!
# One rule for each access to the process table

Each rule says what a thread with the locks `L` knows after it has taken one action. Accesses that leave the table
as it is come first, then locks, `swtch`, and writes to a process under its lock.
-/

namespace Xv6Labs.Proc

open Threads

abbrev Keeps {α : Type} (t : Thread) (p : Code α) (post : α → Kernel → Prop) (s : Kernel) : Prop :=
  keeps .free terms exec t p post s

variable {α β : Type} {t u : Thread} {L : List Lock} {s x y : Kernel} {c : Core} {p q : Slot} {a : Act}
  {post : α → Kernel → Prop}

theorem keeps_step {post : Res a → Kernel → Prop}
    (step : ∀ x : Kernel, terms.inv x → Frame t s.toTable x.toTable → ∀ c, x.runs c = t →
      Allowed c a x.toTable ∧ ∀ r x', x.perform c a = some (r, x') → terms.inv x' ∧
        (∀ u, u ≠ t → Frame u x.toTable x'.toTable) ∧
        ∀ y, terms.inv y → Frame t x'.toTable y.toTable → post r y) : Keeps t (act a) post s := by
  apply keeps_lift
  intro x frame inv
  refine ⟨fun c here => (step x inv.2 frame.2 c here).1, fun r x' ran _ _ => ?_⟩
  unfold exec at ran
  cases found : x.on t with
  | none =>
    rw [found] at ran
    cases ran
  | some c =>
    rw [found] at ran
    obtain ⟨-, next⟩ := step x inv.2 frame.2 c (runs_of_on found)
    obtain ⟨inv', others, post'⟩ := next r x' ran
    exact ⟨inv', others, fun y frame' inv'' => post' y inv''.2 frame'.2⟩

theorem keeps_act {post : Res a → Kernel → Prop} (has : s.Has t L)
    (step : ∀ x : Kernel, terms.inv x → x.Has t L → Past t L s.toTable x.toTable → ∀ c, x.runs c = t →
      x.Owns c L → Allowed c a x.toTable ∧ ∀ r x', x.perform c a = some (r, x') → terms.inv x' ∧
        (∀ u, u ≠ t → Frame u x.toTable x'.toTable) ∧
        ∀ y, terms.inv y → Frame t x'.toTable y.toTable → post r y) : Keeps t (act a) post s := by
  apply keeps_step
  intro x inv frame c here
  obtain ⟨has', past⟩ := frame.on L has
  exact step x inv has' past c here (has_owner inv.1 has' here)

/-! ### Accesses that leave the table as it is -/

theorem keeps_quiet {post : Res a → Kernel → Prop} (has : s.Has t L)
    (step : ∀ x : Kernel, terms.inv x → Past t L s.toTable x.toTable → ∀ c, x.runs c = t → x.Owns c L →
      Allowed c a x.toTable ∧ ∀ r x', x.perform c a = some (r, x') → x'.toTable = x.toTable ∧
        (∀ d, (x'.hart d).sie = true → (x.cpu d).noff = 0) ∧
        ∀ y, terms.inv y → y.Has t L → Past t L x'.toTable y.toTable → post r y) : Keeps t (act a) post s := by
  apply keeps_act has
  intro x inv has' past c here owns
  obtain ⟨ok, next⟩ := step x inv past c here owns
  refine ⟨ok, fun r x' ran => ?_⟩
  obtain ⟨same, sie, post'⟩ := next r x' ran
  refine ⟨⟨by rw [same]; exact inv.1, fun d on => by rw [same]; exact sie d on⟩, ?_, ?_⟩
  · intro u _
    rw [same]
    exact .refl
  · intro y inv' frame
    rw [same] at frame
    obtain ⟨has'', past'⟩ := frame.on L has'
    rw [← same] at past'
    exact post' y inv' has'' past'

/-- A read, or a write to something that the table does not have. -/
def Silent (a : Act) : Prop :=
  ∀ (x : Kernel) c r x', x.perform c a = some (r, x') → x'.toTable = x.toTable ∧
    ∀ d, (x'.hart d).sie = true → (x.hart d).sie = true

theorem silent_of (h : ∀ (x : Kernel) c, ∃ r x', x.perform c a = some (r, x') ∧ x'.toTable = x.toTable ∧
    x'.hart = x.hart) : Silent a := by
  intro x c r x' ran
  obtain ⟨r', y, ran', same, hart⟩ := h x c
  rw [ran] at ran'
  cases ran'
  exact ⟨same, fun d on => by rwa [hart] at on⟩

/-- A write to the registers of the CPU that does not turn interrupts on. -/
theorem silent_of_hart (h : ∀ (x : Kernel) c r x', x.perform c a = some (r, x') → x'.toTable = x.toTable ∧
    ∃ v, x'.hart = Function.update x.hart c v ∧ (v.sie = true → (x.hart c).sie = true)) : Silent a := by
  intro x c r x' ran
  obtain ⟨same, v, hart, sie⟩ := h x c r x' ran
  refine ⟨same, fun d on => ?_⟩
  rw [hart, Function.update_apply] at on
  split at on
  case isTrue here =>
    rw [here]
    exact sie on
  case isFalse => exact on

theorem keeps_silent {post : Res a → Kernel → Prop} (has : s.Has t L) (silent : Silent a)
    (ok : ∀ x : Kernel, terms.inv x → Past t L s.toTable x.toTable → ∀ c, x.runs c = t → x.Owns c L →
      Allowed c a x.toTable)
    (after : ∀ r y, terms.inv y → y.Has t L → Past t L s.toTable y.toTable → post r y) :
    Keeps t (act a) post s := by
  apply keeps_quiet has
  intro x inv past c here owns
  refine ⟨ok x inv past c here owns, fun r x' ran => ?_⟩
  obtain ⟨same, sie⟩ := silent x c r x' ran
  refine ⟨same, fun d on => inv.2 d (sie d on), fun y inv' has' past' => ?_⟩
  rw [same] at past'
  exact after r y inv' has' (past.trans past')

theorem keeps_aside {post : Res a → Kernel → Prop} (has : s.Has t L) (ok : ∀ c x, Allowed c a x) (silent : Silent a)
    (after : ∀ r y, terms.inv y → y.Has t L → Past t L s.toTable y.toTable → post r y) :
    Keeps t (act a) post s := keeps_silent has silent (fun x _ _ c _ _ => ok c x.toTable) after

theorem keeps_look {post : Process → Kernel → Prop} (has : s.Has t L)
    (after : ∀ x y : Kernel, terms.inv x → terms.inv y → y.Has t L → Past t L s.toTable x.toTable →
      Past t L x.toTable y.toTable → post (x.proc p) y) : Keeps t (look p) post s := by
  apply keeps_quiet has
  intro x inv past c here owns
  refine ⟨trivial, fun r x' ran => ?_⟩
  cases ran
  exact ⟨rfl, inv.2, fun y inv' has' past' => after x y inv inv' has' past past'⟩

/-- A read of a process under its lock. -/
theorem keeps_look_locked {post : Process → Kernel → Prop} (has : s.Has t L) (locked : .proc p ∈ L)
    (after : ∀ y : Kernel, terms.inv y → y.Has t L → Past t L s.toTable y.toTable → y.proc p = s.proc p →
      post (s.proc p) y) : Keeps t (look p) post s := by
  apply keeps_look has
  intro x y _ inv has' past past'
  have same := (past.same p locked).1
  rw [same]
  exact after y inv has' (past.trans past') ((past'.same p locked).1.trans same)

theorem keeps_initproc {post : Option Slot → Kernel → Prop} (has : s.Has t L)
    (after : ∀ x y : Kernel, terms.inv x → terms.inv y → y.Has t L → Past t L s.toTable x.toTable →
      Past t L x.toTable y.toTable → post x.initproc y) : Keeps t (act .initproc) post s := by
  apply keeps_quiet has
  intro x inv past c here owns
  refine ⟨trivial, fun r x' ran => ?_⟩
  cases ran
  exact ⟨rfl, inv.2, fun y inv' has' past' => after x y inv inv' has' past past'⟩

/-- `c->proc` is the process that calls. -/
theorem keeps_myproc {post : Slot → Kernel → Prop} (has : s.Has (.proc p) L)
    (after : ∀ y : Kernel, terms.inv y → y.Has (.proc p) L → Past (.proc p) L s.toTable y.toTable → post p y) :
    Keeps (.proc p) myproc post s := by
  apply keeps_bind
  apply keeps_quiet has
  intro x inv past c here owns
  refine ⟨trivial, fun r x' ran => ?_⟩
  cases ran
  refine ⟨rfl, inv.2, fun y inv' has' past' => ?_⟩
  have current := inv.1.thread c p here
  rw [current]
  apply keeps_ret
  intro z frame inv''
  obtain ⟨has'', past''⟩ := frame.2.on L has'
  exact after z inv''.2 has'' ((past.trans past').trans past'')

theorem keeps_pure {post : α → Kernel → Prop} {v : α} (has : s.Has t L)
    (after : ∀ y : Kernel, terms.inv y → y.Has t L → Past t L s.toTable y.toTable → post v y) :
    Keeps t (pure v) post s := by
  apply keeps_ret
  intro y frame inv
  obtain ⟨has', past⟩ := frame.2.on L has
  exact after y inv.2 has' past

theorem keeps_holding {post : Bool → Kernel → Prop} {lk : Lock} (has : s.Has t L) (held : lk ∈ L)
    (after : ∀ y : Kernel, terms.inv y → y.Has t L → Past t L s.toTable y.toTable → post true y) :
    Keeps t (act (.holding lk)) post s := by
  apply keeps_quiet has
  intro x inv past c here owns
  refine ⟨trivial, fun r x' ran => ?_⟩
  cases ran
  refine ⟨rfl, inv.2, fun y inv' has' past' => ?_⟩
  rw [decide_eq_true ((owns.mem lk).mpr held)]
  exact after y inv' has' (past.trans past')

theorem keeps_noff {post : ℕ → Kernel → Prop} (has : s.Has t L)
    (after : ∀ y : Kernel, terms.inv y → y.Has t L → Past t L s.toTable y.toTable → post L.length y) :
    Keeps t (act .noff) post s := by
  apply keeps_quiet has
  intro x inv past c here owns
  refine ⟨trivial, fun r x' ran => ?_⟩
  cases ran
  refine ⟨rfl, inv.2, fun y inv' has' past' => ?_⟩
  rw [owns.noff]
  exact after y inv' has' (past.trans past')

/-- Interrupts are off while a lock is held. -/
theorem keeps_intrGet {post : Bool → Kernel → Prop} (has : s.Has t L) (some : L ≠ [])
    (after : ∀ y : Kernel, terms.inv y → y.Has t L → Past t L s.toTable y.toTable → post false y) :
    Keeps t (act .intrGet) post s := by
  apply keeps_quiet has
  intro x inv past c here owns
  refine ⟨trivial, fun r x' ran => ?_⟩
  cases ran
  refine ⟨rfl, inv.2, fun y inv' has' past' => ?_⟩
  have off : (x.hart c).sie = false := by
    by_contra on
    have noff := inv.2 c (by simpa using on)
    rw [owns.noff] at noff
    exact some (List.length_eq_zero_iff.mp noff)
  rw [off]
  exact after y inv' has' (past.trans past')

theorem keeps_intrOn {post : Unit → Kernel → Prop} (has : s.Has t [])
    (after : ∀ y : Kernel, terms.inv y → y.Has t [] → Past t [] s.toTable y.toTable → post () y) :
    Keeps t (act .intrOn) post s := by
  apply keeps_quiet has
  intro x inv past c here owns
  refine ⟨trivial, fun r x' ran => ?_⟩
  cases ran
  refine ⟨rfl, fun d on => ?_, fun y inv' has' past' => after y inv' has' (past.trans past')⟩
  by_cases same : d = c
  · rw [same]
    exact owns.noff
  · rw [Kernel.putHart_of_ne _ same] at on
    exact inv.2 d on

/-! ### Locks -/

/-- Two tables that differ in the locks of one CPU. -/
structure Locking (c : Core) (s x : Table) : Prop where
  proc : x.proc = s.proc
  initproc : x.initproc = s.initproc
  births : x.births = s.births
  notes : x.notes = s.notes
  current : ∀ d, (x.cpu d).proc = (s.cpu d).proc
  thread : ∀ d, (x.cpu d).thread = (s.cpu d).thread
  cpus : ∀ d, d ≠ c → x.cpu d = s.cpu d
  owners : ∀ d lk, d ≠ c → (x.owner lk = some d ↔ s.owner lk = some d)

namespace Locking

variable {s x : Table} (h : Locking c s x)

include h

theorem runs (d : Core) : x.runs d = s.runs d := by
  unfold Table.runs
  rw [h.thread d]

theorem past : Past t L s x where
  toSince := .of_same h.proc h.initproc h.births.ge h.notes
  same q _ := ⟨by rw [h.proc], fun d => by rw [h.current d]⟩
  running p _ state := by rwa [h.proc]
  proc d _ := h.current d

theorem frame (here : s.runs c = t) (other : u ≠ t) : Frame u s x where
  since := h.past.toSince
  on L has := ⟨has_other here other has h.cpus h.owners, h.past⟩
  offProc p _ off := .inl fun d there => off d (by rw [← h.runs d]; exact there)
  offSched d p _ away := .inl (by rw [h.thread d]; exact away)

theorem settled (free : s.Settled p) : x.Settled p where
  running := by
    rw [h.proc, free.running]
    simp only [h.current]
  unused := by
    rw [h.proc]
    exact free.unused
  blank := by
    rw [h.proc]
    exact free.blank

theorem inv (inv : s.Inv) (owns : x.Owns c L) (idle : s.runs c = .sched c → (x.cpu c).noff = 0 → (s.cpu c).proc = none)
    (free : ∀ p, x.owner (.proc p) = none → s.Settled p)
    (held : ∀ p d, s.owner (.proc p) = some d → (s.proc p).parent ≠ none → (s.proc p).state = .UNUSED →
      x.owner (.proc p) = some d) : x.Inv where
  thread d p there := by
    rw [h.runs d] at there
    rw [h.current d]
    exact inv.thread d p there
  unique d d' p there there' := by
    rw [h.current d] at there
    rw [h.current d'] at there'
    exact inv.unique d d' p there there'
  held d lk owner := by
    by_cases same : d = c
    · subst same
      rw [owns.noff]
      exact Nat.pos_iff_ne_zero.mp (List.length_pos_of_mem ((owns.mem lk).mp owner))
    · rw [h.cpus d same]
      exact inv.held d lk ((h.owners d lk same).mp owner)
  idle d there noff := by
    rw [h.runs d] at there
    rw [h.current d]
    by_cases same : d = c
    · subst same
      exact idle there noff
    · rw [h.cpus d same] at noff
      exact inv.idle d there noff
  settled p owner := h.settled (free p owner)
  tree := by
    have tree := inv.tree
    constructor
    · rw [h.initproc, h.proc]
      exact tree.before
    · rw [h.initproc, h.proc]
      exact tree.init
    · unfold Table.Alive
      rw [h.initproc, h.proc]
      exact tree.parent
    · intro q r state parent
      rw [h.proc] at state parent
      obtain ⟨d, owner, there⟩ := tree.building q r state parent
      exact ⟨d, held q d owner (by simp [parent]) state, by rw [h.runs d]; exact there⟩
    · rw [h.births, h.proc]
      exact tree.births
    · rw [h.proc]
      exact tree.born
    · rw [h.proc]
      exact tree.distinct
    · rw [h.initproc, h.proc]
      exact tree.eldest
    · rw [h.initproc, h.proc]
      exact tree.asleep

end Locking

theorem locking_acquire {lk : Lock} (free : s.owner lk = none) :
    Locking c s.toTable ((s.pushOff c).setOwner lk (some c)).toTable where
  proc := rfl
  initproc := rfl
  births := rfl
  notes := rfl
  current d := by
    by_cases same : d = c
    · subst same
      simp [Kernel.setOwner, Kernel.pushOff]
    · simp [Kernel.setOwner, Kernel.pushOff, Kernel.putCpu_of_ne _ same, Kernel.putHart]
  thread d := by
    by_cases same : d = c
    · subst same
      simp [Kernel.setOwner, Kernel.pushOff]
    · simp [Kernel.setOwner, Kernel.pushOff, Kernel.putCpu_of_ne _ same, Kernel.putHart]
  cpus d other := by simp [Kernel.setOwner, Kernel.pushOff, Kernel.putCpu_of_ne _ other, Kernel.putHart]
  owners d k other := by
    by_cases same : k = lk
    · subst same
      simp [Kernel.setOwner, free, other.symm]
    · simp [Kernel.setOwner, Kernel.pushOff, Function.update_of_ne same, Kernel.putCpu, Kernel.putHart]

theorem locking_release {lk : Lock} (held : s.owner lk = some c) :
    Locking c s.toTable ((s.setOwner lk none).popOff c).toTable where
  proc := rfl
  initproc := rfl
  births := rfl
  notes := rfl
  current d := by
    by_cases same : d = c
    · subst same
      simp [Kernel.setOwner, Kernel.popOff]
    · simp [Kernel.setOwner, Kernel.popOff, Kernel.putCpu_of_ne _ same, Kernel.putHart]
  thread d := by
    by_cases same : d = c
    · subst same
      simp [Kernel.setOwner, Kernel.popOff]
    · simp [Kernel.setOwner, Kernel.popOff, Kernel.putCpu_of_ne _ same, Kernel.putHart]
  cpus d other := by simp [Kernel.setOwner, Kernel.popOff, Kernel.putCpu_of_ne _ other, Kernel.putHart]
  owners d k other := by
    by_cases same : k = lk
    · subst same
      simp [Kernel.setOwner, Kernel.popOff, Kernel.putCpu, Kernel.putHart, held, other.symm]
    · simp [Kernel.setOwner, Kernel.popOff, Function.update_of_ne same, Kernel.putCpu, Kernel.putHart]

theorem owns_acquire {lk : Lock} (free : s.owner lk = none) (owns : s.Owns c L) :
    ((s.pushOff c).setOwner lk (some c)).Owns c (lk :: L) where
  nodup := by
    refine List.nodup_cons.mpr ⟨fun held => ?_, owns.nodup⟩
    have owner := (owns.mem lk).mpr held
    simp [free] at owner
  mem k := by
    by_cases same : k = lk
    · subst same
      simp [Kernel.setOwner]
    · have iff := owns.mem k
      simpa [Kernel.setOwner, Kernel.pushOff, Function.update_of_ne same, Kernel.putCpu, Kernel.putHart, same]
        using iff
  noff := by simp [Kernel.setOwner, Kernel.pushOff, owns.noff]

theorem owns_release {lk : Lock} (held : lk ∈ L) (owns : s.Owns c L) :
    ((s.setOwner lk none).popOff c).Owns c (L.erase lk) where
  nodup := owns.nodup.erase lk
  mem k := by
    rw [owns.nodup.mem_erase_iff]
    by_cases same : k = lk
    · subst same
      simp [Kernel.setOwner, Kernel.popOff, Kernel.putCpu, Kernel.putHart]
    · have iff := owns.mem k
      simpa [Kernel.setOwner, Kernel.popOff, Function.update_of_ne same, Kernel.putCpu, Kernel.putHart, same]
        using iff
  noff := by simp [Kernel.setOwner, Kernel.popOff, owns.noff, List.length_erase_of_mem held]

theorem sie_acquire {lk : Lock} (inv : terms.inv s) (d : Core)
    (on : (((s.pushOff c).setOwner lk (some c)).hart d).sie = true) :
    (((s.pushOff c).setOwner lk (some c)).cpu d).noff = 0 := by
  by_cases same : d = c
  · subst same
    simp [Kernel.setOwner, Kernel.pushOff, Kernel.putCpu] at on
  · have hart : (((s.pushOff c).setOwner lk (some c)).hart d) = s.hart d := Kernel.putHart_of_ne _ same _
    rw [hart] at on
    have cpu : ((s.pushOff c).setOwner lk (some c)).cpu d = s.cpu d := Kernel.putCpu_of_ne _ same _
    rw [cpu]
    exact inv.2 d on

theorem sie_release {lk : Lock} (inv : terms.inv s) (off : (s.hart c).sie = false) (d : Core)
    (on : (((s.setOwner lk none).popOff c).hart d).sie = true) :
    (((s.setOwner lk none).popOff c).cpu d).noff = 0 := by
  by_cases same : d = c
  · subst same
    have noff : (((s.setOwner lk none).popOff d).cpu d).noff = (s.cpu d).noff - 1 := by
      simp [Kernel.setOwner, Kernel.popOff]
    rw [noff]
    by_contra more
    have stays : (((s.setOwner lk none).popOff d).hart d).sie = (s.hart d).sie := by
      simp [Kernel.setOwner, Kernel.popOff, Kernel.putCpu, more]
    rw [stays, off] at on
    cases on
  · have hart : (((s.setOwner lk none).popOff c).hart d) = s.hart d := Kernel.putHart_of_ne _ same _
    rw [hart] at on
    have cpu : ((s.setOwner lk none).popOff c).cpu d = s.cpu d := Kernel.putCpu_of_ne _ same _
    rw [cpu]
    exact inv.2 d on

theorem Past.settled {s x : Table} (past : Past t L s x) (locked : .proc p ∈ L) (settled : s.Settled p) :
    x.Settled p := by
  obtain ⟨same, iff⟩ := past.same p locked
  constructor <;> rw [same]
  · rw [settled.running]
    simp only [iff]
  · exact settled.unused
  · exact settled.blank

/-- A process whose lock was free is settled. -/
theorem keeps_acquire_after {post : Unit → Kernel → Prop} {lk : Lock} (has : s.Has t L)
    (order : ∀ x : Kernel, terms.inv x → x.Has t L → Past t L s.toTable x.toTable → ∀ q, lk = .proc q →
      ∀ r, .proc r ∈ L → x.rank r < x.rank q ∨
        ∃ p, t = .proc p ∧ x.Alive p ∧ (x.notes p).remembered = some r ∧ x.rank p ≤ x.rank q)
    (after : ∀ y : Kernel, terms.inv y → y.Has t (lk :: L) → Past t L s.toTable y.toTable →
      (∀ p, lk = .proc p → y.Settled p) → post () y) : Keeps t (acquire lk) post s := by
  apply keeps_act has
  intro x inv has' past c here owns
  refine ⟨?_, fun r x' ran => ?_⟩
  · cases lk with
    | proc q =>
      intro r held
      rcases order x inv has' past q rfl r ((owns.mem _).mp held) with below | ⟨p, rfl, noted⟩
      · exact .inl below
      · exact .inr ⟨p, here, noted⟩
    | _ => exact trivial
  unfold Kernel.perform at ran
  dsimp only at ran
  split at ran
  case isFalse => cases ran
  case isTrue free =>
    cases ran
    have change := locking_acquire (c := c) free
    refine ⟨⟨change.inv inv.1 (owns_acquire free owns) (fun _ noff => ?_) (fun p owner => ?_) fun p d owner _ _ =>
      ?_, sie_acquire inv⟩,
      fun u other => change.frame here other, fun y inv' frame => ?_⟩
    · rw [(owns_acquire free owns).noff] at noff
      cases noff
    · by_cases same : Lock.proc p = lk
      · rw [same] at owner
        simp [Kernel.setOwner] at owner
      · apply inv.1.settled p
        simpa [Kernel.setOwner, Kernel.pushOff, Function.update_of_ne same, Kernel.putCpu, Kernel.putHart] using owner
    · have other : Lock.proc p ≠ lk := by
        rintro rfl
        simp [free] at owner
      simpa [Kernel.setOwner, Kernel.pushOff, Function.update_of_ne other, Kernel.putCpu, Kernel.putHart] using owner
    · obtain ⟨has'', past'⟩ := frame.on (lk :: L) ⟨c, (change.runs c).trans here, owns_acquire free owns⟩
      apply after y inv' has''
      · exact past.trans (change.past.trans (past'.mono fun _ => List.mem_cons_of_mem lk))
      · rintro p rfl
        exact past'.settled (by simp) (change.settled (inv.1.settled p free))

/-- A lock that is taken when no process is locked. -/
theorem keeps_acquire {post : Unit → Kernel → Prop} {lk : Lock} (has : s.Has t L)
    (clear : ∀ q r, lk = .proc q → .proc r ∉ L)
    (after : ∀ y : Kernel, terms.inv y → y.Has t (lk :: L) → Past t L s.toTable y.toTable →
      (∀ p, lk = .proc p → y.Settled p) → post () y) : Keeps t (acquire lk) post s :=
  keeps_acquire_after has (fun _ _ _ _ q same r held => absurd held (clear q r same)) after

theorem alone_of_settled {s : Table} (settled : s.Settled q) (stopped : (s.proc q).state ≠ .RUNNING) (d : Core) :
    (s.cpu d).proc ≠ some q := fun there => stopped (settled.running.mpr ⟨d, there⟩)

/-- A scheduler that has no lock has no process. -/
theorem keeps_release_any {post : Unit → Kernel → Prop} {lk : Lock} (has : s.Has t L) (held : lk ∈ L)
    (calm : Calm t s.toTable) (settled : ∀ p, lk = .proc p → s.Settled p)
    (after : ∀ y : Kernel, terms.inv y → y.Has t (L.erase lk) → Past t (L.erase lk) s.toTable y.toTable →
      post () y) : Keeps t (release lk) post s := by
  apply keeps_act has
  intro x inv has' past c here owns
  refine ⟨(owns.mem lk).mpr held, fun r x' ran => ?_⟩
  unfold Kernel.perform at ran
  dsimp only at ran
  split at ran
  case isFalse => cases ran
  case isTrue can =>
    obtain ⟨owner, off, -⟩ := can
    cases ran
    have change := locking_release (c := c) owner
    have now (p : Slot) (same : lk = .proc p) : x.Settled p := by
      apply past.settled _ (settled p same)
      rwa [← same]
    refine ⟨⟨change.inv inv.1 (owns_release held owns) (fun there _ => ?_) (fun p owner => ?_)
      fun p d owner parent state => ?_, sie_release inv off⟩, fun u other => change.frame here other,
        fun y inv' frame => ?_⟩
    · have me := here.symm.trans there
      exact calm.past past c me
    · by_cases same : Lock.proc p = lk
      · exact now p same.symm
      · apply inv.1.settled p
        simpa [Kernel.setOwner, Kernel.popOff, Function.update_of_ne same, Kernel.putCpu, Kernel.putHart] using owner
    · have other : Lock.proc p ≠ lk := fun same => parent ((now p same.symm).unused state)
      simpa [Kernel.setOwner, Kernel.popOff, Function.update_of_ne other, Kernel.putCpu, Kernel.putHart] using owner
    · obtain ⟨has'', past'⟩ := frame.on (L.erase lk) ⟨c, (change.runs c).trans here, owns_release held owns⟩
      apply after y inv' has''
      have fewer : ∀ k, k ∈ L.erase lk → k ∈ L := fun _ => List.mem_of_mem_erase
      exact (past.mono fewer).trans (change.past.trans past')

theorem keeps_release {post : Unit → Kernel → Prop} {lk : Lock} (has : s.Has (.proc p) L) (held : lk ∈ L)
    (settled : ∀ p, lk = .proc p → s.Settled p)
    (after : ∀ y : Kernel, terms.inv y → y.Has (.proc p) (L.erase lk) →
      Past (.proc p) (L.erase lk) s.toTable y.toTable → post () y) : Keeps (.proc p) (release lk) post s :=
  keeps_release_any has held calm_proc settled after

/-! ### Writes to a process under its lock -/

structure Wrote (t : Thread) (L : List Lock) (q : Slot) (v : Process) (s y : Table) : Prop where
  init : ∀ i, s.initproc = some i → y.initproc = some i
  births : s.births ≤ y.births
  proc : y.proc q = v
  cpus : ∀ c, (y.cpu c).proc = some q ↔ (s.cpu c).proc = some q
  same : ∀ k, k ≠ q → .proc k ∈ L → y.proc k = s.proc k ∧ ∀ c, (y.cpu c).proc = some k ↔ (s.cpu c).proc = some k
  running : ∀ p, t = .proc p → p ≠ q → (s.proc p).state = .RUNNING → (y.proc p).state = .RUNNING
  current : ∀ c, t = .sched c → (y.cpu c).proc = (s.cpu c).proc
  notes : ∀ p, t = .proc p → p ≠ q → y.notes p = s.notes p ∨ y.notes p = {} ∧ ¬s.Alive p

theorem wrote_of {s x y : Table} {v : Process} (locked : .proc q ∈ L) (past : Past t L s x)
    (past' : Past t L (x.put q v) y) : Wrote t L q v s y where
  init i found := past'.init i (past.init i found)
  births := past.births.trans past'.births
  proc := by rw [(past'.same q locked).1, Table.put_self]
  cpus c := ((past'.same q locked).2 c).trans ((past.same q locked).2 c)
  same k ne held := by
    obtain ⟨same, iff⟩ := past.same k held
    obtain ⟨same', iff'⟩ := past'.same k held
    rw [Table.put_of_ne ne] at same'
    exact ⟨same'.trans same, fun c => (iff' c).trans (iff c)⟩
  running p me ne state := by
    apply past'.running p me
    rw [Table.put_of_ne ne]
    exact past.running p me state
  current c me := (past'.proc c me).trans (past.proc c me)
  notes p me ne := by
    rcases past'.notes p me with same | ⟨blank, dead⟩
    · rw [same]
      exact past.notes p me
    · refine .inr ⟨blank, fun alive => dead ?_⟩
      unfold Table.Alive
      rw [Table.put_of_ne ne]
      exact (past.own p me alive).1

theorem keeps_put {post : Res a → Kernel → Prop} {v : Process} (has : s.Has t L) (locked : .proc q ∈ L)
    (allowed : ∀ x : Kernel, terms.inv x → Past t L s.toTable x.toTable → x.proc q = s.proc q →
      ∀ c, x.runs c = t → x.owner (.proc q) = some c → Allowed c a x.toTable)
    (effect : ∀ (x : Kernel) c r x', x.proc q = s.proc q → x.perform c a = some (r, x') →
      x'.toTable = x.toTable.put q v ∧ x'.hart = x.hart)
    (tree : ∀ x : Kernel, terms.inv x → Past t L s.toTable x.toTable → x.proc q = s.proc q →
      ∀ c, x.runs c = t → x.Owns c L → (x.toTable.put q v).Tree)
    (others : ∀ x : Kernel, terms.inv x → Past t L s.toTable x.toTable → x.proc q = s.proc q →
      ∀ c, x.runs c = t → x.Owns c L → ∀ u, u ≠ t → (∀ L', x.Has u L' ∨ L' = [] → Mild u L' x.toTable q v) ∧
        (u = .proc q → (s.proc q).state = .RUNNING → v.state = .RUNNING))
    (after : ∀ (x y : Kernel) r, terms.inv x → terms.inv y → y.Has t L → Past t L s.toTable x.toTable →
      x.proc q = s.proc q → Past t L (x.toTable.put q v) y.toTable → post r y) : Keeps t (act a) post s := by
  apply keeps_act has
  intro x inv has' past c here owns
  have same := (past.same q locked).1
  have owner := (owns.mem _).mpr locked
  refine ⟨allowed x inv past same c here owner, fun r x' ran => ?_⟩
  obtain ⟨table, hart⟩ := effect x c r x' same ran
  refine ⟨⟨?_, fun d on => ?_⟩, fun u other => ?_, fun y inv' frame => ?_⟩
  · rw [table]
    exact put_inv inv.1 (by simp [owner]) (tree x inv past same c here owns)
  · rw [table]
    rw [hart] at on
    exact inv.2 d on
  · rw [table]
    obtain ⟨mild, running⟩ := others x inv past same c here owns u other
    exact put_frame here owner other mild fun me state => running me (by rwa [← same])
  · rw [table] at frame
    obtain ⟨has'', past'⟩ := frame.on L (put_has has')
    exact after x y r inv inv' has'' past same past'

theorem set_effect {f : Field} {v : Process} (value : f.write (s.proc q) = v) (x : Kernel) (c : Core) (r : Unit)
    (x' : Kernel) (same : x.proc q = s.proc q) (ran : x.perform c (.set q f) = some (r, x')) :
    x'.toTable = x.toTable.put q v ∧ x'.hart = x.hart := by
  cases ran
  constructor
  · rw [same, value]
    simp only [Kernel.putProc, Table.put, Kernel.wake_toTable]
  · exact x.wake_hart q f

theorem freeproc_effect {w : Option (Int × Option Int)} (x : Kernel) (c : Core) (r : Unit) (x' : Kernel)
    (_ : x.proc q = s.proc q) (ran : x.perform c (.freeproc q w) = some (r, x')) :
    x'.toTable = x.toTable.put q {} ∧ x'.hart = x.hart := by
  cases ran
  constructor
  · have table := x.reap_toTable c q w
    simp only [Kernel.putProc, Table.put, table]
  · exact x.reap_hart c q w

/-- A process that lives on under the same parent. -/
theorem keeps_set_alive {post : Unit → Kernel → Prop} {f : Field} {v : Process} (has : s.Has t L)
    (locked : .proc q ∈ L) (value : f.write (s.proc q) = v) (notPid : ∀ w, f ≠ .pid w) (alive : s.Alive q)
    (used : v.state ≠ .UNUSED)
    (live : v.state ≠ .ZOMBIE) (parent : v.parent = (s.proc q).parent) (birth : v.birth = (s.proc q).birth)
    (running : t ≠ .proc q → (s.proc q).state = .RUNNING → v.state = .RUNNING)
    (asleep : v.state = .SLEEPING → v.chan = some (.proc q) → t = .proc q ∧
      (s.initproc ≠ some q → ∀ k, (s.proc k).parent = some q → (s.proc k).state ≠ .ZOMBIE))
    (after : ∀ y : Kernel, terms.inv y → y.Has t L → Since t L s.toTable y.toTable →
      Wrote t L q v s.toTable y.toTable → post () y) : Keeps t (set q f) post s := by
  have mild (u : Thread) (L' : List Lock) (x : Kernel) (same : x.proc q = s.proc q) : Mild u L' x.toTable q v := by
    rw [← same] at parent birth
    apply mild_alive _ used live parent birth
    unfold Table.Alive
    rwa [same]
  refine keeps_put (a := .set q f) has locked ?_ (set_effect value) ?_ ?_ ?_
  · intro x inv past same c here owner
    have alive' : x.Alive q := by
      unfold Table.Alive
      rwa [same]
    refine ⟨owner, ?_⟩
    cases f with
    | state w =>
      rw [← value] at used live
      exact ⟨used, alive'.2, fun unused => absurd unused alive'.1, fun zombie => absurd zombie live⟩
    | xstate w => exact alive'
    | pid w => exact absurd rfl (notPid w)
    | _ => exact trivial
  · intro x inv past same c here owns
    rw [← same] at parent birth
    apply inv.1.tree.put_alive _ used live parent birth
    · intro state chan notInit k child
      obtain ⟨me, kids⟩ := asleep state chan
      have child' := past.nobody q k me notInit child
      have notInit' : s.initproc ≠ some q := fun found => notInit (past.init q found)
      exact past.waiting q k me locked notInit child' (kids notInit' k child')
    · unfold Table.Alive
      rwa [same]
  · intro x inv past same c here owns u other
    exact ⟨fun L' _ => mild u L' x same, fun me => running fun me' => other (me.trans me'.symm)⟩
  · intro x y _ inv inv' has' past same past'
    apply after y inv' has'
    · exact past.toSince.trans ((mild t L x same).since.trans past'.toSince)
    · exact wrote_of locked past past'

/-- An UNUSED slot without a parent. -/
theorem keeps_put_unused {post : Res a → Kernel → Prop} {v : Process} (has : s.Has t L) (locked : .proc q ∈ L)
    (allowed : ∀ x : Kernel, terms.inv x → Past t L s.toTable x.toTable → x.proc q = s.proc q →
      ∀ c, x.runs c = t → x.owner (.proc q) = some c → Allowed c a x.toTable)
    (effect : ∀ (x : Kernel) c r x', x.proc q = s.proc q → x.perform c a = some (r, x') →
      x'.toTable = x.toTable.put q v ∧ x'.hart = x.hart)
    (unused : (s.proc q).state = .UNUSED) (orphan : ∀ p, (s.proc q).parent = some p → t = .proc p)
    (unused' : v.state = .UNUSED) (orphan' : v.parent = none) (birth : v.birth = (s.proc q).birth ∨ v.birth = 0)
    (after : ∀ r (y : Kernel), terms.inv y → y.Has t L → Wrote t L q v s.toTable y.toTable →
      ((s.proc q).parent = none → Since t L s.toTable y.toTable) → post r y) : Keeps t (act a) post s := by
  apply keeps_put has locked allowed effect
  · intro x inv past same c here owns
    rw [← same] at unused birth
    exact inv.1.tree.put_unused unused unused' birth (by simp [orphan'])
  · intro x inv past same c here owns u other
    refine ⟨fun L' _ => mild_mine other (by rwa [same]) (by simp [orphan']) fun alive => ?_, fun _ state => ?_⟩
    · rw [← same] at unused
      exact absurd unused alive.1
    · simp [unused] at state
  · intro x y r inv inv' has' past same past'
    refine after r y inv' has' (wrote_of locked past past') fun none => ?_
    have mild : Mild t L x.toTable q v := by
      rw [← same] at none unused
      exact ⟨fun _ alive => absurd unused alive.1, by simp [none], by simp [orphan'], by simp [none]⟩
    exact past.toSince.trans (mild.since.trans past'.toSince)

/-- The child of `fork` gets its parent. -/
theorem keeps_set_parent {post : Unit → Kernel → Prop} (has : s.Has (.proc p) L) (locked : .proc q ∈ L)
    (unused : (s.proc q).state = .UNUSED) (orphan : (s.proc q).parent = none)
    (running : (s.proc p).state = .RUNNING)
    (after : ∀ y : Kernel, terms.inv y → y.Has (.proc p) L →
      Wrote (.proc p) L q { s.proc q with parent := some p } s.toTable y.toTable →
      (y.proc p).birth = (s.proc p).birth → post () y) :
    Keeps (.proc p) (set q (.parent (some p))) post s := by
  refine keeps_put (a := .set q (.parent (some p))) has locked (fun _ _ _ _ _ _ owner => ⟨owner, trivial⟩)
    (set_effect rfl) ?_ ?_ ?_
  · intro x inv past same c here owns
    have state := past.running p rfl running
    apply inv.1.tree.put_unused
    · rwa [same]
    · exact unused
    · rw [same]
      exact .inl rfl
    · rintro r parent
      cases parent
      exact ⟨⟨by simp [state], by simp [state]⟩, c, (owns.mem _).mpr locked, here⟩
  · intro x inv past same c here owns u other
    refine ⟨fun L' _ => mild_mine other (by simp [same, orphan]) ?_ fun alive => ?_, fun _ state => ?_⟩
    · rintro r parent
      cases parent
      exact .inl rfl
    · rw [← same] at unused
      exact absurd unused alive.1
    · simp [unused] at state
  · intro x y r inv inv' has' past same past'
    have other : p ≠ q := by
      rintro rfl
      simp [unused] at running
    have running' := past.running p rfl running
    obtain ⟨-, birth, -⟩ := past.own p rfl ⟨by simp [running], by simp [running]⟩
    obtain ⟨-, birth', -⟩ := past'.own p rfl ⟨by simp [Table.put_of_ne other, running'],
      by simp [Table.put_of_ne other, running']⟩
    rw [Table.put_of_ne other] at birth'
    exact after y inv' has' (wrote_of locked past past') (birth'.trans birth)

/-- A new process becomes RUNNABLE. -/
theorem keeps_set_new {post : Unit → Kernel → Prop} {v : Process} (has : s.Has t L) (locked : .proc q ∈ L)
    (unused : (s.proc q).state = .UNUSED) (value : { s.proc q with state := .RUNNABLE } = v) (born : 0 < v.birth)
    (parent : s.initproc = some q ∧ v.parent = none ∨
      ∃ r, t = .proc r ∧ v.parent = some r ∧ (s.proc r).birth < v.birth ∧ (s.proc r).state = .RUNNING)
    (after : ∀ y : Kernel, terms.inv y → y.Has t L → Wrote t L q v s.toTable y.toTable → post () y) :
    Keeps t (set q (.state .RUNNABLE)) post s := by
  refine keeps_put (a := .set q (.state .RUNNABLE)) has locked ?_ (set_effect value) ?_ ?_ ?_
  · intro x inv past same c here owner
    rw [← value] at born
    refine ⟨owner, ?_, ?_, fun _ => ⟨rfl, ?_⟩, ?_⟩
    · simp
    · simp [same, unused]
    · rw [same]
      exact born
    · simp
  · intro x inv past same c here owns
    apply inv.1.tree.put_new
    · rwa [same]
    · rw [← value]
    · rw [← value, same]
    · exact born
    · rcases parent with ⟨found, none⟩ | ⟨r, me, parent, older, state⟩
      · exact .inl ⟨past.init q found, none⟩
      · have alive : s.Alive r := ⟨by simp [state], by simp [state]⟩
        obtain ⟨alive', birth, -⟩ := past.own r me alive
        exact .inr ⟨r, parent, by rwa [birth], alive'⟩
  · intro x inv past same c here owns u other
    have mine : ∀ r, v.parent = some r → t = .proc r := by
      intro r found
      rcases parent with ⟨-, none⟩ | ⟨r', me, parent, -⟩
      · simp [none] at found
      · rw [parent] at found
        cases found
        exact me
    have same' : (x.proc q).parent = v.parent := by rw [same, ← value]
    refine ⟨fun L' _ => mild_mine other (by rwa [same']) (fun r found => .inl (mine r found)) fun alive => ?_,
      fun _ state => ?_⟩
    · rw [← same] at unused
      exact absurd unused alive.1
    · simp [unused] at state
  · intro x y r inv inv' has' past same past'
    exact after y inv' has' (wrote_of locked past past')

/-- `exit` gives a child to init. -/
theorem keeps_set_reparent {post : Unit → Kernel → Prop} {i : Slot} (has : s.Has (.proc p) L)
    (locked : .proc q ∈ L) (child : (s.proc q).parent = some p) (used : (s.proc q).state ≠ .UNUSED)
    (found : s.initproc = some i) (notInit : p ≠ i)
    (after : ∀ y : Kernel, terms.inv y → y.Has (.proc p) L →
      Wrote (.proc p) L q { s.proc q with parent := some i } s.toTable y.toTable →
      (∀ k, (y.proc k).parent = some p → (s.proc k).parent = some p) →
      (s.Alive p → y.Alive p ∧ (y.proc p).birth = (s.proc p).birth ∧
        ((y.proc p).parent = (s.proc p).parent ∨ (y.proc p).parent = some i)) → post () y) :
    Keeps (.proc p) (set q (.parent (some i))) post s := by
  refine keeps_put (a := .set q (.parent (some i))) has locked (fun _ _ _ _ _ _ owner => ⟨owner, trivial⟩)
    (set_effect rfl) ?_ ?_ ?_
  · intro x inv past same c here owns
    change (x.toTable.put q { s.proc q with parent := some i }).Tree
    rw [← same] at child used ⊢
    have found' := past.init i found
    refine inv.1.tree.put_reparented used ?_ found'
    rintro rfl
    simp [(inv.1.tree.init q found').1] at child
  · intro x inv past same c here owns u other
    have found' := past.init i found
    refine ⟨fun L' _ => mild_mine other ?_ ?_ ?_, fun _ state => state⟩
    · intro r parent
      rw [same, child] at parent
      cases parent
      rfl
    · intro r parent
      cases parent
      exact .inr found'
    · intro alive
      unfold Table.Alive at alive
      rw [same] at alive
      exact ⟨alive, by rw [same]; rfl, .inr ⟨i, found', rfl⟩⟩
  · intro x y r inv inv' has' past same past'
    have notInit' : x.initproc ≠ some p := by
      rw [past.init i found]
      simpa using notInit.symm
    have notInit'' : y.initproc ≠ some p := by
      rw [past'.init i (past.init i found)]
      simpa using notInit.symm
    apply after y inv' has' (wrote_of locked past past')
    · intro k parent
      have before := past'.nobody p k rfl notInit'' parent
      by_cases here : k = q
      · rw [here]
        exact child
      · rw [Table.put_of_ne here] at before
        exact past.nobody p k rfl notInit' before
    · intro alive
      have other : p ≠ q := by
        rintro rfl
        obtain ⟨r, parent, older, -⟩ := inv.1.tree.parent p (past.own p rfl alive).1.1 notInit'
        rw [same, child] at parent
        cases parent
        exact absurd older (lt_irrefl _)
      obtain ⟨alive', birth, parent⟩ := past.own p rfl alive
      have put : (x.toTable.put q { s.proc q with parent := some i }).Alive p := by
        unfold Table.Alive
        rw [Table.put_of_ne other]
        exact alive'
      obtain ⟨still, birth', parent'⟩ := past'.own p rfl put
      rw [Table.put_of_ne other] at birth' parent'
      refine ⟨still, birth'.trans birth, ?_⟩
      have given (j : Slot) (x : Table) (found : x.initproc = some i) (h : x.initproc = some j) : j = i := by
        rw [found] at h
        cases h
        rfl
      rcases parent' with same' | ⟨j, h, given'⟩
      · rcases parent with same'' | ⟨j, h, given'⟩
        · exact .inl (same'.trans same'')
        · rw [given j _ (past.init i found) h] at given'
          exact .inr (same'.trans given')
      · rw [given j _ (past'.init i (past.init i found)) h] at given'
        exact .inr given'

/-- The end of `exit`: nobody is left to wait for, and the parent is awake and locked, unless it is init. -/
theorem keeps_set_zombie {post : Unit → Kernel → Prop} (has : s.Has (.proc p) L) (locked : .proc p ∈ L)
    (running : (s.proc p).state = .RUNNING) (leaving : (s.notes p).leaving = some (s.proc p).xstate)
    (notInit : ∀ x : Kernel, terms.inv x → Past (.proc p) L s.toTable x.toTable → x.initproc ≠ some p)
    (childless : ∀ k, (s.proc k).parent ≠ some p)
    (awake : ∀ x : Kernel, terms.inv x → Past (.proc p) L s.toTable x.toTable → ∀ r, x.initproc ≠ some r →
      (x.proc p).parent = some r → .proc r ∈ L ∧
        ¬((x.proc r).state = .SLEEPING ∧ (x.proc r).chan = some (.proc r)))
    (after : ∀ y : Kernel, terms.inv y → y.Has (.proc p) L →
      Wrote (.proc p) L p { s.proc p with state := .ZOMBIE } s.toTable y.toTable → post () y) :
    Keeps (.proc p) (set p (.state .ZOMBIE)) post s := by
  refine keeps_put (a := .set p (.state .ZOMBIE)) has locked ?_ (set_effect rfl) ?_ ?_ ?_
  · intro x inv past same c here owner
    refine ⟨owner, by simp, by simp [same, running], by simp [same, running], fun _ => ⟨?_, ?_⟩⟩
    · unfold Table.Alive
      simp [same, running]
    · rw [past.noted ⟨by simp [running], by simp [running]⟩, same]
      exact leaving
  · intro x inv past same c here owns
    change (x.toTable.put p { s.proc p with state := .ZOMBIE }).Tree
    have alive : x.Alive p := by
      unfold Table.Alive
      rw [same, running]
      decide
    rw [← same]
    refine inv.1.tree.put_zombie alive (notInit x inv past) (fun k parent => ?_) fun r other parent => ?_
    · exact childless k (past.nobody p k rfl (notInit x inv past) parent)
    · exact (awake x inv past r other parent).2
  · intro x inv past same c here owns u other
    refine ⟨fun L' has' => ⟨?_, ?_, ?_, ?_⟩, fun me => absurd me other⟩
    · exact fun me => absurd me other
    · intro r _ parent
      rw [same] at parent ⊢
      exact ⟨parent, rfl, fun _ => by simp [Field.write], fun zombie => by simp [running] at zombie⟩
    · intro r _ _ parent
      rw [same]
      exact parent
    · intro r me held other' parent _
      exfalso
      obtain ⟨mine, -⟩ := awake x inv past r other' parent
      rcases has' with ⟨d, there, owns'⟩ | none
      · have owner := (owns'.mem _).mpr held
        rw [(owns.mem _).mpr mine] at owner
        cases owner
        exact other (there.symm.trans here)
      · simp [none] at held
  · intro x y r inv inv' has' past same past'
    exact after y inv' has' (wrote_of locked past past')

/-- `wait` frees a zombie child. -/
theorem keeps_freeproc {post : Unit → Kernel → Prop} {status : Option Int} (has : s.Has (.proc p) L)
    (locked : .proc q ∈ L) (child : (s.proc q).parent = some p) (zombie : (s.proc q).state = .ZOMBIE)
    (settled : s.Settled q) (stored : status = none ∨ status = some (s.proc q).xstate)
    (after : ∀ y : Kernel, terms.inv y → y.Has (.proc p) L → Wrote (.proc p) L q {} s.toTable y.toTable → post () y) :
    Keeps (.proc p) (act (.freeproc q (some ((s.proc q).pid, status)))) post s := by
  refine keeps_put (a := .freeproc q (some ((s.proc q).pid, status))) has locked ?_ freeproc_effect ?_ ?_ ?_
  · intro x inv past same c here owner
    have alone := alone_of_settled (past.settled locked settled) (by rw [same, zombie]; decide)
    refine ⟨owner, alone, ?_, ⟨p, here, ?_⟩, ?_, ?_⟩
    · rw [same, zombie]
    · rw [same, child]
    · rw [same]
    · rw [same]
      exact stored
  · intro x inv past same c here owns
    rw [← same] at zombie
    exact inv.1.tree.put_free zombie
  · intro x inv past same c here owns u other
    refine ⟨fun L' _ => mild_mine other ?_ (by simp) fun alive => ?_, fun _ state => ?_⟩
    · intro r parent
      rw [same, child] at parent
      cases parent
      rfl
    · rw [← same] at zombie
      exact absurd zombie alive.2
    · simp [zombie] at state
  · intro x y r inv inv' has' past same past'
    exact after y inv' has' (wrote_of locked past past')

/-! ### Notes -/

theorem note_inv {s : Table} {n : Notes} (inv : s.Inv) : (s.note p n).Inv where
  thread := inv.thread
  unique := inv.unique
  held := inv.held
  idle := inv.idle
  settled q free := by
    have settled := inv.settled q free
    exact ⟨settled.running, settled.unused, settled.blank⟩
  tree := by
    obtain ⟨before, init, parents, building, births, born, distinct, eldest, sleepers⟩ := inv.tree
    exact ⟨before, init, parents, building, births, born, distinct, eldest, sleepers⟩

theorem note_frame {s : Table} {n : Notes} (other : u ≠ .proc p) : Frame u s (s.note p n) := by
  have since (L : List Lock) : Since u L s (s.note p n) := by
    have same : Since u L s s := .refl
    refine ⟨same.init, same.first, same.births, same.own, same.kids, same.nobody, same.waiting, fun q me => .inl ?_⟩
    apply Function.update_of_ne
    rintro rfl
    exact other me
  refine ⟨since [], fun L has => ?_, fun _ _ off => .inl off, fun _ _ _ away => .inl away⟩
  obtain ⟨c, here, nodup, mem, noff⟩ := has
  exact ⟨⟨c, here, nodup, mem, noff⟩, since L, fun _ _ => ⟨rfl, fun _ => .rfl⟩, fun _ _ state => state, fun _ _ => rfl⟩

/-- A process that is RUNNING, with the locks that it holds and what it has noted. -/
structure Ready (p : Slot) (L : List Lock) (n : Notes) (i : Slot) (s : Kernel) : Prop where
  has : s.Has (.proc p) L
  running : (s.proc p).state = .RUNNING
  noted : s.notes p = n
  init : s.initproc = some i

namespace Ready

variable {n : Notes} {i : Slot} {L' K : List Lock}

theorem alive (ready : Ready p L n i s) : s.Alive p := by
  unfold Table.Alive
  simp [ready.running]

theorem since (ready : Ready p L n i s) (has : y.Has (.proc p) L') (since : Since (.proc p) K s.toTable y.toTable)
    (running : (y.proc p).state = .RUNNING) : Ready p L' n i y :=
  ⟨has, running, (since.noted ready.alive).trans ready.noted, since.init i ready.init⟩

theorem past (ready : Ready p L n i s) (has : y.Has (.proc p) L') (past : Past (.proc p) K s.toTable y.toTable) :
    Ready p L' n i y := ready.since has past.toSince (past.running p rfl ready.running)

theorem wrote {v : Process} (ready : Ready p L n i s) (has : y.Has (.proc p) L')
    (wrote : Wrote (.proc p) K q v s.toTable y.toTable) (other : p ≠ q) : Ready p L' n i y := by
  refine ⟨has, wrote.running p rfl other ready.running, ?_, wrote.init i ready.init⟩
  rcases wrote.notes p rfl other with same | ⟨-, dead⟩
  · exact same.trans ready.noted
  · exact absurd ready.alive dead

end Ready

theorem keeps_note {post : Res a → Kernel → Prop} {n n' : Notes} {i : Slot} (ready : Ready p L n i s)
    (allowed : ∀ x : Kernel, terms.inv x → Past (.proc p) L s.toTable x.toTable → Ready p L n i x → ∀ c,
      x.runs c = .proc p → Allowed c a x.toTable)
    (effect : ∀ (x : Kernel) c r x', x.runs c = .proc p → x.notes p = n → x.perform c a = some (r, x') →
      x'.toTable = x.toTable.note p n' ∧ x'.hart = x.hart)
    (after : ∀ r (y : Kernel), terms.inv y → Ready p L n' i y →
      (∀ q, .proc q ∈ L → y.proc q = s.proc q ∧ ∀ c, (y.cpu c).proc = some q ↔ (s.cpu c).proc = some q) → post r y) :
    Keeps (.proc p) (act a) post s := by
  apply keeps_act ready.has
  intro x inv has past c here owns
  have ready' := ready.past has past
  refine ⟨allowed x inv past ready' c here, fun r x' ran => ?_⟩
  obtain ⟨table, hart⟩ := effect x c r x' here ready'.noted ran
  refine ⟨⟨by rw [table]; exact note_inv inv.1, fun d on => ?_⟩, fun u other => by rw [table]; exact note_frame other,
    fun y inv' frame => ?_⟩
  · rw [hart] at on
    rw [table]
    exact inv.2 d on
  · rw [table] at frame
    obtain ⟨d, there, nodup, mem, noff⟩ := has
    obtain ⟨has', past'⟩ := frame.on L ⟨d, there, nodup, mem, noff⟩
    have noted : y.notes p = n' := (past'.noted ready'.alive).trans (Function.update_self ..)
    have ready'' : Ready p L n' i y := ⟨has', past'.running p rfl ready'.running, noted, past'.init i ready'.init⟩
    refine after r y inv' ready'' fun q held => ?_
    obtain ⟨same, iff⟩ := past.same q held
    obtain ⟨same', iff'⟩ := past'.same q held
    exact ⟨same'.trans same, fun d => (iff' d).trans (iff d)⟩

/-! ### Threads that come and go -/

theorem context_off (inv : s.Inv) (alone : ∀ d, (s.cpu d).proc ≠ some q) : s.Off (.proc q) :=
  fun c there => alone c (inv.thread c q there)

/-- A new thread: a birth. -/
theorem keeps_context {post : Unit → Kernel → Prop} (has : s.Has t L) (locked : .proc q ∈ L)
    (unused : (s.proc q).state = .UNUSED) (orphan : (s.proc q).parent = none) (alone : ∀ d, (s.cpu d).proc ≠ some q)
    (after : ∀ (y : Kernel) b, terms.inv y → y.Has t L → Wrote t L q { s.proc q with birth := b } s.toTable y.toTable →
      s.births ≤ b → Since t L s.toTable y.toTable → post () y) : Keeps t (act (.context q)) post s := by
  apply keeps_act has
  intro x inv has' past c here owns
  have same := (past.same q locked).1
  have unused' : (x.proc q).state = .UNUSED := by rwa [same]
  have orphan' : (x.proc q).parent = none := by rwa [same]
  have owner := (owns.mem _).mpr locked
  have alone' : ∀ d, (x.cpu d).proc ≠ some q := fun d there => alone d (((past.same q locked).2 d).mp there)
  refine ⟨⟨owner, unused', context_off inv.1 alone'⟩, fun r x' ran => ?_⟩
  cases ran
  refine ⟨⟨bear_inv inv.1 (by simp [owner]) unused', inv.2⟩, fun u other => ?_, fun y inv' frame => ?_⟩
  · exact bear_frame here owner other unused' orphan'
  · obtain ⟨has'', past'⟩ := frame.on L ⟨c, here, owns.nodup, owns.mem, owns.noff⟩
    have since : Since t L x.toTable (x.toTable.bear q) := bear_since unused' orphan'
    have whole := past.toSince.trans (since.trans past'.toSince)
    refine after y x.births inv' has'' ⟨?_, ?_, ?_, ?_, ?_, ?_, ?_, fun p me _ => whole.notes p me⟩ past.births whole
    · exact fun i found => past'.init i (past.init i found)
    · exact past.births.trans ((Nat.le_succ _).trans past'.births)
    · rw [(past'.same q locked).1, ← same]
      exact Function.update_self ..
    · exact fun d => ((past'.same q locked).2 d).trans ((past.same q locked).2 d)
    · intro k ne held
      obtain ⟨same', iff⟩ := past.same k held
      obtain ⟨same'', iff'⟩ := past'.same k held
      refine ⟨same''.trans (Eq.trans (Function.update_of_ne ne ..) same'), fun d => (iff' d).trans (iff d)⟩
    · intro p me ne state
      apply past'.running p me
      have kept : (x.toTable.bear q).proc p = x.proc p := Table.put_of_ne ne
      exact (congrArg Process.state kept).trans (past.running p me state)
    · exact fun d me => (past'.proc d me).trans (past.proc d me)

/-- The state of a process thread that has left its CPU. -/
def Out (p : Slot) (s : Table) : Prop :=
  s.Off (.proc p) ∨ s.Has (.proc p) [.proc p] ∧ (s.proc p).state = .RUNNING

/-- The state of a scheduler that has switched to process `p`. -/
def Away (c : Core) (p : Slot) (s : Table) : Prop :=
  (s.cpu c).thread = some p ∨ s.Has (.sched c) [.proc p] ∧ (s.cpu c).proc = some p ∧
    (s.proc p).state ≠ .RUNNING ∧ (s.proc p).state ≠ .UNUSED

theorem Out.frame {s x : Table} (out : Out p s) (frame : Frame (.proc p) s x) : Out p x := by
  rcases out with off | ⟨has, state⟩
  · exact frame.offProc p rfl off
  · obtain ⟨has', past⟩ := frame.on _ has
    exact .inr ⟨has', past.running p rfl state⟩

theorem Away.frame {s x : Table} (away : Away c p s) (frame : Frame (.sched c) s x) : Away c p x := by
  rcases away with away | ⟨has, current, state⟩
  · exact frame.offSched c p rfl away
  · obtain ⟨has', past⟩ := frame.on _ has
    refine .inr ⟨has', (past.proc c rfl).trans current, ?_⟩
    rwa [(past.same p (by simp)).1]

/-- The first action of a process thread that is back on a CPU. -/
theorem keeps_back {post : Res a → Kernel → Prop} (out : Out p s.toTable) (ok : ∀ c x, Allowed c a x)
    (silent : Silent a)
    (after : ∀ (x y : Kernel) c r x', terms.inv x → x.runs c = .proc p → x.perform c a = some (r, x') →
      terms.inv y → y.Has (.proc p) [.proc p] → (y.proc p).state = .RUNNING →
      Since (.proc p) [] s.toTable y.toTable → post r y) : Keeps (.proc p) (act a) post s := by
  apply keeps_step
  intro x inv frame c here
  refine ⟨ok c x.toTable, fun r x' ran => ?_⟩
  obtain ⟨same, sie⟩ := silent x c r x' ran
  refine ⟨⟨by rw [same]; exact inv.1, fun d on => ?_⟩, fun u _ => by rw [same]; exact .refl, fun y inv' frame' => ?_⟩
  · rw [same]
    exact inv.2 d (sie d on)
  · rw [same] at frame'
    have since := frame.since.trans frame'.since
    rcases out.frame frame with off | ⟨has, state⟩
    · exact absurd here (off c)
    · obtain ⟨has', past⟩ := frame'.on _ has
      exact after x y c r x' inv here ran inv' has' (past.running p rfl state) since

theorem keeps_swtchBack {post : Unit → Kernel → Prop} (has : s.Has (.proc p) [.proc p])
    (stopped : (s.proc p).state ≠ .RUNNING) (used : (s.proc p).state ≠ .UNUSED)
    (after : ∀ y : Kernel, terms.inv y → Out p y.toTable → Since (.proc p) [] s.toTable y.toTable → post () y) :
    Keeps (.proc p) (act .swtchBack) post s := by
  apply keeps_act has
  intro x inv has' past c here owns
  refine ⟨⟨p, here, (owns.mem _).mpr (by simp)⟩, fun r x' ran => ?_⟩
  cases ran
  have same := (past.same p (by simp)).1
  rw [← same] at stopped used
  obtain ⟨inv', off, frames⟩ := setThread_back inv.1 here owns stopped used
  refine ⟨⟨inv', fun d on => ?_⟩, frames, fun y inv'' frame => ?_⟩
  · exact Table.setThread_cpu.2.trans (inv.2 d on)
  · have since : Since (.proc p) [] x.toTable (x.toTable.setThread c none) := .of_same rfl rfl le_rfl rfl
    refine after y inv'' (Out.frame (.inl off) frame) ?_
    exact (past.toSince.mono (by simp)).trans (since.trans frame.since)

theorem keeps_swtchTo {post : Unit → Kernel → Prop} (has : s.Has (.sched c) [.proc p])
    (current : (s.cpu c).proc = some p) (running : (s.proc p).state = .RUNNING)
    (after : ∀ y : Kernel, terms.inv y → Away c p y.toTable → post () y) :
    Keeps (.sched c) (act (.swtchTo p)) post s := by
  apply keeps_act has
  intro x inv has' past d here owns
  obtain ⟨rfl, -⟩ := runs_sched.mp here
  have current' := (past.proc d rfl).trans current
  refine ⟨⟨(owns.mem _).mpr (by simp), current'⟩, fun r x' ran => ?_⟩
  cases ran
  have same := (past.same p (by simp)).1
  obtain ⟨inv', frames⟩ := setThread_to inv.1 here owns current' (by rw [same]; exact running)
  refine ⟨⟨inv', fun d' on => ?_⟩, frames, fun y inv'' frame => ?_⟩
  · exact Table.setThread_cpu.2.trans (inv.2 d' on)
  · exact after y inv'' (Away.frame (.inl Table.setThread_self) frame)

/-- The scheduler chooses process `p`. -/
theorem keeps_setProc {post : Unit → Kernel → Prop} (has : s.Has (.sched c) [.proc p])
    (none : (s.cpu c).proc = none) (alone : ∀ d, (s.cpu d).proc ≠ some p)
    (after : ∀ y : Kernel, terms.inv y → y.Has (.sched c) [.proc p] → (y.cpu c).proc = some p →
      y.proc p = s.proc p → post () y) : Keeps (.sched c) (act (.setProc (some p))) post s := by
  apply keeps_act has
  intro x inv has' past d here owns
  obtain ⟨rfl, -⟩ := runs_sched.mp here
  refine ⟨trivial, fun r x' ran => ?_⟩
  cases ran
  obtain ⟨same, iff⟩ := past.same p (by simp)
  have held : ∀ k, (x.cpu d).proc = some k ∨ some p = some k → x.owner (.proc k) = some d := by
    rintro k (before | now)
    · rw [past.proc d rfl, none] at before
      cases before
    · cases now
      exact (owns.mem _).mpr (by simp)
  have alone' : ∀ d' k, some p = some k → (x.cpu d').proc ≠ some k := by
    rintro d' k now before
    cases now
    exact alone d' ((iff d').mp before)
  refine ⟨⟨setCurrent_inv inv.1 here held alone' (by simp [owns.noff]), fun d' on => ?_⟩,
    fun u other => setCurrent_frame here other held, fun y inv' frame => ?_⟩
  · exact Table.setCurrent_cpu.2.trans (inv.2 d' on)
  · obtain ⟨has'', past'⟩ := frame.on _ (setCurrent_has has')
    apply after y inv' has''
    · exact (past'.proc d rfl).trans Table.setCurrent_self
    · exact (past'.same p (by simp)).1.trans same

/-- The scheduler is done with process `p`. -/
theorem keeps_setProc_none {post : Unit → Kernel → Prop} (away : Away c p s.toTable)
    (after : ∀ y : Kernel, terms.inv y → y.Has (.sched c) [.proc p] → (y.cpu c).proc = none →
      y.Settled p → post () y) : Keeps (.sched c) (act (.setProc none)) post s := by
  apply keeps_step
  intro x inv frame d here
  obtain ⟨rfl, noThread⟩ := runs_sched.mp here
  refine ⟨trivial, fun r x' ran => ?_⟩
  cases ran
  rcases away.frame frame with gone | ⟨has, current, stopped, used⟩
  · simp [noThread] at gone
  have owns := has_owner inv.1 has here
  have held : ∀ k, (x.cpu d).proc = some k ∨ (none : Option Slot) = some k → x.owner (.proc k) = some d := by
    rintro k (before | now)
    · rw [current] at before
      cases before
      exact (owns.mem _).mpr (by simp)
    · cases now
  refine ⟨⟨setCurrent_inv inv.1 here held nofun (by simp [owns.noff]), fun d' on => ?_⟩,
    fun u other => setCurrent_frame here other held, fun y inv' frame' => ?_⟩
  · exact Table.setCurrent_cpu.2.trans (inv.2 d' on)
  · obtain ⟨has', past⟩ := frame'.on _ (setCurrent_has has)
    apply after y inv' has' ((past.proc d rfl).trans Table.setCurrent_self)
    apply past.settled (by simp)
    refine ⟨⟨fun state => absurd state stopped, ?_⟩, fun state => absurd state used, fun state => absurd state used⟩
    rintro ⟨d', there⟩
    change ((x.toTable.setCurrent d none).cpu d').proc = some p at there
    by_cases same : d' = d
    · subst same
      rw [Table.setCurrent_self] at there
      cases there
    · rw [Table.setCurrent_of_ne same] at there
      exact absurd (inv.1.unique d' d p there current) same

theorem keeps_setInitproc {post : Unit → Kernel → Prop} (has : s.Has (.sched 0) L) (none : s.initproc = none)
    (after : ∀ y : Kernel, terms.inv y → y.Has (.sched 0) L → y.initproc = some q →
      (∀ k, .proc k ∈ L → y.proc k = s.proc k ∧ ∀ d, (y.cpu d).proc = some k ↔ (s.cpu d).proc = some k) →
      (y.cpu 0).proc = (s.cpu 0).proc → post () y) : Keeps (.sched 0) (act (.setInitproc q)) post s := by
  apply keeps_act has
  intro x inv has' past c here owns
  refine ⟨trivial, fun r x' ran => ?_⟩
  cases ran
  obtain ⟨inv', frames⟩ := setInitproc_inv (q := q) inv.1 ((past.first rfl).trans none)
  refine ⟨⟨inv', inv.2⟩, frames, fun y inv'' frame => ?_⟩
  obtain ⟨has'', past'⟩ := frame.on L ⟨c, here, owns.nodup, owns.mem, owns.noff⟩
  refine after y inv'' has'' (past'.init q rfl) (fun k held => ?_) ((past'.proc 0 rfl).trans (past.proc 0 rfl))
  obtain ⟨same, iff⟩ := past.same k held
  obtain ⟨same', iff'⟩ := past'.same k held
  exact ⟨same'.trans same, fun d => (iff' d).trans (iff d)⟩

end Xv6Labs.Proc
