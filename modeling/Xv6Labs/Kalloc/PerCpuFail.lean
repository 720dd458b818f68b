import Xv6Labs.Kalloc.PerCpuRun
import Xv6Labs.Lib.History

/-!
# When the Lab 3 `kalloc` returns 0

`kalloc` looks at the free lists one after the other, so its verdict "no memory" puts together what it saw at
different times. If nothing is put on a list that the call has already found empty, all lists are empty when
it gives up; otherwise it can miss a page that was free all along.
-/

namespace Xv6Labs.Kalloc.PerCpu

variable {image : Image} {s s' : State} {t u : Tid} {seen : List State} {i j cpu here : Fin ncpu}
  {P : (Fin ncpu → ℕ) → Prop}

/-- Thread `t` has just called `kalloc` in a state in `Start`. -/
def Entered (t : Tid) (Start : State → Prop) (s : State) : Prop :=
  ∃ a, Start a ∧ a.pc t = .idle ∧ s = a.goto t .alloc

/-- Thread `t` is inside a call of `kalloc` that it made in a state in `Start`, and `R` led from each state to
the next since then. -/
abbrev During (t : Tid) (Start : State → Prop) (R : State → State → Prop) : List State → State → Prop :=
  History.During (Entered t Start) (fun s => s.pc t ≠ .idle) R

def Exhausted (s : State) : Prop := ∀ cpu, s.heap.freelist cpu = 0

/-- The lists that the steal loop of a `kalloc` has found empty. -/
def Pc.Scanned (j : Fin ncpu) : Pc → Prop
  | .scanAcquire i | .scanRead i => j < i
  | .scanTake i r | .scanRelease i r => j < i ∨ j = i ∧ r = 0
  | _ => False

/-- Nothing is put on a list that the steal loop of thread `t` has found empty. -/
def Quiet (t : Tid) (s s' : State) : Prop :=
  ∀ j, (s.pc t).Scanned j → s.heap.freelist j = 0 → s'.heap.freelist j = 0

theorem scanned_scanNext (scanned : (scanNext i).Scanned j ∨ scanNext i = .ret 0) : j ≤ i := by
  unfold scanNext at scanned
  split at scanned
  · rcases scanned with less | done
    · exact Nat.lt_succ_iff.mp less
    · cases done
  · have := j.isLt
    exact Fin.le_def.mpr (by omega)

/-- What a step of thread `t` adds to the lists it has found empty is empty. -/
theorem step_scanned (inv : Inv image s) (h : step image s t here = some s')
    (scanned : (s'.pc t).Scanned j ∨ s'.pc t = .ret 0) :
    (s.pc t).Scanned j ∨ s'.heap.freelist j = 0 := by
  have own := inv.threads t
  cases pc : s.pc t with
  | idle | panic => simp [step, pc] at h
  | allocAcquire | freeAcquire =>
    simp only [step, pc, State.acquire] at h
    split at h
    all_goals cases h
    simp [State.goto, Pc.Scanned] at scanned
  | scanAcquire =>
    simp only [step, pc, State.acquire] at h
    split at h
    all_goals cases h
    rw [goto_pc] at scanned
    exact .inl (by simpa [Pc.Scanned] using scanned)
  | scanRead i =>
    simp only [step, pc, Option.some.injEq] at h
    subst h
    rw [goto_pc] at scanned
    rcases scanned with (less | ⟨rfl, empty⟩) | done
    · exact .inl less
    · exact .inr empty
    · cases done
  | allocTake cpu r =>
    simp only [step, pc, Option.some.injEq] at h
    subst h
    unfold State.take at scanned
    split at scanned <;> simp [State.goto, Pc.Scanned] at scanned
  | scanTake i r =>
    simp only [step, pc, Option.some.injEq] at h
    subst h
    have same : (s.take t i r (.scanRelease i r)).pc t = .scanRelease i r := by
      unfold State.take
      split <;> exact goto_pc _ _ _
    rw [same] at scanned
    rcases scanned with old | done
    · exact .inl old
    · cases done
  | allocRelease cpu r =>
    simp only [step, pc, Option.some.injEq] at h
    subst h
    unfold State.release at scanned
    rw [goto_pc] at scanned
    split at scanned
    · rcases scanned with less | done
      · exact absurd less (Fin.not_lt_zero j)
      · cases done
    · simp [Pc.Scanned] at scanned
  | scanRelease i r =>
    simp only [step, pc, Option.some.injEq] at h
    subst h
    unfold State.release at scanned
    rw [goto_pc] at scanned
    left
    split at scanned
    · rename_i empty
      rcases (scanned_scanNext scanned).lt_or_eq with less | same
      · exact .inl less
      · exact .inr ⟨same, empty⟩
    · simp [Pc.Scanned] at scanned
  | fill r =>
    rw [pc] at own
    obtain ⟨l, lists⟩ := inv.lists
    have nonzero := (lists.page_of_out own).ne_zero
    simp only [step, pc, Option.some.injEq] at h
    subst h
    simp [State.goto, Pc.Scanned, nonzero] at scanned
  | ret r =>
    simp only [step, pc, Option.some.injEq] at h
    subst h
    split at scanned <;> simp [State.goto, State.pass, Pc.Scanned] at scanned
  | free pa =>
    simp only [step, pc, Option.some.injEq] at h
    subst h
    rw [goto_pc] at scanned
    split at scanned <;> simp [Pc.Scanned] at scanned
  | alloc | allocRead | freeFill | freeLink | freePush | freeRelease =>
    simp only [step, pc, Option.some.injEq] at h
    subst h
    simp [State.goto, State.release, Pc.Scanned] at scanned

theorem Step.own (h : Step image s s') (busy : s.pc t ≠ .idle) :
    (∃ here, step image s t here = some s') ∨ s'.pc t = s.pc t := by
  cases h with
  | run u here h =>
    by_cases eq : t = u
    · subst eq
      exact .inl ⟨here, h⟩
    · exact .inr (step_others h eq)
  | kalloc u idle =>
    have ne : t ≠ u := fun eq => busy (eq ▸ idle)
    exact .inr (goto_pc_other _ _ ne)
  | kfree u pa idle =>
    have ne : t ≠ u := fun eq => busy (eq ▸ idle)
    exact .inr (goto_pc_other _ _ ne)
  | write => exact .inr rfl

/-- All free lists were empty at some instant of a `kalloc` that returns 0, if nothing was put on a list it had
already found empty. -/
theorem quiet_fail_exhausted
    (run : During t (Reachable image) (fun a b => Step image a b ∧ Quiet t a b) seen s)
    (fails : s.pc t = .ret 0) : ∃ x ∈ seen, Exhausted x := by
  suffices h : (∀ j, (s.pc t).Scanned j → s.heap.freelist j = 0) ∧
      (s.pc t = .ret 0 → ∃ x ∈ seen, Exhausted x) from h.2 fails
  clear fails
  induction run with
  | enter h =>
    obtain ⟨a, -, -, rfl⟩ := h
    simp [State.goto, Pc.Scanned]
  | @next seen s s' before busy step ih =>
    obtain ⟨empty, exhausted⟩ := ih
    have reach : Reachable image s := by
      apply before.invariant
      · rintro _ ⟨a, reach, idle, rfl⟩
        exact reach.step (.kalloc t idle)
      · exact fun a b reach h => reach.step h.1
    obtain ⟨step, quiet⟩ := step
    have keep := fun j scanned => quiet j scanned (empty j scanned)
    rcases step.own busy with ⟨here, own⟩ | same
    · have all : ∀ j, (s'.pc t).Scanned j ∨ s'.pc t = .ret 0 → s'.heap.freelist j = 0 := by
        intro j scanned
        rcases step_scanned (reachable_inv reach) own scanned with before | now
        · exact keep j before
        · exact now
      exact ⟨fun j scanned => all j (.inl scanned),
        fun fails => ⟨s', List.mem_cons_self, fun j => all j (.inr fails)⟩⟩
    · rw [same]
      refine ⟨keep, fun fails => ?_⟩
      obtain ⟨x, member, all⟩ := exhausted fails
      exact ⟨x, List.mem_cons_of_mem _ member, all⟩

/-! ### Uncontended calls -/

open Relation

/-- Thread `u` runs alone for a while during the call of `t`. -/
theorem During.solo {Start : State → Prop} {R : State → State → Prop} (run : During t Start R seen s)
    (busy : s.pc t ≠ .idle) (steps : ReflTransGen (Solo image u P) s s')
    (rel : ∀ a b, Step image a b → P b.heap.freelist → R a b) :
    ∃ seen', During t Start R seen' s' ∧ ∀ x ∈ seen', x ∈ seen ∨ P x.heap.freelist := by
  apply run.extend (P := fun x => P x.heap.freelist) steps
  · rintro a b before ⟨⟨here, last⟩, -⟩
    by_cases eq : u = t
    · subst eq
      intro idle
      simp [step, idle] at last
    · have still : a.pc t = s.pc t := by
        clear last
        induction before with
        | refl => rfl
        | tail _ last ih =>
          obtain ⟨⟨here, h⟩, -⟩ := last
          rw [step_others h (Ne.symm eq), ih]
      rw [still]
      exact busy
  · rintro a b ⟨⟨here, h⟩, ok⟩
    exact ⟨rel a b (.run u here h) ok, ok⟩

/-- The kernel owns both pages of the machine. -/
theorem quiet_fail_exhausted_taken : ∃ (s : State) (x y : ℕ) (seen : List State), Taken s x y ∧
    During 0 (Reachable twoPages) (fun a b => Step twoPages a b ∧ Quiet 0 a b) seen (s.goto 0 (.ret 0)) ∧
      ∃ z ∈ seen, Exhausted z := by
  obtain ⟨s, x, y, taken⟩ := taken_exists
  have called : During 0 (Reachable twoPages) (fun a b => Step twoPages a b ∧ Quiet 0 a b) _ (s.goto 0 .alloc) :=
    .enter ⟨s, taken.reach, taken.idle 0, rfl⟩
  obtain ⟨seen, run, -⟩ := called.solo (P := fun lists => ∀ k, lists k = 0) (by simp [State.goto])
    ((solo_scan (s := s) 0 (taken.free 0) (taken.empty 0) taken.empty).trans
      (solo_fail taken.free (fun k _ => taken.empty k) taken.empty)) fun a b step ok => ⟨step, fun j _ _ => ok j⟩
  exact ⟨s, x, y, seen, taken, run, quiet_fail_exhausted run (goto_pc s 0 (.ret 0))⟩

/-! ### A missed page -/

/-- Thread 0 is inside `kalloc`, and some page was free in every state since the call. -/
def Spared (s : State) : Prop :=
  ∃ seen, During 0 (Reachable twoPages) (Step twoPages) seen s ∧ ∀ x ∈ seen, ∃ k, x.heap.freelist k ≠ 0

theorem Spared.step (h : Spared s) (busy : s.pc 0 ≠ .idle) (step : Step twoPages s s')
    (some_free : ∃ k, s'.heap.freelist k ≠ 0) : Spared s' := by
  obtain ⟨seen, run, ok⟩ := h
  refine ⟨s' :: seen, run.next busy step, fun x member => ?_⟩
  rcases List.mem_cons.mp member with rfl | member
  · exact some_free
  · exact ok x member

theorem Spared.solo (h : Spared s) (busy : s.pc 0 ≠ .idle)
    (steps : ReflTransGen (Solo twoPages u fun lists => ∃ k, lists k ≠ 0) s s') : Spared s' := by
  obtain ⟨seen, run, ok⟩ := h
  obtain ⟨seen', run', old⟩ := run.solo busy steps fun _ _ step _ => step
  exact ⟨seen', run', fun x member => (old x member).elim (ok x) id⟩

/-- Thread 0 passes list 0 while it is empty. Then page `y` is put there, and page `x` is taken from list 2,
before thread 0 gets to list 2: it returns 0 although one of the two was free at every instant. -/
theorem kalloc_misses_free_page : ∃ (image : Image) (seen : List State) (s : State),
    During 0 (Reachable image) (Step image) seen s ∧ s.pc 0 = .ret 0 ∧ ∀ x ∈ seen, ¬Exhausted x := by
  obtain ⟨s, x, y, apart⟩ := apart_exists
  obtain ⟨pageX, pageY, ne⟩ := apart.pages
  have heads : ∃ k, s.heap.freelist k ≠ 0 := ⟨2, by rw [apart.head]; exact pageX.ne_zero⟩
  have called : Spared (s.goto 0 .alloc) := by
    refine ⟨_, .enter ⟨s, apart.reach, apart.idle 0, rfl⟩, fun z member => ?_⟩
    rw [List.mem_singleton.mp member]
    exact heads
  let s₁ := s.point 0 s.lock s.heap s.out (.scanAcquire 2)
  have passed : Spared s₁ := called.solo (u := 0) (by simp [State.goto])
    (((solo_scan 1 (apart.free 1) (apart.empty 1 (by decide)) heads).trans
      (solo_round (apart.free 0) (apart.empty 0 (by decide)) heads)).trans
      (solo_round (apart.free 1) (apart.empty 1 (by decide)) heads))
  -- Thread 1 puts `y` on list 0.
  have idle : s₁.pc 1 = .idle := by simpa [s₁, State.point] using apart.idle 1
  have here : s₁.pc 0 = .scanAcquire 2 := point_pc
  have busy : s₁.pc 0 ≠ .idle := by simp [here]
  let h₂ := ((s.heap.memset y junkFree).setNext y (s.heap.freelist 0)).setFreelist 0 y
  let s₂ : State := { s₁ with heap := h₂, out := s.out.erase (none, y) }
  have heads₂ : ∃ k, h₂.freelist k ≠ 0 := ⟨0, by simpa [h₂, Heap.setFreelist] using pageY.ne_zero⟩
  have freed : Spared s₂ := Spared.solo (passed.step busy (.kfree 1 y idle apart.owned) heads)
    (by simpa [State.pass, State.goto] using busy) (solo_kfree 0 idle (apart.free 0) pageY heads heads₂)
  -- Thread 1 takes `x` from list 2.
  have last₂ : h₂.mem x = 0 := by
    have kept := memset_outside s.heap junkFree pageX pageY ne
    simpa [h₂, Heap.setFreelist, Heap.setNext, ne] using kept.trans apart.last
  let h₃ := (h₂.setFreelist 2 (h₂.mem x)).memset x junkAlloc
  let s₃ : State := { s₂ with heap := h₃, out := (none, x) :: s₂.out }
  have heads₃ : ∃ k, h₃.freelist k ≠ 0 :=
    ⟨0, by simpa [h₃, h₂, Heap.setFreelist, Heap.memset] using pageY.ne_zero⟩
  have taken : Spared s₃ := Spared.solo (freed.step busy (.kalloc 1 idle) heads₂)
    (by simpa [State.goto] using busy) (solo_kalloc 2 idle (apart.free 2) apart.head pageX.ne_zero heads₂ heads₃)
  -- Thread 0 finds nothing on the other lists.
  have empty : ∀ k : Fin ncpu, 2 ≤ k → h₃.freelist k = 0 := by
    intro k above
    by_cases eq : k = 2
    · subst eq
      simpa [h₃, Heap.setFreelist, Heap.memset] using last₂
    · have other : k ≠ 0 := by
        rintro rfl
        exact absurd above (by decide)
      simpa [h₃, h₂, Heap.setFreelist, Heap.setNext, Heap.memset, eq, other] using apart.empty k eq
  have fail : ReflTransGen (Solo twoPages 0 fun lists => ∃ k, lists k ≠ 0)
      (s₃.point 0 s₃.lock s₃.heap s₃.out (.scanAcquire 2)) (s₃.point 0 s₃.lock s₃.heap s₃.out (.ret 0)) :=
    solo_fail apart.free empty heads₃
  rw [point_self (show s₃.pc 0 = .scanAcquire 2 from here)] at fail
  obtain ⟨seen, run, ok⟩ := taken.solo busy fail
  refine ⟨twoPages, seen, _, run, point_pc, fun z member all => ?_⟩
  obtain ⟨k, nonzero⟩ := ok z member
  exact nonzero (all k)

end Xv6Labs.Kalloc.PerCpu
