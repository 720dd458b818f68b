import Xv6Labs.Proc.Sleeping

/-!
# System calls

`fork`, `exit`, `wait` and `kill` keep the terms.
-/

namespace Xv6Labs.Proc

open Threads

variable {α β : Type} {t : Thread} {L : List Lock} {s : Kernel} {c : Core} {p q i : Slot} {n : Notes}

/-! ### fork -/

theorem keeps_allocpid {post : Int → Kernel → Prop} (has : s.Has t L) (calm : Calm t s.toTable)
    (after : ∀ r (y : Kernel), terms.inv y → y.Has t L → Past t L s.toTable y.toTable → post r y) :
    Keeps t allocpid post s := by
  apply keeps_bind
  apply keeps_acquire has (by rintro _ _ ⟨⟩)
  intro x inv has₁ past _
  apply keeps_bind
  refine keeps_aside (a := .nextpid) has₁ (fun _ _ => trivial) (silent_of fun _ _ => ⟨_, _, rfl, rfl, rfl⟩)
    fun pid x₁ inv₁ has₂ past₁ => ?_
  apply keeps_bind
  refine keeps_aside (a := .setNextpid (int32 (pid + 1))) has₂ (fun _ _ => trivial)
    (silent_of fun _ _ => ⟨_, _, rfl, rfl, rfl⟩)
    fun _ x₂ inv₂ has₃ past₂ => ?_
  have inner := (past₁.trans past₂).mono fun lk held => List.mem_cons_of_mem Lock.pid held
  apply keeps_bind
  apply keeps_release_any has₃ (by simp) (calm.past (past.trans inner)) (by rintro _ ⟨⟩)
  intro x₃ inv₃ has₄ past₃
  rw [List.erase_cons_head] at has₄ past₃
  refine keeps_pure has₄ fun y inv₄ has₅ past₄ => ?_
  exact after pid y inv₄ has₅ (((past.trans inner).trans past₃).trans past₄)

theorem keeps_unusedOne {post : Option Slot → Kernel → Prop} (has : s.Has t L) (clear : ∀ r, .proc r ∉ L)
    (calm : Calm t s.toTable)
    (taken : ∀ y : Kernel, terms.inv y → y.Has t (.proc q :: L) → Past t L s.toTable y.toTable →
      (y.proc q).state = .UNUSED → y.Settled q → post (some q) y)
    (passed : ∀ y : Kernel, terms.inv y → y.Has t L → Past t L s.toTable y.toTable → post none y) :
    Keeps t (unusedOne q) post s := by
  apply keeps_bind
  apply keeps_acquire has fun _ r _ => clear r
  intro x inv has₁ past settled
  have settled := settled q rfl
  apply keeps_bind
  apply keeps_look_locked has₁ (by simp)
  intro x₁ inv₁ has₂ past₁ same
  have settled₁ := past₁.settled (by simp) settled
  have sofar := past.trans (past₁.mono fun _ => List.mem_cons_of_mem _)
  split
  case isTrue unused =>
    rw [← same] at unused
    refine keeps_pure has₂ fun y inv₂ has₃ past₂ => ?_
    have same₂ := (past₂.same q (by simp)).1
    apply taken y inv₂ has₃
    · exact sofar.trans (past₂.mono fun _ => List.mem_cons_of_mem _)
    · rwa [same₂]
    · exact past₂.settled (by simp) settled₁
  case isFalse =>
    apply keeps_bind
    apply keeps_release_any has₂ (by simp) (calm.past sofar)
    · rintro _ ⟨⟩
      exact settled₁
    intro x₂ inv₂ has₃ past₂
    rw [List.erase_cons_head] at has₃ past₂
    refine keeps_pure has₃ fun y inv₃ has₄ past₃ => ?_
    exact passed y inv₃ has₄ ((sofar.trans past₂).trans past₃)

theorem keeps_kernelPages {post : Unit → Kernel → Prop} {lab : Lab} {mem : Memory} (has : s.Has t L)
    (locked : .proc q ∈ L) (alone : ∀ d, (s.cpu d).proc ≠ some q)
    (after : ∀ y : Kernel, terms.inv y → y.Has t L → Past t L s.toTable y.toTable → post () y) :
    Keeps t (kernelPages lab mem q) post s := by
  unfold kernelPages
  split
  · exact keeps_pure has after
  · refine keeps_silent has ?_ ?_ fun _ y inv has past => after y inv has past
    · intro x c r x' ran
      simp only [Kernel.perform] at ran
      split at ran
      case isTrue =>
        cases ran
        exact ⟨rfl, fun _ on => on⟩
      case isFalse => cases ran
    · intro x _ past c _ owns
      exact ⟨(owns.mem _).mpr locked, fun d there => alone d (((past.same q locked).2 d).mp there)⟩
  · exact keeps_panic fun _ _ => trivial

/-- A slot that `allocproc` has found, and nobody else can take. -/
structure Fresh (q : Slot) (s : Table) : Prop where
  unused : (s.proc q).state = .UNUSED
  orphan : (s.proc q).parent = none
  alone : ∀ d, (s.cpu d).proc ≠ some q

theorem Fresh.past {s x : Table} (fresh : Fresh q s) (past : Past t L s x) (locked : .proc q ∈ L) : Fresh q x := by
  obtain ⟨same, iff⟩ := past.same q locked
  exact ⟨by rw [same]; exact fresh.unused, by rw [same]; exact fresh.orphan,
    fun d there => fresh.alone d ((iff d).mp there)⟩

theorem Fresh.wrote {s x : Table} {v : Process} (fresh : Fresh q s) (wrote : Wrote t L q v s x)
    (unused : v.state = .UNUSED) (orphan : v.parent = none) : Fresh q x :=
  ⟨by rw [wrote.proc, unused], by rw [wrote.proc, orphan], fun d there => fresh.alone d ((wrote.cpus d).mp there)⟩

/-- Nobody has seen it yet. -/
theorem Fresh.settled {s : Table} (fresh : Fresh q s) (blank : (s.proc q).birth = 0) : s.Settled q :=
  ⟨⟨fun state => by simp [fresh.unused] at state, fun ⟨d, there⟩ => absurd there (fresh.alone d)⟩,
    fun _ => fresh.orphan, fun _ => blank⟩

/-- `freeproc` of a slot that did not become a process, and then its release. -/
theorem keeps_giveUp {post : β → Kernel → Prop} {r : β} (has : s.Has t (.proc q :: L)) (calm : Calm t s.toTable)
    (fresh : Fresh q s.toTable)
    (after : ∀ y : Kernel, terms.inv y → y.Has t L → Past t L s.toTable y.toTable → post r y) :
    Keeps t (do act (.freeproc q none); release (.proc q); pure r) post s := by
  have new := Has.fresh has
  apply keeps_bind
  refine keeps_put_unused (a := .freeproc q none) has (by simp) ?_ freeproc_effect fresh.unused
    (by simp [fresh.orphan]) rfl rfl (.inr rfl) fun _ x inv has₁ wrote since => ?_
  · intro x _ past same c _ owner
    have fresh' := fresh.past past (by simp)
    exact ⟨owner, fresh'.alone, fresh'.unused⟩
  have past := wrote.past (since fresh.orphan) (fun _ => List.mem_cons_of_mem _) new (by simp [fresh.unused])
  apply keeps_bind
  apply keeps_release_any has₁ (by simp) (calm.past past)
  · rintro _ ⟨⟩
    exact (fresh.wrote wrote rfl rfl).settled (by rw [wrote.proc])
  intro x₁ inv₁ has₂ past₁
  rw [List.erase_cons_head] at has₂ past₁
  refine keeps_pure has₂ fun y inv₂ has₃ past₂ => ?_
  exact after y inv₂ has₃ ((past.trans past₁).trans past₂)

theorem keeps_letGo {post : β → Kernel → Prop} {r : β} (has : s.Has t (.proc q :: L)) (calm : Calm t s.toTable)
    (settled : s.Settled q)
    (after : ∀ y : Kernel, terms.inv y → y.Has t L → Past t L s.toTable y.toTable → post r y) :
    Keeps t (do release (.proc q); pure r) post s := by
  apply keeps_bind
  apply keeps_release_any has (by simp) calm
  · rintro _ ⟨⟩
    exact settled
  intro x₁ inv₁ has₂ past₁
  rw [List.erase_cons_head] at has₂ past₁
  refine keeps_pure has₂ fun y inv₂ has₃ past₂ => ?_
  exact after y inv₂ has₃ (past₁.trans past₂)

/-- The new process is younger than the one that calls. -/
theorem keeps_allocproc {post : Option Slot → Kernel → Prop} {lab : Lab} {mem : Memory} (has : s.Has t L)
    (clear : ∀ r, .proc r ∉ L) (calm : Calm t s.toTable) (found : ∀ (y : Kernel) np, terms.inv y →
      y.Has t (.proc np :: L) → Past t L s.toTable y.toTable →
      Fresh np y.toTable → 0 < (y.proc np).birth →
      (∀ p, t = .proc p → (s.proc p).state = .RUNNING → (y.proc p).birth < (y.proc np).birth) → post (some np) y)
    (failed : ∀ y : Kernel, terms.inv y → y.Has t L → Past t L s.toTable y.toTable → post none y) :
    Keeps t (allocproc lab mem) post s := by
  apply keeps_bind
  apply keeps_scan_past has
  case done =>
    intro y inv has₁ past
    refine keeps_pure has₁ fun z inv₁ has₂ past₁ => ?_
    exact failed z inv₁ has₂ (past.trans past₁)
  intro q x inv has₁ past
  apply keeps_unusedOne has₁ clear (calm.past past)
  case passed =>
    intro y inv₁ has₂ past₁
    exact ⟨has₂, past.trans past₁⟩
  intro y₀ inv₀ has₀ past₀ unused₀ settled₀ y frame inv₁
  obtain ⟨has₂, step⟩ := frame.on _ has₀
  have sofar := (past.trans past₀).trans (step.mono fun _ => List.mem_cons_of_mem _)
  have fresh₀ : Fresh q y₀.toTable :=
    ⟨unused₀, settled₀.unused unused₀, alone_of_settled settled₀ (by simp [unused₀])⟩
  have fresh := fresh₀.past step (by simp)
  have blank : (y.proc q).birth = 0 := by rw [(step.same q (by simp)).1, settled₀.blank unused₀]
  have new := Has.fresh has₂
  apply keeps_bind
  apply keeps_allocpid has₂ (calm.past sofar)
  intro pid x₁ inv₂ has₃ past₁
  have fresh₁ := fresh.past past₁ (by simp)
  apply keeps_bind
  have blank₁ : (x₁.proc q).birth = 0 := by rw [(past₁.same q (by simp)).1, blank]
  refine keeps_put_unused (a := .set q (.pid pid)) has₃ (by simp) ?_ (set_effect rfl) fresh₁.unused
    (by simp [fresh₁.orphan]) fresh₁.unused fresh₁.orphan (.inl rfl) fun _ x₂ inv₃ has₄ wrote since => ?_
  · intro x _ past same c _ owner
    exact ⟨owner, (fresh₁.past past (by simp)).unused, by rw [same, blank₁]⟩
  have fresh₂ := fresh₁.wrote wrote fresh₁.unused fresh₁.orphan
  have past₂ := wrote.past (since fresh₁.orphan) (fun _ => List.mem_cons_of_mem _) new (by simp [fresh₁.unused])
  have sofar₂ := (sofar.trans (past₁.mono fun _ => List.mem_cons_of_mem _)).trans past₂
  split
  case isFalse =>
    apply keeps_letGo has₄ (calm.past sofar₂) (fresh₂.settled (by rw [wrote.proc]; exact blank₁))
    intro z inv₄ has₅ past₃
    exact failed z inv₄ has₅ (sofar₂.trans past₃)
  apply keeps_bind
  apply keeps_kernelPages has₄ (by simp) fresh₂.alone
  intro x₃ inv₄ has₅ past₃
  have fresh₃ := fresh₂.past past₃ (by simp)
  have sofar₃ := sofar₂.trans (past₃.mono fun _ => List.mem_cons_of_mem _)
  split
  case isFalse =>
    apply keeps_giveUp has₅ (calm.past sofar₃) fresh₃
    intro z inv₅ has₆ past₄
    exact failed z inv₅ has₆ (sofar₃.trans past₄)
  apply keeps_bind
  apply keeps_context has₅ (by simp) fresh₃.unused fresh₃.orphan fresh₃.alone
  intro x₄ b inv₅ has₆ wrote₄ births since₄
  have fresh₄ := fresh₃.wrote wrote₄ fresh₃.unused fresh₃.orphan
  have past₄ := wrote₄.past since₄ (fun _ => List.mem_cons_of_mem _) new (by simp [fresh₃.unused])
  refine keeps_pure has₆ fun z inv₆ has₇ past₅ => ?_
  have whole := (sofar₃.trans past₄).trans (past₅.mono fun _ => List.mem_cons_of_mem _)
  have birth : (z.proc q).birth = b := by rw [(past₅.same q (by simp)).1, wrote₄.proc]
  have positive : 0 < b := lt_of_lt_of_le (Nat.zero_lt_of_lt (inv₄.1.tree.births q)) births
  refine found z q inv₆ has₇ whole (fresh₄.past past₅ (by simp)) (by rwa [birth]) fun p me running => ?_
  have running₃ := sofar₃.running p me running
  have last := past₄.trans (past₅.mono fun _ => List.mem_cons_of_mem _)
  obtain ⟨-, same, -⟩ := last.own p me ⟨by simp [running₃], by simp [running₃]⟩
  rw [birth, same]
  exact lt_of_lt_of_le (inv₄.1.tree.births p) births

/-- The new process is on record before it runs. -/
theorem keeps_forked {post : Unit → Kernel → Prop} (has : s.Has t L) (locked : .proc q ∈ L)
    (born : 0 < (s.proc q).birth)
    (after : ∀ y : Kernel, terms.inv y → y.Has t L → Past t L s.toTable y.toTable → post () y) :
    Keeps t (act (.record (.forked (s.proc q).birth (s.proc q).pid))) post s := by
  refine keeps_silent has (silent_of fun _ _ => ⟨_, _, rfl, rfl, rfl⟩) ?_ fun _ y inv has past => after y inv has past
  intro x _ past c _ owns
  have same := (past.same q locked).1
  exact ⟨q, (owns.mem _).mpr locked, by rw [same], born, by rw [same]⟩

theorem keeps_fork {post : Int → Kernel → Prop} {lab : Lab} {mem : Memory} (ready : Ready p [] n i s)
    (after : ∀ r (y : Kernel), terms.inv y → Ready p [] n i y → post r y) :
    Keeps (.proc p) (fork lab mem) post s := by
  apply keeps_bind
  apply keeps_myproc ready.has
  intro x inv has past
  have ready₀ := ready.past has past
  apply keeps_bind
  apply keeps_allocproc has (by simp) calm_proc
  case failed =>
    intro y inv₁ has₁ past₁
    refine keeps_pure has₁ fun z inv₂ has₂ past₂ => ?_
    exact after _ z inv₂ (ready₀.past has₂ (past₁.trans past₂))
  intro x₁ np inv₁ has₁ past₁ fresh born younger
  have ready₁ := ready₀.past has₁ past₁
  have other : p ≠ np := by
    rintro rfl
    have running := ready₁.running
    simp [fresh.unused] at running
  dsimp only
  split
  case isFalse =>
    apply keeps_giveUp has₁ calm_proc fresh
    intro y inv₂ has₂ past₂
    exact after _ y inv₂ (ready₁.past has₂ past₂)
  apply keeps_bind
  apply keeps_set_parent has₁ (by simp) fresh.unused fresh.orphan ready₁.running
  intro x₂ inv₂ has₂ wrote₂ birth₂
  have ready₂ := ready₁.wrote has₂ wrote₂ other
  apply keeps_bind
  refine keeps_silent (a := .copyTrapframe np p) has₂ (silent_of fun _ _ => ⟨_, _, rfl, rfl, rfl⟩) ?_
    fun _ x₃ inv₃ has₃ past₃ => ?_
  · intro x _ past c _ owns
    refine ⟨(owns.mem _).mpr (by simp), fun d there => ?_⟩
    exact fresh.alone d ((wrote₂.cpus d).mp (((past.same np (by simp)).2 d).mp there))
  apply keeps_bind
  apply keeps_look_locked has₃ (by simp)
  intro x₄ inv₄ has₄ past₄ same₄
  have child₄ : x₄.proc np = { x₁.proc np with parent := some p } := by
    rw [((past₃.trans past₄).same np (by simp)).1, wrote₂.proc]
  rw [← same₄]
  apply keeps_bind
  apply keeps_forked has₄ (by simp) (by rw [child₄]; exact born)
  intro x₅ inv₅ has₅ past₅
  have sofar := (past₃.trans past₄).trans past₅
  have ready₅ := ready₂.past has₅ sofar
  have child : x₅.proc np = { x₁.proc np with parent := some p } := by
    rw [(sofar.same np (by simp)).1, wrote₂.proc]
  apply keeps_bind
  refine keeps_set_new has₅ (by simp) (by rw [child]; exact fresh.unused) rfl (by rw [child]; exact born)
    (.inr ⟨p, rfl, by rw [child], ?_, ready₅.running⟩) ?_
  · obtain ⟨-, birth, -⟩ := sofar.own p rfl ready₂.alive
    rw [birth, birth₂, child]
    exact younger p rfl ready₀.running
  intro x₆ inv₆ has₆ wrote₆
  have ready₆ := ready₅.wrote has₆ wrote₆ other
  apply keeps_letGo has₆ calm_proc
  · refine ⟨⟨by simp [wrote₆.proc], ?_⟩, by simp [wrote₆.proc], by simp [wrote₆.proc]⟩
    rintro ⟨d, there⟩
    have before := ((sofar.same np (by simp)).2 d).mp ((wrote₆.cpus d).mp there)
    exact absurd ((wrote₂.cpus d).mp before) (fresh.alone d)
  intro y inv₇ has₇ past₇
  exact after _ y inv₇ (ready₆.past has₇ past₇)

theorem keeps_userinit {post : Unit → Kernel → Prop} {lab : Lab} {mem : Memory} (has : s.Has (.sched 0) [])
    (first : s.initproc = none) (idle : (s.cpu 0).proc = none)
    (after : ∀ y : Kernel, terms.inv y → y.Has (.sched 0) [] → (y.cpu 0).proc = none → post () y) :
    Keeps (.sched 0) (userinit lab mem) post s := by
  have calm : Calm (.sched 0) s.toTable := by
    rintro _ ⟨⟩
    exact idle
  apply keeps_bind
  apply keeps_allocproc has (by simp) calm
  case failed =>
    intro y _ _ _
    apply keeps_bind
    exact keeps_panic fun _ _ => trivial
  intro x np inv has₁ past fresh born _
  apply keeps_bind
  refine keeps_pure has₁ fun x₁ inv₁ has₂ past₁ => ?_
  have fresh₁ := fresh.past past₁ (by simp)
  have same₁ := (past₁.same np (by simp)).1
  apply keeps_bind
  apply keeps_setInitproc has₂ ((past₁.first rfl).trans ((past.first rfl).trans first))
  intro x₂ inv₂ has₃ found same idle₂
  obtain ⟨same₂, iff₂⟩ := same np (by simp)
  apply keeps_bind
  refine keeps_set_new has₃ (by simp) (by rw [same₂]; exact fresh₁.unused) rfl (by rwa [same₂, same₁])
    (.inl ⟨found, by rw [same₂]; exact fresh₁.orphan⟩) ?_
  intro x₃ inv₃ has₄ wrote
  have idle₃ : (x₃.cpu 0).proc = none := by
    rw [wrote.current 0 rfl, idle₂, past₁.proc 0 rfl, past.proc 0 rfl, idle]
  apply keeps_release_any has₄ (by simp)
  · rintro _ ⟨⟩
    exact idle₃
  · rintro _ ⟨⟩
    refine ⟨⟨by simp [wrote.proc], ?_⟩, by simp [wrote.proc], by simp [wrote.proc]⟩
    rintro ⟨d, there⟩
    exact absurd ((iff₂ d).mp ((wrote.cpus d).mp there)) (fresh₁.alone d)
  intro y inv₄ has₅ past₅
  rw [List.erase_cons_head] at has₅ past₅
  exact after y inv₄ has₅ ((past₅.proc 0 rfl).trans idle₃)

/-! ### exit -/

/-- A child is an UNUSED slot only while `fork` has its lock. -/
theorem used_child {s : Table} (inv : s.Inv) (has : s.Has (.proc p) L) (child : (s.proc q).parent = some p)
    (apart : .proc q ∉ L) : (s.proc q).state ≠ .UNUSED := by
  intro unused
  obtain ⟨c, owner, here⟩ := inv.tree.building q p unused child
  exact apart (((has_owner inv has here).mem _).mp owner)

theorem birth_child {s : Table} (tree : s.Tree) (child : (s.proc q).parent = some p)
    (used : (s.proc q).state ≠ .UNUSED) : (s.proc p).birth < (s.proc q).birth ∧ s.Alive p := by
  have notInit : s.initproc ≠ some q := by
    intro found
    rw [(tree.init q found).1] at child
    cases child
  obtain ⟨r, parent, older, alive⟩ := tree.parent q used notInit
  rw [child] at parent
  cases parent
  exact ⟨older, alive⟩

theorem rank_of_used {s : Table} (used : (s.proc q).state ≠ .UNUSED) : s.rank q = (s.proc q).birth := if_neg used

theorem rank_child {s : Table} (tree : s.Tree) (child : (s.proc q).parent = some p)
    (used : (s.proc q).state ≠ .UNUSED) : s.rank p < s.rank q := by
  obtain ⟨older, alive⟩ := birth_child tree child used
  rwa [rank_of_used used, rank_of_used alive.1]

theorem not_own_parent {s : Table} (tree : s.Tree) (used : (s.proc p).state ≠ .UNUSED) :
    (s.proc p).parent ≠ some p := fun child => absurd (birth_child tree child used).1 (lt_irrefl _)

/-- The locks and the process itself stay as they are, and no child is added. -/
theorem keeps_reparentOne {post : Option Unit → Kernel → Prop} (ready : Ready p L n i s)
    (order : ∀ r, .proc r ∈ L → r = p ∨ n.remembered = some r)
    (apart : ∀ r, .proc r ∈ L → (s.proc r).parent ≠ some p) (notInit : p ≠ i)
    (after : ∀ y : Kernel, terms.inv y → Ready p L n i y →
      (∀ k, .proc k ∈ L → y.proc k = s.proc k ∧ ∀ c, (y.cpu c).proc = some k ↔ (s.cpu c).proc = some k) →
      (∀ k, (y.proc k).parent = some p → (s.proc k).parent = some p) → (y.proc q).parent ≠ some p → post none y) :
    Keeps (.proc p) (reparentOne p q) post s := by
  have notInit' {x : Table} (found : x.initproc = some i) : x.initproc ≠ some p := by
    rw [found]
    simpa using notInit.symm
  apply keeps_bind
  apply keeps_look ready.has
  intro x y inv inv₁ has₁ past past₁
  have sofar := past.trans past₁
  split
  case isFalse stranger =>
    refine keeps_pure has₁ fun z inv₂ has₂ past₂ => ?_
    have whole := sofar.trans past₂
    have ready₂ := ready.past has₂ whole
    refine after z inv₂ ready₂ whole.same ?_ ?_
    · intro k child
      exact whole.nobody p k rfl (notInit' ready₂.init) child
    · intro child
      exact stranger ((past₁.trans past₂).nobody p q rfl (notInit' ready₂.init) child)
  case isTrue child =>
    have child₁ := (past₁.kids p q rfl child).1
    have new : Lock.proc q ∉ L := by
      intro held
      apply apart q held
      rw [← (sofar.same q held).1]
      exact child₁
    have ready₁ := ready.past has₁ sofar
    apply keeps_bind
    apply keeps_acquire_after has₁
    · rintro z invZ hasZ pastZ _ ⟨⟩ r held
      have childZ := (pastZ.kids p q rfl child₁).1
      have below := rank_child invZ.1.tree childZ (used_child invZ.1 hasZ childZ new)
      have readyZ := ready₁.past hasZ pastZ
      rcases order r held with rfl | noted
      · exact .inl below
      · exact .inr ⟨p, rfl, readyZ.alive, by rw [readyZ.noted, noted], below.le⟩
    intro x₂ inv₂ has₂ past₂ settled
    have settled := settled q rfl
    have found₂ := past₂.init i ready₁.init
    have child₂ := (past₂.kids p q rfl child₁).1
    apply keeps_bind
    apply keeps_initproc has₂
    intro x₃ x₄ inv₃ inv₄ has₄ past₃ past₄
    rw [past₃.init i found₂]
    have inner := past₃.trans past₄
    have same := (inner.same q (by simp)).1
    have settled₄ := inner.settled (by simp) settled
    have child₄ : (x₄.proc q).parent = some p := by rw [same]; exact child₂
    have used : (x₄.proc q).state ≠ .UNUSED := by
      intro unused
      rw [settled₄.unused unused] at child₄
      cases child₄
    have outer := (sofar.trans past₂).trans (inner.mono fun _ => List.mem_cons_of_mem _)
    have ready₄ := ready.past has₄ outer
    have other : p ≠ q := by
      rintro rfl
      exact not_own_parent inv₄.1.tree used child₄
    apply keeps_bind
    apply keeps_set_reparent has₄ (by simp) child₄ used (inner.init i found₂) notInit
    intro x₅ inv₅ has₅ wrote nobody _
    have settled₅ : x₅.Settled q :=
      wrote.settled settled₄ Iff.rfl (fun unused => absurd unused used) fun unused => absurd unused used
    apply keeps_letGo has₅ calm_proc settled₅
    intro z inv₆ has₆ past₆
    have ready₆ := (ready₄.wrote has₅ wrote other).past has₆ past₆
    have found₆ := ready₆.init
    refine after z inv₆ ready₆ (fun k held => ?_) (fun k child' => ?_) ?_
    · obtain ⟨same₁, iff₁⟩ := outer.same k held
      have ne : k ≠ q := by
        rintro rfl
        exact new held
      obtain ⟨same₂, iff₂⟩ := wrote.same k ne (List.mem_cons_of_mem _ held)
      obtain ⟨same₃, iff₃⟩ := past₆.same k held
      exact ⟨(same₃.trans same₂).trans same₁, fun d => ((iff₃ d).trans (iff₂ d)).trans (iff₁ d)⟩
    · exact outer.nobody p k rfl (notInit' (inner.init i found₂))
        (nobody k (past₆.nobody p k rfl (notInit' found₆) child'))
    · intro child'
      have given := past₆.nobody p q rfl (notInit' found₆) child'
      rw [wrote.proc] at given
      exact notInit (Option.some.inj given).symm

theorem keeps_reparent {post : Unit → Kernel → Prop} (ready : Ready p L n i s)
    (order : ∀ r, .proc r ∈ L → r = p ∨ n.remembered = some r)
    (apart : ∀ r, .proc r ∈ L → (s.proc r).parent ≠ some p) (notInit : p ≠ i)
    (after : ∀ y : Kernel, terms.inv y → Ready p L n i y →
      (∀ k, .proc k ∈ L → y.proc k = s.proc k ∧ ∀ c, (y.cpu c).proc = some k ↔ (s.cpu c).proc = some k) →
      (∀ k, (y.proc k).parent ≠ some p) → post () y) : Keeps (.proc p) (reparent p) post s := by
  let I (rest : List Slot) (x : Kernel) : Prop := Ready p L n i x ∧
    (∀ k, .proc k ∈ L → x.proc k = s.proc k ∧ ∀ c, (x.cpu c).proc = some k ↔ (s.cpu c).proc = some k) ∧
    ∀ k, (x.proc k).parent = some p → k ∈ rest
  have stable (l : List Slot) (x y : Kernel) (now : I l x) (frame : terms.frame (.proc p) x y) : I l y := by
    obtain ⟨ready', same, kids⟩ := now
    obtain ⟨has', past⟩ := frame.on L ready'.has
    refine ⟨ready'.past has' past, fun k held => ?_, fun k child => ?_⟩
    · obtain ⟨same₁, iff₁⟩ := same k held
      obtain ⟨same₂, iff₂⟩ := past.same k held
      exact ⟨same₂.trans same₁, fun d => (iff₂ d).trans (iff₁ d)⟩
    · apply kids k (past.nobody p k rfl _ child)
      rw [past.init i ready'.init]
      simpa using notInit.symm
  apply keeps_bind
  refine keeps_scan I stable ?_ ?_ ⟨ready, fun _ _ => ⟨rfl, fun _ => .rfl⟩, fun k _ => ?_⟩
  · rintro q rest x ⟨ready', same, kids⟩ inv
    apply keeps_reparentOne ready' order (fun r held => by rw [(same r held).1]; exact apart r held) notInit
    intro y inv' ready'' same' nobody gone
    refine ⟨ready'', fun k held => ?_, fun k child => ?_⟩
    · obtain ⟨same₁, iff₁⟩ := same k held
      obtain ⟨same₂, iff₂⟩ := same' k held
      exact ⟨same₂.trans same₁, fun d => (iff₂ d).trans (iff₁ d)⟩
    · have before := kids k (nobody k child)
      rw [List.mem_cons] at before
      rcases before with rfl | later
      · exact absurd child gone
      · exact later
  · rintro y now inv
    apply keeps_ret
    intro z frame inv'
    obtain ⟨ready', same, kids⟩ := stable _ _ _ now frame.2
    exact after z inv'.2 ready' same fun k child => by simpa using kids k child
  · exact List.mem_finRange k

theorem parent_or_init {s y : Table} {o : Slot} (since : Since (.proc p) L s y) (running : (s.proc p).state = .RUNNING)
    (found : s.initproc = some i) (parent : (s.proc p).parent = some o ∨ (s.proc p).parent = some i) :
    (y.proc p).parent = some o ∨ (y.proc p).parent = some i := by
  obtain ⟨-, -, same | ⟨j, found', given⟩⟩ := since.own p rfl ⟨by simp [running], by simp [running]⟩
  · rw [same]
    exact parent
  · rw [since.init i found] at found'
    cases found'
    exact .inr given

/-- The parent that `exit` remembers is still the parent, or has given the process to init. -/
theorem keeps_exitLocked {post : Unit → Kernel → Prop} {status : Int} {o : Slot} (ready : Ready p [] n i s)
    (leaving : n.leaving = some status) (remembered : n.remembered = some o) (stranger : (s.proc o).parent ≠ some p)
    (notInit : p ≠ i) (parent : (s.proc p).parent = some o ∨ (s.proc p).parent = some i) :
    Keeps (.proc p) (exitLocked p o status) post s := by
  have notInit' {x : Table} (found : x.initproc = some i) : x.initproc ≠ some p := by
    rw [found]
    simpa using Ne.symm notInit
  apply keeps_bind
  apply keeps_acquire ready.has (by simp)
  intro y₄ inv₄ has₄ past₄ settled₄
  have settled₄ := settled₄ o rfl
  have ready₄ := ready.past has₄ past₄
  apply keeps_bind
  apply keeps_acquire_after has₄
  · rintro z invZ hasZ pastZ _ ⟨⟩ r held
    have readyZ := ready₄.past hasZ pastZ
    simp only [List.mem_singleton, Lock.proc.injEq] at held
    exact .inr ⟨p, rfl, readyZ.alive, by rw [readyZ.noted, held, remembered], le_rfl⟩
  intro y₅ inv₅ has₅ past₅ settled₅
  have ready₅ := ready₄.past has₅ past₅
  have other : p ≠ o := by
    have fresh := Has.fresh has₅
    rintro rfl
    simp at fresh
  have locked : Past (.proc p) [] s.toTable y₅.toTable := past₄.trans (past₅.mono (by simp))
  have settledO := past₅.settled (by simp) settled₄
  have parent₅ := parent_or_init locked.toSince ready.running ready.init parent
  apply keeps_bind
  have which {r : Slot} (held : Lock.proc r ∈ [Lock.proc p, Lock.proc o]) : r = p ∨ r = o := by
    simpa using held
  apply keeps_reparent ready₅
  · intro r held
    rcases which held with rfl | rfl
    · exact .inl rfl
    · exact .inr remembered
  · intro r held child
    rcases which held with rfl | rfl
    · exact not_own_parent inv₅.1.tree ready₅.alive.1 child
    · exact stranger (locked.nobody p r rfl (notInit' ready₅.init) child)
  · exact notInit
  intro y₆ inv₆ ready₆ same₆ childless
  have settledO₆ : y₆.Settled o := by
    obtain ⟨same, iff⟩ := same₆ o (by simp)
    constructor <;> rw [same]
    · rw [settledO.running]
      simp only [iff]
    · exact settledO.unused
    · exact settledO.blank
  -- wake up the parent
  apply keeps_bind
  apply keeps_wakeup1 ready₆.has (by simp) settledO₆
  intro y₇ v inv₇ has₇ since₇ wrote₇ _ awake settledO₇
  have ready₇ := ready₆.wrote has₇ wrote₇ other
  have running₇ := ready₇.running
  have same₇ := (wrote₇.same p other (by simp)).1
  apply keeps_bind
  apply keeps_set_alive has₇ (by simp) rfl (by simp)
  · exact ⟨by simp [running₇], by simp [running₇]⟩
  · simp [Field.write, running₇]
  · simp [Field.write, running₇]
  · rfl
  · rfl
  · simp
  · simp [Field.write, running₇]
  intro y₈ inv₈ has₈ since₈ wrote₈
  have running₈ : (y₈.proc p).state = .RUNNING := by
    rw [wrote₈.proc]
    exact running₇
  have ready₈ := ready₇.since has₈ since₈ running₈
  have sameO : y₈.proc o = v := (wrote₈.same o (Ne.symm other) (by simp)).1.trans wrote₇.proc
  have parent₈ : (y₈.proc p).parent = (y₅.proc p).parent := by
    rw [wrote₈.proc]
    change (y₇.proc p).parent = _
    rw [same₇, (same₆ p (by simp)).1]
  apply keeps_bind
  apply keeps_set_zombie has₈ (by simp) running₈
  · rw [ready₈.noted, leaving, wrote₈.proc]
    rfl
  · intro z _ past
    exact notInit' (past.init i ready₈.init)
  · intro k child
    have child₇ := since₈.nobody p k rfl (notInit' ready₈.init) child
    exact childless k (since₇.nobody p k rfl (notInit' ready₇.init) child₇)
  · intro z inv past r notInit'' child
    rw [(past.same p (by simp)).1, parent₈] at child
    have same : r = o := by
      rcases parent₅ with given | given
      · rw [given] at child
        exact (Option.some.inj child).symm
      · rw [given] at child
        cases child
        exact absurd (past.init i ready₈.init) notInit''
    subst same
    refine ⟨by simp, ?_⟩
    rw [(past.same r (by simp)).1, sameO]
    exact awake
  intro y₉ inv₉ has₉ wrote₉
  apply keeps_bind
  apply keeps_release has₉ (by simp)
  · rintro _ ⟨⟩
    obtain ⟨same, iff⟩ := wrote₉.same o (Ne.symm other) (by simp)
    obtain ⟨same', iff'⟩ := wrote₈.same o (Ne.symm other) (by simp)
    constructor <;> rw [same, same']
    · rw [settledO₇.running]
      simp only [iff, iff']
    · exact settledO₇.unused
    · exact settledO₇.blank
  intro z inv has past
  rw [List.erase_cons_tail (by simpa using other), List.erase_cons_head] at has past
  have zombie : (z.proc p).state = .ZOMBIE := by rw [(past.same p (by simp)).1, wrote₉.proc]
  apply keeps_bind
  apply keeps_sched has (by simp [zombie]) (by simp [zombie])
  intro _ _ _ _ _
  exact keeps_panic fun _ _ => trivial

theorem keeps_exited {post : Unit → Kernel → Prop} {status : Int} {b : ℕ} (ready : Ready p L {} i s)
    (birth : b = (s.proc p).birth)
    (after : ∀ y : Kernel, terms.inv y → Ready p L { leaving := some status } i y → post () y) :
    Keeps (.proc p) (act (.record (.exited b status))) post s := by
  refine keeps_note ready ?_ ?_ fun _ y inv ready' _ => after y inv ready'
  · intro x _ past ready' c here
    obtain ⟨-, same, -⟩ := past.own p rfl ready.alive
    exact ⟨p, here, ready'.alive, by rw [birth, same], by rw [ready'.noted]⟩
  · intro x c r x' here noted ran
    cases ran
    have thread := runs_proc.mp here
    constructor
    · simp only [Kernel.record, thread, Kernel.note, Table.note, noted]
    · simp only [Kernel.record, thread, Kernel.note]

/-- The parent is older, and cannot be a child. -/
theorem keeps_remember {post : Unit → Kernel → Prop} {o : Slot} (ready : Ready p L n i s) (locked : .proc p ∈ L)
    (parent : (s.proc p).parent = some o)
    (after : ∀ y : Kernel, terms.inv y → Ready p L { n with remembered := some o } i y → y.proc p = s.proc p →
      post () y) :
    Keeps (.proc p) (act (.remember p (some o))) post s := by
  refine keeps_note ready ?_ ?_ fun _ y inv ready' same => after y inv ready' (same p locked).1
  · intro x inv past ready' c here
    refine ⟨here, ready'.alive, ?_⟩
    rintro r ⟨⟩
    apply rank_child inv.1.tree _ ready'.alive.1
    rw [(past.same p locked).1, parent]
  · intro x c r x' here noted ran
    cases ran
    rw [noted]
    exact ⟨rfl, rfl⟩

theorem keeps_exit {post : Unit → Kernel → Prop} {close : Balanced} {status : Int} (ready : Ready p [] {} i s) :
    Keeps (.proc p) (exit close status) post s := by
  apply keeps_bind
  apply keeps_myproc ready.has
  intro x inv has past
  have ready₀ := ready.past has past
  apply keeps_bind
  apply keeps_initproc has
  intro x₀ x₁ inv₀ inv₁ has₁ past₀ past₁
  rw [past₀.init i ready₀.init]
  apply keeps_bind
  refine keeps_pure has₁ fun x₂ inv₂ has₂ past₂ => ?_
  apply keeps_bind
  by_cases notInit : p = i
  · rw [decide_eq_true notInit]
    exact keeps_panic fun _ _ => trivial
  rw [decide_eq_false notInit]
  refine keeps_check has₂ fun x₃ inv₃ has₃ past₃ => ?_
  have ready₃ := ready₀.past has₃ (((past₀.trans past₁).trans past₂).trans past₃)
  have notInit' {x : Table} (found : x.initproc = some i) : x.initproc ≠ some p := by
    rw [found]
    simpa using Ne.symm notInit
  apply keeps_bind
  apply keeps_look has₃
  intro z x₄ _ inv₄ has₄ past₄ past₄'
  apply keeps_bind
  apply keeps_exited (ready₃.past has₄ (past₄.trans past₄'))
  · exact ((past₄'.own p rfl (past₄.own p rfl ready₃.alive).1).2.1).symm
  intro x₅ inv₅ ready₅
  apply keeps_bind
  apply keeps_ops ready₅
  intro x₆ inv₆ ready₆
  -- wake up init
  apply keeps_bind
  apply keeps_acquire ready₆.has (by simp)
  intro y inv has past settled
  apply keeps_bind
  apply keeps_wakeup1 has (by simp) (settled i rfl)
  intro y₁ v inv₁ has₁ since₁ wrote₁ _ _ settled₁
  have ready₁ := (ready₆.past has past).wrote has₁ wrote₁ notInit
  apply keeps_bind
  apply keeps_release has₁ (by simp)
  · rintro _ ⟨⟩
    exact settled₁
  intro y₂ inv₂ has₂ past₂
  rw [List.erase_cons_head] at has₂ past₂
  have ready₂ := ready₁.past has₂ past₂
  -- who is the parent
  apply keeps_bind
  apply keeps_acquire has₂ (by simp)
  intro y₃ inv₃ has₃ past₃ _
  apply keeps_bind
  apply keeps_look_locked has₃ (by simp)
  intro y₄ inv₄ has₄ past₄ same
  have ready₄ := (ready₂.past has₃ past₃).past has₄ past₄
  obtain ⟨o, parent, older, -⟩ := inv₄.1.tree.parent p ready₄.alive.1 (notInit' ready₄.init)
  rw [← same, parent]
  apply keeps_bind
  apply keeps_remember ready₄ (by simp) parent
  intro y₅ inv₅ ready₅ same₅
  have parent₅ : (y₅.proc p).parent = some o := by rw [same₅, parent]
  have stranger : (y₅.proc o).parent ≠ some p := by
    intro child
    obtain ⟨older, alive⟩ := birth_child inv₅.1.tree parent₅ ready₅.alive.1
    exact absurd (birth_child inv₅.1.tree child alive.1).1 older.not_gt
  apply keeps_bind
  apply keeps_release ready₅.has (by simp)
  · rintro _ ⟨⟩
    exact settled_running inv₅.1 ready₅.has ready₅.running
  intro y₆ inv₆ has₆ past₆
  rw [List.erase_cons_head] at has₆ past₆
  apply keeps_bind
  refine keeps_pure has₆ fun y₇ inv₇ has₇ past₇ => ?_
  have last := past₆.trans past₇
  have ready₇ := ready₅.past has₇ last
  apply keeps_exitLocked ready₇ rfl rfl _ notInit
  · exact parent_or_init last.toSince ready₅.running ready₅.init (.inl parent₅)
  · exact fun child => stranger (last.nobody p o rfl (notInit' ready₇.init) child)

/-! ### wait and kill -/

/-- No child among `seen` is a zombie, unless init is the parent. -/
def Seen (p : Slot) (rest : List Slot) (s : Table) : Prop :=
  s.initproc ≠ some p → ∀ k, (s.proc k).parent = some p → k ∉ rest → (s.proc k).state ≠ .ZOMBIE

theorem Seen.since {s y : Table} {rest : List Slot} (seen : Seen p rest s) (since : Since (.proc p) L s y)
    (locked : .proc p ∈ L) : Seen p rest y := by
  intro notInit k child out
  have child' := since.nobody p k rfl notInit child
  have notInit' : s.initproc ≠ some p := fun found => notInit (since.init p found)
  exact since.waiting p k rfl locked notInit child' (seen notInit' k child' out)

theorem Seen.next {s : Table} {rest : List Slot} (seen : Seen p (q :: rest) s)
    (here : (s.proc q).parent = some p → s.initproc ≠ some p → (s.proc q).state ≠ .ZOMBIE) : Seen p rest s := by
  intro notInit k child out
  by_cases same : k = q
  · subst same
    exact here child notInit
  · exact seen notInit k child (by simp [same, out])

/-- The two releases at the end of `wait`. -/
theorem keeps_waitEnd {post : Unit → Kernel → Prop} (ready : Ready p [.proc q, .proc p] n i s) (settled : s.Settled q)
    (settled' : s.Settled p)
    (after : ∀ y : Kernel, terms.inv y → Ready p [] n i y → Since (.proc p) [] s.toTable y.toTable → post () y) :
    Keeps (.proc p) (do release (.proc q); release (.proc p)) post s := by
  apply keeps_bind
  apply keeps_release ready.has (by simp)
  · rintro _ ⟨⟩
    exact settled
  intro x inv has₁ past
  rw [List.erase_cons_head] at has₁ past
  apply keeps_release has₁ (by simp)
  · rintro _ ⟨⟩
    exact past.settled (by simp) settled'
  intro x₁ inv₁ has₂ past₁
  rw [List.erase_cons_head] at has₂ past₁
  exact after x₁ inv₁ ((ready.past has₁ past).past has₂ past₁) ((past.toSince.mono (by simp)).trans past₁.toSince)

theorem bind_assoc_release {α : Type} (k : Code α) :
    (do release (.proc q); release (.proc p); k) = (do release (.proc q); release (.proc p)) >>= fun _ => k := rfl

theorem keeps_unstored {post : Unit → Kernel → Prop} (has : s.Has (.proc p) []) (child : (s.proc q).parent = some p)
    (zombie : (s.proc q).state = .ZOMBIE)
    (after : ∀ y : Kernel, terms.inv y → y.Has (.proc p) [] → Past (.proc p) [] s.toTable y.toTable → post () y) :
    Keeps (.proc p) (act (.unstored q)) post s := by
  refine keeps_silent has (silent_of fun _ _ => ⟨_, _, rfl, rfl, rfl⟩) ?_ fun _ y inv has past => after y inv has past
  intro x _ past c here _
  have same := (past.kids p q rfl child).2.2.2 zombie
  exact ⟨p, here, by rw [same, zombie], by rw [same, child]⟩

theorem keeps_waitScan {post : Int ⊕ Bool → Kernel → Prop} {addr : Option Bool} {l : List Slot} {havekids : Bool}
    (ready : Ready p [.proc p] n i s) (seen : Seen p l s.toTable)
    (returned : ∀ r (y : Kernel), terms.inv y → Ready p [] n i y → post (.inl r) y)
    (passed : ∀ b (y : Kernel), terms.inv y → Ready p [.proc p] n i y → Seen p [] y.toTable → post (.inr b) y) :
    Keeps (.proc p) (waitScan p addr l havekids) post s := by
  induction l generalizing s havekids with
  | nil =>
    refine keeps_pure ready.has fun y inv has₁ past => ?_
    exact passed havekids y inv (ready.past has₁ past) (seen.since past.toSince (by simp))
  | cons np rest ih =>
    apply keeps_bind
    apply keeps_look ready.has
    intro x y inv inv₁ has₁ past past₁
    have sofar := past.trans past₁
    have ready₁ := ready.past has₁ sofar
    have seen₁ := seen.since sofar.toSince (by simp)
    split
    case isFalse stranger =>
      apply ih ready₁
      apply seen₁.next
      intro child notInit
      exact absurd (past₁.nobody p np rfl notInit child) stranger
    case isTrue child =>
      have child₁ := (past₁.kids p np rfl child).1
      have other : p ≠ np := by
        rintro rfl
        exact not_own_parent inv₁.1.tree ready₁.alive.1 child₁
      have new : Lock.proc np ∉ [Lock.proc p] := by simpa using other.symm
      apply keeps_bind
      apply keeps_acquire_after has₁
      · rintro z invZ hasZ pastZ _ ⟨⟩ r held
        have childZ := (pastZ.kids p np rfl child₁).1
        simp only [List.mem_singleton, Lock.proc.injEq] at held
        rw [held]
        exact .inl (rank_child invZ.1.tree childZ (used_child invZ.1 hasZ childZ new))
      intro x₂ inv₂ has₂ past₂ settled
      have settled := settled np rfl
      have child₂ := (past₂.kids p np rfl child₁).1
      apply keeps_bind
      apply keeps_look_locked has₂ (by simp)
      intro x₃ inv₃ has₃ past₃ same
      have ready₃ := (ready₁.past has₂ past₂).past has₃ past₃
      have settled₃ := past₃.settled (by simp) settled
      have settledP := settled_running inv₃.1 has₃ ready₃.running
      have child₃ : (x₃.proc np).parent = some p := by rw [same]; exact child₂
      rw [← same]
      split
      case isTrue zombie =>
        split
        case isTrue =>
          rw [bind_assoc_release]
          apply keeps_bind
          apply keeps_waitEnd ready₃ settled₃ settledP
          intro x₄ _ ready₄ since
          obtain ⟨child₄, -, -, same₄⟩ := since.kids p np rfl child₃
          apply keeps_bind
          apply keeps_unstored ready₄.has child₄ (by rw [same₄ zombie]; exact zombie)
          intro x₅ _ has₅ past₅
          refine keeps_pure has₅ fun z inv₆ has₆ past₆ => ?_
          exact returned (-1) z inv₆ (ready₄.past has₆ (past₅.trans past₆))
        case isFalse =>
          apply keeps_bind
          apply keeps_freeproc has₃ (by simp) child₃ zombie settled₃
          · cases addr with
            | none => exact .inl rfl
            | some b => exact .inr rfl
          intro x₄ inv₄ has₄ wrote
          have ready₄ := ready₃.wrote has₄ wrote other
          rw [bind_assoc_release]
          apply keeps_bind
          apply keeps_waitEnd ready₄ _ (settled_running inv₄.1 has₄ ready₄.running)
          · intro x₅ _ ready₅ _
            refine keeps_pure ready₅.has fun z inv₆ has₆ past₆ => ?_
            exact returned _ z inv₆ (ready₅.past has₆ past₆)
          · exact wrote.settled settled₃ (by simp [zombie]) (fun _ => rfl) fun _ => rfl
      case isFalse live =>
        apply keeps_bind
        apply keeps_release has₃ (by simp)
        · rintro _ ⟨⟩
          exact settled₃
        intro x₄ inv₄ has₄ past₄
        rw [List.erase_cons_head] at has₄ past₄
        have inner := past₂.trans (past₃.mono fun _ => List.mem_cons_of_mem _)
        apply ih (ready₃.past has₄ past₄)
        apply ((seen₁.since inner.toSince (by simp)).since past₄.toSince (by simp)).next
        intro child₄ notInit
        have notInit' : x₃.initproc ≠ some p := fun found => notInit (past₄.init p found)
        exact past₄.waiting p np rfl (by simp) notInit child₃ live

theorem keeps_waitLoop {post : Int → Kernel → Prop} {addr : Option Bool} {rounds : ℕ}
    (ready : Ready p [.proc p] n i s) (after : ∀ r (y : Kernel), terms.inv y → Ready p [] n i y → post r y) :
    Keeps (.proc p) (waitLoop p addr rounds) post s := by
  induction rounds generalizing s with
  | zero => exact keeps_cut
  | succ rounds ih =>
    apply keeps_bind
    apply keeps_waitScan ready
    case seen =>
      intro _ k _ out
      exact absurd (List.mem_finRange k) out
    case returned =>
      intro r y inv ready₁
      refine keeps_pure ready₁.has fun z inv₁ has₂ past => ?_
      exact after r z inv₁ (ready₁.past has₂ past)
    intro b x inv ready₁ seen
    apply keeps_bind
    refine keeps_aside (a := .killed p) ready₁.has (fun _ _ => trivial) (silent_of fun _ _ => ⟨_, _, rfl, rfl, rfl⟩)
      fun dead x₁ inv₁ has₂ past => ?_
    have ready₂ := ready₁.past has₂ past
    split
    case isTrue =>
      apply keeps_letGo has₂ calm_proc (settled_running inv₁.1 has₂ ready₂.running)
      intro y inv₂ has₃ past₂
      exact after _ y inv₂ (ready₂.past has₃ past₂)
    case isFalse =>
      apply keeps_bind
      apply keeps_sleep_wait has₂ ready₂.running
      · intro notInit k child
        exact seen.since past.toSince (by simp) notInit k child (by simp)
      · intro y inv₂ has₃ running₃ since
        exact ih (ready₂.since has₃ since running₃)

theorem keeps_wait {post : Int → Kernel → Prop} {addr : Option Bool} {rounds : ℕ} (ready : Ready p [] n i s)
    (after : ∀ r (y : Kernel), terms.inv y → Ready p [] n i y → post r y) :
    Keeps (.proc p) (wait addr rounds) post s := by
  apply keeps_bind
  apply keeps_myproc ready.has
  intro x inv has past
  apply keeps_bind
  apply keeps_acquire has (by simp)
  intro x₁ inv₁ has₁ past₁ _
  exact keeps_waitLoop ((ready.past has past).past has₁ past₁) after

theorem keeps_killOne {post : Option Int → Kernel → Prop} {pid : Int} (has : s.Has t L) (clear : ∀ r, .proc r ∉ L)
    (calm : Calm t s.toTable) (after : ∀ r (y : Kernel), terms.inv y → y.Has t L →
      Past t L s.toTable y.toTable → post r y) :
    Keeps t (killOne pid q) post s := by
  apply keeps_bind
  apply keeps_acquire has fun _ r _ => clear r
  intro x inv has₁ past settled
  have settled := settled q rfl
  have fresh := Has.fresh has₁
  apply keeps_bind
  apply keeps_look_locked has₁ (by simp)
  intro x₁ inv₁ has₂ past₁ same
  have settled₁ := past₁.settled (by simp) settled
  have sofar := past.trans (past₁.mono fun _ => List.mem_cons_of_mem _)
  split
  case isFalse =>
    apply keeps_letGo has₂ (calm.past sofar) settled₁
    intro y inv₂ has₃ past₂
    exact after none y inv₂ has₃ (sofar.trans past₂)
  case isTrue matching =>
    rw [← same] at matching
    apply keeps_bind
    refine keeps_silent (a := .setKilled q (some pid)) has₂ (silent_of fun _ _ => ⟨_, _, rfl, rfl, rfl⟩) ?_
      fun _ x₂ inv₂ has₃ past₂ => ?_
    · intro x _ past c _ owns
      exact ⟨(owns.mem _).mpr (by simp), by rw [(past.same q (by simp)).1, matching]⟩
    apply keeps_bind
    apply keeps_look_locked has₃ (by simp)
    intro x₃ inv₃ has₄ past₃ same₃
    have inner := past₂.trans past₃
    have settled₃ := inner.settled (by simp) settled₁
    have sofar₃ := sofar.trans (inner.mono fun _ => List.mem_cons_of_mem _)
    split
    case isFalse =>
      apply keeps_letGo has₄ (calm.past sofar₃) settled₃
      intro y inv₄ has₅ past₄
      exact after (some 0) y inv₄ has₅ (sofar₃.trans past₄)
    case isTrue asleep =>
      rw [← same₃] at asleep
      apply keeps_bind
      apply keeps_set_alive has₄ (by simp) rfl (by simp)
      · exact ⟨by simp [asleep], by simp [asleep]⟩
      · simp [Field.write]
      · simp [Field.write]
      · rfl
      · rfl
      · simp [asleep]
      · simp [Field.write]
      intro x₄ inv₄ has₅ since wrote
      have woken := wrote.past since (fun _ => List.mem_cons_of_mem _) fresh (by simp [asleep])
      apply keeps_letGo has₅ ((calm.past sofar₃).past woken) 
        (wrote.settled settled₃ (by simp [Field.write, asleep]) (by simp [Field.write]) (by simp [Field.write]))
      intro y inv₅ has₆ past₅
      exact after (some 0) y inv₅ has₆ ((sofar₃.trans woken).trans past₅)

theorem keeps_kill {post : Int → Kernel → Prop} {pid : Int} (has : s.Has t L) (clear : ∀ r, .proc r ∉ L)
    (calm : Calm t s.toTable)
    (after : ∀ r (y : Kernel), terms.inv y → y.Has t L → Past t L s.toTable y.toTable → post r y) :
    Keeps t (kill pid) post s := by
  apply keeps_bind
  apply keeps_scan_past has
  case done =>
    intro y inv has₁ past
    refine keeps_pure has₁ fun z inv₁ has₂ past₁ => ?_
    exact after _ z inv₁ has₂ (past.trans past₁)
  intro q x inv has₁ past
  apply keeps_killOne has₁ clear (calm.past past)
  intro r y inv₁ has₂ past₁
  cases r with
  | none => exact ⟨has₂, past.trans past₁⟩
  | some r =>
    intro z frame inv₂
    obtain ⟨has₃, past₂⟩ := frame.on L has₂
    refine keeps_pure has₃ fun w inv₃ has₄ past₃ => ?_
    exact after r w inv₃ has₄ (((past.trans past₁).trans past₂).trans past₃)

end Xv6Labs.Proc
