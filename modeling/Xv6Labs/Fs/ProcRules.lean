import Xv6Labs.Fs.PipeRules

/-!
# Processes

The rules for the actions by which a process changes another one: `fork` fills in a process that does not run yet,
and `wait` frees one that has ended.
-/

namespace Xv6Labs.Fs

open Threads Prog

variable {s s' : Kernel} {t u np : Tid} {sb : Superblock} {P Q : Proc} {L : Set (Fin ninode)} {X : Fin nfile → File}

theorem sum_pair {p q : Proc} (ne : np ≠ t) (g : Proc → ℕ) :
    ∑ u, g (((s.setProc t p).setProc np q).proc u) + g (s.proc t) + g (s.proc np) =
      ∑ u, g (s.proc u) + g p + g q := by
  have first := Log.sum_update g s.proc t p
  have second := Log.sum_update g (Function.update s.proc t p) np q
  rw [Function.update_of_ne ne] at second
  change ∑ u, g (Function.update (Function.update s.proc t p) np q u) + _ + _ = _
  omega

/-- A step of `t` that also changes `np`, which does not run. -/
structure Pair (t np : Tid) (s : Kernel) (P Q p q : Proc) : Prop where
  runs : p.state = .running
  apart : np ≠ t
  old : s.proc np = Q
  idle : Q.state ≠ .running
  refs : ∀ i, procRef i p + procRef i q = procRef i P + procRef i Q
  fds : ∀ f, fdRef f p + fdRef f q = fdRef f P + fdRef f Q
  closing : p.closing = P.closing ∧ q.closing = Q.closing
  page : p.page = P.page ∧ q.page = Q.page
  calm : p.putting = none ∧ q.putting = none
  grows : (∀ i, Q.hand i ≤ q.hand i) ∧ ∀ f, fdRef f Q ≤ fdRef f q
  fewer : ∀ f, fdRef f p ≤ fdRef f P
  child : q.child = none ∧ (p.child = none ∨ p.child = some np ∧ q.state = .embryo)
  lone : ∀ u, u ≠ t → (s.proc u).child ≠ some np
  still : q.state ≠ .running → Still q
  bare : q.state = .unused ∨ q.state = .zombie → (∀ fd, q.ofile fd = none) ∧ q.cwd = none
  embryo : q.state = .embryo → Open s q
  ready : q.state = .running → Ready s q

namespace Pair

variable {p q : Proc}

theorem other (_ : Pair t np s P Q p q) (ne : u ≠ t) (ne' : u ≠ np) :
    ((s.setProc t p).setProc np q).proc u = s.proc u := by
  simp [Kernel.setProc, ne, ne']

theorem new (_ : Pair t np s P Q p q) : ((s.setProc t p).setProc np q).proc np = q := by simp [Kernel.setProc]

variable (pair : Pair t np s P Q p q)

include pair

theorem mine : ((s.setProc t p).setProc np q).proc t = p := by
  simp [Kernel.setProc, pair.apart.symm]

theorem procInv (inv : ProcInv s) (running : (s.proc t).state = .running) :
    ProcInv ((s.setProc t p).setProc np q) := by
  constructor
  · intro u idle
    by_cases self : u = t
    · rw [self, pair.mine, pair.runs] at idle
      exact absurd rfl idle
    · by_cases that : u = np
      · subst that
        rw [pair.new] at idle ⊢
        exact pair.still idle
      · rw [pair.other self that] at idle ⊢
        exact inv.still u idle
  · intro u idle
    by_cases self : u = t
    · rw [self, pair.mine, pair.runs] at idle
      simp at idle
    · by_cases that : u = np
      · subst that
        rw [pair.new] at idle ⊢
        exact pair.bare idle
      · rw [pair.other self that] at idle ⊢
        exact inv.bare u idle
  · intro u embryo
    by_cases self : u = t
    · rw [self, pair.mine, pair.runs] at embryo
      cases embryo
    · by_cases that : u = np
      · subst that
        rw [pair.new] at embryo ⊢
        exact pair.embryo embryo
      · rw [pair.other self that] at embryo ⊢
        exact inv.embryo u embryo
  · intro u v child
    by_cases self : u = t
    · rw [self, pair.mine] at child
      rcases pair.child.2 with none | ⟨this, embryo⟩
      · rw [none] at child
        cases child
      · rw [this] at child
        cases child
        rw [pair.new]
        exact embryo
    · by_cases that : u = np
      · rw [that, pair.new, pair.child.1] at child
        cases child
      · rw [pair.other self that] at child
        have embryo := inv.child u v child
        rw [pair.other]
        · exact embryo
        · intro same
          rw [same, running] at embryo
          cases embryo
        · intro same
          rw [same] at child
          exact pair.lone u self child
  · intro u v w child child'
    have only : ∀ u, u ≠ t → (((s.setProc t p).setProc np q).proc u).child = some w → w ≠ np ∧
        (s.proc u).child = some w := by
      intro u ne this
      by_cases that : u = np
      · rw [that, pair.new, pair.child.1] at this
        cases this
      · rw [pair.other ne that] at this
        refine ⟨fun same => ?_, this⟩
        rw [same] at this
        exact pair.lone u ne this
    have own : (((s.setProc t p).setProc np q).proc t).child = some w → w = np := by
      intro this
      rw [pair.mine] at this
      rcases pair.child.2 with none | ⟨same, -⟩
      · rw [none] at this
        cases this
      · rw [same] at this
        cases this
        rfl
    by_cases self : u = t
    · by_cases self' : v = t
      · rw [self, self']
      · rw [self] at child
        exact absurd (own child) (only v self' child').1
    · by_cases self' : v = t
      · rw [self'] at child'
        exact absurd (own child') (only u self child).1
      · exact inv.parent u v w (only u self child).2 (only v self' child').2

theorem frame (inv : ProcInv s) (running : (s.proc t).state = .running) (ne : u ≠ t) :
    Frame u s ((s.setProc t p).setProc np q) := by
  by_cases that : u = np
  · subst that
    have idle : (s.proc u).state ≠ .running := by
      rw [pair.old]
      exact pair.idle
    constructor
    · exact fun now => absurd now idle
    · intro _ now
      rw [pair.new] at now ⊢
      have ready := pair.ready now
      exact ⟨ready.still, ready.cwd, ready.opened⟩
    · exact fun _ => Iff.rfl
    · exact fun now => absurd now idle
    · exact fun now => absurd now idle
  · constructor
    · exact fun _ => pair.other ne that
    · intro idle now
      rw [pair.other ne that] at now
      exact absurd now idle
    · exact fun _ => Iff.rfl
    · exact fun _ _ _ => rfl
    · intro _ v child
      have embryo := inv.child u v child
      apply pair.other
      · intro same
        rw [same, running] at embryo
        cases embryo
      · intro same
        rw [same] at child
        exact pair.lone u ne child

theorem does (inv : RefInv s) (has : Has t P ∅ X s) :
    Does t s ((s.setProc t p).setProc np q) (fun s => Has t p ∅ X s ∧ s.proc np = q) := by
  have running : (s.proc t).state = .running := by
    rw [has.proc]
    exact has.running
  have sums : ∀ g : Proc → ℕ, g p + g q = g P + g Q →
      ∑ u, g (((s.setProc t p).setProc np q).proc u) = ∑ u, g (s.proc u) := by
    intro g same
    have sum := sum_pair (s := s) (p := p) (q := q) pair.apart g
    rw [has.proc, pair.old] at sum
    omega
  refine ⟨⟨⟨fun i => ?_, inv.inode.distinct⟩, ⟨fun f => ?_, inv.file.unused, inv.file.untyped⟩,
    ⟨fun pi w => ?_, fun pi => ?_, inv.pipe.freed, inv.pipe.ways⟩, ⟨fun i u held => ?_, fun u i put => ?_⟩,
    pair.procInv inv.proc running⟩, fun u ne => pair.frame inv.proc running ne,
    ⟨pair.mine, pair.runs, has.lock, fun f refers => has.kind f (refers.trans_le (pair.fewer f))⟩, pair.new⟩
  · have before := inv.inode.refs i
    unfold inodeRefs at before ⊢
    rw [sums _ (pair.refs i)]
    exact before
  · have before := inv.file.refs f
    unfold fileRefs at before ⊢
    rw [sums _ (pair.fds f)]
    exact before
  · have before := inv.pipe.opened pi w
    unfold ends at before ⊢
    rw [sums]
    · exact before
    · unfold closeRef
      rw [pair.closing.1, pair.closing.2]
  · have before := inv.pipe.pages pi
    rw [sums]
    · exact before
    · unfold pageRef
      rw [pair.page.1, pair.page.2]
  · have uses := inv.lock.used i u held
    by_cases self : u = t
    · rw [self] at held
      exact absurd ((has.lock i).mp held) id
    · by_cases that : u = np
      · subst that
        unfold Uses at uses ⊢
        rw [pair.old] at uses
        rw [pair.new]
        rcases uses with hand | ⟨f, refers, file⟩
        · exact .inl (hand.trans_le (pair.grows.1 i))
        · exact .inr ⟨f, refers.trans_le (pair.grows.2 f), file⟩
      · exact uses.congr (pair.other self that) fun _ _ => rfl
  · by_cases self : u = t
    · rw [self, pair.mine, pair.calm.1] at put
      cases put
    · by_cases that : u = np
      · rw [that, pair.new, pair.calm.2] at put
        cases put
      · rw [pair.other self that] at put ⊢
        exact inv.lock.putting u i put

end Pair

/-! ### `fork` and `wait` -/

/-- The process `np` that `t` is about to start, and its record so far. -/
def Parent (t np : Tid) (P Q : Proc) (X : Fin nfile → File) (s : Kernel) : Prop :=
  Has t P ∅ X s ∧ s.proc np = Q ∧ P.child = some np

theorem Parent.stable : Stable t (Parent t np P Q X) := by
  intro x y now frame
  obtain ⟨has, new, child⟩ := now
  refine ⟨has.frame frame, ?_, child⟩
  rw [← new]
  apply frame.child
  · rw [has.proc]
    exact has.running
  · rw [has.proc]
    exact child

theorem Parent.lone (parent : Parent t np P Q X s) (inv : ProcInv s) (u : Tid) (ne : u ≠ t) :
    (s.proc u).child ≠ some np := by
  intro child
  apply ne
  apply inv.parent u t np child
  rw [parent.1.proc]
  exact parent.2.2

theorem Parent.embryo (parent : Parent t np P Q X s) (inv : ProcInv s) : Q.state = .embryo := by
  have embryo := inv.child t np (by rw [parent.1.proc]; exact parent.2.2)
  rw [parent.2.1] at embryo
  exact embryo

theorem Parent.idle (parent : Parent t np P Q X s) (inv : ProcInv s) : Q.state ≠ .running := by
  rw [parent.embryo inv]
  nofun

theorem Parent.apart (parent : Parent t np P Q X s) (inv : ProcInv s) : np ≠ t := by
  intro same
  have idle := parent.idle inv
  rw [← parent.2.1, same, parent.1.proc] at idle
  exact idle parent.1.running

theorem Parent.calm (parent : Parent t np P Q X s) (inv : ProcInv s) : Still Q := by
  have still := inv.still np (by rw [parent.2.1]; exact parent.idle inv)
  rw [parent.2.1] at still
  exact still

theorem setState_setChild {state : ProcState} {c : Option Tid} (has : Has t P ∅ X s) (new : s.proc np = Q)
    (ne : np ≠ t) :
    (s.setState np state).setChild t c = (s.setProc t { P with child := c }).setProc np { Q with state := state } := by
  unfold Kernel.setState Kernel.setChild
  simp only [Kernel.setProc, Function.update_of_ne ne.symm, has.proc, new]
  rw [Function.update_comm ne]

theorem keeps_allocproc (has : Has t P ∅ X s) (calm : P.putting = none) (np : Tid) :
    Keeps sb t (act (.allocproc np)) (fun _ s => ∃ Q, Parent t np { P with child := some np } Q X s ∧
      (∀ fd, Q.ofile fd = none) ∧ Q.cwd = none) s := by
  refine keeps_step has (by rintro _ ⟨⟩) (fun _ x y now frame => ?_) ?_
  · obtain ⟨Q, parent, bare⟩ := now
    exact ⟨Q, Parent.stable x y parent frame, bare⟩
  intro x r y has inv run
  simp only [exec] at run
  split at run
  · rename_i unused
    cases run
    have ne : np ≠ t := by
      intro same
      rw [same, has.proc, has.running] at unused
      cases unused
    have still := inv.proc.still np (by rw [unused]; rintro ⟨⟩)
    obtain ⟨slots, dir⟩ := inv.proc.bare np (.inl unused)
    rw [setState_setChild has rfl ne]
    have pair : Pair t np x P (x.proc np) { P with child := some np } { x.proc np with state := .embryo } := {
      runs := has.running
      apart := ne
      old := rfl
      idle := by rw [unused]; rintro ⟨⟩
      refs := fun _ => rfl
      fds := fun _ => rfl
      closing := ⟨rfl, rfl⟩
      page := ⟨rfl, rfl⟩
      calm := ⟨calm, still.putting⟩
      grows := ⟨fun _ => le_rfl, fun _ => le_rfl⟩
      fewer := fun _ => le_rfl
      child := ⟨still.child, .inr ⟨rfl, rfl⟩⟩
      lone := fun u _ child => by
        have embryo := inv.proc.child u np child
        rw [unused] at embryo
        cases embryo
      still := fun _ => ⟨still.hand, still.files, still.spent, still.putting, still.closing, still.page, still.child⟩
      bare := by simp
      embryo := fun _ fd f slot => by
        rw [slots fd] at slot
        cases slot
      ready := by rintro ⟨⟩ }
    exact (pair.does inv has).imp fun now => ⟨_, ⟨now.1, now.2, rfl⟩, slots, dir⟩
  · cases run

theorem keeps_freeproc (parent : Parent t np P Q X s) (calm : P.putting = none) (slots : ∀ fd, Q.ofile fd = none)
    (dir : Q.cwd = none) :
    Keeps sb t (act (.freeproc np)) (fun _ => Has t { P with child := none } ∅ X) s := by
  refine keeps_act parent Parent.stable (fun _ => Has.stable) (by rintro _ _ _ ⟨⟩) ?_
  intro x r y parent inv run
  have still := parent.calm inv.proc
  have ne := parent.apart inv.proc
  simp only [exec] at run
  cases run
  rw [setState_setChild parent.1 parent.2.1 ne]
  have pair : Pair t np x P Q { P with child := none } { Q with state := .unused } := {
    runs := parent.1.running
    apart := ne
    old := parent.2.1
    idle := parent.idle inv.proc
    refs := fun _ => rfl
    fds := fun _ => rfl
    closing := ⟨rfl, rfl⟩
    page := ⟨rfl, rfl⟩
    calm := ⟨calm, still.putting⟩
    grows := ⟨fun _ => le_rfl, fun _ => le_rfl⟩
    fewer := fun _ => le_rfl
    child := ⟨still.child, .inl rfl⟩
    lone := parent.lone inv.proc
    still := fun _ => ⟨still.hand, still.files, still.spent, still.putting, still.closing, still.page, still.child⟩
    bare := fun _ => ⟨slots, dir⟩
    embryo := by rintro ⟨⟩
    ready := by rintro ⟨⟩ }
  exact (pair.does inv parent.1).imp fun now => now.1

theorem keeps_start (parent : Parent t np P Q X s) (calm : P.putting = none) (dir : Q.cwd ≠ none) :
    Keeps sb t (act (.start np)) (fun _ => Has t { P with child := none } ∅ X) s := by
  refine keeps_act parent Parent.stable (fun _ => Has.stable) (by rintro _ _ _ ⟨⟩) ?_
  intro x r y parent inv run
  have still := parent.calm inv.proc
  have ne := parent.apart inv.proc
  have opened := inv.proc.embryo np (by rw [parent.2.1]; exact parent.embryo inv.proc)
  rw [parent.2.1] at opened
  simp only [exec] at run
  cases run
  rw [setState_setChild parent.1 parent.2.1 ne]
  have pair : Pair t np x P Q { P with child := none } { Q with state := .running } := {
    runs := parent.1.running
    apart := ne
    old := parent.2.1
    idle := parent.idle inv.proc
    refs := fun _ => rfl
    fds := fun _ => rfl
    closing := ⟨rfl, rfl⟩
    page := ⟨rfl, rfl⟩
    calm := ⟨calm, still.putting⟩
    grows := ⟨fun _ => le_rfl, fun _ => le_rfl⟩
    fewer := fun _ => le_rfl
    child := ⟨still.child, .inl rfl⟩
    lone := parent.lone inv.proc
    still := fun idle => absurd rfl idle
    bare := by simp
    embryo := by rintro ⟨⟩
    ready := fun _ => ⟨⟨still.hand, still.files, still.spent, still.putting, still.closing, still.page, still.child⟩,
      dir, opened⟩ }
  exact (pair.does inv parent.1).imp fun now => now.1

theorem keeps_childFd (parent : Parent t np P Q X s) {fd : Fin nofile} {f : Fin nfile} (calm : P.putting = none)
    (pos : 0 < P.files f) (typed : (X f).type ≠ .none) (slot : Q.ofile fd = none) :
    Keeps sb t (act (.childFd np fd f)) (fun _ => Parent t np (P.giveFile f) (Q.setFd fd (some f) true) X) s := by
  refine keeps_act parent Parent.stable (fun _ => Parent.stable) (by nofun) ?_
  intro x r y parent inv run
  have still := parent.calm inv.proc
  have ne := parent.apart inv.proc
  have given := fdRef_giveFile pos
  have opened := inv.proc.embryo np (by rw [parent.2.1]; exact parent.embryo inv.proc)
  rw [parent.2.1] at opened
  have filled : ∀ g, fdRef g (Q.setFd fd (some f) true) = fdRef g Q + if g = f then 1 else 0 := by
    intro g
    have change := fdRef_setFd Q fd (some f) true g
    have old : slotRef g (Q.slot fd) = 0 := by
      change slotRef g (Q.ofile fd, Q.counted fd) = 0
      rw [slot, slotRef_none]
    rw [slotRef_some, old] at change
    omega
  have refers : 0 < fdRef f P := pos.trans_le (Nat.le_add_right _ _)
  have same : x.childFd t np fd f = (x.setProc t (P.giveFile f)).setProc np (Q.setFd fd (some f) true) := by
    unfold Kernel.childFd
    simp only [Kernel.setProc, Function.update_of_ne ne, parent.1.proc, parent.2.1]
  simp only [exec, same] at run
  cases run
  have pair : Pair t np x P Q (P.giveFile f) (Q.setFd fd (some f) true) := {
    runs := parent.1.running
    apart := ne
    old := parent.2.1
    idle := parent.idle inv.proc
    refs := fun _ => rfl
    fds := fun g => by
      have change := given g
      have more := filled g
      omega
    closing := ⟨rfl, rfl⟩
    page := ⟨rfl, rfl⟩
    calm := ⟨calm, still.putting⟩
    grows := ⟨fun _ => le_rfl, fun g => by
      have more := filled g
      omega⟩
    fewer := fun g => by
      have change := given g
      omega
    child := ⟨still.child, .inr ⟨parent.2.2, parent.embryo inv.proc⟩⟩
    lone := parent.lone inv.proc
    still := fun _ => ⟨still.hand, still.files, still.spent, still.putting, still.closing, still.page, still.child⟩
    bare := fun idle => by
      have embryo := parent.embryo inv.proc
      change Q.state = _ ∨ Q.state = _ at idle
      rw [embryo] at idle
      simp at idle
    embryo := fun _ fd' g this => by
      by_cases here : fd' = fd
      · subst here
        simp only [Proc.setFd, Function.update_self] at this ⊢
        cases this
        refine ⟨trivial, ?_⟩
        rw [kind_type (parent.1.kind f refers)]
        exact typed
      · simp only [Proc.setFd, Function.update_of_ne here] at this ⊢
        exact opened fd' g this
    ready := fun now => absurd now (parent.idle inv.proc) }
  exact (pair.does inv parent.1).imp fun now => ⟨now.1, now.2, parent.2.2⟩

theorem keeps_childCwd (parent : Parent t np P Q X s) {i : Fin ninode} (calm : P.putting = none)
    (pos : 0 < P.hand i) (dir : Q.cwd = none) :
    Keeps sb t (act (.childCwd np i)) (fun _ => Parent t np (P.give i) { Q with cwd := some i } X) s := by
  refine keeps_act parent Parent.stable (fun _ => Parent.stable) (by nofun) ?_
  intro x r y parent inv run
  have still := parent.calm inv.proc
  have ne := parent.apart inv.proc
  have opened := inv.proc.embryo np (by rw [parent.2.1]; exact parent.embryo inv.proc)
  rw [parent.2.1] at opened
  have same : x.childCwd t np i = (x.setProc t (P.give i)).setProc np { Q with cwd := some i } := by
    unfold Kernel.childCwd
    simp only [Kernel.setProc, Function.update_of_ne ne, parent.1.proc, parent.2.1]
  simp only [exec, same] at run
  cases run
  have pair : Pair t np x P Q (P.give i) { Q with cwd := some i } := {
    runs := parent.1.running
    apart := ne
    old := parent.2.1
    idle := parent.idle inv.proc
    refs := fun j => by
      have change := procRef_give pos j
      have more : procRef j { Q with cwd := some i } = procRef j Q + if j = i then 1 else 0 := by
        unfold procRef cwdRef
        by_cases this : j = i
        · subst this
          simp [dir, still.spent]
        · have ne' : i ≠ j := fun h => this h.symm
          simp [dir, this, ne']
      omega
    fds := fun _ => rfl
    closing := ⟨rfl, rfl⟩
    page := ⟨rfl, rfl⟩
    calm := ⟨calm, still.putting⟩
    grows := ⟨fun _ => le_rfl, fun _ => le_rfl⟩
    fewer := fun _ => le_rfl
    child := ⟨still.child, .inr ⟨parent.2.2, parent.embryo inv.proc⟩⟩
    lone := parent.lone inv.proc
    still := fun _ => ⟨still.hand, still.files, still.spent, still.putting, still.closing, still.page, still.child⟩
    bare := fun idle => by
      have embryo := parent.embryo inv.proc
      change Q.state = _ ∨ Q.state = _ at idle
      rw [embryo] at idle
      simp at idle
    embryo := fun _ => opened
    ready := fun now => absurd now (parent.idle inv.proc) }
  exact (pair.does inv parent.1).imp fun now => ⟨now.1, now.2, parent.2.2⟩

theorem keeps_reap (has : Has t P ∅ X s) (still : Still P) (np : Tid) :
    Keeps sb t (act (.reap np)) (fun _ => Has t P ∅ X) s := by
  refine keeps_step has (by rintro _ ⟨⟩) (fun _ => Has.stable) ?_
  intro x r y has inv run
  simp only [exec] at run
  split at run
  · rename_i zombie
    cases run
    have ne : np ≠ t := by
      intro same
      rw [same, has.proc, has.running] at zombie
      cases zombie
    have still' := inv.proc.still np (by rw [zombie]; rintro ⟨⟩)
    have bare := inv.proc.bare np (.inr zombie)
    have same : x.setState np .unused = (x.setProc t P).setProc np { x.proc np with state := .unused } := by
      rw [setProc_self has.proc]
      rfl
    rw [same]
    have pair : Pair t np x P (x.proc np) P { x.proc np with state := .unused } := {
      runs := has.running
      apart := ne
      old := rfl
      idle := by rw [zombie]; rintro ⟨⟩
      refs := fun _ => rfl
      fds := fun _ => rfl
      closing := ⟨rfl, rfl⟩
      page := ⟨rfl, rfl⟩
      calm := ⟨still.putting, still'.putting⟩
      grows := ⟨fun _ => le_rfl, fun _ => le_rfl⟩
      fewer := fun _ => le_rfl
      child := ⟨still'.child, .inl still.child⟩
      lone := fun u _ child => by
        have embryo := inv.proc.child u np child
        rw [zombie] at embryo
        cases embryo
      still := fun _ => ⟨still'.hand, still'.files, still'.spent, still'.putting, still'.closing, still'.page,
        still'.child⟩
      bare := fun _ => bare
      embryo := by rintro ⟨⟩
      ready := by rintro ⟨⟩ }
    exact (pair.does inv has).imp fun now => now.1
  · cases run

/-! ### `exit` -/

theorem keeps_zombie (has : Has t P ∅ X s) (still : Still P) (slots : ∀ fd, P.ofile fd = none) (dir : P.cwd = none) :
    Keeps sb t (act .zombie) (fun _ => Idle t) s := by
  refine keeps_step has (by nofun) (fun _ _ _ idle frame => idle.frame frame) ?_
  intro x r y has inv run
  simp only [exec, Kernel.setState, has.proc] at run
  cases run
  have mine : (x.setProc t { P with state := .zombie }).proc t = { P with state := .zombie } :=
    Function.update_self _ _ _
  have other : ∀ u, u ≠ t → (x.setProc t { P with state := .zombie }).proc u = x.proc u :=
    fun u ne => Function.update_of_ne ne _ _
  have running : (x.proc t).state = .running := by
    rw [has.proc]
    exact has.running
  have children : ∀ u, ((x.setProc t { P with state := .zombie }).proc u).child = (x.proc u).child := by
    intro u
    by_cases self : u = t
    · rw [self, mine, has.proc]
    · rw [other u self]
  have noChild : ∀ u v, (x.proc u).child = some v → v ≠ t := by
    intro u v child same
    have embryo := inv.proc.child u v child
    rw [same, running] at embryo
    cases embryo
  have sums : ∀ g : Proc → ℕ, g { P with state := .zombie } = g P →
      ∑ u, g ((x.setProc t { P with state := .zombie }).proc u) = ∑ u, g (x.proc u) := by
    intro g same
    have sum := Log.sum_update g x.proc t { P with state := .zombie }
    rw [has.proc] at sum
    change ∑ u, g (Function.update x.proc t { P with state := .zombie } u) = _
    omega
  have gone : Still { P with state := .zombie } :=
    ⟨still.hand, still.files, still.spent, still.putting, still.closing, still.page, still.child⟩
  refine ⟨⟨⟨fun i => ?_, inv.inode.distinct⟩, ⟨fun f => ?_, inv.file.unused, inv.file.untyped⟩,
    ⟨fun pi w => ?_, fun pi => ?_, inv.pipe.freed, inv.pipe.ways⟩, ⟨fun i u held => ?_, fun u i put => ?_⟩,
    ⟨fun u idle => ?_, fun u idle => ?_, fun u embryo => ?_, fun u v child => ?_, fun u v w => ?_⟩⟩, fun u ne => ?_,
    fun i held => (has.lock i).mp held, fun now => ?_⟩
  · have before := inv.inode.refs i
    unfold inodeRefs at before ⊢
    rw [sums _ rfl]
    exact before
  · have before := inv.file.refs f
    unfold fileRefs at before ⊢
    rw [sums _ rfl]
    exact before
  · have before := inv.pipe.opened pi w
    unfold ends at before ⊢
    rw [sums _ rfl]
    exact before
  · have before := inv.pipe.pages pi
    rw [sums _ rfl]
    exact before
  · by_cases self : u = t
    · rw [self] at held
      exact absurd ((has.lock i).mp held) id
    · exact (inv.lock.used i u held).congr (other u self) fun _ _ => rfl
  · by_cases self : u = t
    · rw [self, mine, gone.putting] at put
      cases put
    · rw [other u self] at put ⊢
      exact inv.lock.putting u i put
  · by_cases self : u = t
    · rw [self, mine]
      exact gone
    · rw [other u self] at idle ⊢
      exact inv.proc.still u idle
  · by_cases self : u = t
    · rw [self, mine]
      exact ⟨slots, dir⟩
    · rw [other u self] at idle ⊢
      exact inv.proc.bare u idle
  · by_cases self : u = t
    · rw [self, mine] at embryo
      cases embryo
    · rw [other u self] at embryo ⊢
      exact inv.proc.embryo u embryo
  · rw [children] at child
    rw [other v (noChild u v child)]
    exact inv.proc.child u v child
  · rw [children, children]
    exact inv.proc.parent u v w
  · constructor
    · exact fun _ => other u ne
    · intro idle now
      rw [other u ne] at now
      exact absurd now idle
    · exact fun _ => Iff.rfl
    · exact fun _ _ _ => rfl
    · exact fun _ v child => other v (noChild u v child)
  · rw [mine] at now
    cases now

end Xv6Labs.Fs
