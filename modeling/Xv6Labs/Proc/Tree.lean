import Xv6Labs.Proc.Inv

/-!
# Writes to one process, or to one CPU

`s.put q v` gives slot `q` the contents `v`. For each kind of write that the code makes under the lock of `q`: the
tree of parents stays one, and other threads do not mind. `setCurrent` and `setThread` write to a CPU.
-/

namespace Xv6Labs.Proc

namespace Table

def put (s : Table) (q : Slot) (v : Process) : Table := { s with proc := Function.update s.proc q v }

variable {s : Table} {p q k : Slot} {v : Process}

@[simp] theorem put_self : (s.put q v).proc q = v := Function.update_self ..

theorem put_of_ne (h : k ≠ q) : (s.put q v).proc k = s.proc k := Function.update_of_ne h ..

@[simp] theorem put_cpu : (s.put q v).cpu = s.cpu := rfl

@[simp] theorem put_owner : (s.put q v).owner = s.owner := rfl

@[simp] theorem put_initproc : (s.put q v).initproc = s.initproc := rfl

@[simp] theorem put_births : (s.put q v).births = s.births := rfl

@[simp] theorem put_runs : (s.put q v).runs = s.runs := rfl

/-! ### The tree -/

/-- A slot that is in use is not the one that has become UNUSED. -/
theorem ne_of_used (unused : v.state = .UNUSED) (used : ((s.put q v).proc k).state ≠ .UNUSED) : k ≠ q := by
  rintro rfl
  rw [put_self] at used
  exact used unused

theorem Alive.ne_of_unused (alive : s.Alive k) (unused : (s.proc q).state = .UNUSED) : k ≠ q := by
  rintro rfl
  exact alive.1 unused

theorem Tree.alive_init {i : Slot} (tree : s.Tree) (found : s.initproc = some i) (used : (s.proc q).state ≠ .UNUSED) :
    s.Alive i := by
  obtain ⟨-, zombie, unused⟩ := tree.init i found
  exact ⟨fun state => used (unused state q).1, zombie⟩

theorem Tree.found_init (tree : s.Tree) (used : (s.proc q).state ≠ .UNUSED) : ∃ i, s.initproc = some i := by
  cases found : s.initproc with
  | none => exact absurd (tree.before found q).1 used
  | some i => exact ⟨i, rfl⟩

theorem alive_put {r : Slot} (alive : s.Alive r) (kept : r = q → v.state ≠ .UNUSED ∧ v.state ≠ .ZOMBIE) :
    (s.put q v).Alive r := by
  by_cases same : r = q
  · subst same
    simpa [Alive] using kept rfl
  · simpa [Alive, put_of_ne same] using alive

/-- Two processes have the same birth after a write only if one of them is the new one. -/
theorem put_distinct (tree : s.Tree) (birth : v.birth = (s.proc q).birth ∨ v.birth = 0) (r : Slot)
    (same : ((s.put q v).proc k).birth = ((s.put q v).proc r).birth) (pos : 0 < ((s.put q v).proc k).birth) :
    k = r := by
  have kept (k : Slot) (pos : 0 < ((s.put q v).proc k).birth) : ((s.put q v).proc k).birth = (s.proc k).birth := by
    by_cases here : k = q
    · subst here
      rw [put_self] at pos ⊢
      exact birth.resolve_right pos.ne'
    · rw [put_of_ne here]
  have pos' := same ▸ pos
  rw [kept k pos, kept r pos'] at same
  rw [kept k pos] at pos
  exact tree.distinct k r same pos

/-- A process that lives on under the same parent. -/
theorem Tree.put_alive (tree : s.Tree) (alive : s.Alive q) (used : v.state ≠ .UNUSED) (live : v.state ≠ .ZOMBIE)
    (parent : v.parent = (s.proc q).parent) (birth : v.birth = (s.proc q).birth)
    (asleep : v.state = .SLEEPING → v.chan = some (.proc q) → s.initproc ≠ some q →
      ∀ k, (s.proc k).parent = some q → (s.proc k).state ≠ .ZOMBIE) : (s.put q v).Tree := by
  have parents (k : Slot) : ((s.put q v).proc k).parent = (s.proc k).parent := by
    by_cases same : k = q
    · subst same
      rw [put_self, parent]
    · rw [put_of_ne same]
  have births (k : Slot) : ((s.put q v).proc k).birth = (s.proc k).birth := by
    by_cases same : k = q
    · subst same
      rw [put_self, birth]
    · rw [put_of_ne same]
  have unused (k : Slot) : ((s.put q v).proc k).state = .UNUSED ↔ (s.proc k).state = .UNUSED := by
    by_cases same : k = q
    · subst same
      rw [put_self]
      exact iff_of_false used alive.1
    · rw [put_of_ne same]
  have zombie (k : Slot) : ((s.put q v).proc k).state = .ZOMBIE ↔ (s.proc k).state = .ZOMBIE := by
    by_cases same : k = q
    · subst same
      rw [put_self]
      exact iff_of_false live alive.2
    · rw [put_of_ne same]
  constructor
  case before => exact fun none => absurd (tree.before none q).1 alive.1
  case init =>
    intro i found
    obtain ⟨orphan, living, -⟩ := tree.init i found
    have used' := (tree.alive_init found alive.1).1
    exact ⟨(parents i).trans orphan, fun dead => living ((zombie i).mp dead),
      fun fresh => absurd ((unused i).mp fresh) used'⟩
  case parent =>
    intro k used' notInit
    obtain ⟨r, child, older, alive'⟩ := tree.parent k (fun fresh => used' ((unused k).mpr fresh)) notInit
    refine ⟨r, (parents k).trans child, ?_, alive_put alive' fun _ => ⟨used, live⟩⟩
    rwa [births r, births k]
  case building => exact fun k r fresh child => tree.building k r ((unused k).mp fresh) ((parents k).symm.trans child)
  case births =>
    intro k
    rw [births k]
    exact tree.births k
  case born =>
    intro k used'
    rw [births k]
    exact tree.born k fun fresh => used' ((unused k).mpr fresh)
  case distinct => exact fun k r same pos => put_distinct tree (.inl birth) r same pos
  case eldest =>
    intro i k found used' other
    rw [births i, births k]
    exact tree.eldest i k found (fun fresh => used' ((unused k).mpr fresh)) other
  case asleep =>
    intro p k notInit state chan child dead
    have child' := (parents k).symm.trans child
    have dead' := (zombie k).mp dead
    by_cases same : p = q
    · subst same
      rw [put_self] at state chan
      exact asleep state chan notInit k child' dead'
    · rw [put_of_ne same] at state chan
      exact tree.asleep p k notInit state chan child' dead'

/-- A slot that stays UNUSED. -/
theorem Tree.put_unused (tree : s.Tree) (unused : (s.proc q).state = .UNUSED) (unused' : v.state = .UNUSED)
    (birth : v.birth = (s.proc q).birth ∨ v.birth = 0)
    (parent : ∀ r, v.parent = some r → s.Alive r ∧ ∃ c, s.owner (.proc q) = some c ∧ s.runs c = .proc r) :
    (s.put q v).Tree := by
  have states (k : Slot) : ((s.put q v).proc k).state = (s.proc k).state := by
    by_cases same : k = q
    · subst same
      rw [put_self, unused', unused]
    · rw [put_of_ne same]
  have other {k : Slot} (used : ((s.put q v).proc k).state ≠ .UNUSED) : k ≠ q := ne_of_used unused' used
  have alive_ne {r : Slot} (alive : s.Alive r) : r ≠ q := alive.ne_of_unused unused
  -- As long as all slots are UNUSED, nobody could be the parent.
  have orphans (all : ∀ k, (s.proc k).state = .UNUSED ∧ (s.proc k).parent = none) (k : Slot) :
      ((s.put q v).proc k).state = .UNUSED ∧ ((s.put q v).proc k).parent = none := by
    refine ⟨(states k).trans (all k).1, ?_⟩
    by_cases same : k = q
    · subst same
      rw [put_self]
      cases found : v.parent with
      | none => rfl
      | some r => exact absurd (all r).1 (parent r found).1.1
    · rw [put_of_ne same]
      exact (all k).2
  constructor
  case before => exact fun none => orphans (tree.before none)
  case init =>
    intro i found
    obtain ⟨orphan, living, all⟩ := tree.init i found
    rw [states i]
    refine ⟨?_, living, fun fresh => orphans (all fresh)⟩
    by_cases same : i = q
    · subst same
      exact (orphans (all unused) i).2
    · rw [put_of_ne same]
      exact orphan
  case parent =>
    intro k used notInit
    have ne := other used
    rw [put_of_ne ne] at used ⊢
    obtain ⟨r, child, older, alive⟩ := tree.parent k used notInit
    refine ⟨r, child, ?_, alive_put alive fun same => absurd same (alive_ne alive)⟩
    rwa [put_of_ne (alive_ne alive)]
  case building =>
    intro k r fresh child
    by_cases same : k = q
    · subst same
      rw [put_self] at child
      exact (parent r child).2
    · rw [put_of_ne same] at fresh child
      exact tree.building k r fresh child
  case births =>
    intro k
    by_cases same : k = q
    · subst same
      rw [put_self]
      rcases birth with kept | zero
      · exact kept ▸ tree.births k
      · exact zero ▸ (Nat.zero_le _).trans_lt (tree.births k)
    · rw [put_of_ne same]
      exact tree.births k
  case born =>
    intro k used
    have ne := other used
    rw [put_of_ne ne] at used ⊢
    exact tree.born k used
  case distinct => exact fun k r same pos => put_distinct tree birth r same pos
  case eldest =>
    intro i k found used ne'
    have ne := other used
    rw [put_of_ne ne] at used ⊢
    have older := tree.eldest i k found used ne'
    by_cases same : i = q
    · subst same
      rw [put_self]
      rcases birth with kept | zero
      · exact kept ▸ older
      · exact zero ▸ tree.born k used
    · rwa [put_of_ne same]
  case asleep =>
    intro p k notInit state chan child
    have ne : p ≠ q := other (by rw [state]; decide)
    rw [put_of_ne ne] at state chan
    rw [states k]
    by_cases same : k = q
    · subst same
      rw [unused]
      decide
    · rw [put_of_ne same] at child
      exact tree.asleep p k notInit state chan child

/-- A new process: its parent is older, or it is init and the first. -/
theorem Tree.put_new (tree : s.Tree) (unused : (s.proc q).state = .UNUSED) (used : v.state = .RUNNABLE)
    (birth : v.birth = (s.proc q).birth) (born : 0 < v.birth)
    (parent : s.initproc = some q ∧ v.parent = none ∨
      ∃ r, v.parent = some r ∧ (s.proc r).birth < v.birth ∧ s.Alive r) : (s.put q v).Tree := by
  have births (k : Slot) : ((s.put q v).proc k).birth = (s.proc k).birth := by
    by_cases same : k = q
    · subst same
      rw [put_self, birth]
    · rw [put_of_ne same]
  have alive_ne {r : Slot} (alive : s.Alive r) : r ≠ q := alive.ne_of_unused unused
  -- Somebody else is there already, except for the first process.
  have first (all : ∀ k, (s.proc k).state = .UNUSED ∧ (s.proc k).parent = none) :
      s.initproc = some q ∧ v.parent = none := by
    rcases parent with first | ⟨r, -, -, alive⟩
    · exact first
    · exact absurd (all r).1 alive.1
  constructor
  case before =>
    intro none
    have found := (first (tree.before none)).1
    rw [put_initproc, found] at none
    cases none
  case init =>
    intro i found
    obtain ⟨orphan, living, all⟩ := tree.init i found
    by_cases same : i = q
    · subst same
      rw [put_self, used]
      exact ⟨(first (all unused)).2, by decide, fun fresh => absurd fresh (by decide)⟩
    · rw [put_of_ne same]
      refine ⟨orphan, living, fun fresh => absurd ?_ same⟩
      exact Option.some.inj (found.symm.trans (first (all fresh)).1)
  case parent =>
    intro k used' notInit
    by_cases same : k = q
    · subst same
      rw [put_self]
      rcases parent with ⟨found, -⟩ | ⟨r, child, older, alive⟩
      · exact absurd found notInit
      · refine ⟨r, child, ?_, alive_put alive fun same => absurd same (alive_ne alive)⟩
        rwa [births r]
    · rw [put_of_ne same] at used' ⊢
      obtain ⟨r, child, older, alive⟩ := tree.parent k used' notInit
      refine ⟨r, child, ?_, alive_put alive fun same => absurd same (alive_ne alive)⟩
      rwa [births r]
  case building =>
    intro k r fresh child
    have ne : k ≠ q := by
      rintro rfl
      rw [put_self, used] at fresh
      cases fresh
    rw [put_of_ne ne] at fresh child
    exact tree.building k r fresh child
  case births =>
    intro k
    rw [births k]
    exact tree.births k
  case born =>
    intro k used'
    by_cases same : k = q
    · subst same
      rwa [put_self]
    · rw [put_of_ne same] at used' ⊢
      exact tree.born k used'
  case distinct => exact fun k r same pos => put_distinct tree (.inl birth) r same pos
  case eldest =>
    intro i k found used' other
    rw [births i, births k]
    by_cases same : k = q
    · subst same
      rcases parent with ⟨found', -⟩ | ⟨r, -, older, alive⟩
      · exact absurd (Option.some.inj (found'.symm.trans found)) other
      · rw [birth] at older
        by_cases init : r = i
        · exact init ▸ older
        · exact (tree.eldest i r found alive.1 init).trans older
    · rw [put_of_ne same] at used'
      exact tree.eldest i k found used' other
  case asleep =>
    intro p k notInit state chan child
    have ne : p ≠ q := by
      rintro rfl
      rw [put_self, used] at state
      cases state
    rw [put_of_ne ne] at state chan
    by_cases same : k = q
    · subst same
      rw [put_self, used]
      decide
    · rw [put_of_ne same] at child ⊢
      exact tree.asleep p k notInit state chan child

theorem Tree.put_reparented {i : Slot} (tree : s.Tree) (used : (s.proc q).state ≠ .UNUSED) (notInit : q ≠ i)
    (found : s.initproc = some i) : (s.put q { s.proc q with parent := some i }).Tree := by
  have alive := tree.alive_init found used
  have same_but_parent (k : Slot) :
      ∃ parent, (s.put q { s.proc q with parent := some i }).proc k = { s.proc k with parent := parent } := by
    by_cases same : k = q
    · subst same
      exact ⟨some i, put_self⟩
    · exact ⟨(s.proc k).parent, put_of_ne same⟩
  have states (k : Slot) : ((s.put q { s.proc q with parent := some i }).proc k).state = (s.proc k).state := by
    obtain ⟨parent, same⟩ := same_but_parent k
    rw [same]
  have chans (k : Slot) : ((s.put q { s.proc q with parent := some i }).proc k).chan = (s.proc k).chan := by
    obtain ⟨parent, same⟩ := same_but_parent k
    rw [same]
  have births (k : Slot) : ((s.put q { s.proc q with parent := some i }).proc k).birth = (s.proc k).birth := by
    obtain ⟨parent, same⟩ := same_but_parent k
    rw [same]
  have living {r : Slot} (alive : s.Alive r) : (s.put q { s.proc q with parent := some i }).Alive r := by
    refine alive_put alive ?_
    rintro rfl
    exact alive
  constructor
  case before => exact fun none => absurd (tree.before none q).1 used
  case init =>
    intro j found'
    cases found.symm.trans found'
    obtain ⟨orphan, notZombie, -⟩ := tree.init i found
    rw [put_of_ne notInit.symm]
    exact ⟨orphan, notZombie, fun fresh => absurd fresh alive.1⟩
  case parent =>
    intro k used' notInit'
    rw [states k] at used'
    by_cases same : k = q
    · subst same
      refine ⟨i, by rw [put_self], ?_, living alive⟩
      rw [births i, births k]
      exact tree.eldest i k found used notInit
    · obtain ⟨r, child, older, alive'⟩ := tree.parent k used' notInit'
      refine ⟨r, by rw [put_of_ne same, child], ?_, living alive'⟩
      rwa [births r, births k]
  case building =>
    intro k r fresh child
    rw [states k] at fresh
    have ne : k ≠ q := by
      rintro rfl
      exact used fresh
    rw [put_of_ne ne] at child
    exact tree.building k r fresh child
  case births =>
    intro k
    rw [births k]
    exact tree.births k
  case born =>
    intro k used'
    rw [states k] at used'
    rw [births k]
    exact tree.born k used'
  case distinct =>
    exact fun k r same pos => put_distinct (v := { s.proc q with parent := some i }) tree (.inl rfl) r same pos
  case eldest =>
    intro j k found' used' other
    rw [states k] at used'
    rw [births j, births k]
    exact tree.eldest j k found' used' other
  case asleep =>
    intro p k notInit' state chan child
    rw [states p] at state
    rw [chans p] at chan
    rw [states k]
    by_cases same : k = q
    · subst same
      rw [put_self] at child
      exact absurd (found.trans child) notInit'
    · rw [put_of_ne same] at child
      exact tree.asleep p k notInit' state chan child

/-- An exit: the children are gone, and the parent is not asleep. -/
theorem Tree.put_zombie (tree : s.Tree) (alive : s.Alive q) (notInit : s.initproc ≠ some q)
    (childless : ∀ k, (s.proc k).parent ≠ some q)
    (awake : ∀ p, s.initproc ≠ some p → (s.proc q).parent = some p →
      ¬((s.proc p).state = .SLEEPING ∧ (s.proc p).chan = some (.proc p))) :
    (s.put q { s.proc q with state := .ZOMBIE }).Tree := by
  have same_but_state (k : Slot) : ((s.put q { s.proc q with state := .ZOMBIE }).proc k).parent = (s.proc k).parent ∧
      ((s.put q { s.proc q with state := .ZOMBIE }).proc k).birth = (s.proc k).birth := by
    by_cases same : k = q
    · subst same
      rw [put_self]
      exact ⟨rfl, rfl⟩
    · rw [put_of_ne same]
      exact ⟨rfl, rfl⟩
  have unused (k : Slot) : ((s.put q { s.proc q with state := .ZOMBIE }).proc k).state = .UNUSED ↔
      (s.proc k).state = .UNUSED := by
    by_cases same : k = q
    · subst same
      rw [put_self]
      exact iff_of_false (by simp) alive.1
    · rw [put_of_ne same]
  constructor
  case before => exact fun none => absurd (tree.before none q).1 alive.1
  case init =>
    intro i found
    obtain ⟨orphan, living, -⟩ := tree.init i found
    have ne : i ≠ q := by
      rintro rfl
      exact notInit found
    rw [put_of_ne ne]
    exact ⟨orphan, living, fun fresh => absurd fresh (tree.alive_init found alive.1).1⟩
  case parent =>
    intro k used notInit'
    obtain ⟨r, child, older, alive'⟩ := tree.parent k (fun fresh => used ((unused k).mpr fresh)) notInit'
    have ne : r ≠ q := by
      rintro rfl
      exact childless k child
    refine ⟨r, (same_but_state k).1.trans child, ?_, alive_put alive' fun same => absurd same ne⟩
    rwa [(same_but_state r).2, (same_but_state k).2]
  case building =>
    exact fun k r fresh child =>
      tree.building k r ((unused k).mp fresh) ((same_but_state k).1.symm.trans child)
  case births =>
    intro k
    rw [(same_but_state k).2]
    exact tree.births k
  case born =>
    intro k used
    rw [(same_but_state k).2]
    exact tree.born k fun fresh => used ((unused k).mpr fresh)
  case distinct =>
    exact fun k r same pos => put_distinct (v := { s.proc q with state := .ZOMBIE }) tree (.inl rfl) r same pos
  case eldest =>
    intro i k found used other
    rw [(same_but_state i).2, (same_but_state k).2]
    exact tree.eldest i k found (fun fresh => used ((unused k).mpr fresh)) other
  case asleep =>
    intro p k notInit' state chan child
    rw [(same_but_state k).1] at child
    have ne : p ≠ q := by
      rintro rfl
      rw [put_self] at state
      cases state
    rw [put_of_ne ne] at state chan
    by_cases same : k = q
    · subst same
      exact absurd ⟨state, chan⟩ (awake p notInit' child)
    · rw [put_of_ne same]
      exact tree.asleep p k notInit' state chan child

theorem Tree.put_free (tree : s.Tree) (zombie : (s.proc q).state = .ZOMBIE) : (s.put q {}).Tree := by
  have used : (s.proc q).state ≠ .UNUSED := by
    rw [zombie]
    decide
  have other {k : Slot} (used : ((s.put q {}).proc k).state ≠ .UNUSED) : k ≠ q := ne_of_used rfl used
  have alive_ne {r : Slot} (alive : s.Alive r) : r ≠ q := by
    rintro rfl
    exact alive.2 zombie
  constructor
  case before => exact fun none => absurd (tree.before none q).1 used
  case init =>
    intro i found
    have alive := tree.alive_init found used
    obtain ⟨orphan, living, -⟩ := tree.init i found
    rw [put_of_ne (alive_ne alive)]
    exact ⟨orphan, living, fun fresh => absurd fresh alive.1⟩
  case parent =>
    intro k used' notInit
    have ne := other used'
    rw [put_of_ne ne] at used' ⊢
    obtain ⟨r, child, older, alive⟩ := tree.parent k used' notInit
    refine ⟨r, child, ?_, alive_put alive fun same => absurd same (alive_ne alive)⟩
    rwa [put_of_ne (alive_ne alive)]
  case building =>
    intro k r fresh child
    have ne : k ≠ q := by
      rintro rfl
      rw [put_self] at child
      cases child
    rw [put_of_ne ne] at fresh child
    exact tree.building k r fresh child
  case births =>
    intro k
    by_cases same : k = q
    · subst same
      rw [put_self]
      exact (Nat.zero_le _).trans_lt (tree.births k)
    · rw [put_of_ne same]
      exact tree.births k
  case born =>
    intro k used'
    have ne := other used'
    rw [put_of_ne ne] at used' ⊢
    exact tree.born k used'
  case distinct => exact fun k r same pos => put_distinct tree (.inr rfl) r same pos
  case eldest =>
    intro i k found used' notInit
    have ne := other used'
    rw [put_of_ne ne] at used' ⊢
    rw [put_of_ne (alive_ne (tree.alive_init found used))]
    exact tree.eldest i k found used' notInit
  case asleep =>
    intro p k notInit state chan child
    have ne : p ≠ q := other (by rw [state]; decide)
    rw [put_of_ne ne] at state chan
    by_cases same : k = q
    · subst same
      rw [put_self] at child
      cases child
    · rw [put_of_ne same] at child ⊢
      exact tree.asleep p k notInit state chan child

def note (s : Table) (p : Slot) (v : Notes) : Table := { s with notes := Function.update s.notes p v }

@[simp] theorem note_proc {n : Notes} : (s.note p n).proc = s.proc := rfl

@[simp] theorem note_initproc {n : Notes} : (s.note p n).initproc = s.initproc := rfl

/-- The birth of a process. -/
def bear (s : Table) (q : Slot) : Table :=
  { (s.note q {}).put q { s.proc q with birth := s.births } with births := s.births + 1 }

theorem Tree.bear (tree : s.Tree) (unused : (s.proc q).state = .UNUSED) : (s.bear q).Tree := by
  have same_but_birth (k : Slot) :
      ∃ birth, (s.bear q).proc k = { s.proc k with birth := birth } ∧ (k ≠ q → birth = (s.proc k).birth) := by
    by_cases same : k = q
    · subst same
      exact ⟨s.births, put_self, fun ne => absurd rfl ne⟩
    · exact ⟨(s.proc k).birth, put_of_ne same, fun _ => rfl⟩
  have states (k : Slot) : ((s.bear q).proc k).state = (s.proc k).state := by
    obtain ⟨birth, same, -⟩ := same_but_birth k
    rw [same]
  have parents (k : Slot) : ((s.bear q).proc k).parent = (s.proc k).parent := by
    obtain ⟨birth, same, -⟩ := same_but_birth k
    rw [same]
  have chans (k : Slot) : ((s.bear q).proc k).chan = (s.proc k).chan := by
    obtain ⟨birth, same, -⟩ := same_but_birth k
    rw [same]
  have older {k : Slot} (used : (s.proc k).state ≠ .UNUSED) : ((s.bear q).proc k).birth = (s.proc k).birth := by
    obtain ⟨birth, same, kept⟩ := same_but_birth k
    rw [same, ← kept]
    rintro rfl
    exact used unused
  have new : ((s.bear q).proc q).birth = s.births := congrArg Process.birth put_self
  have old {k : Slot} (ne : k ≠ q) : ((s.bear q).proc k).birth = (s.proc k).birth :=
    congrArg Process.birth (put_of_ne ne)
  constructor
  case before =>
    intro none k
    rw [states k, parents k]
    exact tree.before none k
  case init =>
    intro i found
    obtain ⟨orphan, living, all⟩ := tree.init i found
    rw [states i, parents i]
    refine ⟨orphan, living, fun fresh k => ?_⟩
    rw [states k, parents k]
    exact all fresh k
  case parent =>
    intro k used notInit
    rw [states k] at used
    obtain ⟨r, child, less, alive⟩ := tree.parent k used notInit
    refine ⟨r, (parents k).trans child, ?_, ?_⟩
    · rwa [older alive.1, older used]
    · rwa [Alive, states r]
  case building =>
    intro k r fresh child
    rw [states k] at fresh
    rw [parents k] at child
    exact tree.building k r fresh child
  case births =>
    intro k
    by_cases same : k = q
    · rw [same, new]
      exact Nat.lt_succ_self _
    · rw [old same]
      exact (tree.births k).trans (Nat.lt_succ_self _)
  case born =>
    intro k used
    rw [states k] at used
    rw [older used]
    exact tree.born k used
  case distinct =>
    intro k r same pos
    by_cases first : k = q
    · by_cases second : r = q
      · rw [first, second]
      · rw [first, new, old second] at same
        exact absurd same (tree.births r).ne'
    · by_cases second : r = q
      · rw [second, new, old first] at same
        exact absurd same (tree.births k).ne
      · rw [old first] at same pos
        rw [old second] at same
        exact tree.distinct k r same pos
  case eldest =>
    intro i k found used ne
    rw [states k] at used
    have alive := tree.alive_init found used
    rw [older alive.1, older used]
    exact tree.eldest i k found used ne
  case asleep =>
    intro p k notInit state chan child
    rw [states p] at state
    rw [chans p] at chan
    rw [parents k] at child
    rw [states k]
    exact tree.asleep p k notInit state chan child

end Table

/-! ### Other threads -/

/-- A write that changes nothing for `u`, which has the locks `L`. -/
structure Mild (u : Thread) (L : List Lock) (s : Table) (q : Slot) (v : Process) : Prop where
  own : u = .proc q → s.Alive q → (v.state ≠ .UNUSED ∧ v.state ≠ .ZOMBIE) ∧ v.birth = (s.proc q).birth ∧
    (v.parent = (s.proc q).parent ∨ ∃ i, s.initproc = some i ∧ v.parent = some i)
  kids : ∀ p, u = .proc p → (s.proc q).parent = some p → v.parent = some p ∧ v.birth = (s.proc q).birth ∧
    ((s.proc q).state ≠ .UNUSED → v.state ≠ .UNUSED) ∧ ((s.proc q).state = .ZOMBIE → v = s.proc q)
  nobody : ∀ p, u = .proc p → s.initproc ≠ some p → v.parent = some p → (s.proc q).parent = some p
  waiting : ∀ p, u = .proc p → .proc p ∈ L → s.initproc ≠ some p → (s.proc q).parent = some p →
    (s.proc q).state ≠ .ZOMBIE → v.state ≠ .ZOMBIE

variable {t u : Thread} {L : List Lock} {s x y : Table} {c : Core} {p q : Slot} {v : Process}

theorem Mild.since (mild : Mild u L s q v) : Since u L s (s.put q v) where
  init _ h := h
  first _ := rfl
  births := le_rfl
  own p me alive := by
    by_cases same : p = q
    · subst same
      simpa [Table.Alive] using mild.own me alive
    · simpa [Table.Alive, Table.put_of_ne same] using alive
  kids p k me child := by
    by_cases same : k = q
    · subst same
      simpa using mild.kids p me child
    · simp [Table.put_of_ne same, child]
  nobody p k me notInit child := by
    by_cases same : k = q
    · subst same
      exact mild.nobody p me notInit (by simpa using child)
    · rwa [Table.put_of_ne same] at child
  waiting p k me held notInit child live := by
    by_cases same : k = q
    · subst same
      simpa using mild.waiting p me held notInit child live
    · rwa [Table.put_of_ne same]
  notes _ _ := .inl rfl

theorem mild_alive (alive : s.Alive q) (used : v.state ≠ .UNUSED) (live : v.state ≠ .ZOMBIE)
    (parent : v.parent = (s.proc q).parent) (birth : v.birth = (s.proc q).birth) : Mild u L s q v where
  own _ _ := ⟨⟨used, live⟩, birth, .inl parent⟩
  kids _ _ child := ⟨parent.trans child, birth, fun _ => used, fun zombie => absurd zombie alive.2⟩
  nobody _ _ _ child := parent ▸ child
  waiting _ _ _ _ _ _ := live

/-- A slot that is nobody's child but the caller's, before and after, except that init may get it. -/
theorem mild_mine (other : u ≠ t) (mine : ∀ p, (s.proc q).parent = some p → t = .proc p)
    (mine' : ∀ p, v.parent = some p → t = .proc p ∨ s.initproc = some p)
    (own : s.Alive q → (v.state ≠ .UNUSED ∧ v.state ≠ .ZOMBIE) ∧ v.birth = (s.proc q).birth ∧
      (v.parent = (s.proc q).parent ∨ ∃ i, s.initproc = some i ∧ v.parent = some i)) : Mild u L s q v where
  own _ := own
  kids p me child := absurd (me.trans (mine p child).symm) other
  nobody p me notInit child := by
    rcases mine' p child with same | found
    · exact absurd (me.trans same.symm) other
    · exact absurd found notInit
  waiting p me _ _ child := absurd (me.trans (mine p child).symm) other

theorem put_has (has : s.Has u L) : (s.put q v).Has u L := by
  obtain ⟨c, here, nodup, mem, noff⟩ := has
  exact ⟨c, here, nodup, mem, noff⟩

theorem put_frame (here : s.runs c = t) (owner : s.owner (.proc q) = some c) (other : u ≠ t)
    (mild : ∀ L, s.Has u L ∨ L = [] → Mild u L s q v)
    (running : u = .proc q → (s.proc q).state = .RUNNING → v.state = .RUNNING) : Frame u s (s.put q v) where
  since := (mild [] (.inr rfl)).since
  on L has := by
    refine ⟨put_has has, (mild L (.inl has)).since, ?_, ?_, fun _ _ => rfl⟩
    · intro k held
      have ne : k ≠ q := by
        rintro rfl
        obtain ⟨d, there, owns⟩ := has
        have owner' := (owns.mem _).mpr held
        rw [owner] at owner'
        cases owner'
        exact other (there.symm.trans here)
      exact ⟨Table.put_of_ne ne, fun _ => .rfl⟩
    · intro p me state
      by_cases same : p = q
      · subst same
        simpa using running me state
      · rwa [Table.put_of_ne same]
  offProc _ _ off := .inl off
  offSched _ _ _ away := .inl away

theorem put_inv (inv : s.Inv) (owner : s.owner (.proc q) ≠ none) (tree : (s.put q v).Tree) : (s.put q v).Inv where
  thread := inv.thread
  unique := inv.unique
  held := inv.held
  idle := inv.idle
  settled p free := by
    have ne : p ≠ q := by
      rintro rfl
      exact owner free
    have settled := inv.settled p free
    constructor <;> rw [Table.put_of_ne ne]
    · exact settled.running
    · exact settled.unused
    · exact settled.blank
  tree := tree

theorem bear_since (unused : (s.proc q).state = .UNUSED) (orphan : (s.proc q).parent = none) :
    Since u L s (s.bear q) := by
  have mild : Mild u L s q { s.proc q with birth := s.births } :=
    ⟨fun _ alive => absurd unused alive.1, by simp [orphan], by simp, by simp [orphan]⟩
  obtain ⟨init, first, -, own, kids, nobody, waiting, -⟩ := mild.since
  refine ⟨init, first, Nat.le_succ _, own, kids, nobody, waiting, fun p _ => ?_⟩
  by_cases same : p = q
  · subst same
    exact .inr ⟨Function.update_self .., fun alive => alive.1 unused⟩
  · exact .inl (Function.update_of_ne same ..)

theorem bear_frame (here : s.runs c = t) (owner : s.owner (.proc q) = some c) (other : u ≠ t)
    (unused : (s.proc q).state = .UNUSED) (orphan : (s.proc q).parent = none) : Frame u s (s.bear q) := by
  have put : Frame u s (s.put q { s.proc q with birth := s.births }) := by
    refine put_frame here owner other (fun L _ => ?_) fun _ state => state
    exact ⟨fun _ alive => absurd unused alive.1, by simp [orphan], by simp, by simp [orphan]⟩
  refine ⟨bear_since unused orphan, fun L has => ?_, fun _ _ off => .inl off, fun _ _ _ away => .inl away⟩
  obtain ⟨-, past⟩ := put.on L has
  obtain ⟨d, there, nodup, mem, noff⟩ := has
  exact ⟨⟨d, there, nodup, mem, noff⟩, bear_since unused orphan, past.same, past.running, past.proc⟩

theorem bear_inv (inv : s.Inv) (owner : s.owner (.proc q) ≠ none) (unused : (s.proc q).state = .UNUSED) :
    (s.bear q).Inv where
  thread := inv.thread
  unique := inv.unique
  held := inv.held
  idle := inv.idle
  settled p free := by
    have ne : p ≠ q := by
      rintro rfl
      exact owner free
    have same : (s.bear q).proc p = s.proc p := Table.put_of_ne ne
    have settled := inv.settled p free
    constructor <;> rw [same]
    · exact settled.running
    · exact settled.unused
    · exact settled.blank
  tree := inv.tree.bear unused

/-! ### The first process -/

/-- Before there is a first process, all slots are UNUSED. -/
theorem setInitproc_inv (inv : s.Inv) (none : s.initproc = none) :
    ({ s with initproc := some q } : Table).Inv ∧ ∀ u, u ≠ .sched 0 → Frame u s { s with initproc := some q } := by
  have unused (k : Slot) : (s.proc k).state = .UNUSED := (inv.tree.before none k).1
  have orphan (k : Slot) : (s.proc k).parent = .none := (inv.tree.before none k).2
  constructor
  · refine ⟨inv.thread, inv.unique, inv.held, inv.idle, fun p free => ?_, ?_⟩
    · have settled := inv.settled p free
      exact ⟨settled.running, settled.unused, settled.blank⟩
    · refine ⟨nofun, fun i found => ?_, fun k used => absurd (unused k) used, fun k r _ parent => ?_,
        inv.tree.births, fun k used => absurd (unused k) used, inv.tree.distinct,
        fun i k _ used => absurd (unused k) used, fun p k _ state => ?_⟩
      · exact ⟨orphan i, by simp [unused i], fun _ k => ⟨unused k, orphan k⟩⟩
      · simp [orphan k] at parent
      · simp [unused p] at state
  · intro u other
    have since (L : List Lock) : Since u L s { s with initproc := some q } :=
      ⟨by simp [none], fun me => absurd me other, le_rfl, fun p _ alive => absurd (unused p) alive.1,
        by simp [orphan], by simp [orphan], by simp [orphan], fun _ _ => .inl rfl⟩
    refine ⟨since [], fun L has => ?_, fun _ _ off => .inl off, fun _ _ _ away => .inl away⟩
    obtain ⟨c, here, nodup, mem, noff⟩ := has
    exact ⟨⟨c, here, nodup, mem, noff⟩, since L, fun _ _ => ⟨rfl, fun _ => .rfl⟩, fun _ _ state => state,
      fun _ _ => rfl⟩

/-! ### The CPU -/

namespace Table

def setCurrent (s : Table) (c : Core) (o : Option Slot) : Table :=
  { s with cpu := Function.update s.cpu c { s.cpu c with proc := o } }

def setThread (s : Table) (c : Core) (o : Option Slot) : Table :=
  { s with cpu := Function.update s.cpu c { s.cpu c with thread := o } }

variable {o : Option Slot} {d : Core}

@[simp] theorem setCurrent_self : ((s.setCurrent c o).cpu c).proc = o := by simp [setCurrent]

theorem setCurrent_of_ne (h : d ≠ c) : (s.setCurrent c o).cpu d = s.cpu d := Function.update_of_ne h ..

theorem setCurrent_cpu : ((s.setCurrent c o).cpu d).thread = (s.cpu d).thread ∧
    ((s.setCurrent c o).cpu d).noff = (s.cpu d).noff := by
  by_cases same : d = c
  · subst same
    simp [setCurrent]
  · simp [setCurrent_of_ne same]

theorem setCurrent_runs : (s.setCurrent c o).runs d = s.runs d := by
  simp only [runs, setCurrent_cpu.1]

@[simp] theorem setThread_self : ((s.setThread c o).cpu c).thread = o := by simp [setThread]

theorem setThread_of_ne (h : d ≠ c) : (s.setThread c o).cpu d = s.cpu d := Function.update_of_ne h ..

theorem setThread_cpu : ((s.setThread c o).cpu d).proc = (s.cpu d).proc ∧
    ((s.setThread c o).cpu d).noff = (s.cpu d).noff := by
  by_cases same : d = c
  · subst same
    simp [setThread]
  · simp [setThread_of_ne same]

theorem setThread_runs_of_ne (h : d ≠ c) : (s.setThread c o).runs d = s.runs d := by
  simp only [runs, setThread_of_ne h]

end Table

variable {o : Option Slot}

theorem setCurrent_has (has : s.Has u L) : (s.setCurrent c o).Has u L := by
  obtain ⟨d, here, nodup, mem, noff⟩ := has
  exact ⟨d, Table.setCurrent_runs.trans here, nodup, mem, Table.setCurrent_cpu.2.trans noff⟩

theorem setCurrent_frame (here : s.runs c = t) (other : u ≠ t)
    (held : ∀ k, (s.cpu c).proc = some k ∨ o = some k → s.owner (.proc k) = some c) :
    Frame u s (s.setCurrent c o) where
  since := .of_same rfl rfl le_rfl rfl
  on L has := by
    refine ⟨setCurrent_has has, .of_same rfl rfl le_rfl rfl, fun k locked => ⟨rfl, fun d => ?_⟩,
      fun _ _ state => state, fun d me => ?_⟩
    · by_cases same : d = c
      · subst same
        have notHeld : s.owner (.proc k) ≠ some d := by
          intro owner
          obtain ⟨d', there, owns⟩ := has
          rw [(owns.mem _).mpr locked] at owner
          cases owner
          exact other (there.symm.trans here)
        rw [Table.setCurrent_self]
        exact ⟨fun now => absurd (held k (.inr now)) notHeld, fun before => absurd (held k (.inl before)) notHeld⟩
      · rw [Table.setCurrent_of_ne same]
    · have ne : d ≠ c := by
        rintro rfl
        obtain ⟨d', there, -⟩ := has
        rw [me] at there
        obtain ⟨rfl, -⟩ := runs_sched.mp there
        exact other (me.trans (there.symm.trans here))
      rw [Table.setCurrent_of_ne ne]
  offProc p _ off := .inl fun d there => off d (Table.setCurrent_runs.symm.trans there)
  offSched d p _ away := .inl (Table.setCurrent_cpu.1.trans away)

theorem setCurrent_inv (inv : s.Inv) (here : s.runs c = .sched c)
    (held : ∀ k, (s.cpu c).proc = some k ∨ o = some k → s.owner (.proc k) = some c)
    (alone : ∀ d k, o = some k → (s.cpu d).proc ≠ some k) (locked : (s.cpu c).noff ≠ 0) :
    (s.setCurrent c o).Inv where
  thread d p there := by
    rw [Table.setCurrent_runs] at there
    have ne : d ≠ c := by
      rintro rfl
      rw [here] at there
      cases there
    rw [Table.setCurrent_of_ne ne]
    exact inv.thread d p there
  unique d d' p there there' := by
    by_cases same : d = c
    · by_cases same' : d' = c
      · rw [same, same']
      · subst same
        rw [Table.setCurrent_self] at there
        rw [Table.setCurrent_of_ne same'] at there'
        exact absurd there' (alone d' p there)
    · rw [Table.setCurrent_of_ne same] at there
      by_cases same' : d' = c
      · subst same'
        rw [Table.setCurrent_self] at there'
        exact absurd there (alone d p there')
      · rw [Table.setCurrent_of_ne same'] at there'
        exact inv.unique d d' p there there'
  held d lk owner := by
    rw [Table.setCurrent_cpu.2]
    exact inv.held d lk owner
  idle d there noff := by
    rw [Table.setCurrent_cpu.2] at noff
    have ne : d ≠ c := by
      rintro rfl
      exact locked noff
    rw [Table.setCurrent_runs] at there
    rw [Table.setCurrent_of_ne ne]
    exact inv.idle d there noff
  settled p free := by
    have settled := inv.settled p free
    refine ⟨settled.running.trans ⟨?_, ?_⟩, settled.unused, settled.blank⟩
    · rintro ⟨d, current⟩
      refine ⟨d, ?_⟩
      have ne : d ≠ c := by
        rintro rfl
        have owner := held p (.inl current)
        rw [show s.owner (.proc p) = none from free] at owner
        cases owner
      rwa [Table.setCurrent_of_ne ne]
    · rintro ⟨d, current⟩
      refine ⟨d, ?_⟩
      have ne : d ≠ c := by
        rintro rfl
        rw [Table.setCurrent_self] at current
        have owner := held p (.inr current)
        rw [show s.owner (.proc p) = none from free] at owner
        cases owner
      rwa [Table.setCurrent_of_ne ne] at current
  tree := by
    obtain ⟨before, init, parents, building, births, born, distinct, eldest, sleepers⟩ := inv.tree
    refine ⟨before, init, parents, fun q r state parent => ?_, births, born, distinct, eldest, sleepers⟩
    obtain ⟨d, owner, there⟩ := building q r state parent
    exact ⟨d, owner, Table.setCurrent_runs.trans there⟩

/-- `swtch` from the scheduler to process `p`. -/
theorem setThread_to (inv : s.Inv) (here : s.runs c = .sched c) (owns : s.Owns c [.proc p])
    (current : (s.cpu c).proc = some p) (running : (s.proc p).state = .RUNNING) :
    (s.setThread c (some p)).Inv ∧ ∀ u, u ≠ .sched c → Frame u s (s.setThread c (some p)) := by
  have away (d : Core) : s.runs d ≠ .proc p := by
    intro there
    have same := inv.unique d c p (inv.thread d p there) current
    rw [same, here] at there
    cases there
  constructor
  · refine ⟨fun d q there => ?_, fun d d' q => ?_, fun d lk owner => ?_, fun d there noff => ?_, fun q free => ?_, ?_⟩
    · rw [Table.setThread_cpu.1]
      by_cases same : d = c
      · subst same
        rw [runs_proc, Table.setThread_self] at there
        cases there
        exact current
      · rw [Table.setThread_runs_of_ne same] at there
        exact inv.thread d q there
    · rw [Table.setThread_cpu.1, Table.setThread_cpu.1]
      exact inv.unique d d' q
    · rw [Table.setThread_cpu.2]
      exact inv.held d lk owner
    · rw [Table.setThread_cpu.2] at noff
      have ne : d ≠ c := by
        rintro rfl
        rw [owns.noff] at noff
        cases noff
      rw [Table.setThread_runs_of_ne ne] at there
      rw [Table.setThread_of_ne ne]
      exact inv.idle d there noff
    · have settled := inv.settled q free
      refine ⟨settled.running.trans ?_, settled.unused, settled.blank⟩
      simp only [Table.setThread_cpu.1]
    · obtain ⟨before, init, parents, building, births, born, distinct, eldest, sleepers⟩ := inv.tree
      refine ⟨before, init, parents, fun q r state parent => ?_, births, born, distinct, eldest, sleepers⟩
      obtain ⟨d, owner, there⟩ := building q r state parent
      have ne : d ≠ c := by
        rintro rfl
        rw [here] at there
        cases there
      exact ⟨d, owner, (Table.setThread_runs_of_ne ne).trans there⟩
  · intro u other
    have kept {L : List Lock} (has : s.Has u L) : (s.setThread c (some p)).Has u L :=
      has_other here other has (fun d ne => Table.setThread_of_ne ne) fun _ _ _ => .rfl
    refine ⟨.of_same rfl rfl le_rfl rfl, fun L has => ⟨kept has, .of_same rfl rfl le_rfl rfl,
      fun _ _ => ⟨rfl, fun d => ?_⟩, fun _ _ state => state,
      fun d _ => Table.setThread_cpu.1⟩, fun q me off => ?_, fun d q me gone => .inl ?_⟩
    · rw [Table.setThread_cpu.1]
    · by_cases same : q = p
      · subst same
        refine .inr ⟨⟨c, ?_, owns.nodup, owns.mem, Table.setThread_cpu.2.trans owns.noff⟩, running⟩
        rw [me, runs_proc, Table.setThread_self]
      · refine .inl fun d there => ?_
        by_cases same' : d = c
        · subst same'
          rw [me, runs_proc, Table.setThread_self] at there
          cases there
          exact same rfl
        · exact off d ((Table.setThread_runs_of_ne same').symm.trans there)
    · have ne : d ≠ c := by
        rintro rfl
        exact other me
      rwa [Table.setThread_of_ne ne]

/-- `swtch` from process `p` to the scheduler. -/
theorem setThread_back (inv : s.Inv) (here : s.runs c = .proc p) (owns : s.Owns c [.proc p])
    (stopped : (s.proc p).state ≠ .RUNNING) (used : (s.proc p).state ≠ .UNUSED) :
    (s.setThread c none).Inv ∧ (s.setThread c none).Off (.proc p) ∧
      ∀ u, u ≠ .proc p → Frame u s (s.setThread c none) := by
  have gone : (s.setThread c none).Off (.proc p) := by
    intro d there
    by_cases same : d = c
    · subst same
      rw [runs_proc, Table.setThread_self] at there
      cases there
    · rw [Table.setThread_runs_of_ne same] at there
      exact same (runs_inj inv there here)
  refine ⟨?_, gone, ?_⟩
  · refine ⟨fun d q there => ?_, fun d d' q => ?_, fun d lk owner => ?_, fun d there noff => ?_, fun q free => ?_, ?_⟩
    · rw [Table.setThread_cpu.1]
      by_cases same : d = c
      · subst same
        rw [runs_proc, Table.setThread_self] at there
        cases there
      · rw [Table.setThread_runs_of_ne same] at there
        exact inv.thread d q there
    · rw [Table.setThread_cpu.1, Table.setThread_cpu.1]
      exact inv.unique d d' q
    · rw [Table.setThread_cpu.2]
      exact inv.held d lk owner
    · rw [Table.setThread_cpu.2] at noff
      have ne : d ≠ c := by
        rintro rfl
        rw [owns.noff] at noff
        cases noff
      rw [Table.setThread_runs_of_ne ne] at there
      rw [Table.setThread_of_ne ne]
      exact inv.idle d there noff
    · have settled := inv.settled q free
      refine ⟨settled.running.trans ?_, settled.unused, settled.blank⟩
      simp only [Table.setThread_cpu.1]
    · obtain ⟨before, init, parents, building, births, born, distinct, eldest, sleepers⟩ := inv.tree
      refine ⟨before, init, parents, fun q r state parent => ?_, births, born, distinct, eldest, sleepers⟩
      obtain ⟨d, owner, there⟩ := building q r state parent
      have ne : d ≠ c := by
        rintro rfl
        have same := (owns.mem _).mp owner
        simp only [List.mem_singleton, Lock.proc.injEq] at same
        rw [same] at state
        exact used state
      exact ⟨d, owner, (Table.setThread_runs_of_ne ne).trans there⟩
  · intro u other
    have kept {L : List Lock} (has : s.Has u L) : (s.setThread c none).Has u L :=
      has_other here other has (fun d ne => Table.setThread_of_ne ne) fun _ _ _ => .rfl
    refine ⟨.of_same rfl rfl le_rfl rfl, fun L has => ⟨kept has, .of_same rfl rfl le_rfl rfl,
      fun _ _ => ⟨rfl, fun d => ?_⟩, fun _ _ state => state,
      fun d _ => Table.setThread_cpu.1⟩, fun q me off => .inl fun d there => ?_, fun d q me away => ?_⟩
    · rw [Table.setThread_cpu.1]
    · by_cases same : d = c
      · subst same
        rw [me, runs_proc, Table.setThread_self] at there
        cases there
      · exact off d ((Table.setThread_runs_of_ne same).symm.trans there)
    · by_cases same : d = c
      · subst same
        rw [runs_proc.mp here] at away
        cases away
        refine .inr ⟨⟨d, ?_, owns.nodup, owns.mem, Table.setThread_cpu.2.trans owns.noff⟩, ?_, stopped, used⟩
        · rw [me, runs_sched]
          exact ⟨rfl, Table.setThread_self⟩
        · rw [Table.setThread_cpu.1]
          exact inv.thread d p here
      · rw [Table.setThread_of_ne same]
        exact .inl away

end Xv6Labs.Proc
