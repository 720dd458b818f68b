import Xv6Labs.Fs.Refs

/-!
# Actions and references

What a process that acts knows about itself is `Has t P L X s`: its own record `P`, the inodes `L` whose locks it
holds, and the files `X` that it refers to. An action that changes nothing of other processes is a `Local` step.
-/

namespace Xv6Labs.Fs

open Threads Prog

variable {s s' : Kernel} {t u : Tid}

/-! ### Local steps -/

structure Local (t : Tid) (s s' : Kernel) : Prop where
  running : (s.proc t).state = .running
  runs : (s'.proc t).state = .running
  child : (s'.proc t).child = (s.proc t).child
  proc : ∀ u, u ≠ t → s'.proc u = s.proc u
  lock : ∀ u, u ≠ t → ∀ i, s'.lock i = some u ↔ s.lock i = some u
  file : ∀ u, u ≠ t → ∀ f, 0 < fdRef f (s.proc u) → (s'.file f).kind = (s.file f).kind

namespace Local

variable (l : Local t s s')

include l

theorem sum (g : Proc → ℕ) : ∑ u, g (s'.proc u) + g (s.proc t) = ∑ u, g (s.proc u) + g (s'.proc t) := by
  have same : s'.proc = Function.update s.proc t (s'.proc t) := by
    funext u
    by_cases h : u = t
    · rw [h, Function.update_self]
    · rw [Function.update_of_ne h, l.proc u h]
  have sums := Log.sum_update g s.proc t (s'.proc t)
  rwa [← same] at sums

theorem not_child (inv : ProcInv s) {np : Tid} (child : (s.proc u).child = some np) : np ≠ t := by
  intro h
  have embryo := inv.child u np child
  rw [h, l.running] at embryo
  cases embryo

theorem frame (inv : ProcInv s) (ne : u ≠ t) : Frame u s s' where
  proc := fun _ => l.proc u ne
  begins := fun idle running => by
    rw [l.proc u ne] at running
    exact absurd running idle
  lock := l.lock u ne
  file := fun _ => l.file u ne
  child := fun _ np child => l.proc np (l.not_child inv child)

theorem procInv (inv : ProcInv s) : ProcInv s' := by
  have children : ∀ u, (s'.proc u).child = (s.proc u).child := by
    intro u
    by_cases same : u = t
    · rw [same, l.child]
    · rw [l.proc u same]
  have other : ∀ {u}, (s'.proc u).state ≠ .running → u ≠ t := by
    intro u idle same
    rw [same, l.runs] at idle
    exact idle rfl
  constructor
  · intro u idle
    have ne := other idle
    rw [l.proc u ne] at idle ⊢
    exact inv.still u idle
  · intro u idle
    have ne : u ≠ t := by
      apply other
      rcases idle with h | h
      all_goals
        rw [h]
        decide
    rw [l.proc u ne] at idle ⊢
    exact inv.bare u idle
  · intro u embryo
    have ne : u ≠ t := other (by rw [embryo]; decide)
    rw [l.proc u ne] at embryo ⊢
    exact (inv.embryo u embryo).congr (l.file u ne)
  · intro u np child
    rw [children] at child
    rw [l.proc np (l.not_child inv child)]
    exact inv.child u np child
  · intro u v np
    rw [children, children]
    exact inv.parent u v np

theorem lockInv (inv : LockInv s) (used : ∀ i, s'.lock i = some t → Uses s' t i)
    (putting : ∀ i, (s'.proc t).putting = some i →
      0 < (s'.proc t).hand i ∧ (s'.lock i = some t → 2 ≤ (s'.proc t).hand i)) : LockInv s' := by
  constructor
  · intro i u held
    by_cases same : u = t
    · subst same
      exact used i held
    · exact (inv.used i u ((l.lock u same i).mp held)).congr (l.proc u same) (l.file u same)
  · intro u i put
    by_cases same : u = t
    · subst same
      exact putting i put
    · rw [l.proc u same] at put ⊢
      obtain ⟨hand, locked⟩ := inv.putting u i put
      exact ⟨hand, fun held => locked ((l.lock u same i).mp held)⟩

theorem inodeInv (inv : InodeInv s) (files : ∀ i f, fileRef i (s'.file f) = fileRef i (s.file f))
    (refs : ∀ i, (s'.inode i).ref + procRef i (s.proc t) = (s.inode i).ref + procRef i (s'.proc t))
    (distinct : ∀ i j, 0 < (s'.inode i).ref → 0 < (s'.inode j).ref → (s'.inode i).dev = (s'.inode j).dev →
      (s'.inode i).inum = (s'.inode j).inum → i = j) : InodeInv s' := by
  refine ⟨fun i => ?_, distinct⟩
  have before := inv.refs i
  have sum := l.sum (procRef i)
  have change := refs i
  unfold inodeRefs at before ⊢
  rw [Finset.sum_congr rfl fun f _ => files i f]
  omega

theorem fileInv (inv : FileInv s)
    (refs : ∀ f, (s'.file f).ref + fdRef f (s.proc t) = (s.file f).ref + fdRef f (s'.proc t))
    (unused : ∀ f, (s'.file f).ref = 0 → (s'.file f).type = .none)
    (untyped : ∀ f, (s'.file f).type = .none → (s'.file f).ref ≤ 1) : FileInv s' := by
  refine ⟨fun f => ?_, unused, untyped⟩
  have before := inv.refs f
  have sum := l.sum (fdRef f)
  have change := refs f
  unfold fileRefs at before ⊢
  omega

theorem pipeInv (inv : PipeInv s) (pipe : s'.pipe = s.pipe)
    (ends : ∀ pi w f, endRef pi w (s'.file f) = endRef pi w (s.file f))
    (closing : (s'.proc t).closing = (s.proc t).closing) (page : (s'.proc t).page = (s.proc t).page)
    (ways : ∀ f, (s'.file f).type = .pipe → (s'.file f).readable = !(s'.file f).writable) : PipeInv s' := by
  constructor
  · intro pi w
    have before := inv.opened pi w
    have sum := l.sum (closeRef pi w)
    have same : closeRef pi w (s'.proc t) = closeRef pi w (s.proc t) := by
      unfold closeRef
      rw [closing]
    unfold Fs.ends at before ⊢
    rw [pipe, Finset.sum_congr rfl fun f _ => ends pi w f]
    omega
  · intro pi
    have before := inv.pages pi
    have sum := l.sum (pageRef pi)
    have same : pageRef pi (s'.proc t) = pageRef pi (s.proc t) := by
      unfold pageRef
      rw [page]
    rw [pipe]
    omega
  · rw [pipe]
    exact inv.freed
  · exact ways

/-- A step that changes references to inodes only. -/
theorem inodes (inv : RefInv s) (file : s'.file = s.file) (pipe : s'.pipe = s.pipe)
    (fds : ∀ f, fdRef f (s'.proc t) = fdRef f (s.proc t)) (closing : (s'.proc t).closing = (s.proc t).closing)
    (page : (s'.proc t).page = (s.proc t).page)
    (refs : ∀ i, (s'.inode i).ref + procRef i (s.proc t) = (s.inode i).ref + procRef i (s'.proc t))
    (distinct : ∀ i j, 0 < (s'.inode i).ref → 0 < (s'.inode j).ref → (s'.inode i).dev = (s'.inode j).dev →
      (s'.inode i).inum = (s'.inode j).inum → i = j)
    (used : ∀ i, s'.lock i = some t → Uses s' t i)
    (putting : ∀ i, (s'.proc t).putting = some i →
      0 < (s'.proc t).hand i ∧ (s'.lock i = some t → 2 ≤ (s'.proc t).hand i)) : RefInv s' where
  inode := l.inodeInv inv.inode (fun i f => by rw [file]) refs distinct
  file := l.fileInv inv.file (fun f => by rw [file, fds]) (by rw [file]; exact inv.file.unused)
    (by rw [file]; exact inv.file.untyped)
  pipe := l.pipeInv inv.pipe pipe (fun pi w f => by rw [file]) closing page (by rw [file]; exact inv.pipe.ways)
  lock := l.lockInv inv.lock used putting
  proc := l.procInv inv.proc

/-- A step that changes references to files only. -/
theorem files (inv : RefInv s) (inode : s'.inode = s.inode) (lock : s'.lock = s.lock) (pipe : s'.pipe = s.pipe)
    (hand : (s'.proc t).hand = (s.proc t).hand) (cwd : (s'.proc t).cwd = (s.proc t).cwd)
    (spent : (s'.proc t).spent = (s.proc t).spent) (putting : (s'.proc t).putting = (s.proc t).putting)
    (closing : (s'.proc t).closing = (s.proc t).closing) (page : (s'.proc t).page = (s.proc t).page)
    (kinds : ∀ f, (s'.file f).kind = (s.file f).kind)
    (refs : ∀ f, (s'.file f).ref + fdRef f (s.proc t) = (s.file f).ref + fdRef f (s'.proc t))
    (unused : ∀ f, (s'.file f).ref = 0 → (s'.file f).type = .none)
    (untyped : ∀ f, (s'.file f).type = .none → (s'.file f).ref ≤ 1)
    (used : ∀ i, s.lock i = some t → Uses s' t i) : RefInv s' where
  inode := by
    apply l.inodeInv inv.inode (fun i f => fileRef_kind (kinds f) i)
    · intro i
      unfold procRef
      rw [inode, hand, cwd, spent]
    · rw [inode]
      exact inv.inode.distinct
  file := l.fileInv inv.file refs unused untyped
  pipe := by
    apply l.pipeInv inv.pipe pipe (fun pi w f => endRef_kind (kinds f) pi w) closing page
    intro f
    have same := kinds f
    simp only [File.kind, Prod.mk.injEq] at same
    rw [same.1, same.2.1, same.2.2.1]
    exact inv.pipe.ways f
  lock := by
    apply l.lockInv inv.lock
    · rw [lock]
      exact used
    · intro i
      rw [putting, hand, lock]
      exact inv.lock.putting t i
  proc := l.procInv inv.proc

end Local

/-! ### What a process knows -/

structure Has (t : Tid) (P : Proc) (L : Set (Fin ninode)) (X : Fin nfile → File) (s : Kernel) : Prop where
  proc : s.proc t = P
  running : P.state = .running
  lock : ∀ i, s.lock i = some t ↔ i ∈ L
  kind : ∀ f, 0 < fdRef f P → (s.file f).kind = (X f).kind

variable {sb : Superblock} {α : Type} {P : Proc} {L : Set (Fin ninode)} {X : Fin nfile → File}

theorem Has.frame (has : Has t P L X s) (frame : Frame t s s') : Has t P L X s' := by
  have running : (s.proc t).state = .running := by
    rw [has.proc]
    exact has.running
  constructor
  · rw [frame.proc running, has.proc]
  · exact has.running
  · intro i
    rw [frame.lock, has.lock]
  · intro f refers
    rw [← has.kind f refers]
    apply frame.file running
    rw [has.proc]
    exact refers

abbrev Keeps (sb : Superblock) (t : Tid) (p : Code α) (post : α → Kernel → Prop) (s : Kernel) : Prop :=
  keeps .free refTerms (exec sb) t p post s

/-- A step of process `t` as others see it, after which it knows `post`. -/
def Does (t : Tid) (s s' : Kernel) (post : Kernel → Prop) : Prop :=
  RefInv s' ∧ (∀ u, u ≠ t → Frame u s s') ∧ post s'

theorem Does.imp {post post' : Kernel → Prop} (does : Does t s s' post) (h : post s' → post' s') : Does t s s' post' :=
  ⟨does.1, does.2.1, h does.2.2⟩

def Stable (t : Tid) (post : Kernel → Prop) : Prop := ∀ x y, post x → Frame t x y → post y

theorem Has.stable : Stable t (Has t P L X) := fun _ _ has frame => has.frame frame

theorem keeps_act {a : Action} {pre : Kernel → Prop} {post : a.Result → Kernel → Prop} (held : pre s)
    (before : Stable t pre) (after : ∀ r, Stable t (post r))
    (ok : ∀ s, pre s → ∀ i, a = .iput i → (s.proc t).putting = some i)
    (step : ∀ s r s', pre s → RefInv s → exec sb t a s = some (r, s') → Does t s s' (post r)) :
    Keeps sb t (act a) post s := by
  apply keeps_lift
  intro x frame inv
  have now := before s x held frame.2
  refine ⟨ok x now, fun r y run _ _ => ?_⟩
  obtain ⟨inv', others, known⟩ := step x r y now inv.2 run
  exact ⟨inv', others, fun z frame' _ => after r y z known frame'.2⟩

theorem Local.own {p : Proc} (has : Has t P L X s) (runs : p.state = .running) (child : p.child = P.child)
    (proc : s'.proc = Function.update s.proc t p) (lock : ∀ u, u ≠ t → ∀ i, s'.lock i = some u ↔ s.lock i = some u)
    (file : ∀ u, u ≠ t → ∀ f, 0 < fdRef f (s.proc u) → (s'.file f).kind = (s.file f).kind) : Local t s s' where
  running := by rw [has.proc]; exact has.running
  runs := by rw [proc, Function.update_self]; exact runs
  child := by rw [proc, Function.update_self, has.proc]; exact child
  proc := fun u ne => by rw [proc, Function.update_of_ne ne]
  lock := lock
  file := file

/-! ### Inodes -/

theorem hand_take (P : Proc) (i j : Fin ninode) : (P.take i).hand j = P.hand j + if j = i then 1 else 0 := by
  unfold Proc.take
  by_cases h : j = i
  · simp [h]
  · simp [h]

theorem hand_give (P : Proc) (i j : Fin ninode) : (P.give i).hand j = P.hand j - if j = i then 1 else 0 := by
  unfold Proc.give
  by_cases h : j = i
  · simp [h]
  · simp [h]

theorem procRef_take (P : Proc) (i j : Fin ninode) : procRef j (P.take i) = procRef j P + if j = i then 1 else 0 := by
  unfold procRef
  rw [hand_take]
  simp only [Proc.take]
  omega

theorem procRef_give {P : Proc} {i : Fin ninode} (pos : 0 < P.hand i) (j : Fin ninode) :
    procRef j (P.give i) + (if j = i then 1 else 0) = procRef j P := by
  unfold procRef
  rw [hand_give]
  simp only [Proc.give]
  by_cases h : j = i
  · rw [h, if_pos rfl]
    omega
  · rw [if_neg h]
    omega

theorem proc_le_ref (inv : RefInv s) (t : Tid) (i : Fin ninode) : procRef i (s.proc t) ≤ (s.inode i).ref := by
  rw [inv.inode.refs]
  have le := Finset.single_le_sum (f := fun u => procRef i (s.proc u)) (fun _ _ => Nat.zero_le _) (Finset.mem_univ t)
  exact le.trans (Nat.le_add_right _ _)

/-- A new reference to an inode. -/
theorem took (inv : RefInv s) (has : Has t P L X s) {i : Fin ninode} {x : Inode} (ref : x.ref = (s.inode i).ref + 1)
    (distinct : ∀ j, j ≠ i → 0 < (s.inode j).ref → (s.inode j).dev = x.dev → (s.inode j).inum ≠ x.inum) :
    Does t s ((s.setInode i x).setProc t (P.take i)) (Has t (P.take i) L X) := by
  have l : Local t s ((s.setInode i x).setProc t (P.take i)) :=
    .own (p := P.take i) has has.running rfl rfl (fun _ _ _ => Iff.rfl) fun _ _ _ _ => rfl
  have mine : ((s.setInode i x).setProc t (P.take i)).proc t = P.take i := Function.update_self _ _ _
  refine ⟨?_, fun u ne => l.frame inv.proc ne, mine, has.running, has.lock, has.kind⟩
  apply l.inodes inv rfl rfl
  · intro f
    rw [mine, has.proc]
    rfl
  · rw [mine, has.proc]
    rfl
  · rw [mine, has.proc]
    rfl
  · intro j
    rw [mine, has.proc, procRef_take]
    by_cases same : j = i
    · subst same
      simp only [Kernel.setProc, Kernel.setInode, Function.update_self, ref, if_true]
      omega
    · simp only [Kernel.setProc, Kernel.setInode, Function.update_of_ne same, if_neg same]
      omega
  · intro j k
    by_cases hj : j = i
    · by_cases hk : k = i
      · intros
        rw [hj, hk]
      · subst hj
        simp only [Kernel.setProc, Kernel.setInode, Function.update_self, Function.update_of_ne hk]
        intro _ pos dev inum
        exact absurd inum.symm (distinct k hk pos dev.symm)
    · by_cases hk : k = i
      · subst hk
        simp only [Kernel.setProc, Kernel.setInode, Function.update_self, Function.update_of_ne hj]
        intro pos _ dev inum
        exact absurd inum (distinct j hj pos dev)
      · simp only [Kernel.setProc, Kernel.setInode, Function.update_of_ne hj, Function.update_of_ne hk]
        exact inv.inode.distinct j k
  · intro j held
    rcases inv.lock.used j t held with hand | file
    · apply Or.inl
      rw [mine, hand_take]
      rw [has.proc] at hand
      omega
    · apply Or.inr
      rw [mine]
      rw [has.proc] at file
      exact file
  · intro j put
    have old := inv.lock.putting t j
    rw [mine] at put ⊢
    rw [has.proc] at old
    rw [hand_take]
    obtain ⟨pos, locked⟩ := old put
    refine ⟨by omega, fun held => ?_⟩
    have two := locked held
    omega

/-- A reference to an inode that is given up. -/
theorem gave (inv : RefInv s) (has : Has t P L X s) {i : Fin ninode} (pos : 0 < P.hand i)
    (locked : i ∈ L → 2 ≤ P.hand i) :
    Does t s ((s.setInode i { s.inode i with ref := (s.inode i).ref - 1 }).setProc t { P.give i with putting := none })
      (Has t { P.give i with putting := none } L X) := by
  have l : Local t s ((s.setInode i { s.inode i with ref := (s.inode i).ref - 1 }).setProc t
      { P.give i with putting := none }) :=
    .own (p := { P.give i with putting := none }) has has.running rfl rfl (fun _ _ _ => Iff.rfl) fun _ _ _ _ => rfl
  have mine : ((s.setInode i { s.inode i with ref := (s.inode i).ref - 1 }).setProc t
      { P.give i with putting := none }).proc t = { P.give i with putting := none } := Function.update_self _ _ _
  refine ⟨?_, fun u ne => l.frame inv.proc ne, mine, has.running, has.lock, has.kind⟩
  apply l.inodes inv rfl rfl
  · intro f
    rw [mine, has.proc]
    rfl
  · rw [mine, has.proc]
    rfl
  · rw [mine, has.proc]
    rfl
  · intro j
    have le := proc_le_ref inv t j
    have change := procRef_give pos j
    rw [has.proc] at le
    rw [mine, has.proc]
    change _ = _ + procRef j (P.give i)
    by_cases same : j = i
    · subst same
      have counted : P.hand j ≤ procRef j P := Nat.le_add_right _ _
      simp only [Kernel.setProc, Kernel.setInode, Function.update_self, if_true] at change ⊢
      omega
    · simp only [Kernel.setProc, Kernel.setInode, Function.update_of_ne same, if_neg same] at change ⊢
      omega
  · have kept : ∀ j, ((s.setInode i { s.inode i with ref := (s.inode i).ref - 1 }).inode j).ref ≤ (s.inode j).ref ∧
        ((s.setInode i { s.inode i with ref := (s.inode i).ref - 1 }).inode j).dev = (s.inode j).dev ∧
        ((s.setInode i { s.inode i with ref := (s.inode i).ref - 1 }).inode j).inum = (s.inode j).inum := by
      intro j
      by_cases same : j = i
      · subst same
        simp [Kernel.setInode]
      · simp [Kernel.setInode, Function.update_of_ne same]
    intro j k posj posk dev inum
    obtain ⟨lej, devj, inumj⟩ := kept j
    obtain ⟨lek, devk, inumk⟩ := kept k
    apply inv.inode.distinct j k (posj.trans_le lej) (posk.trans_le lek)
    · exact devj.symm.trans (dev.trans devk)
    · exact inumj.symm.trans (inum.trans inumk)
  · intro j held
    have inside : j ∈ L := (has.lock j).mp held
    rcases inv.lock.used j t held with hand | file
    · apply Or.inl
      rw [has.proc] at hand
      rw [mine]
      change 0 < (P.give i).hand j
      rw [hand_give]
      by_cases same : j = i
      · subst same
        have two := locked inside
        rw [if_pos rfl]
        omega
      · rw [if_neg same]
        omega
    · apply Or.inr
      rw [mine]
      rw [has.proc] at file
      exact file
  · intro j put
    rw [mine] at put
    cases put

/-- A step that changes who holds the lock of an inode, and what the process passes to `iput`. -/
theorem locked (put : Option (Fin ninode)) (lock : Fin ninode → Option Tid) {L' : Set (Fin ninode)} (inv : RefInv s)
    (has : Has t P L X s) (others : ∀ u, u ≠ t → ∀ i, lock i = some u ↔ s.lock i = some u)
    (mine : ∀ i, lock i = some t ↔ i ∈ L') (used : ∀ i ∈ L', Uses s t i)
    (putting : ∀ i, put = some i → 0 < P.hand i ∧ (i ∈ L' → 2 ≤ P.hand i)) :
    Does t s ({ s with lock := lock }.setProc t { P with putting := put }) (Has t { P with putting := put } L' X) := by
  have l : Local t s ({ s with lock := lock }.setProc t { P with putting := put }) :=
    .own (p := { P with putting := put }) has has.running rfl rfl others fun _ _ _ _ => rfl
  have own : ({ s with lock := lock }.setProc t { P with putting := put }).proc t = { P with putting := put } :=
    Function.update_self _ _ _
  refine ⟨?_, fun u ne => l.frame inv.proc ne, own, has.running, mine, has.kind⟩
  apply l.inodes inv rfl rfl
  · intro f
    rw [own, has.proc]
    rfl
  · rw [own, has.proc]
  · rw [own, has.proc]
  · intro i
    rw [own, has.proc]
    rfl
  · exact inv.inode.distinct
  · intro i held
    have uses := used i ((mine i).mp held)
    unfold Uses at uses ⊢
    rw [own]
    rw [has.proc] at uses
    exact uses
  · intro i now
    rw [own] at now ⊢
    obtain ⟨pos, two⟩ := putting i now
    exact ⟨pos, fun held => two ((mine i).mp held)⟩

theorem setProc_self (proc : s.proc t = P) : s.setProc t P = s := by
  unfold Kernel.setProc
  rw [← proc, Function.update_eq_self]

theorem relocked {lock : Fin ninode → Option Tid} {L' : Set (Fin ninode)} (inv : RefInv s) (has : Has t P L X s)
    (calm : P.putting = none) (others : ∀ u, u ≠ t → ∀ i, lock i = some u ↔ s.lock i = some u)
    (mine : ∀ i, lock i = some t ↔ i ∈ L') (used : ∀ i ∈ L', Uses s t i) :
    Does t s { s with lock := lock } (Has t P L' X) := by
  have step := locked P.putting lock inv has others mine used (by rw [calm]; nofun)
  have same : { s with lock := lock }.setProc t { P with putting := P.putting } = { s with lock := lock } :=
    setProc_self has.proc
  rwa [same] at step

theorem keeps_step {a : Action} {post : a.Result → Kernel → Prop} (has : Has t P L X s) (other : ∀ i, a ≠ .iput i)
    (after : ∀ r, Stable t (post r))
    (step : ∀ s r s', Has t P L X s → RefInv s → exec sb t a s = some (r, s') → Does t s s' (post r)) :
    Keeps sb t (act a) post s :=
  keeps_act has Has.stable after (fun _ _ i same => absurd same (other i)) step

theorem keeps_iget (has : Has t P L X s) (dev inum : UInt32) :
    Keeps sb t (act (.iget dev inum)) (fun i => Has t (P.take i) L X) s := by
  refine keeps_step has (by nofun) (fun _ => Has.stable) ?_
  intro x r y has inv run
  simp only [exec, Kernel.iget, has.proc] at run
  split at run
  · rename_i i found
    cases run
    have cached := List.find?_some found
    simp only [decide_eq_true_eq] at cached
    apply took inv has rfl
    intro j ne pos dev' inum'
    exact ne (inv.inode.distinct j _ pos cached.1 dev' inum')
  · rename_i missing
    split at run
    · cases run
    · rename_i i found
      cases run
      have free := List.find?_some found
      simp only [decide_eq_true_eq] at free
      apply took inv has
      · change 1 = _
        rw [free]
      · intro j _ pos dev' inum'
        have absent := List.find?_eq_none.mp missing j (List.mem_finRange j)
        simp only [decide_eq_true_eq] at absent
        exact absent ⟨pos, dev', inum'⟩

theorem keeps_idup (has : Has t P L X s) {i : Fin ninode} (refers : 0 < procRef i P) :
    Keeps sb t (act (.idup i)) (fun _ => Has t (P.take i) L X) s := by
  refine keeps_step has (by nofun) (fun _ => Has.stable) ?_
  intro x r y has inv run
  simp only [exec, Kernel.idup, has.proc] at run
  cases run
  apply took inv has rfl
  intro j ne pos dev inum
  have le := proc_le_ref inv t i
  rw [has.proc] at le
  exact ne (inv.inode.distinct j i pos (refers.trans_le le) dev inum)

/-- A file that the process refers to has the inode, or the process has it in a variable. -/
def Reaches (P : Proc) (X : Fin nfile → File) (i : Fin ninode) : Prop :=
  0 < P.hand i ∨ ∃ f, 0 < fdRef f P ∧ (X f).HasInode i

theorem Reaches.uses {i : Fin ninode} (reaches : Reaches P X i) (has : Has t P L X s) : Uses s t i := by
  unfold Uses
  rw [has.proc]
  rcases reaches with hand | ⟨f, refers, file⟩
  · exact .inl hand
  · exact .inr ⟨f, refers, (kind_hasInode (has.kind f refers) i).mpr file⟩

theorem others_lock {i : Fin ninode} (free : s.lock i = none) (u : Tid) (ne : u ≠ t) (j : Fin ninode) :
    Function.update s.lock i (some t) j = some u ↔ s.lock j = some u := by
  by_cases same : j = i
  · subst same
    rw [Function.update_self, free]
    simp [ne.symm]
  · rw [Function.update_of_ne same]

theorem mine_lock (has : Has t P L X s) {i : Fin ninode} (j : Fin ninode) :
    Function.update s.lock i (some t) j = some t ↔ j ∈ insert i L := by
  by_cases same : j = i
  · subst same
    simp
  · rw [Function.update_of_ne same, has.lock]
    simp [same]

theorem acquired {i : Fin ninode} {r : Unit} (inv : RefInv s) (has : Has t P L X s) (reaches : Reaches P X i)
    (calm : P.putting = none) (run : exec sb t (.acquiresleep i) s = some (r, s')) :
    Does t s s' (Has t P (insert i L) X) := by
  simp only [exec] at run
  split at run
  · rename_i free
    cases run
    apply relocked inv has calm (others_lock free.2) (mine_lock has)
    intro j inside
    rcases inside with same | old
    · subst same
      exact reaches.uses has
    · exact inv.lock.used j t ((has.lock j).mpr old)
  · cases run

theorem unlocked {i : Fin ninode} (inv : RefInv s) (has : Has t P L X s) (calm : P.putting = none) (mine : i ∈ L) :
    Does t s (s.setLock i none) (Has t P (L \ {i}) X) := by
  apply relocked inv has calm
  · intro u ne j
    by_cases same : j = i
    · subst same
      rw [Function.update_self, (has.lock j).mpr mine]
      simp [ne.symm]
    · rw [Function.update_of_ne same]
  · intro j
    by_cases same : j = i
    · subst same
      simp
    · rw [Function.update_of_ne same, has.lock]
      simp [same]
  · intro j inside
    exact inv.lock.used j t ((has.lock j).mpr inside.1)

theorem keeps_releasesleep (has : Has t P L X s) (i : Fin ninode) (calm : P.putting = none) :
    Keeps sb t (act (.releasesleep i)) (fun _ => Has t P (L \ {i}) X) s := by
  refine keeps_step has (by nofun) (fun _ => Has.stable) ?_
  intro x r y has inv run
  simp only [exec] at run
  split at run
  · rename_i held
    cases run
    exact unlocked inv has calm ((has.lock i).mp held.2)
  · cases run

theorem keeps_iputUnlock (has : Has t P L X s) {i : Fin ninode} (calm : P.putting = none) (mine : i ∈ L) :
    Keeps sb t (act (.iputUnlock i)) (fun _ => Has t P (L \ {i}) X) s := by
  refine keeps_step has (by nofun) (fun _ => Has.stable) ?_
  intro x r y has inv run
  cases run
  exact unlocked inv has calm mine

theorem keeps_callIput (has : Has t P L X s) {i : Fin ninode} (pos : 0 < P.hand i) (two : i ∈ L → 2 ≤ P.hand i) :
    Keeps sb t (act (.callIput i)) (fun _ => Has t { P with putting := some i } L X) s := by
  refine keeps_step has (by nofun) (fun _ => Has.stable) ?_
  intro x r y has inv run
  simp only [exec, has.proc] at run
  cases run
  apply locked (some i) x.lock inv has (fun _ _ _ => Iff.rfl) has.lock
  · intro j inside
    exact inv.lock.used j t ((has.lock j).mpr inside)
  · intro j put
    cases put
    exact ⟨pos, two⟩

theorem keeps_iputDrop (has : Has t P L X s) {i : Fin ninode} (pos : 0 < P.hand i) (two : i ∈ L → 2 ≤ P.hand i) :
    Keeps sb t (act (.iputDrop i)) (fun _ => Has t { P.give i with putting := none } L X) s := by
  refine keeps_step has (by nofun) (fun _ => Has.stable) ?_
  intro x r y has inv run
  simp only [exec, Kernel.iputDrop, has.proc] at run
  cases run
  exact gave inv has pos two

/-- The test of `iput` leaves the caller with the inode locked, or without its reference. -/
theorem keeps_iput_test {i : Fin ninode} (has : Has t { P with putting := some i } L X s) (pos : 0 < P.hand i)
    (two : i ∈ L → 2 ≤ P.hand i) :
    Keeps sb t (act (.iput i)) (fun freed => if freed then
      fun s => Has t { P with putting := none } (insert i L) X s ∧ i ∉ L
      else Has t { P.give i with putting := none } L X) s := by
  refine keeps_act has Has.stable (fun freed => ?_) (fun s has j same => ?_) ?_
  · cases freed
    · exact Has.stable
    · intro x y now frame
      exact ⟨now.1.frame frame, now.2⟩
  · cases same
    rw [has.proc]
  · intro x r y has inv run
    simp only [exec, Kernel.iput, has.proc] at run
    split at run
    · split at run
      · rename_i free
        cases run
        have used : ∀ j ∈ insert i L, Uses x t j := by
          intro j inside
          rcases inside with same | old
          · subst same
            apply Or.inl
            rw [has.proc]
            exact pos
          · exact inv.lock.used j t ((has.lock j).mpr old)
        have step := locked none _ inv has (others_lock free) (mine_lock has) used nofun
        refine ⟨step.1, step.2.1, step.2.2, fun inside => ?_⟩
        rw [(has.lock i).mpr inside] at free
        cases free
      · cases run
    · simp only [Kernel.iputDrop, has.proc] at run
      cases run
      exact gave inv has pos two

end Xv6Labs.Fs
