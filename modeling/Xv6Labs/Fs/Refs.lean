import Xv6Labs.Fs.Calls
import Xv6Labs.Lib.Terms

/-!
# Reference counts

What the counts of inodes, files and pipes stand for: the references that processes have in local variables, in
their descriptors and as their working directories, and those of files and pipe ends.
-/

namespace Xv6Labs.Fs

open Threads

variable {s s' : Kernel} {t u : Tid}

/-! ### Counts -/

def cwdRef (i : Fin ninode) (cwd : Option (Fin ninode)) (spent : Bool) : ℕ :=
  if cwd = some i ∧ spent = false then 1 else 0

def procRef (i : Fin ninode) (p : Proc) : ℕ := p.hand i + cwdRef i p.cwd p.spent

def File.HasInode (x : File) (i : Fin ninode) : Prop := (x.type = .inode ∨ x.type = .device) ∧ x.ip = i

instance (x : File) (i : Fin ninode) : Decidable (x.HasInode i) := inferInstanceAs (Decidable (_ ∧ _))

def fileRef (i : Fin ninode) (x : File) : ℕ := if x.HasInode i then 1 else 0

def inodeRefs (s : Kernel) (i : Fin ninode) : ℕ := ∑ t, procRef i (s.proc t) + ∑ f, fileRef i (s.file f)

def slotRef (f : Fin nfile) (slot : Option (Fin nfile) × Bool) : ℕ := if slot = (some f, true) then 1 else 0

def Proc.slot (p : Proc) (fd : Fin nofile) : Option (Fin nfile) × Bool := (p.ofile fd, p.counted fd)

def fdRef (f : Fin nfile) (p : Proc) : ℕ := p.files f + ∑ fd, slotRef f (p.slot fd)

def fileRefs (s : Kernel) (f : Fin nfile) : ℕ := ∑ t, fdRef f (s.proc t)

def endRef (pi : Page) (w : Bool) (x : File) : ℕ := if x.type = .pipe ∧ x.pipe = pi ∧ x.writable = w then 1 else 0

def closeRef (pi : Page) (w : Bool) (p : Proc) : ℕ := if p.closing = some (pi, w) then 1 else 0

def ends (s : Kernel) (pi : Page) (w : Bool) : ℕ := ∑ f, endRef pi w (s.file f) + ∑ t, closeRef pi w (s.proc t)

def pageRef (pi : Page) (p : Proc) : ℕ := if p.page = some pi then 1 else 0

def Pipe.opened (x : Pipe) (w : Bool) : Bool := if w then x.writeopen else x.readopen

/-! ### The invariant -/

structure InodeInv (s : Kernel) : Prop where
  refs : ∀ i, (s.inode i).ref = inodeRefs s i
  distinct : ∀ i j, 0 < (s.inode i).ref → 0 < (s.inode j).ref → (s.inode i).dev = (s.inode j).dev →
    (s.inode i).inum = (s.inode j).inum → i = j

structure FileInv (s : Kernel) : Prop where
  refs : ∀ f, (s.file f).ref = fileRefs s f
  unused : ∀ f, (s.file f).ref = 0 → (s.file f).type = .none
  untyped : ∀ f, (s.file f).type = .none → (s.file f).ref ≤ 1

structure PipeInv (s : Kernel) : Prop where
  opened : ∀ pi w, ((s.pipe pi).opened w).toNat = ends s pi w
  pages : ∀ pi, (s.pipe pi).allocated.toNat =
    ∑ t, pageRef pi (s.proc t) + ((s.pipe pi).readopen || (s.pipe pi).writeopen).toNat
  freed : ∀ pi, (s.pipe pi).allocs = (s.pipe pi).frees + (s.pipe pi).allocated.toNat
  ways : ∀ f, (s.file f).type = .pipe → (s.file f).readable = !(s.file f).writable

/-- A process that holds the lock of an inode has a reference to it, or to a file that has one. -/
def Uses (s : Kernel) (t : Tid) (i : Fin ninode) : Prop :=
  0 < (s.proc t).hand i ∨ ∃ f, 0 < fdRef f (s.proc t) ∧ (s.file f).HasInode i

structure LockInv (s : Kernel) : Prop where
  used : ∀ i t, s.lock i = some t → Uses s t i
  putting : ∀ t i, (s.proc t).putting = some i →
    0 < (s.proc t).hand i ∧ (s.lock i = some t → 2 ≤ (s.proc t).hand i)

/-- Nothing in local variables. -/
structure Still (p : Proc) : Prop where
  hand : ∀ i, p.hand i = 0
  files : ∀ f, p.files f = 0
  spent : p.spent = false
  putting : p.putting = none
  closing : p.closing = none
  page : p.page = none
  child : p.child = none

/-- The descriptors have files that are open, and references to them. -/
def Open (s : Kernel) (p : Proc) : Prop :=
  ∀ fd f, p.ofile fd = some f → p.counted fd = true ∧ (s.file f).type ≠ .none

structure ProcInv (s : Kernel) : Prop where
  still : ∀ t, (s.proc t).state ≠ .running → Still (s.proc t)
  bare : ∀ t, (s.proc t).state = .unused ∨ (s.proc t).state = .zombie →
    (∀ fd, (s.proc t).ofile fd = none) ∧ (s.proc t).cwd = none
  embryo : ∀ t, (s.proc t).state = .embryo → Open s (s.proc t)
  child : ∀ t np, (s.proc t).child = some np → (s.proc np).state = .embryo
  parent : ∀ t u np, (s.proc t).child = some np → (s.proc u).child = some np → t = u

structure RefInv (s : Kernel) : Prop where
  inode : InodeInv s
  file : FileInv s
  pipe : PipeInv s
  lock : LockInv s
  proc : ProcInv s

/-! ### What nobody else changes -/

def File.kind (x : File) : FdType × Bool × Bool × Page × Fin ninode := (x.type, x.readable, x.writable, x.pipe, x.ip)

structure Ready (s : Kernel) (p : Proc) : Prop where
  still : Still p
  cwd : p.cwd ≠ none
  opened : Open s p

structure Frame (t : Tid) (s s' : Kernel) : Prop where
  proc : (s.proc t).state = .running → s'.proc t = s.proc t
  begins : (s.proc t).state ≠ .running → (s'.proc t).state = .running → Ready s' (s'.proc t)
  lock : ∀ i, s'.lock i = some t ↔ s.lock i = some t
  file : (s.proc t).state = .running → ∀ f, 0 < fdRef f (s.proc t) → (s'.file f).kind = (s.file f).kind
  child : (s.proc t).state = .running → ∀ np, (s.proc t).child = some np → s'.proc np = s.proc np

/-- A process between calls. -/
structure Idle (t : Tid) (s : Kernel) : Prop where
  unlocked : ∀ i, s.lock i ≠ some t
  ready : (s.proc t).state = .running → Ready s (s.proc t)

theorem kind_type {x y : File} (h : x.kind = y.kind) : x.type = y.type := congrArg Prod.fst h

theorem kind_hasInode {x y : File} (h : x.kind = y.kind) (i : Fin ninode) : x.HasInode i ↔ y.HasInode i := by
  simp only [File.kind, Prod.mk.injEq] at h
  obtain ⟨type, -, -, -, ip⟩ := h
  unfold File.HasInode
  rw [type, ip]

theorem fdRef_pos {p : Proc} {fd : Fin nofile} {f : Fin nfile} (slot : p.ofile fd = some f)
    (counted : p.counted fd = true) : 0 < fdRef f p := by
  have one : slotRef f (p.slot fd) = 1 := by simp [slotRef, Proc.slot, slot, counted]
  have le := Finset.single_le_sum (f := fun fd => slotRef f (p.slot fd)) (fun _ _ => Nat.zero_le _) (Finset.mem_univ fd)
  unfold fdRef
  omega

theorem Open.congr {p : Proc} (opened : Open s p)
    (file : ∀ f, 0 < fdRef f p → (s'.file f).kind = (s.file f).kind) : Open s' p := by
  intro fd f slot
  obtain ⟨counted, type⟩ := opened fd f slot
  rw [kind_type (file f (fdRef_pos slot counted))]
  exact ⟨counted, type⟩

theorem Ready.congr (ready : Ready s (s.proc t)) (proc : s'.proc t = s.proc t)
    (file : ∀ f, 0 < fdRef f (s.proc t) → (s'.file f).kind = (s.file f).kind) : Ready s' (s'.proc t) := by
  rw [proc]
  exact ⟨ready.still, ready.cwd, ready.opened.congr file⟩

theorem Frame.refl (t : Tid) (s : Kernel) : Frame t s s where
  proc := fun _ => rfl
  begins := fun idle running => absurd running idle
  lock := fun _ => Iff.rfl
  file := fun _ _ _ => rfl
  child := fun _ _ _ => rfl

theorem Frame.trans {s'' : Kernel} (first : Frame t s s') (second : Frame t s' s'') : Frame t s s'' where
  proc := fun running => by
    have same := first.proc running
    rw [second.proc (by rw [same]; exact running), same]
  begins := fun idle running => by
    by_cases already : (s'.proc t).state = .running
    · exact (first.begins idle already).congr (second.proc already) (second.file already)
    · exact second.begins already running
  lock := fun i => (second.lock i).trans (first.lock i)
  file := fun running f refers => by
    have same := first.proc running
    rw [second.file (by rw [same]; exact running) f (by rw [same]; exact refers), first.file running f refers]
  child := fun running np child => by
    have same := first.proc running
    rw [second.child (by rw [same]; exact running) np (by rw [same]; exact child), first.child running np child]

theorem Idle.frame (idle : Idle t s) (frame : Frame t s s') : Idle t s' where
  unlocked := fun i held => idle.unlocked i ((frame.lock i).mp held)
  ready := fun running => by
    by_cases already : (s.proc t).state = .running
    · exact (idle.ready already).congr (frame.proc already) (frame.file already)
    · exact frame.begins already running

/-- Before `iput` tests the counts, the caller has a reference that is not the one it has locked the inode with. -/
def refTerms : Terms Tid Action Kernel where
  inv := RefInv
  frame := Frame
  refl := Frame.refl
  trans := fun _ _ _ _ => Frame.trans
  ok := fun t a s => ∀ i, a = .iput i → (s.proc t).putting = some i

/-! ### Code that does not touch references -/

structure Plain (s s' : Kernel) : Prop where
  proc : s'.proc = s.proc
  lock : s'.lock = s.lock
  pipe : s'.pipe = s.pipe
  inode : ∀ i, (s'.inode i).ref = (s.inode i).ref ∧ (s'.inode i).dev = (s.inode i).dev ∧
    (s'.inode i).inum = (s.inode i).inum
  file : ∀ f, (s'.file f).ref = (s.file f).ref ∧ (s'.file f).kind = (s.file f).kind

theorem Plain.refl (s : Kernel) : Plain s s := ⟨rfl, rfl, rfl, fun _ => ⟨rfl, rfl, rfl⟩, fun _ => ⟨rfl, rfl⟩⟩

theorem fileRef_kind {x y : File} (h : x.kind = y.kind) (i : Fin ninode) : fileRef i x = fileRef i y := by
  unfold fileRef
  exact if_congr (kind_hasInode h i) rfl rfl

theorem endRef_kind {x y : File} (h : x.kind = y.kind) (pi : Page) (w : Bool) : endRef pi w x = endRef pi w y := by
  simp only [File.kind, Prod.mk.injEq] at h
  obtain ⟨type, -, writable, pipe, -⟩ := h
  unfold endRef
  rw [type, writable, pipe]

theorem Uses.congr {i : Fin ninode} (uses : Uses s t i) (proc : s'.proc t = s.proc t)
    (file : ∀ f, 0 < fdRef f (s.proc t) → (s'.file f).kind = (s.file f).kind) : Uses s' t i := by
  unfold Uses
  rw [proc]
  rcases uses with hand | ⟨f, refers, has⟩
  · exact .inl hand
  · exact .inr ⟨f, refers, (kind_hasInode (file f refers) i).mpr has⟩

theorem Plain.inv (h : Plain s s') (inv : RefInv s) : RefInv s' := by
  have inodes : ∀ i, inodeRefs s' i = inodeRefs s i := by
    intro i
    unfold inodeRefs
    rw [h.proc, Finset.sum_congr rfl fun f _ => fileRef_kind (h.file f).2 i]
  have pipes : ∀ pi w, ends s' pi w = ends s pi w := by
    intro pi w
    unfold ends
    rw [h.proc, Finset.sum_congr rfl fun f _ => endRef_kind (h.file f).2 pi w]
  constructor
  · constructor
    · intro i
      rw [(h.inode i).1, inodes]
      exact inv.inode.refs i
    · intro i j
      rw [(h.inode i).1, (h.inode i).2.1, (h.inode i).2.2, (h.inode j).1, (h.inode j).2.1, (h.inode j).2.2]
      exact inv.inode.distinct i j
  · constructor
    · intro f
      unfold fileRefs
      rw [(h.file f).1, h.proc]
      exact inv.file.refs f
    · intro f
      rw [(h.file f).1, kind_type (h.file f).2]
      exact inv.file.unused f
    · intro f
      rw [(h.file f).1, kind_type (h.file f).2]
      exact inv.file.untyped f
  · constructor
    · intro pi w
      rw [h.pipe, pipes]
      exact inv.pipe.opened pi w
    · intro pi
      rw [h.pipe, h.proc]
      exact inv.pipe.pages pi
    · intro pi
      rw [h.pipe]
      exact inv.pipe.freed pi
    · intro f
      have same := (h.file f).2
      simp only [File.kind, Prod.mk.injEq] at same
      rw [same.1, same.2.1, same.2.2.1]
      exact inv.pipe.ways f
  · constructor
    · intro i t held
      rw [h.lock] at held
      exact (inv.lock.used i t held).congr (by rw [h.proc]) fun f _ => (h.file f).2
    · rw [h.proc, h.lock]
      exact inv.lock.putting
  · constructor
    · rw [h.proc]
      exact inv.proc.still
    · rw [h.proc]
      exact inv.proc.bare
    · intro t embryo
      rw [h.proc] at embryo ⊢
      exact (inv.proc.embryo t embryo).congr fun f _ => (h.file f).2
    · rw [h.proc]
      exact inv.proc.child
    · rw [h.proc]
      exact inv.proc.parent

theorem Plain.frame (h : Plain s s') (t : Tid) : Frame t s s' where
  proc := fun _ => by rw [h.proc]
  begins := fun idle running => by
    rw [h.proc] at running
    exact absurd running idle
  lock := fun i => by rw [h.lock]
  file := fun _ f _ => (h.file f).2
  child := fun _ np _ => by rw [h.proc]

end Xv6Labs.Fs
