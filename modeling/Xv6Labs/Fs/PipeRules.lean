import Xv6Labs.Fs.FileRules

/-!
# Pipes and processes

The rules for `kalloc`, `kfree` and the ends of a pipe, and for the actions by which one process changes another.
-/

namespace Xv6Labs.Fs

open Threads Prog

variable {s s' : Kernel} {t u : Tid} {sb : Superblock} {α : Type} {P : Proc} {L : Set (Fin ninode)}
  {X : Fin nfile → File}

/-! ### Pipes -/

def Pipe.live (x : Pipe) : ℕ := (x.readopen || x.writeopen).toNat

theorem opened_le_live (x : Pipe) (w : Bool) : (x.opened w).toNat ≤ x.live := by
  unfold Pipe.opened Pipe.live
  cases w <;> cases x.readopen <;> cases x.writeopen <;> decide

/-- A step on one pipe, of a process that keeps all else. -/
theorem piped {pi : Page} {x : Pipe} {p : Proc} (inv : RefInv s) (has : Has t P L X s) (runs : p.state = .running)
    (child : p.child = P.child) (refs : ∀ i, procRef i p = procRef i P) (hand : p.hand = P.hand)
    (fds : ∀ f, fdRef f p = fdRef f P) (putting : p.putting = P.putting)
    (closing : ∀ pi' w, pi' ≠ pi → closeRef pi' w p = closeRef pi' w P)
    (page : ∀ pi', pi' ≠ pi → pageRef pi' p = pageRef pi' P)
    (ends : ∀ w, (x.opened w).toNat + closeRef pi w P = ((s.pipe pi).opened w).toNat + closeRef pi w p)
    (pages : x.allocated.toNat + pageRef pi P + (s.pipe pi).live = (s.pipe pi).allocated.toNat + pageRef pi p + x.live)
    (freed : x.allocs = x.frees + x.allocated.toNat) :
    Does t s ((s.setPipe pi x).setProc t p) (Has t p L X) := by
  have l : Local t s ((s.setPipe pi x).setProc t p) :=
    .own (p := p) has runs child rfl (fun _ _ _ => Iff.rfl) fun _ _ _ _ => rfl
  have mine : ((s.setPipe pi x).setProc t p).proc t = p := Function.update_self _ _ _
  have other : ∀ pi', pi' ≠ pi → ((s.setPipe pi x).setProc t p).pipe pi' = s.pipe pi' :=
    fun pi' ne => Function.update_of_ne ne _ _
  have self : ((s.setPipe pi x).setProc t p).pipe pi = x := Function.update_self _ _ _
  refine ⟨⟨?_, ?_, ⟨fun pi' w => ?_, fun pi' => ?_, fun pi' => ?_, inv.pipe.ways⟩, ?_, l.procInv inv.proc⟩,
    fun u ne => l.frame inv.proc ne, mine, runs, has.lock, fun f refers => has.kind f (fds f ▸ refers)⟩
  · apply l.inodeInv inv.inode (fun _ _ => rfl)
    · intro i
      rw [mine, has.proc, refs]
      rfl
    · exact inv.inode.distinct
  · apply l.fileInv inv.file
    · intro f
      rw [mine, has.proc, fds]
      rfl
    · exact inv.file.unused
    · exact inv.file.untyped
  · have before := inv.pipe.opened pi' w
    have sum := l.sum (closeRef pi' w)
    rw [mine, has.proc] at sum
    unfold Fs.ends at before ⊢
    change _ = ∑ f, endRef pi' w (s.file f) + _
    by_cases same : pi' = pi
    · subst same
      have change := ends w
      rw [self]
      omega
    · have change := closing pi' w same
      rw [other pi' same]
      omega
  · have before := inv.pipe.pages pi'
    have sum := l.sum (pageRef pi')
    rw [mine, has.proc] at sum
    by_cases same : pi' = pi
    · subst same
      unfold Pipe.live at pages
      rw [self]
      omega
    · have change := page pi' same
      rw [other pi' same]
      omega
  · by_cases same : pi' = pi
    · subst same
      rw [self]
      exact freed
    · rw [other pi' same]
      exact inv.pipe.freed pi'
  · apply l.lockInv inv.lock
    · intro i held
      have uses := inv.lock.used i t held
      unfold Uses at uses ⊢
      rw [has.proc] at uses
      rw [mine, hand]
      rcases uses with pos | ⟨f, refers, file⟩
      · exact .inl pos
      · exact .inr ⟨f, by rw [fds]; exact refers, file⟩
    · intro i
      have old := inv.lock.putting t i
      rw [has.proc] at old
      rw [mine, putting, hand]
      exact old

theorem keeps_kalloc (has : Has t P L X s) (page : Option Page) (empty : P.page = none) :
    Keeps sb t (act (.kalloc page)) (fun r => match r with
      | none => Has t P L X
      | some pi => Has t { P with page := some pi } L X) s := by
  refine keeps_step has (by nofun) (fun r => ?_) ?_
  · cases r <;> exact Has.stable
  intro x r y has inv run
  cases page with
  | none =>
    cases run
    exact ⟨inv, fun u _ => Frame.refl u x, has⟩
  | some pi =>
    simp only [exec, Kernel.kalloc, has.proc] at run
    split at run
    · cases run
    · rename_i free
      cases run
      have unused : (x.pipe pi).allocated = false := Bool.eq_false_of_not_eq_true free
      have counts := inv.pipe.freed pi
      have pages := inv.pipe.pages pi
      rw [unused] at counts
      apply piped (p := { P with page := some pi }) inv has has.running rfl (fun _ => rfl) rfl (fun _ => rfl) rfl
        (fun _ _ _ => rfl)
      · intro pi' ne
        have ne' : pi ≠ pi' := fun same => ne same.symm
        simp [pageRef, empty, ne']
      · exact fun _ => rfl
      · simp [pageRef, empty, unused, Pipe.live]
      · change (x.pipe pi).allocs + 1 = (x.pipe pi).frees + true.toNat
        rw [counts]
        rfl

/-- A page in a variable is no pipe. -/
theorem page_fresh (inv : RefInv s) {pi : Page} (page : (s.proc t).page = some pi) :
    (s.pipe pi).allocated = true ∧ (s.pipe pi).live = 0 := by
  have pages := inv.pipe.pages pi
  have le := Finset.single_le_sum (f := fun u => pageRef pi (s.proc u)) (fun _ _ => Nat.zero_le _) (Finset.mem_univ t)
  have one : pageRef pi (s.proc t) = 1 := by simp [pageRef, page]
  have most := Bool.toNat_le (s.pipe pi).allocated
  unfold Pipe.live
  refine ⟨?_, by omega⟩
  cases allocated : (s.pipe pi).allocated
  · rw [allocated] at pages
    simp only [Bool.toNat_false] at pages
    omega
  · rfl

theorem keeps_kfree (has : Has t P L X s) {pi : Page} (page : P.page = some pi) :
    Keeps sb t (act (.kfree pi)) (fun _ => Has t { P with page := none } L X) s := by
  refine keeps_step has (by nofun) (fun _ => Has.stable) ?_
  intro x r y has inv run
  simp only [exec, Kernel.kfree, has.proc] at run
  cases run
  obtain ⟨allocated, closed⟩ := page_fresh inv (t := t) (by rw [has.proc]; exact page)
  have counts := inv.pipe.freed pi
  rw [allocated] at counts
  apply piped (p := { P with page := none }) inv has has.running rfl (fun _ => rfl) rfl (fun _ => rfl) rfl
    (fun _ _ _ => rfl)
  · intro pi' ne
    have ne' : pi ≠ pi' := fun same => ne same.symm
    simp [pageRef, page, ne']
  · exact fun _ => rfl
  · change 0 + pageRef pi P + (x.pipe pi).live = (x.pipe pi).allocated.toNat + 0 + (x.pipe pi).live
    rw [allocated]
    simp [pageRef, page]
  · change (x.pipe pi).allocs = (x.pipe pi).frees + 1 + 0
    exact counts

theorem keeps_pipeclose_end (has : Has t P L X s) {pi : Page} {w : Bool} (closing : P.closing = some (pi, w))
    (empty : P.page = none) :
    Keeps sb t (act (.pipeclose pi w))
      (fun last => Has t { P with closing := none, page := if last then some pi else none } L X) s := by
  refine keeps_step has (by nofun) (fun _ => Has.stable) ?_
  intro x r y has inv run
  simp only [exec, Kernel.pipeclose, has.proc, empty] at run
  cases run
  have opened : (x.pipe pi).opened w = true := by
    have ends := inv.pipe.opened pi w
    have le := Finset.single_le_sum (f := fun u => closeRef pi w (x.proc u)) (fun _ _ => Nat.zero_le _)
      (Finset.mem_univ t)
    have one : closeRef pi w (x.proc t) = 1 := by simp [closeRef, has.proc, closing]
    unfold Fs.ends at ends
    cases value : (x.pipe pi).opened w
    · rw [value] at ends
      simp only [Bool.toNat_false] at ends
      omega
    · rfl
  apply piped inv has
  · exact has.running
  · rfl
  · exact fun _ => rfl
  · rfl
  · exact fun _ => rfl
  · rfl
  · intro pi' w' ne
    have ne' : pi ≠ pi' := fun same => ne same.symm
    simp [closeRef, closing, ne']
  · intro pi' ne
    have ne' : pi ≠ pi' := fun same => ne same.symm
    simp [pageRef, empty, ne']
  · intro w'
    unfold Pipe.opened at opened ⊢
    cases w <;> cases w' <;> simp_all [closeRef]
  · unfold Pipe.opened at opened
    cases w <;> simp_all [pageRef, Pipe.live] <;> cases (x.pipe pi).readopen <;> cases (x.pipe pi).writeopen <;>
      simp_all
  · cases w <;> exact inv.pipe.freed pi

/-! ### A new pipe -/

def readEnd (pi : Page) (x : File) : File := { x with type := .pipe, readable := true, writable := false, pipe := pi }

def writeEnd (pi : Page) (x : File) : File := { x with type := .pipe, readable := false, writable := true, pipe := pi }

theorem pipeInit_pipe {f0 f1 : Fin nfile} {pi : Page} : (s.pipeInit t f0 f1 pi).pipe =
    Function.update s.pipe pi { s.pipe pi with readopen := true, writeopen := true } := rfl

/-- Process `t` has a page and two references to files of no type. -/
structure Makes (t : Tid) (P : Proc) (f0 f1 : Fin nfile) (pi : Page) (s : Kernel) : Prop where
  inv : RefInv s
  proc : s.proc t = P
  page : P.page = some pi
  ne : f0 ≠ f1
  refers0 : 0 < fdRef f0 P
  refers1 : 0 < fdRef f1 P
  none0 : (s.file f0).type = .none
  none1 : (s.file f1).type = .none

namespace Makes

variable {f0 f1 g : Fin nfile} {pi : Page} (makes : Makes t P f0 f1 pi s)

include makes

theorem proc_eq : (s.pipeInit t f0 f1 pi).proc = Function.update s.proc t { P with page := none } := by
  rw [← makes.proc]
  rfl

theorem mine : (s.pipeInit t f0 f1 pi).proc t = { P with page := none } := by rw [makes.proc_eq, Function.update_self]

theorem file_eq : (s.pipeInit t f0 f1 pi).file =
    Function.update (Function.update s.file f0 (readEnd pi (s.file f0))) f1 (writeEnd pi (s.file f1)) := by
  unfold writeEnd
  rw [← Function.update_of_ne makes.ne.symm (readEnd pi (s.file f0)) s.file]
  rfl

theorem file0 : (s.pipeInit t f0 f1 pi).file f0 = readEnd pi (s.file f0) := by
  rw [makes.file_eq, Function.update_of_ne makes.ne, Function.update_self]

theorem file1 : (s.pipeInit t f0 f1 pi).file f1 = writeEnd pi (s.file f1) := by rw [makes.file_eq, Function.update_self]

theorem other (ne0 : g ≠ f0) (ne1 : g ≠ f1) : (s.pipeInit t f0 f1 pi).file g = s.file g := by
  rw [makes.file_eq, Function.update_of_ne ne1, Function.update_of_ne ne0]

theorem ref : ((s.pipeInit t f0 f1 pi).file g).ref = (s.file g).ref := by
  by_cases same0 : g = f0
  · rw [same0, makes.file0, readEnd]
  · by_cases same1 : g = f1
    · rw [same1, makes.file1, writeEnd]
    · rw [makes.other same0 same1]

/-- A file that has no type afterwards is neither of the two. -/
theorem typed (none : ((s.pipeInit t f0 f1 pi).file g).type = .none) : (s.pipeInit t f0 f1 pi).file g = s.file g := by
  refine makes.other ?_ ?_
  · rintro rfl
    rw [makes.file0] at none
    cases none
  · rintro rfl
    rw [makes.file1] at none
    cases none

theorem fileRef (i : Fin ninode) : Fs.fileRef i ((s.pipeInit t f0 f1 pi).file g) = Fs.fileRef i (s.file g) := by
  by_cases same0 : g = f0
  · rw [same0, makes.file0]
    simp [Fs.fileRef, File.HasInode, readEnd, makes.none0]
  · by_cases same1 : g = f1
    · rw [same1, makes.file1]
      simp [Fs.fileRef, File.HasInode, writeEnd, makes.none1]
    · rw [makes.other same0 same1]

/-- Nobody else refers to the two files. -/
theorem isLocal (has : Has t P L X s) : Local t s (s.pipeInit t f0 f1 pi) := by
  refine .own (p := { P with page := none }) has has.running rfl makes.proc_eq
    (fun _ _ _ => Iff.rfl) fun u apart g pos => ?_
  rw [makes.other]
  · rintro rfl
    have zero := no_other makes.inv has makes.refers0 (makes.inv.file.untyped _ makes.none0) apart
    omega
  · rintro rfl
    have zero := no_other makes.inv has makes.refers1 (makes.inv.file.untyped _ makes.none1) apart
    omega

theorem inodeInv (l : Local t s (s.pipeInit t f0 f1 pi)) : InodeInv (s.pipeInit t f0 f1 pi) := by
  apply l.inodeInv makes.inv.inode fun i g => makes.fileRef i
  · intro i
    rw [makes.mine, makes.proc]
    rfl
  · exact makes.inv.inode.distinct

theorem fileInv (l : Local t s (s.pipeInit t f0 f1 pi)) : FileInv (s.pipeInit t f0 f1 pi) := by
  apply l.fileInv makes.inv.file
  · intro g
    rw [makes.mine, makes.proc, makes.ref]
    rfl
  · intro g zero
    rw [makes.ref] at zero
    have counted (f : Fin nfile) (refers : 0 < fdRef f P) : g ≠ f := by
      rintro rfl
      have le := fd_le_ref makes.inv t g
      rw [makes.proc] at le
      omega
    rw [makes.other (counted f0 makes.refers0) (counted f1 makes.refers1)]
    exact makes.inv.file.unused g zero
  · intro g none
    rw [makes.ref]
    exact makes.inv.file.untyped g (makes.typed none ▸ none)

/-! #### The pipe -/

theorem closed : (s.pipe pi).allocated = true ∧ (s.pipe pi).live = 0 :=
  page_fresh makes.inv (t := t) (by rw [makes.proc]; exact makes.page)

/-- The two files are ends of no pipe before. -/
theorem sum_endRef (pi' : Page) (w : Bool) : ∑ f, endRef pi' w ((s.pipeInit t f0 f1 pi).file f) =
    ∑ f, endRef pi' w (s.file f) + 
      (endRef pi' w (readEnd pi (s.file f0)) + endRef pi' w (writeEnd pi (s.file f1))) := by
  have first := Log.sum_update (endRef pi' w) s.file f0 (readEnd pi (s.file f0))
  have second := Log.sum_update (endRef pi' w) (Function.update s.file f0 (readEnd pi (s.file f0))) f1
    (writeEnd pi (s.file f1))
  have zero0 : endRef pi' w (s.file f0) = 0 := by simp [endRef, makes.none0]
  have zero1 : endRef pi' w (s.file f1) = 0 := by simp [endRef, makes.none1]
  rw [← makes.file_eq, Function.update_of_ne makes.ne.symm] at second
  omega

theorem opened (l : Local t s (s.pipeInit t f0 f1 pi)) (pi' : Page) (w : Bool) :
    (((s.pipeInit t f0 f1 pi).pipe pi').opened w).toNat = ends (s.pipeInit t f0 f1 pi) pi' w := by
  have before := makes.inv.pipe.opened pi' w
  have procs := l.sum (closeRef pi' w)
  have same : closeRef pi' w ((s.pipeInit t f0 f1 pi).proc t) = closeRef pi' w (s.proc t) := by
    rw [makes.mine, makes.proc]
    rfl
  have files := makes.sum_endRef pi' w
  unfold Fs.ends at before ⊢
  rw [pipeInit_pipe]
  by_cases this : pi' = pi
  · subst this
    have le := opened_le_live (s.pipe pi') w
    have now : (Pipe.opened { s.pipe pi' with readopen := true, writeopen := true } w).toNat = 1 := by
      cases w <;> rfl
    have both : endRef pi' w (readEnd pi' (s.file f0)) + endRef pi' w (writeEnd pi' (s.file f1)) = 1 := by
      cases w <;> simp [endRef, readEnd, writeEnd]
    rw [makes.closed.2] at le
    rw [Function.update_self]
    omega
  · have apart : pi ≠ pi' := fun h => this h.symm
    have none0 : endRef pi' w (readEnd pi (s.file f0)) = 0 := by simp [endRef, readEnd, apart]
    have none1 : endRef pi' w (writeEnd pi (s.file f1)) = 0 := by simp [endRef, writeEnd, apart]
    rw [Function.update_of_ne this]
    omega

/-- The page goes from the process to the pipe. -/
theorem pages (l : Local t s (s.pipeInit t f0 f1 pi)) (pi' : Page) :
    ((s.pipeInit t f0 f1 pi).pipe pi').allocated.toNat =
    ∑ u, pageRef pi' ((s.pipeInit t f0 f1 pi).proc u) + ((s.pipeInit t f0 f1 pi).pipe pi').live := by
  have before := makes.inv.pipe.pages pi'
  have procs := l.sum (pageRef pi')
  have zero : pageRef pi' { P with page := none } = 0 := by simp [pageRef]
  rw [makes.mine, makes.proc, zero] at procs
  rw [pipeInit_pipe]
  by_cases this : pi' = pi
  · subst this
    have one : pageRef pi' P = 1 := by simp [pageRef, makes.page]
    have closed := makes.closed.2
    unfold Pipe.live at closed
    rw [Function.update_self]
    change (s.pipe pi').allocated.toNat = _ + 1
    omega
  · have apart : pi ≠ pi' := fun h => this h.symm
    have same : pageRef pi' P = 0 := by simp [pageRef, makes.page, apart]
    rw [Function.update_of_ne this, Pipe.live]
    omega

theorem pipeInv (l : Local t s (s.pipeInit t f0 f1 pi)) : PipeInv (s.pipeInit t f0 f1 pi) where
  opened := makes.opened l
  pages := makes.pages l
  freed pi' := by
    have freed := makes.inv.pipe.freed pi'
    rw [pipeInit_pipe]
    by_cases this : pi' = pi
    · subst this
      rw [Function.update_self]
      exact freed
    · rw [Function.update_of_ne this]
      exact freed
  ways g := by
    by_cases same0 : g = f0
    · rw [same0, makes.file0]
      exact fun _ => rfl
    · by_cases same1 : g = f1
      · rw [same1, makes.file1]
        exact fun _ => rfl
      · rw [makes.other same0 same1]
        exact makes.inv.pipe.ways g

/-- Neither file had an inode, so the locks that `t` holds are for others. -/
theorem lockInv (l : Local t s (s.pipeInit t f0 f1 pi)) : LockInv (s.pipeInit t f0 f1 pi) := by
  apply l.lockInv makes.inv.lock
  · intro i held
    have uses := makes.inv.lock.used i t held
    unfold Uses at uses ⊢
    rw [makes.proc] at uses
    rw [makes.mine]
    rcases uses with hand | ⟨g, refers, file⟩
    · exact .inl hand
    · have typed : (s.file g).type ≠ .none := by
        intro none
        have type := file.1
        rw [none] at type
        simp at type
      refine .inr ⟨g, refers, ?_⟩
      rw [makes.other]
      · exact file
      · rintro rfl
        exact typed makes.none0
      · rintro rfl
        exact typed makes.none1
  · intro i
    have old := makes.inv.lock.putting t i
    rw [makes.proc] at old
    rw [makes.mine]
    exact old

end Makes

/-- A page becomes a pipe, and two files its ends. -/
theorem keeps_pipeInit (has : Has t P L X s) {f0 f1 : Fin nfile} {pi : Page} (page : P.page = some pi) (ne : f0 ≠ f1)
    (refers0 : 0 < fdRef f0 P) (refers1 : 0 < fdRef f1 P) (untyped0 : (X f0).type = .none)
    (untyped1 : (X f1).type = .none) :
    Keeps sb t (act (.pipeInit f0 f1 pi)) (fun _ s => ∃ x0 x1, x0.type = .pipe ∧ x1.type = .pipe ∧
      Has t { P with page := none } L (Function.update (Function.update X f0 x0) f1 x1) s) s := by
  refine keeps_step has (by rintro _ ⟨⟩) (fun _ _ _ now frame => ?_) ?_
  · obtain ⟨x0, x1, type0, type1, has⟩ := now
    exact ⟨x0, x1, type0, type1, has.frame frame⟩
  intro x r y has inv run
  cases run
  have makes : Makes t P f0 f1 pi x := ⟨inv, has.proc, page, ne, refers0, refers1,
    (kind_type (has.kind f0 refers0)).trans untyped0, (kind_type (has.kind f1 refers1)).trans untyped1⟩
  have l := makes.isLocal has
  refine ⟨⟨makes.inodeInv l, makes.fileInv l, makes.pipeInv l, makes.lockInv l, l.procInv inv.proc⟩,
    fun u apart => l.frame inv.proc apart, readEnd pi (x.file f0), writeEnd pi (x.file f1), rfl, rfl, makes.mine,
    has.running, has.lock, fun g refers => ?_⟩
  rw [makes.file_eq]
  by_cases same1 : g = f1
  · rw [same1, Function.update_self, Function.update_self]
  · rw [Function.update_of_ne same1, Function.update_of_ne same1]
    by_cases same0 : g = f0
    · rw [same0, Function.update_self, Function.update_self]
    · rw [Function.update_of_ne same0, Function.update_of_ne same0]
      exact has.kind g refers

end Xv6Labs.Fs
