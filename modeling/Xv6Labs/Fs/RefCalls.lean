import Xv6Labs.Fs.RefCode

/-!
# References in system calls

Every call leaves its process with nothing in local variables and no lock held, whichever way it returns.
-/

namespace Xv6Labs.Fs

open Threads Prog

variable {s s' : Kernel} {t u np : Tid} {sb : Superblock} {α β : Type} {P Q : Proc} {L : Set (Fin ninode)}
  {X : Fin nfile → File} {i dp : Fin ninode} {f : Fin nfile} {fd : Fin nofile}

/-! ### `file.c` and `pipe.c` -/

theorem keeps_pipeclose {pi : Page} {w : Bool} (has : Has t P L X s) (closing : P.closing = some (pi, w))
    (empty : P.page = none) :
    Keeps sb t (pipeclose pi w) (fun _ => Has t { P with closing := none } L X) s := by
  have whole : { P with closing := none, page := none } = { P with closing := none } := by rw [← empty]
  apply keeps_seq (keeps_pipeclose_end has closing empty)
  intro last s₁ has₁
  cases last with
  | false => exact keeps_done Has.stable (has₁.of_eq whole)
  | true =>
    apply keeps_mono (keeps_kfree has₁ rfl)
    intro _ s₂ _ has₂
    exact has₂.of_eq whole

theorem Calm.closing_none (calm : Calm P) : { P with closing := none } = P := by rw [← calm.closing]

theorem keeps_fileclose (has : Has t P L X s) (calm : Calm P) (pos : 0 < P.files f) (held : ∀ i ∈ L, 0 < P.hand i) :
    Keeps sb t (fileclose f) (fun _ => Has t (P.giveFile f) L X) s := by
  have calm' : Calm (P.giveFile f) := ⟨calm.putting, calm.closing, calm.page, calm.spent⟩
  apply keeps_seq (keeps_fileclose_drop has pos calm.closing calm.putting held)
  intro r s₁ now
  cases r with
  | none => exact keeps_done Has.stable now
  | some x =>
    have has₁ : Has t (closed (P.giveFile f) x) L X s₁ := now.2
    have inode : ∀ type, x.type = type → (type = .inode ∨ type = .device) →
        Keeps sb t (do act .begin_op; iput x.ip; act .end_op) (fun _ => Has t (P.giveFile f) L X) s₁ := by
      intro type is file
      have taken : closed (P.giveFile f) x = (P.giveFile f).take x.ip := by
        unfold closed
        rcases file with h | h
        all_goals
          rw [is, h]
      rw [taken] at has₁
      apply keeps_quiet_bind (quiet_act (by trivial)) has₁
      intro _ s₂ has₂
      apply keeps_seq (keeps_iput has₂ calm.putting (take_hand _ _) ?_)
      · intro _ s₃ has₃
        rw [give_take] at has₃
        exact keeps_quiet (quiet_act (by trivial)) has₃
      · intro inside
        have one : 0 < (P.giveFile f).hand x.ip := held x.ip inside
        rw [hand_take, if_pos rfl]
        omega
    dsimp only
    cases is : x.type with
    | none =>
      have same : closed (P.giveFile f) x = P.giveFile f := by
        unfold closed
        rw [is]
      exact keeps_done Has.stable (has₁.of_eq same)
    | pipe =>
      have same : closed (P.giveFile f) x = { P.giveFile f with closing := some (x.pipe, x.writable) } := by
        unfold closed
        rw [is]
      apply keeps_mono (keeps_pipeclose (has₁.of_eq same) rfl calm.page)
      intro _ s₂ _ has₂
      exact has₂.of_eq calm'.closing_none
    | inode => exact inode .inode is (.inl rfl)
    | device => exact inode .device is (.inr rfl)

/-- What a process knows of a file that it refers to. -/
theorem keeps_file (has : Has t P L X s) (refers : 0 < fdRef f P) :
    Keeps sb t (act (.file f)) (fun x s => x.kind = (X f).kind ∧ Has t P L X s) s := by
  refine keeps_step has (by nofun) (fun _ _ _ now frame => ⟨now.1, now.2.frame frame⟩) ?_
  intro x r y has inv run
  cases run
  exact ⟨inv, fun u _ => Frame.refl u x, has.kind f refers, has⟩

theorem reaches_file {x : File} (refers : 0 < fdRef f P) (kind : x.kind = (X f).kind)
    (type : x.type = .inode ∨ x.type = .device) : Reaches P X x.ip :=
  .inr ⟨f, refers, (kind_hasInode kind x.ip).mp ⟨type, rfl⟩⟩

/-- Code between `ilock` and `iunlock` that touches no reference. -/
theorem keeps_locked {p : Code α} {k : α → Code β} {post : β → Kernel → Prop} (has : Has t P ∅ X s)
    (reaches : Reaches P X i) (calm : P.putting = none) (quiet : Quiet p)
    (rest : ∀ a s, Has t P ∅ X s → Keeps sb t (k a) post s) :
    Keeps sb t (do ilock i; let r ← p; iunlock i; k r) post s := by
  apply keeps_seq (keeps_ilock has reaches calm)
  intro _ s₁ now
  apply keeps_quiet_bind quiet now.2
  intro a s₂ has₂
  apply keeps_seq (keeps_iunlock has₂ now.1 calm)
  intro _ s₃ has₃
  exact rest a s₃ has₃

theorem keeps_filestat (has : Has t P ∅ X s) (calm : P.putting = none) (refers : 0 < fdRef f P) (copied : Bool) :
    Keeps sb t (filestat f copied) (fun _ => Has t P ∅ X) s := by
  apply keeps_seq (keeps_file has refers)
  intro x s₁ now
  cases is : x.type with
  | none => exact keeps_done Has.stable now.2
  | pipe => exact keeps_done Has.stable now.2
  | inode =>
    apply keeps_locked now.2 (reaches_file refers now.1 (.inl is)) calm (quiet_act (by trivial))
    exact fun _ s₂ has₂ => keeps_done Has.stable has₂
  | device =>
    apply keeps_locked now.2 (reaches_file refers now.1 (.inr is)) calm (quiet_act (by trivial))
    exact fun _ s₂ has₂ => keeps_done Has.stable has₂

theorem quiet_readFile (dst : Dest) (n : UInt32) : Quiet (readFile sb f i dst n) := by
  refine quiet_step (by trivial) fun x => (quiet_readi _ _ _).bind fun r => ?_
  obtain ⟨tot, data⟩ := r
  exact quiet_step (by trivial) fun _ => quiet_pure _

theorem keeps_fileread (has : Has t P ∅ X s) (calm : P.putting = none) (refers : 0 < fdRef f P) (dst : Dest) (n : Int32)
    (other : ℤ) : Keeps sb t (fileread sb f dst n other) (fun _ => Has t P ∅ X) s := by
  apply keeps_seq (keeps_file has refers)
  intro x s₁ now
  split
  · exact keeps_done Has.stable now.2
  · cases is : x.type with
    | none => exact keeps_panic
    | pipe => exact keeps_done Has.stable now.2
    | device => exact keeps_done Has.stable now.2
    | inode =>
      apply keeps_locked now.2 (reaches_file refers now.1 (.inl is)) calm (quiet_readFile _ _)
      exact fun _ s₂ has₂ => keeps_done Has.stable has₂

theorem quiet_writeFile (src : Source) (n : UInt32) : Quiet (writeFile sb f i src n) := by
  refine quiet_step (by trivial) fun x => (quiet_writei _ _ _).bind fun r => ?_
  split
  · exact quiet_step (by trivial) fun _ => quiet_pure _
  · exact quiet_pure _

theorem keeps_filewriteFrom (has : Has t P ∅ X s) (calm : P.putting = none) (reaches : Reaches P X i) (src : Source)
    (n fuel k : ℕ) : Keeps sb t (filewriteFrom sb f i src n fuel k) (fun _ => Has t P ∅ X) s := by
  induction fuel generalizing k s with
  | zero => exact keeps_done Has.stable has
  | succ fuel ih =>
    unfold filewriteFrom
    split
    · apply keeps_quiet_bind (quiet_act (by trivial)) has
      intro _ s₁ has₁
      apply keeps_locked has₁ reaches calm (quiet_writeFile _ _)
      intro r s₂ has₂
      apply keeps_quiet_bind (quiet_act (by trivial)) has₂
      intro _ s₃ has₃
      split
      · exact keeps_done Has.stable has₃
      · split
        · exact keeps_panic
        · exact ih has₃ _
    · exact keeps_done Has.stable has

theorem keeps_filewrite (has : Has t P ∅ X s) (calm : P.putting = none) (refers : 0 < fdRef f P) (src : Source)
    (n : Int32) (other : ℤ) : Keeps sb t (filewrite sb f src n other) (fun _ => Has t P ∅ X) s := by
  apply keeps_seq (keeps_file has refers)
  intro x s₁ now
  split
  · exact keeps_done Has.stable now.2
  · cases is : x.type with
    | none => exact keeps_panic
    | pipe => exact keeps_done Has.stable now.2
    | device => exact keeps_done Has.stable now.2
    | inode =>
      apply keeps_seq (keeps_filewriteFrom now.2 calm (reaches_file refers now.1 (.inl is)) _ _ _ _)
      exact fun _ s₂ has₂ => keeps_done Has.stable has₂

/-! ### `sysfile.c` -/

/-- What a process brings into a call, and leaves it with. -/
structure Rests (P : Proc) (X : Fin nfile → File) : Prop where
  still : Still P
  cwd : P.cwd ≠ none
  slots : ∀ fd f, P.ofile fd = some f → P.counted fd = true ∧ (X f).type ≠ .none

theorem Rests.calm (rests : Rests P X) : Calm P :=
  ⟨rests.still.putting, rests.still.closing, rests.still.page, rests.still.spent⟩

theorem Rests.refers (rests : Rests P X) (slot : P.ofile fd = some f) : 0 < fdRef f P :=
  fdRef_pos slot (rests.slots fd f slot).1

theorem Idle.has (idle : Idle t s) (running : (s.proc t).state = .running) :
    Has t (s.proc t) ∅ s.file s ∧ Rests (s.proc t) s.file := by
  have ready := idle.ready running
  refine ⟨⟨rfl, running, fun i => ⟨fun held => absurd held (idle.unlocked i), fun none => absurd none id⟩,
    fun _ _ => rfl⟩, ready.still, ready.cwd, ready.opened⟩

theorem Has.idle (has : Has t P ∅ X s) (rests : Rests P X) : Idle t s := by
  refine ⟨fun i held => (has.lock i).mp held, fun _ => ?_⟩
  rw [has.proc]
  refine ⟨rests.still, rests.cwd, fun fd f slot => ?_⟩
  rw [kind_type (has.kind f (rests.refers slot))]
  exact rests.slots fd f slot

theorem Idle.stable : Stable t (Idle t) := fun _ _ idle frame => idle.frame frame

theorem keeps_idle {p : Code α} (rests : Rests P X) (h : Keeps sb t p (fun _ => Has t P ∅ X) s) :
    Keeps sb t p (fun _ => Idle t) s := keeps_mono h fun _ _ _ has => has.idle rests

theorem keeps_fd (has : Has t P L X s) (fd : Fin nofile) :
    Keeps sb t (act (.fd fd)) (fun r s => r = P.ofile fd ∧ Has t P L X s) s := by
  refine keeps_step has (by nofun) (fun _ _ _ now frame => ⟨now.1, now.2.frame frame⟩) ?_
  intro x r y has inv run
  cases run
  exact ⟨inv, fun u _ => Frame.refl u x, by rw [has.proc], has⟩

theorem Still.setFd (still : Still P) (fd : Fin nofile) (o : Option (Fin nfile)) (c : Bool) : Still (P.setFd fd o c) :=
  ⟨still.hand, still.files, still.spent, still.putting, still.closing, still.page, still.child⟩

theorem Rests.setFd (rests : Rests P X) (fd : Fin nofile) (f : Fin nfile) {x : File} (typed : x.type ≠ .none) :
    Rests (P.setFd fd (some f) true) (Function.update X f x) := by
  refine ⟨rests.still.setFd fd _ _, rests.cwd, fun fd' g slot => ?_⟩
  have types : (X g).type ≠ .none → (Function.update X f x g).type ≠ .none := by
    intro old
    by_cases same : g = f
    · rw [same, Function.update_self]
      exact typed
    · rw [Function.update_of_ne same]
      exact old
  by_cases here : fd' = fd
  · subst here
    simp only [Proc.setFd, Function.update_self] at slot ⊢
    cases slot
    rw [Function.update_self]
    exact ⟨trivial, typed⟩
  · simp only [Proc.setFd, Function.update_of_ne here] at slot ⊢
    obtain ⟨counted, old⟩ := rests.slots fd' g slot
    exact ⟨counted, types old⟩

/-- A file that was allocated in this call is none of the descriptors'. -/
theorem Rests.update (rests : Rests P X) {x : File} (zero : fdRef f P = 0) : Rests P (Function.update X f x) := by
  refine ⟨rests.still, rests.cwd, fun fd g slot => ?_⟩
  have ne : g ≠ f := by
    intro same
    have pos := rests.refers slot
    rw [same] at pos
    omega
  rw [Function.update_of_ne ne]
  exact rests.slots fd g slot

theorem Rests.closeFd (rests : Rests P X) (fd : Fin nofile) : Rests (P.setFd fd none false) X := by
  refine ⟨rests.still.setFd fd _ _, rests.cwd, fun fd' g slot => ?_⟩
  by_cases here : fd' = fd
  · subst here
    simp only [Proc.setFd, Function.update_self] at slot
    cases slot
  · simp only [Proc.setFd, Function.update_of_ne here] at slot ⊢
    exact rests.slots fd' g slot

theorem keeps_dup (has : Has t P ∅ X s) (rests : Rests P X) : Keeps sb t (sys_dup fd) (fun _ => Idle t) s := by
  apply keeps_seq (keeps_fd has fd)
  intro r s₁ now
  cases r with
  | none => exact keeps_done Idle.stable (now.2.idle rests)
  | some f =>
    have slot := now.1.symm
    apply keeps_seq (keeps_fdalloc_shared now.2 rests.calm.putting)
    intro r s₂ now₂
    cases r with
    | none =>
      have has₂ : Has t P ∅ X s₂ := now₂
      exact keeps_done Idle.stable (has₂.idle rests)
    | some fd' =>
      obtain ⟨empty, has₂⟩ : P.ofile fd' = none ∧ Has t (P.setFd fd' (some f) false) ∅ X s₂ := now₂
      have refers : 0 < fdRef f (P.setFd fd' (some f) false) := by
        have change := fdRef_setFd P fd' (some f) false f
        have old : slotRef f (P.slot fd') = 0 := by
          change slotRef f (P.ofile fd', P.counted fd') = 0
          rw [empty, slotRef_none]
        have pos := rests.refers slot
        rw [old] at change
        omega
      have typed := (rests.slots fd f slot).2
      have here : (P.setFd fd' (some f) false).ofile fd' = some f := Function.update_self _ _ _
      have fresh : (P.setFd fd' (some f) false).counted fd' = false := Function.update_self _ _ _
      apply keeps_seq (keeps_filedup_slot has₂ here fresh refers typed)
      intro _ s₃ has₃
      have same : { P.setFd fd' (some f) false with
          counted := Function.update (P.setFd fd' (some f) false).counted fd' true } = P.setFd fd' (some f) true := by
        simp [Proc.setFd]
      have rests' := rests.setFd fd' f typed
      rw [Function.update_eq_self] at rests'
      exact keeps_done Idle.stable ((has₃.of_eq same).idle rests')

theorem keeps_read (has : Has t P ∅ X s) (rests : Rests P X) (dst : Dest) (n : Int32) (other : ℤ) :
    Keeps sb t (sys_read sb fd dst n other) (fun _ => Idle t) s := by
  apply keeps_seq (keeps_fd has fd)
  intro r s₁ now
  cases r with
  | none => exact keeps_done Idle.stable (now.2.idle rests)
  | some f => exact keeps_idle rests (keeps_fileread now.2 rests.calm.putting (rests.refers now.1.symm) dst n other)

theorem keeps_write (has : Has t P ∅ X s) (rests : Rests P X) (src : Source) (n : Int32) (other : ℤ) :
    Keeps sb t (sys_write sb fd src n other) (fun _ => Idle t) s := by
  apply keeps_seq (keeps_fd has fd)
  intro r s₁ now
  cases r with
  | none => exact keeps_done Idle.stable (now.2.idle rests)
  | some f => exact keeps_idle rests (keeps_filewrite now.2 rests.calm.putting (rests.refers now.1.symm) src n other)

theorem keeps_fstat (has : Has t P ∅ X s) (rests : Rests P X) (copied : Bool) :
    Keeps sb t (sys_fstat fd copied) (fun _ => Idle t) s := by
  apply keeps_seq (keeps_fd has fd)
  intro r s₁ now
  cases r with
  | none => exact keeps_done Idle.stable (now.2.idle rests)
  | some f => exact keeps_idle rests (keeps_filestat now.2 rests.calm.putting (rests.refers now.1.symm) copied)

theorem takeFile_files (P : Proc) (f : Fin nfile) : 0 < (P.takeFile f).files f := by
  simp [Proc.takeFile]

@[simp] theorem giveFile_takeFile (P : Proc) (f : Fin nfile) : (P.takeFile f).giveFile f = P := by
  unfold Proc.giveFile Proc.takeFile
  simp

theorem giveFile_setFd (P : Proc) (f : Fin nfile) (fd : Fin nofile) (o : Option (Fin nfile)) (c : Bool) :
    (P.setFd fd o c).giveFile f = (P.giveFile f).setFd fd o c := rfl

theorem keeps_close (has : Has t P ∅ X s) (rests : Rests P X) : Keeps sb t (sys_close fd) (fun _ => Idle t) s := by
  apply keeps_seq (keeps_fd has fd)
  intro r s₁ now
  cases r with
  | none => exact keeps_done Idle.stable (now.2.idle rests)
  | some f =>
    have slot := now.1.symm
    apply keeps_seq (keeps_clearFd now.2 slot (rests.slots fd f slot).1 rests.calm.putting)
    intro _ s₂ has₂
    have calm : Calm ((P.takeFile f).setFd fd none false) :=
      ⟨rests.calm.putting, rests.calm.closing, rests.calm.page, rests.calm.spent⟩
    apply keeps_seq (keeps_fileclose has₂ calm (takeFile_files P f) (fun _ none => absurd none id))
    intro _ s₃ has₃
    rw [giveFile_setFd, giveFile_takeFile] at has₃
    exact keeps_done Idle.stable (has₃.idle (rests.closeFd fd))

theorem quiet_addLink (by_ : UInt16) : Quiet (addLink i by_) :=
  quiet_step (by trivial) fun _ => quiet_act (by trivial)

/-- `end_op` and the result of a call. -/
theorem keeps_end {r : ℤ} (has : Has t P L X s) :
    Keeps sb t (do act .end_op; return r) (fun _ => Has t P L X) s :=
  keeps_quiet (quiet_step (by trivial) fun _ => quiet_pure _) has

theorem keeps_linkFailed (has : Has t (P.take i) ∅ X s) (calm : P.putting = none) :
    Keeps sb t (linkFailed i) (fun _ => Has t P ∅ X) s := by
  apply keeps_seq (keeps_ilock has (.inl (take_hand P i)) calm)
  intro _ s₁ now
  apply keeps_quiet_bind (quiet_addLink _) now.2
  intro _ s₂ has₂
  apply keeps_seq (keeps_iunlockput has₂ now.1 calm (take_hand P i))
  intro _ s₃ has₃
  rw [give_take] at has₃
  exact keeps_end has₃

theorem hand_of_take (P : Proc) (i j : Fin ninode) (pos : 0 < P.hand i) : 0 < (P.take j).hand i := by
  rw [hand_take]
  omega

theorem keeps_linkTo (has : Has t (P.take i) ∅ X s) (calm : Calm P) (new : Path) :
    Keeps sb t (linkTo sb i new) (fun _ => Has t P ∅ X) s := by
  apply keeps_seq (keeps_nameiparent has calm.take new)
  intro r s₁ found
  cases r with
  | none =>
    have has₁ : Has t (P.take i) ∅ X s₁ := found
    exact keeps_linkFailed has₁ calm.putting
  | some entry =>
    obtain ⟨dp, name⟩ := entry
    have has₁ : Has t ((P.take i).take dp) ∅ X s₁ := found
    have mine := take_hand (P.take i) dp
    apply keeps_seq (keeps_ilock has₁ (.inl mine) calm.putting)
    intro _ s₂ now
    apply keeps_quiet_bind (quiet_act (by trivial)) now.2
    intro d s₃ has₃
    apply keeps_quiet_bind (quiet_act (by trivial)) has₃
    intro ip s₄ has₄
    split
    · have held : ∀ j ∈ insert dp (∅ : Set (Fin ninode)), 0 < ((P.take i).take dp).hand j := by
        intro j inside
        rcases inside with same | none
        · rw [same]
          exact mine
        · exact absurd none id
      apply keeps_seq (keeps_dirlink has₄ calm.putting held _ _)
      intro linked s₅ has₅
      cases linked with
      | true =>
        simp only [if_true]
        apply keeps_seq (keeps_iunlockput has₅ now.1 calm.putting mine)
        intro _ s₆ has₆
        rw [give_take] at has₆
        apply keeps_seq (keeps_iput has₆ calm.putting (take_hand P i) (fun none => absurd none id))
        intro _ s₇ has₇
        rw [give_take] at has₇
        exact keeps_end has₇
      | false =>
        simp only [Bool.false_eq_true, if_false]
        apply keeps_seq (keeps_iunlockput has₅ now.1 calm.putting mine)
        intro _ s₆ has₆
        rw [give_take] at has₆
        exact keeps_linkFailed has₆ calm.putting
    · apply keeps_seq (keeps_iunlockput has₄ now.1 calm.putting mine)
      intro _ s₆ has₆
      rw [give_take] at has₆
      exact keeps_linkFailed has₆ calm.putting

theorem keeps_link (has : Has t P ∅ X s) (calm : Calm P) (old new : Option Path) :
    Keeps sb t (sys_link sb old new) (fun _ => Has t P ∅ X) s := by
  unfold sys_link
  split
  · apply keeps_quiet_bind (quiet_act (by trivial)) has
    intro _ s₁ has₁
    apply keeps_seq (keeps_namei has₁ calm _)
    intro r s₂ found
    cases r with
    | none =>
      have has₂ : Has t P ∅ X s₂ := found
      exact keeps_end has₂
    | some i =>
      have has₂ : Has t (P.take i) ∅ X s₂ := found
      apply keeps_seq (keeps_ilock has₂ (.inl (take_hand P i)) calm.putting)
      intro _ s₃ now
      apply keeps_quiet_bind (quiet_act (by trivial)) now.2
      intro ip s₄ has₄
      split
      · apply keeps_seq (keeps_iunlockput has₄ now.1 calm.putting (take_hand P i))
        intro _ s₅ has₅
        rw [give_take] at has₅
        exact keeps_end has₅
      · apply keeps_quiet_bind (quiet_addLink _) has₄
        intro _ s₅ has₅
        apply keeps_seq (keeps_iunlock has₅ now.1 calm.putting)
        intro _ s₆ has₆
        exact keeps_linkTo has₆ calm _
  · exact keeps_done Has.stable has

theorem quiet_isdirempty : Quiet (isdirempty sb dp) := by
  have from' : ∀ size fuel off, Quiet (emptyFrom sb dp size fuel off) := by
    intro size fuel
    induction fuel with
    | zero => exact fun _ => quiet_pure _
    | succ fuel ih =>
      intro off
      unfold emptyFrom
      split
      · apply (quiet_readDirent off).bind
        intro de
        split
        · exact ih _
        · exact quiet_pure _
      · exact quiet_pure _
  exact quiet_step (by trivial) fun d => from' _ _ _

theorem quiet_nonempty (ip : Inode) : Quiet (nonempty sb i ip) := by
  unfold nonempty
  split
  · exact quiet_isdirempty.bind fun _ => quiet_pure _
  · exact quiet_pure _

theorem keeps_unlinkFailed (has : Has t (P.take dp) (insert dp ∅) X s) (calm : P.putting = none) :
    Keeps sb t (unlinkFailed dp) (fun _ => Has t P ∅ X) s := by
  apply keeps_seq (keeps_iunlockput has (Set.notMem_empty dp) calm (take_hand P dp))
  intro _ s₁ has₁
  rw [give_take] at has₁
  exact keeps_end has₁

theorem keeps_removeEntry (has : Has t ((P.take dp).take i) (insert i (insert dp ∅)) X s)
    (out : i ∉ (insert dp ∅ : Set (Fin ninode))) (calm : P.putting = none) (off : UInt32) :
    Keeps sb t (removeEntry sb dp i off) (fun _ => Has t P ∅ X) s := by
  have apart : dp ∉ (insert i ∅ : Set (Fin ninode)) := by
    simp only [Set.mem_insert_iff, Set.mem_empty_iff_false, or_false] at out ⊢
    exact fun same => out same.symm
  have unlocks : ∀ s, Has t ((P.take dp).take i) (insert i (insert dp ∅)) X s →
      Keeps sb t (do iunlockput dp; addLink i (-1); iunlockput i; act .end_op; return (0 : ℤ))
        (fun _ => Has t P ∅ X) s := by
    intro s has
    rw [Set.insert_comm] at has
    apply keeps_seq (keeps_iunlockput has apart calm (hand_of_take _ _ _ (take_hand P dp)))
    intro _ s₁ has₁
    rw [give_take_take] at has₁
    apply keeps_quiet_bind (quiet_addLink _) has₁
    intro _ s₂ has₂
    apply keeps_seq (keeps_iunlockput has₂ (Set.notMem_empty i) calm (take_hand P i))
    intro _ s₃ has₃
    rw [give_take] at has₃
    exact keeps_end has₃
  apply keeps_quiet_bind (quiet_act (by trivial)) has
  intro ip s₁ has₁
  apply keeps_quiet_bind (quiet_writeDirent _ _) has₁
  intro _ s₂ has₂
  dsimp only
  split
  · apply keeps_quiet_bind (quiet_addLink _) has₂
    exact fun _ => unlocks
  · exact unlocks s₂ has₂

theorem keeps_unlinkIn (has : Has t (P.take dp) (insert dp ∅) X s) (calm : P.putting = none) (name : Path) :
    Keeps sb t (unlinkIn sb dp name) (fun _ => Has t P ∅ X) s := by
  unfold unlinkIn
  split
  · exact keeps_unlinkFailed has calm
  · apply keeps_seq (keeps_dirlookup has name)
    intro r s₁ found
    cases r with
    | none => exact keeps_unlinkFailed found calm
    | some entry =>
      obtain ⟨i, off⟩ := entry
      have has₁ : Has t ((P.take dp).take i) (insert dp ∅) X s₁ := found
      apply keeps_seq (keeps_ilock has₁ (.inl (take_hand _ i)) calm)
      intro _ s₂ now
      apply keeps_quiet_bind (quiet_act (by trivial)) now.2
      intro ip s₃ has₃
      split
      · exact keeps_panic
      · apply keeps_quiet_bind (quiet_nonempty ip) has₃
        intro full s₄ has₄
        cases full with
        | true =>
          simp only [if_true]
          apply keeps_seq (keeps_iunlockput has₄ now.1 calm (take_hand _ i))
          intro _ s₅ has₅
          rw [give_take] at has₅
          exact keeps_unlinkFailed has₅ calm
        | false =>
          simp only [Bool.false_eq_true, if_false]
          exact keeps_removeEntry has₄ now.1 calm off

theorem keeps_unlink (has : Has t P ∅ X s) (calm : Calm P) (path : Option Path) :
    Keeps sb t (sys_unlink sb path) (fun _ => Has t P ∅ X) s := by
  unfold sys_unlink
  cases path with
  | none => exact keeps_done Has.stable has
  | some path =>
    apply keeps_quiet_bind (quiet_act (by trivial)) has
    intro _ s₁ has₁
    apply keeps_seq (keeps_nameiparent has₁ calm path)
    intro r s₂ found
    cases r with
    | none =>
      have has₂ : Has t P ∅ X s₂ := found
      exact keeps_end has₂
    | some entry =>
      obtain ⟨dp, name⟩ := entry
      have has₂ : Has t (P.take dp) ∅ X s₂ := found
      apply keeps_seq (keeps_ilock has₂ (.inl (take_hand P dp)) calm.putting)
      intro _ s₃ now
      exact keeps_unlinkIn now.2 calm.putting name

theorem keeps_createDots (has : Has t P L X s) (calm : P.putting = none) (held : ∀ i ∈ L, 0 < P.hand i) :
    Keeps sb t (createDots sb dp i) (fun _ => Has t P L X) s := by
  apply keeps_quiet_bind (quiet_addLink _) has
  intro _ s₁ has₁
  apply keeps_quiet_bind (quiet_act (by trivial)) has₁
  intro ip s₂ has₂
  apply keeps_quiet_bind (quiet_act (by trivial)) has₂
  intro d s₃ has₃
  apply keeps_seq (keeps_dirlink has₃ calm held _ _)
  intro linked s₄ has₄
  split
  · apply keeps_seq (keeps_dirlink has₄ calm held _ _)
    intro linked s₅ has₅
    apply keeps_quiet _ has₅
    split
    · exact quiet_pure ()
    · exact quiet_act (by trivial)
  · exact keeps_quiet (quiet_act (by trivial)) has₄

/-- What `create` leaves its caller with: the inode, locked. -/
def Created (t : Tid) (P : Proc) (X : Fin nfile → File) : Option (Fin ninode) → Kernel → Prop
  | none => Has t P ∅ X
  | some i => Has t (P.take i) (insert i ∅) X

theorem Created.stable (r : Option (Fin ninode)) : Stable t (Created t P X r) := by
  cases r <;> exact Has.stable

theorem keeps_createIn (has : Has t (P.take dp) (insert dp ∅) X s) (calm : P.putting = none) (name : Path)
    (type major minor : UInt16) : Keeps sb t (createIn sb dp name type major minor) (Created t P X) s := by
  apply keeps_quiet_bind (quiet_act (by trivial)) has
  intro d s₁ has₁
  apply keeps_seq (keeps_ialloc has₁ _ _)
  intro i s₂ has₂
  apply keeps_seq (keeps_ilock has₂ (.inl (take_hand _ i)) calm)
  intro _ s₃ now
  have apart : dp ∉ (insert i ∅ : Set (Fin ninode)) := by
    have out := now.1
    simp only [Set.mem_insert_iff, Set.mem_empty_iff_false, or_false] at out ⊢
    exact fun same => out same.symm
  have held : ∀ j ∈ (insert i (insert dp ∅) : Set (Fin ninode)), 0 < ((P.take dp).take i).hand j := by
    intro j inside
    rcases inside with same | same | none
    · rw [same]
      exact take_hand _ i
    · rw [same]
      exact hand_of_take _ _ _ (take_hand P dp)
    · exact absurd none id
  have links : ∀ s, Has t ((P.take dp).take i) (insert i (insert dp ∅)) X s → Keeps sb t (do
      let ip ← act (.inode i)
      if ← dirlink sb dp name ip.inum then do
        iunlockput dp
        return some i
      else do
        act .panic
        return none) (Created t P X) s := by
    intro s has
    apply keeps_quiet_bind (quiet_act (by trivial)) has
    intro ip s₁ has₁
    apply keeps_seq (keeps_dirlink has₁ calm held _ _)
    intro linked s₂ has₂
    split
    · rw [Set.insert_comm] at has₂
      apply keeps_seq (keeps_iunlockput has₂ apart calm (hand_of_take _ _ _ (take_hand P dp)))
      intro _ s₃ has₃
      rw [give_take_take] at has₃
      exact keeps_done (Created.stable (some i)) has₃
    · exact keeps_panic
  apply keeps_quiet_bind (quiet_act (by trivial)) now.2
  intro _ s₄ has₄
  apply keeps_quiet_bind (quiet_act (by trivial)) has₄
  intro _ s₅ has₅
  dsimp only
  split
  · apply keeps_seq (keeps_createDots has₅ calm held)
    exact fun _ => links
  · exact links s₅ has₅

theorem keeps_create (has : Has t P ∅ X s) (calm : Calm P) (path : Path) (type major minor : UInt16) :
    Keeps sb t (create sb path type major minor) (Created t P X) s := by
  apply keeps_seq (keeps_nameiparent has calm path)
  intro r s₁ found
  cases r with
  | none => exact keeps_done (Created.stable none) found
  | some entry =>
    obtain ⟨dp, name⟩ := entry
    have has₁ : Has t (P.take dp) ∅ X s₁ := found
    apply keeps_seq (keeps_ilock has₁ (.inl (take_hand P dp)) calm.putting)
    intro _ s₂ now
    apply keeps_seq (keeps_dirlookup now.2 name)
    intro r s₃ found
    cases r with
    | none => exact keeps_createIn found calm.putting name type major minor
    | some entry =>
      obtain ⟨i, off⟩ := entry
      have has₃ : Has t ((P.take dp).take i) (insert dp ∅) X s₃ := found
      apply keeps_seq (keeps_iunlockput has₃ now.1 calm.putting (hand_of_take _ _ _ (take_hand P dp)))
      intro _ s₄ has₄
      rw [give_take_take] at has₄
      apply keeps_seq (keeps_ilock has₄ (.inl (take_hand P i)) calm.putting)
      intro _ s₅ now₅
      apply keeps_quiet_bind (quiet_act (by trivial)) now₅.2
      intro ip s₆ has₆
      split
      · exact keeps_done (Created.stable (some i)) has₆
      · apply keeps_seq (keeps_iunlockput has₆ now₅.1 calm.putting (take_hand P i))
        intro _ s₇ has₇
        rw [give_take] at has₇
        exact keeps_done (Created.stable none) has₇

theorem keeps_openInode (has : Has t P ∅ X s) (calm : Calm P) (path : Path) (omode : UInt32) :
    Keeps sb t (openInode sb path omode) (Created t P X) s := by
  unfold openInode
  split
  · exact keeps_create has calm path _ _ _
  · apply keeps_seq (keeps_namei has calm path)
    intro r s₁ found
    cases r with
    | none => exact keeps_done (Created.stable none) found
    | some i =>
      have has₁ : Has t (P.take i) ∅ X s₁ := found
      apply keeps_seq (keeps_ilock has₁ (.inl (take_hand P i)) calm.putting)
      intro _ s₂ now
      apply keeps_quiet_bind (quiet_act (by trivial)) now.2
      intro ip s₃ has₃
      split
      · apply keeps_seq (keeps_iunlockput has₃ now.1 calm.putting (take_hand P i))
        intro _ s₄ has₄
        rw [give_take] at has₄
        exact keeps_done (Created.stable none) has₄
      · exact keeps_done (Created.stable (some i)) has₃

theorem keeps_openFailed (has : Has t (P.take i) (insert i ∅) X s) (calm : P.putting = none) :
    Keeps sb t (openFailed i) (fun _ => Has t P ∅ X) s := by
  apply keeps_seq (keeps_iunlockput has (Set.notMem_empty i) calm (take_hand P i))
  intro _ s₁ has₁
  rw [give_take] at has₁
  exact keeps_end has₁

theorem keeps_openFd (has : Has t (P.take i) (insert i ∅) X s) (rests : Rests P X) (omode : UInt32) :
    Keeps sb t (openFd i omode) (fun _ => Idle t) s := by
  have calm := rests.calm
  have held : ∀ j ∈ (insert i ∅ : Set (Fin ninode)), 0 < (P.take i).hand j := by
    intro j inside
    rcases inside with same | none
    · rw [same]
      exact take_hand P i
    · exact absurd none id
  apply keeps_seq (keeps_filealloc has)
  intro r s₁ now
  cases r with
  | none => exact keeps_idle rests (keeps_openFailed now calm.putting)
  | some f =>
    obtain ⟨zero, x, untyped, has₁⟩ := now
    have rests₁ : Rests P (Function.update X f x) := rests.update zero
    apply keeps_seq (keeps_fdalloc has₁ (takeFile_files _ f) calm.putting)
    intro r s₂ now₂
    cases r with
    | none =>
      have has₂ : Has t ((P.take i).takeFile f) (insert i ∅) (Function.update X f x) s₂ := now₂
      have calm₂ : Calm ((P.take i).takeFile f) := ⟨calm.putting, calm.closing, calm.page, calm.spent⟩
      apply keeps_seq (keeps_fileclose has₂ calm₂ (takeFile_files _ f) held)
      intro _ s₃ has₃
      rw [giveFile_takeFile] at has₃
      exact keeps_idle rests₁ (keeps_openFailed has₃ calm.putting)
    | some fd =>
      obtain ⟨empty, has₂⟩ : ((P.take i).takeFile f).ofile fd = none ∧
        Has t ((((P.take i).takeFile f).giveFile f).setFd fd (some f) true) (insert i ∅)
          (Function.update X f x) s₂ := now₂
      rw [giveFile_takeFile] at has₂
      have refers : 0 < fdRef f ((P.take i).setFd fd (some f) true) := by
        exact fdRef_pos (Function.update_self fd _ _) (Function.update_self fd _ _)
      have none : (Function.update X f x f).type = .none := by
        rw [Function.update_self]
        exact untyped
      apply keeps_seq (keeps_setFile has₂ refers none (take_hand P i) calm.putting omode)
      intro _ s₃ opened
      obtain ⟨y, file, has₃⟩ := opened
      have given : ((P.take i).setFd fd (some f) true).give i = P.setFd fd (some f) true := by
        change ((P.take i).give i).setFd fd (some f) true = _
        rw [give_take]
      rw [given, Function.update_idem] at has₃
      have typed : y.type ≠ .none := by
        intro none
        have type := file.1
        rw [none] at type
        simp at type
      have unlocks : ∀ s, Has t (P.setFd fd (some f) true) (insert i ∅) (Function.update X f y) s →
          Keeps sb t (do iunlock i; act .end_op; return (fd.val : ℤ)) (fun _ => Idle t) s := by
        intro s has
        apply keeps_seq (keeps_iunlock has (Set.notMem_empty i) calm.putting)
        intro _ s₁ has₁
        exact keeps_idle (rests.setFd fd f typed) (keeps_end has₁)
      apply keeps_quiet_bind (quiet_act (by trivial)) has₃
      intro ip s₄ has₄
      dsimp only
      split
      · apply keeps_quiet_bind quiet_itrunc has₄
        exact fun _ => unlocks
      · exact unlocks s₄ has₄

theorem keeps_open (has : Has t P ∅ X s) (rests : Rests P X) (path : Option Path) (omode : UInt32) :
    Keeps sb t (sys_open sb path omode) (fun _ => Idle t) s := by
  unfold sys_open
  cases path with
  | none => exact keeps_done Idle.stable (has.idle rests)
  | some path =>
    apply keeps_quiet_bind (quiet_act (by trivial)) has
    intro _ s₁ has₁
    apply keeps_seq (keeps_openInode has₁ rests.calm path omode)
    intro r s₂ created
    cases r with
    | none =>
      have has₂ : Has t P ∅ X s₂ := created
      exact keeps_idle rests (keeps_end has₂)
    | some i =>
      have has₂ : Has t (P.take i) (insert i ∅) X s₂ := created
      apply keeps_quiet_bind (quiet_act (by trivial)) has₂
      intro ip s₃ has₃
      split
      · exact keeps_idle rests (keeps_openFailed has₃ rests.calm.putting)
      · exact keeps_openFd has₃ rests omode

theorem keeps_mknod (has : Has t P ∅ X s) (calm : Calm P) (path : Option Path) (type major minor : UInt16) :
    Keeps sb t (sys_mknod sb path type major minor) (fun _ => Has t P ∅ X) s := by
  apply keeps_quiet_bind (quiet_act (by trivial)) has
  intro _ s₁ has₁
  cases path with
  | none => exact keeps_end has₁
  | some path =>
    apply keeps_seq (keeps_create has₁ calm path type major minor)
    intro r s₂ created
    cases r with
    | none =>
      have has₂ : Has t P ∅ X s₂ := created
      exact keeps_end has₂
    | some i =>
      have has₂ : Has t (P.take i) (insert i ∅) X s₂ := created
      apply keeps_seq (keeps_iunlockput has₂ (Set.notMem_empty i) calm.putting (take_hand P i))
      intro _ s₃ has₃
      rw [give_take] at has₃
      exact keeps_end has₃

theorem give_take_spent (P : Proc) (i : Fin ninode) (b : Bool) :
    { P.take i with spent := b }.give i = { P with spent := b } := by
  change { (P.take i).give i with spent := b } = _
  rw [give_take]

theorem keeps_chdirTo (has : Has t (P.take i) ∅ X s) (rests : Rests P X) :
    Keeps sb t (chdirTo i) (fun _ => Idle t) s := by
  have calm := rests.calm
  apply keeps_seq (keeps_ilock has (.inl (take_hand P i)) calm.putting)
  intro _ s₁ now
  apply keeps_quiet_bind (quiet_act (by trivial)) now.2
  intro ip s₂ has₂
  split
  · apply keeps_seq (keeps_iunlockput has₂ now.1 calm.putting (take_hand P i))
    intro _ s₃ has₃
    rw [give_take] at has₃
    exact keeps_idle rests (keeps_end has₃)
  · apply keeps_seq (keeps_iunlock has₂ now.1 calm.putting)
    intro _ s₃ has₃
    apply keeps_seq (keeps_takeCwd has₃ calm.spent calm.putting)
    intro old s₄ has₄
    apply keeps_seq (keeps_iput has₄ calm.putting (take_hand _ old) (fun none => absurd none id))
    intro _ s₅ has₅
    rw [give_take_spent] at has₅
    apply keeps_quiet_bind (quiet_act (by trivial)) has₅
    intro _ s₆ has₆
    apply keeps_seq (keeps_setCwd has₆ rfl (take_hand P i) calm.putting)
    intro _ s₇ has₇
    have same : { ({ P.take i with spent := true } : Proc).give i with cwd := some i, spent := false } =
        { P with cwd := some i } := by
      rw [give_take_spent]
      simp only [← calm.spent]
    have rests' : Rests { P with cwd := some i } X :=
      ⟨⟨rests.still.hand, rests.still.files, rests.still.spent, rests.still.putting, rests.still.closing,
        rests.still.page, rests.still.child⟩, nofun, rests.slots⟩
    exact keeps_done Idle.stable ((has₇.of_eq same).idle rests')

theorem keeps_chdir (has : Has t P ∅ X s) (rests : Rests P X) (path : Option Path) :
    Keeps sb t (sys_chdir sb path) (fun _ => Idle t) s := by
  apply keeps_quiet_bind (quiet_act (by trivial)) has
  intro _ s₁ has₁
  cases path with
  | none => exact keeps_idle rests (keeps_end has₁)
  | some path =>
    apply keeps_seq (keeps_namei has₁ rests.calm path)
    intro r s₂ found
    cases r with
    | none =>
      have has₂ : Has t P ∅ X s₂ := found
      exact keeps_idle rests (keeps_end has₂)
    | some i => exact keeps_chdirTo found rests

theorem keeps_exec (has : Has t P ∅ X s) (calm : Calm P) (path : Path) (reads : List (UInt32 × UInt32)) :
    Keeps sb t (sys_exec sb path reads) (fun _ => Has t P ∅ X) s := by
  apply keeps_quiet_bind (quiet_act (by trivial)) has
  intro _ s₁ has₁
  apply keeps_seq (keeps_namei has₁ calm path)
  intro r s₂ found
  cases r with
  | none =>
    have has₂ : Has t P ∅ X s₂ := found
    exact keeps_quiet (quiet_act (by trivial)) has₂
  | some i =>
    have has₂ : Has t (P.take i) ∅ X s₂ := found
    apply keeps_seq (keeps_ilock has₂ (.inl (take_hand P i)) calm.putting)
    intro _ s₃ now
    apply keeps_quiet_bind (quiet_forEach (fun _ => (quiet_readi _ _ _).bind fun _ => quiet_pure ()) reads) now.2
    intro _ s₄ has₄
    apply keeps_seq (keeps_iunlockput has₄ now.1 calm.putting (take_hand P i))
    intro _ s₅ has₅
    rw [give_take] at has₅
    exact keeps_quiet (quiet_act (by trivial)) has₅

/-! ### Pipes -/

theorem no_locks : ∀ i ∈ (∅ : Set (Fin ninode)), 0 < P.hand i := fun _ none => absurd none id

theorem Calm.takeFile (calm : Calm P) : Calm (P.takeFile f) := ⟨calm.putting, calm.closing, calm.page, calm.spent⟩

/-- What `pipealloc` leaves its caller with. -/
def Piped (t : Tid) (P : Proc) : Option (Fin nfile × Fin nfile) → Kernel → Prop
  | none => fun s => ∃ X, Rests P X ∧ Has t P ∅ X s
  | some (f0, f1) => fun s => ∃ X, Rests P X ∧ (X f0).type ≠ .none ∧ (X f1).type ≠ .none ∧
      Has t ((P.takeFile f0).takeFile f1) ∅ X s

theorem Piped.stable (r : Option (Fin nfile × Fin nfile)) : Stable t (Piped t P r) := by
  intro x y now frame
  cases r with
  | none =>
    obtain ⟨X, rests, has⟩ := now
    exact ⟨X, rests, has.frame frame⟩
  | some ends =>
    obtain ⟨X, rests, typed0, typed1, has⟩ := now
    exact ⟨X, rests, typed0, typed1, has.frame frame⟩

theorem giveFile_takeFile_takeFile (P : Proc) (f g : Fin nfile) :
    ((P.takeFile f).takeFile g).giveFile f = P.takeFile g := by
  unfold Proc.giveFile Proc.takeFile
  by_cases same : g = f
  · subst same
    simp
  · have ne : f ≠ g := fun h => same h.symm
    simp only [Function.update_of_ne same, Function.update_of_ne ne, Function.update_self, Nat.add_sub_cancel]
    rw [Function.update_comm ne, Function.update_idem, Function.update_comm ne.symm, Function.update_eq_self]

theorem files_takeFile_takeFile (P : Proc) (f g : Fin nfile) : 0 < ((P.takeFile f).takeFile g).files f := by
  unfold Proc.takeFile
  by_cases same : f = g
  · simp [same]
  · simp [same]

theorem keeps_pipealloc (has : Has t P ∅ X s) (rests : Rests P X) (page : Option Page) :
    Keeps sb t (pipealloc page) (Piped t P) s := by
  have calm := rests.calm
  apply keeps_seq (keeps_filealloc has)
  intro r s₁ now
  cases r with
  | none => exact keeps_done (Piped.stable none) ⟨X, rests, now⟩
  | some f0 =>
    obtain ⟨zero0, x0, untyped0, has₁⟩ := now
    have rests₁ := rests.update (x := x0) zero0
    apply keeps_seq (keeps_filealloc has₁)
    intro r s₂ now₂
    cases r with
    | none =>
      have has₂ : Has t (P.takeFile f0) ∅ (Function.update X f0 x0) s₂ := now₂
      apply keeps_seq (keeps_fileclose has₂ calm.takeFile (takeFile_files P f0) no_locks)
      intro _ s₃ has₃
      rw [giveFile_takeFile] at has₃
      exact keeps_done (Piped.stable none) ⟨_, rests₁, has₃⟩
    | some f1 =>
      obtain ⟨zero1, x1, untyped1, has₂⟩ := now₂
      rw [fdRef_takeFile] at zero1
      have ne : f0 ≠ f1 := by
        intro same
        rw [if_pos same.symm] at zero1
        omega
      have rests₂ := rests₁.update (x := x1) (f := f1) (by omega)
      apply keeps_seq (keeps_kalloc has₂ page calm.page)
      intro r s₃ now₃
      cases r with
      | none =>
        have has₃ : Has t ((P.takeFile f0).takeFile f1) ∅ (Function.update (Function.update X f0 x0) f1 x1) s₃ := now₃
        apply keeps_seq (keeps_fileclose has₃ calm.takeFile.takeFile (files_takeFile_takeFile P f0 f1) no_locks)
        intro _ s₄ has₄
        rw [giveFile_takeFile_takeFile] at has₄
        apply keeps_seq (keeps_fileclose has₄ calm.takeFile (takeFile_files P f1) no_locks)
        intro _ s₅ has₅
        rw [giveFile_takeFile] at has₅
        exact keeps_done (Piped.stable none) ⟨_, rests₂, has₅⟩
      | some pi =>
        have has₃ : Has t { (P.takeFile f0).takeFile f1 with page := some pi } ∅
            (Function.update (Function.update X f0 x0) f1 x1) s₃ := now₃
        have refers0 : 0 < fdRef f0 { (P.takeFile f0).takeFile f1 with page := some pi } :=
          (files_takeFile_takeFile P f0 f1).trans_le (Nat.le_add_right _ _)
        have refers1 : 0 < fdRef f1 { (P.takeFile f0).takeFile f1 with page := some pi } :=
          (takeFile_files (P.takeFile f0) f1).trans_le (Nat.le_add_right _ _)
        have none0 : (Function.update (Function.update X f0 x0) f1 x1 f0).type = .none := by
          rw [Function.update_of_ne ne, Function.update_self]
          exact untyped0
        have none1 : (Function.update (Function.update X f0 x0) f1 x1 f1).type = .none := by
          rw [Function.update_self]
          exact untyped1
        apply keeps_seq (keeps_pipeInit has₃ rfl ne refers0 refers1 none0 none1)
        intro _ s₄ made
        obtain ⟨y0, y1, typed0, typed1, has₄⟩ := made
        have whole : { ({ (P.takeFile f0).takeFile f1 with page := some pi } : Proc) with page := none } =
            (P.takeFile f0).takeFile f1 := by
          rw [← calm.takeFile.takeFile.page]
        refine keeps_done (Piped.stable (some (f0, f1))) ⟨_, ?_, ?_, ?_, has₄.of_eq whole⟩
        · exact (rests₂.update zero0).update (by omega)
        · rw [Function.update_of_ne ne, Function.update_self, typed0]
          nofun
        · rw [Function.update_self, typed1]
          nofun

theorem keeps_pipeFailed {rf wf : Fin nfile} (has : Has t P ∅ X s) (calm : Calm P) (first : 0 < P.files rf)
    (second : 0 < (P.giveFile rf).files wf) :
    Keeps sb t (pipeFailed rf wf) (fun _ => Has t ((P.giveFile rf).giveFile wf) ∅ X) s := by
  have calm' : Calm (P.giveFile rf) := ⟨calm.putting, calm.closing, calm.page, calm.spent⟩
  apply keeps_seq (keeps_fileclose has calm first no_locks)
  intro _ s₁ has₁
  apply keeps_seq (keeps_fileclose has₁ calm' second no_locks)
  intro _ s₂ has₂
  exact keeps_done Has.stable has₂

theorem keeps_pipe (has : Has t P ∅ X s) (rests : Rests P X) (page : Option Page) (copied : Bool) :
    Keeps sb t (sys_pipe page copied) (fun _ => Idle t) s := by
  have calm := rests.calm
  apply keeps_seq (keeps_pipealloc has rests page)
  intro r s₁ now
  cases r with
  | none =>
    obtain ⟨X, rests, has⟩ := now
    exact keeps_done Idle.stable (has.idle rests)
  | some ends =>
    obtain ⟨rf, wf⟩ := ends
    obtain ⟨X, rests, typed0, typed1, has₁⟩ := now
    apply keeps_seq (keeps_fdalloc has₁ (files_takeFile_takeFile P rf wf) calm.putting)
    intro r s₂ now₂
    cases r with
    | none =>
      have has₂ : Has t ((P.takeFile rf).takeFile wf) ∅ X s₂ := now₂
      have second : 0 < (((P.takeFile rf).takeFile wf).giveFile rf).files wf := by
        rw [giveFile_takeFile_takeFile]
        exact takeFile_files P wf
      apply keeps_mono (keeps_pipeFailed has₂ calm.takeFile.takeFile (files_takeFile_takeFile P rf wf) second)
      intro _ s₃ _ has₃
      rw [giveFile_takeFile_takeFile, giveFile_takeFile] at has₃
      exact has₃.idle rests
    | some fd0 =>
      obtain ⟨empty0, has₂⟩ : ((P.takeFile rf).takeFile wf).ofile fd0 = none ∧
        Has t ((((P.takeFile rf).takeFile wf).giveFile rf).setFd fd0 (some rf) true) ∅ X s₂ := now₂
      rw [giveFile_takeFile_takeFile] at has₂
      have rests₁ : Rests (P.setFd fd0 (some rf) true) X := by
        have h := rests.setFd fd0 rf typed0
        rwa [Function.update_eq_self] at h
      apply keeps_seq (keeps_fdalloc has₂ (takeFile_files P wf) calm.putting)
      intro r s₃ now₃
      cases r with
      | none =>
        have has₃ : Has t ((P.setFd fd0 (some rf) true).takeFile wf) ∅ X s₃ := now₃
        have slot : ((P.setFd fd0 (some rf) true).takeFile wf).ofile fd0 = some rf := Function.update_self _ _ _
        have counted : ((P.setFd fd0 (some rf) true).takeFile wf).counted fd0 = true := Function.update_self _ _ _
        apply keeps_seq (keeps_clearFd has₃ slot counted calm.putting)
        intro _ s₄ has₄
        have calm₄ : Calm ((((P.setFd fd0 (some rf) true).takeFile wf).takeFile rf).setFd fd0 none false) :=
          ⟨calm.putting, calm.closing, calm.page, calm.spent⟩
        have first : 0 < ((((P.setFd fd0 (some rf) true).takeFile wf).takeFile rf).setFd fd0 none false).files rf :=
          takeFile_files _ rf
        have given : ((((P.setFd fd0 (some rf) true).takeFile wf).takeFile rf).setFd fd0 none false).giveFile rf =
            ((P.setFd fd0 (some rf) true).setFd fd0 none false).takeFile wf := by
          rw [giveFile_setFd, giveFile_takeFile]
          rfl
        have second :
            0 < (((((P.setFd fd0 (some rf) true).takeFile wf).takeFile rf).setFd fd0 none false).giveFile rf).files
            wf := by
          rw [given]
          exact takeFile_files _ wf
        apply keeps_mono (keeps_pipeFailed has₄ calm₄ first second)
        intro _ s₅ _ has₅
        rw [given, giveFile_takeFile] at has₅
        exact has₅.idle (rests₁.closeFd fd0)
      | some fd1 =>
        obtain ⟨empty1, has₃⟩ : ((P.takeFile wf).setFd fd0 (some rf) true).ofile fd1 = none ∧
          Has t ((((P.takeFile wf).setFd fd0 (some rf) true).giveFile wf).setFd fd1 (some wf) true) ∅ X s₃ := now₃
        rw [giveFile_setFd, giveFile_takeFile] at has₃
        have rests₂ : Rests ((P.setFd fd0 (some rf) true).setFd fd1 (some wf) true) X := by
          have h := rests₁.setFd fd1 wf typed1
          rwa [Function.update_eq_self] at h
        have apart : fd0 ≠ fd1 := by
          intro same
          rw [← same] at empty1
          simp [Proc.setFd] at empty1
        dsimp only
        split
        · exact keeps_done Idle.stable (has₃.idle rests₂)
        · generalize made : (P.setFd fd0 (some rf) true).setFd fd1 (some wf) true = P₂ at has₃ rests₂
          have slot0 : P₂.ofile fd0 = some rf := by
            rw [← made]
            simp [Proc.setFd, apart]
          have slot1 : P₂.ofile fd1 = some wf := by
            rw [← made]
            simp [Proc.setFd]
          have counted0 := (rests₂.slots fd0 rf slot0).1
          have counted1 := (rests₂.slots fd1 wf slot1).1
          have calm₂ := rests₂.calm
          apply keeps_seq (keeps_clearFd has₃ slot0 counted0 calm₂.putting)
          intro _ s₄ has₄
          have slot1' : ((P₂.takeFile rf).setFd fd0 none false).ofile fd1 = some wf := by
            simp [Proc.setFd, Proc.takeFile, apart.symm, slot1]
          have counted1' : ((P₂.takeFile rf).setFd fd0 none false).counted fd1 = true := by
            simp [Proc.setFd, Proc.takeFile, apart.symm, counted1]
          apply keeps_seq (keeps_clearFd has₄ slot1' counted1' calm₂.putting)
          intro _ s₅ has₅
          replace has₅ : Has t ((((P₂.setFd fd0 none false).setFd fd1 none false).takeFile rf).takeFile wf) ∅ X s₅ :=
            has₅
          have calm₅ : Calm ((((P₂.setFd fd0 none false).setFd fd1 none false).takeFile rf).takeFile wf) :=
            ⟨calm₂.putting, calm₂.closing, calm₂.page, calm₂.spent⟩
          have second :
              0 < (((((P₂.setFd fd0 none false).setFd fd1 none false).takeFile rf).takeFile wf).giveFile rf).files
              wf := by
            rw [giveFile_takeFile_takeFile]
            exact takeFile_files _ wf
          apply keeps_mono (keeps_pipeFailed has₅ calm₅ (files_takeFile_takeFile _ rf wf) second)
          intro _ s₆ _ has₆
          rw [giveFile_takeFile_takeFile, giveFile_takeFile] at has₆
          exact has₆.idle ((rests₂.closeFd fd0).closeFd fd1)

/-! ### `fork` and `exit` -/

theorem Parent.setProc {p : Proc} (parent : Parent t np P Q X s) (has : Has t p ∅ X s')
    (others : s'.proc np = s.proc np) (child : p.child = P.child) : Parent t np p Q X s' :=
  ⟨has, by rw [others, parent.2.1], by rw [child, parent.2.2]⟩

theorem keeps_parent_filedup (parent : Parent t np P Q X s) (refers : 0 < fdRef f P) (typed : (X f).type ≠ .none) :
    Keeps sb t (act (.filedup f none)) (fun _ => Parent t np (P.takeFile f) Q X) s := by
  refine keeps_act parent Parent.stable (fun _ => Parent.stable) (by nofun) ?_
  intro x r y parent inv run
  have ne := parent.apart inv.proc
  simp only [exec, Kernel.filedup, parent.1.proc] at run
  split at run
  · cases run
  · cases run
    have step := counted_again (p := P.takeFile f) inv parent.1 typed refers parent.1.running rfl rfl rfl
      rfl rfl rfl rfl
      (fdRef_takeFile P f)
    exact step.imp fun has => parent.setProc has (Function.update_of_ne ne _ _) rfl

theorem keeps_parent_idup (parent : Parent t np P Q X s) (refers : 0 < procRef i P) :
    Keeps sb t (act (.idup i)) (fun _ => Parent t np (P.take i) Q X) s := by
  refine keeps_act parent Parent.stable (fun _ => Parent.stable) (by nofun) ?_
  intro x r y parent inv run
  have ne := parent.apart inv.proc
  have has := parent.1
  simp only [exec, Kernel.idup, has.proc] at run
  cases run
  have step : Does t x ((x.setInode i { x.inode i with ref := (x.inode i).ref + 1 }).setProc t (P.take i))
      (Has t (P.take i) ∅ X) := by
    apply took inv has rfl
    intro j apart pos dev inum
    have le := proc_le_ref inv t i
    rw [has.proc] at le
    exact apart (inv.inode.distinct j i pos (refers.trans_le le) dev inum)
  exact step.imp fun has => parent.setProc has (Function.update_of_ne ne _ _) rfl

theorem keeps_parent_read {a : Action} {v : a.Result → Prop} (parent : Parent t np P Q X s) (other : ∀ i, a ≠ .iput i)
    (reads : ∀ x r y, Has t P ∅ X x → exec sb t a x = some (r, y) → y = x ∧ v r) :
    Keeps sb t (act a) (fun r s => v r ∧ Parent t np P Q X s) s := by
  refine keeps_act parent Parent.stable (fun _ _ _ now frame => ⟨now.1, Parent.stable _ _ now.2 frame⟩)
    (fun _ _ i same => absurd same (other i)) ?_
  intro x r y parent inv run
  obtain ⟨rfl, holds⟩ := reads x r y parent.1 run
  exact ⟨inv, fun u _ => Frame.refl u y, holds, parent⟩

theorem keeps_forkFd (parent : Parent t np { P with child := some np } Q X s) (rests : Rests P X)
    (empty : Q.ofile fd = none) :
    Keeps sb t (forkFd np fd) (fun _ s => ∃ Q', Parent t np { P with child := some np } Q' X s ∧
      (∀ d, d ≠ fd → Q'.ofile d = Q.ofile d) ∧ Q'.cwd = Q.cwd) s := by
  have stable : Stable t (fun s => ∃ Q', Parent t np { P with child := some np } Q' X s ∧
      (∀ d, d ≠ fd → Q'.ofile d = Q.ofile d) ∧ Q'.cwd = Q.cwd) := by
    intro x y now frame
    obtain ⟨Q', parent, same⟩ := now
    exact ⟨Q', Parent.stable _ _ parent frame, same⟩
  have reads : Keeps sb t (act (.fd fd)) (fun r s => r = P.ofile fd ∧
      Parent t np { P with child := some np } Q X s) s := by
    refine keeps_parent_read (a := .fd fd) (v := fun r => r = P.ofile fd) parent (by nofun) ?_
    intro x r y has run
    simp only [exec, has.proc] at run
    cases run
    exact ⟨rfl, rfl⟩
  apply keeps_seq reads
  intro r s₁ now
  cases r with
  | none => exact keeps_done stable ⟨Q, now.2, fun _ _ => rfl, rfl⟩
  | some f =>
    have slot := now.1.symm
    have typed := (rests.slots fd f slot).2
    apply keeps_seq (keeps_parent_filedup now.2 (rests.refers slot) typed)
    intro _ s₂ parent₂
    apply keeps_mono (keeps_childFd parent₂ rests.calm.putting (takeFile_files _ f) typed empty)
    intro _ s₃ _ parent₃
    rw [giveFile_takeFile] at parent₃
    exact ⟨_, parent₃, fun d ne => Function.update_of_ne ne _ _, rfl⟩

theorem keeps_forkFds (fds : List (Fin nofile)) (nodup : fds.Nodup)
    (parent : Parent t np { P with child := some np } Q X s) (rests : Rests P X)
    (empty : ∀ fd ∈ fds, Q.ofile fd = none) (dir : Q.cwd = none) :
    Keeps sb t (forEach (forkFd np) fds) (fun _ s => ∃ Q', Parent t np { P with child := some np } Q' X s ∧
      Q'.cwd = none) s := by
  induction fds generalizing Q s with
  | nil =>
    refine keeps_done (a := ()) (fun x y now frame => ?_) ⟨Q, parent, dir⟩
    obtain ⟨Q', parent, dir⟩ := now
    exact ⟨Q', Parent.stable _ _ parent frame, dir⟩
  | cons fd fds ih =>
    obtain ⟨fresh, rest⟩ := List.nodup_cons.mp nodup
    apply keeps_seq (keeps_forkFd parent rests (empty fd List.mem_cons_self))
    intro _ s₁ now
    obtain ⟨Q', parent', slots, dir'⟩ := now
    apply ih rest parent'
    · intro d inside
      rw [slots d (fun same => fresh (same ▸ inside))]
      exact empty d (List.mem_cons_of_mem _ inside)
    · rw [dir', dir]

theorem keeps_fork (has : Has t P ∅ X s) (rests : Rests P X) (np : Option Tid) (copied : Bool) :
    Keeps sb t (fork np copied) (fun _ => Idle t) s := by
  have calm := rests.calm
  unfold fork
  cases np with
  | none => exact keeps_done Idle.stable (has.idle rests)
  | some np =>
    have whole : { ({ P with child := some np } : Proc) with child := none } = P := by rw [← rests.still.child]
    apply keeps_seq (keeps_allocproc has calm.putting np)
    intro _ s₁ now
    obtain ⟨Q, parent, slots, dir⟩ := now
    cases copied with
    | false =>
      simp only [Bool.false_eq_true, if_false]
      apply keeps_seq (keeps_freeproc parent calm.putting slots dir)
      intro _ s₂ has₂
      exact keeps_done Idle.stable ((has₂.of_eq whole).idle rests)
    | true =>
      simp only [if_true]
      apply keeps_seq (keeps_forkFds _ (List.nodup_finRange nofile) parent rests (fun fd _ => slots fd) dir)
      intro _ s₂ now₂
      obtain ⟨Q₂, parent₂, dir₂⟩ := now₂
      have reads : Keeps sb t (act .cwd)
          (fun i s => P.cwd = some i ∧ Parent t np { P with child := some np } Q₂ X s) s₂ := by
        refine keeps_parent_read (a := .cwd) (v := fun i => P.cwd = some i) parent₂ (by rintro _ ⟨⟩) ?_
        intro x r y has run
        simp only [exec, has.proc] at run
        split at run
        · cases run
        · rename_i here
          cases run
          exact ⟨rfl, here⟩
      apply keeps_seq reads
      intro i s₃ now₃
      have refers : 0 < procRef i { P with child := some np } := by
        unfold procRef cwdRef
        rw [now₃.1, calm.spent, if_pos ⟨rfl, rfl⟩]
        omega
      apply keeps_seq (keeps_parent_idup now₃.2 refers)
      intro _ s₄ parent₄
      apply keeps_seq (keeps_childCwd parent₄ calm.putting (take_hand _ i) dir₂)
      intro _ s₅ parent₅
      rw [give_take] at parent₅
      apply keeps_seq (keeps_start parent₅ calm.putting (by rintro ⟨⟩))
      intro _ s₆ has₆
      exact keeps_done Idle.stable ((has₆.of_eq whole).idle rests)

theorem keeps_exitFd (has : Has t P ∅ X s) (rests : Rests P X) :
    Keeps sb t (exitFd fd) (fun _ s => ∃ P', Has t P' ∅ X s ∧ Rests P' X ∧ P'.ofile fd = none ∧
      ∀ d, P.ofile d = none → P'.ofile d = none) s := by
  have calm := rests.calm
  have stable : Stable t (fun s => ∃ P', Has t P' ∅ X s ∧ Rests P' X ∧ P'.ofile fd = none ∧
      ∀ d, P.ofile d = none → P'.ofile d = none) := by
    intro x y now frame
    obtain ⟨P', has, rests⟩ := now
    exact ⟨P', has.frame frame, rests⟩
  apply keeps_seq (keeps_takeFd has (fun f slot => (rests.slots fd f slot).1) calm.putting)
  intro r s₁ now
  cases r with
  | none => exact keeps_done stable ⟨P, now.2, rests, now.1.symm, fun _ => id⟩
  | some f =>
    have has₁ : Has t ((P.takeFile f).setFd fd (some f) false) ∅ X s₁ := now.2
    have calm₁ : Calm ((P.takeFile f).setFd fd (some f) false) := ⟨calm.putting, calm.closing, calm.page, calm.spent⟩
    apply keeps_seq (keeps_fileclose has₁ calm₁ (takeFile_files P f) no_locks)
    intro _ s₂ has₂
    rw [giveFile_setFd, giveFile_takeFile] at has₂
    apply keeps_mono (keeps_dropFd has₂ (Function.update_self _ _ _) calm.putting)
    intro _ s₃ _ has₃
    have same : (P.setFd fd (some f) false).setFd fd none false = P.setFd fd none false := by
      simp [Proc.setFd]
    refine ⟨_, has₃.of_eq same, rests.closeFd fd, Function.update_self _ _ _, fun d none => ?_⟩
    by_cases here : d = fd
    · subst here
      exact Function.update_self _ _ _
    · simp only [Proc.setFd, Function.update_of_ne here]
      exact none

theorem keeps_exitFds (fds : List (Fin nofile)) (has : Has t P ∅ X s) (rests : Rests P X) :
    Keeps sb t (forEach exitFd fds) (fun _ s => ∃ P', Has t P' ∅ X s ∧ Rests P' X ∧ (∀ fd ∈ fds, P'.ofile fd = none) ∧
      ∀ d, P.ofile d = none → P'.ofile d = none) s := by
  induction fds generalizing P s with
  | nil =>
    refine keeps_done (a := ()) (fun x y now frame => ?_) ⟨P, has, rests, nofun, fun _ => id⟩
    obtain ⟨P', has, rest⟩ := now
    exact ⟨P', has.frame frame, rest⟩
  | cons fd fds ih =>
    apply keeps_seq (keeps_exitFd has rests)
    intro _ s₁ now
    obtain ⟨P₁, has₁, rests₁, closed, kept⟩ := now
    apply keeps_mono (ih has₁ rests₁)
    intro _ s₂ _ now₂
    obtain ⟨P₂, has₂, rests₂, all, kept₂⟩ := now₂
    refine ⟨P₂, has₂, rests₂, fun d inside => ?_, fun d none => kept₂ d (kept d none)⟩
    rcases List.mem_cons.mp inside with same | inside
    · rw [same]
      exact kept₂ fd closed
    · exact all d inside

theorem keeps_exit (has : Has t P ∅ X s) (rests : Rests P X) : Keeps sb t exit (fun _ => Idle t) s := by
  apply keeps_seq (keeps_exitFds _ has rests)
  intro _ s₁ now
  obtain ⟨P₁, has₁, rests₁, all, -⟩ := now
  have calm := rests₁.calm
  apply keeps_quiet_bind (quiet_act (by trivial)) has₁
  intro _ s₂ has₂
  apply keeps_seq (keeps_takeCwd has₂ calm.spent calm.putting)
  intro i s₃ has₃
  apply keeps_seq (keeps_iput has₃ calm.putting (take_hand _ i) (fun none => absurd none id))
  intro _ s₄ has₄
  rw [give_take_spent] at has₄
  apply keeps_quiet_bind (quiet_act (by trivial)) has₄
  intro _ s₅ has₅
  apply keeps_seq (keeps_clearCwd has₅ rfl calm.putting)
  intro _ s₆ has₆
  have still := rests₁.still
  exact keeps_zombie has₆ ⟨still.hand, still.files, rfl, still.putting, still.closing, still.page, still.child⟩
    (fun fd => all fd (List.mem_finRange fd)) rfl

end Xv6Labs.Fs
