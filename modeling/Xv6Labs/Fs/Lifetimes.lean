import Xv6Labs.Fs.RefCalls

/-!
# Lifetimes of inodes, files and pipes

In every run of the system calls, the counts of the inode cache and of the file table are those of the references
there are, and pages of pipes are freed once.
-/

namespace Xv6Labs.Fs

open Threads Prog

variable {sb : Superblock} {s : Kernel} {t : Tid} {block : UInt32 → Block} {c : Conf}

theorem keeps_call {p : Code Unit} (call : Call sb p) (has : Has t (s.proc t) ∅ s.file s)
    (rests : Rests (s.proc t) s.file) : Keeps sb t p (fun _ => Idle t) s := by
  have calm := rests.calm
  have done : ∀ {α : Type} {q : Code α}, Keeps sb t q (fun _ => Idle t) s →
      Keeps sb t (q >>= fun _ => pure ()) (fun _ => Idle t) s :=
    fun h => keeps_seq h fun _ _ now => keeps_done Idle.stable now
  cases call with
  | dup fd => exact done (keeps_dup has rests)
  | read fd dst n other => exact done (keeps_read has rests dst n other)
  | write fd src n other => exact done (keeps_write has rests src n other)
  | close fd => exact done (keeps_close has rests)
  | fstat fd copied => exact done (keeps_fstat has rests copied)
  | link old new => exact done (keeps_idle rests (keeps_link has calm old new))
  | unlink path => exact done (keeps_idle rests (keeps_unlink has calm path))
  | «open» path omode => exact done (keeps_open has rests path omode)
  | mkdir path => exact done (keeps_idle rests (keeps_mknod has calm path _ _ _))
  | mknod path major minor => exact done (keeps_idle rests (keeps_mknod has calm path _ _ _))
  | chdir path => exact done (keeps_chdir has rests path)
  | exec path reads => exact keeps_idle rests (keeps_exec has calm path reads)
  | pipe page copied => exact done (keeps_pipe has rests page copied)
  | fork np copied => exact done (keeps_fork has rests np copied)
  | wait np => exact keeps_idle rests (keeps_reap has rests.still np)
  | exit => exact keeps_exit has rests

theorem boot_inv (block : UInt32 → Block) : RefInv (boot block) := by
  have first : (boot block).proc 0 = { state := .running, cwd := some 0 } := rfl
  have rest : ∀ t, t ≠ 0 → (boot block).proc t = {} := fun t ne => by simp [boot, ne]
  have root : (boot block).inode 0 = { dev := rootdev, inum := rootino, ref := 1 } := rfl
  have other : ∀ i, i ≠ 0 → (boot block).inode i = {} := fun i ne => by simp [boot, ne]
  have sums : ∀ g : Proc → ℕ, ∑ t, g ((boot block).proc t) + g {} =
      ∑ _t : Tid, g {} + g { state := .running, cwd := some 0 } :=
    fun g => Log.sum_update g (fun _ => {}) 0 { state := .running, cwd := some 0 }
  have still : ∀ t, Still ((boot block).proc t) := by
    intro t
    by_cases h : t = 0
    · rw [h, first]
      exact ⟨fun _ => rfl, fun _ => rfl, rfl, rfl, rfl, rfl, rfl⟩
    · rw [rest t h]
      exact ⟨fun _ => rfl, fun _ => rfl, rfl, rfl, rfl, rfl, rfl⟩
  have slots : ∀ t fd, ((boot block).proc t).ofile fd = none := by
    intro t fd
    by_cases h : t = 0
    · rw [h, first]
    · rw [rest t h]
  have fds : ∀ t f, fdRef f ((boot block).proc t) = 0 := by
    intro t f
    unfold fdRef Proc.slot
    rw [(still t).files]
    simp [slots, slotRef]
  constructor
  · constructor
    · intro i
      have sum := sums (procRef i)
      have files : ∑ f, fileRef i ((boot block).file f) = 0 := by
        apply Finset.sum_eq_zero
        intro f _
        simp [boot, fileRef, File.HasInode]
      have none : procRef i {} = 0 := by simp [procRef, cwdRef]
      rw [none, Finset.sum_const_zero] at sum
      unfold inodeRefs
      rw [files]
      by_cases h : i = 0
      · subst h
        have one : procRef 0 { state := .running, cwd := some 0 } = 1 := by simp [procRef, cwdRef]
        rw [root]
        change 1 = _
        omega
      · have ne : (0 : Fin ninode) ≠ i := fun same => h same.symm
        have zero : procRef i { state := .running, cwd := some 0 } = 0 := by simp [procRef, cwdRef, ne]
        rw [other i h]
        change 0 = _
        omega
    · intro i j posi posj _ _
      have at_root : ∀ k, 0 < ((boot block).inode k).ref → k = 0 := by
        intro k pos
        by_contra h
        rw [other k h] at pos
        exact absurd pos (lt_irrefl 0)
      rw [at_root i posi, at_root j posj]
  · refine ⟨fun f => ?_, fun _ _ => rfl, fun _ _ => Nat.zero_le 1⟩
    unfold fileRefs
    rw [Finset.sum_eq_zero fun t _ => fds t f]
    rfl
  · refine ⟨fun pi w => ?_, fun pi => ?_, fun _ => rfl, ?_⟩
    · unfold ends
      rw [Finset.sum_eq_zero, Finset.sum_eq_zero]
      · cases w <;> rfl
      · intro t _
        simp [closeRef, (still t).closing]
      · intro f _
        simp [boot, endRef]
    · rw [Finset.sum_eq_zero]
      · rfl
      · intro t _
        simp [pageRef, (still t).page]
    · rintro f ⟨⟩
  · refine ⟨fun i t lock => ?_, fun t i put => ?_⟩
    · cases lock
    · rw [(still t).putting] at put
      cases put
  · refine ⟨fun t _ => still t, fun t idle => ⟨slots t, ?_⟩, fun t _ fd f slot => ?_, fun t np child => ?_,
      fun t u np child => ?_⟩
    · by_cases h : t = 0
      · rw [h, first] at idle
        simp at idle
      · rw [rest t h]
    · rw [slots] at slot
      cases slot
    · rw [(still t).child] at child
      cases child
    · rw [(still t).child] at child
      cases child

theorem boot_idle (block : UInt32 → Block) (t : Tid) : Idle t (boot block) := by
  refine ⟨fun i => nofun, fun running => ?_⟩
  have first : t = 0 := by
    by_contra ne
    have unused : (boot block).proc t = {} := by simp [boot, ne]
    rw [unused] at running
    cases running
  subst first
  have proc : (boot block).proc 0 = { state := .running, cwd := some 0 } := rfl
  rw [proc]
  exact ⟨⟨fun _ => rfl, fun _ => rfl, rfl, rfl, rfl, rfl, rfl⟩, nofun, nofun⟩

/-- Every run keeps the counts. -/
theorem run_kept (run : Relation.ReflTransGen (Running sb) (start block) c) : c.Kept refTerms (exec sb) Idle := by
  have begins : (start block).Kept refTerms (exec sb) Idle := by
    refine ⟨boot_inv block, fun t x frame _ => ?_⟩
    exact (boot_idle block t).frame frame.2
  apply begins.run _ run
  intro t s p inv idle called
  obtain ⟨has, rests⟩ := idle.has called.1
  exact keeps_call called.2 has rests

/-! ### The inode cache -/

def openFiles (s : Kernel) (i : Fin ninode) : ℕ :=
  (Finset.univ.filter fun f => 0 < (s.file f).ref ∧ (s.file f).HasInode i).card

/-- The processes in the directory, less those that have passed their reference to `iput` in order to leave it. -/
def workingDirs (s : Kernel) (i : Fin ninode) : ℕ :=
  (Finset.univ.filter fun t => (s.proc t).cwd = some i ∧ (s.proc t).spent = false).card

/-- The pointers in local variables of the kernel that stand for a reference. -/
def pointers (s : Kernel) (i : Fin ninode) : ℕ := ∑ t, (s.proc t).hand i

theorem refs_split (inv : RefInv s) (i : Fin ninode) :
    (s.inode i).ref = openFiles s i + workingDirs s i + pointers s i := by
  have files : ∑ f, fileRef i (s.file f) = openFiles s i := by
    unfold openFiles
    rw [Finset.card_filter]
    apply Finset.sum_congr rfl
    intro f _
    unfold fileRef
    apply if_congr _ rfl rfl
    refine ⟨fun has => ⟨?_, has⟩, fun has => has.2⟩
    rw [Nat.pos_iff_ne_zero]
    intro zero
    have type := has.1
    rw [inv.file.unused f zero] at type
    simp at type
  have dirs : ∑ t, cwdRef i (s.proc t).cwd (s.proc t).spent = workingDirs s i := by
    unfold workingDirs
    rw [Finset.card_filter]
    rfl
  have refs := inv.inode.refs i
  unfold inodeRefs procRef at refs
  rw [Finset.sum_add_distrib, files, dirs] at refs
  unfold pointers
  omega

/-- An inode that is locked has a reference besides the one that is passed to `iput`. -/
theorem lock_free {i : Fin ninode} (inv : RefInv s) (put : (s.proc t).putting = some i) (last : (s.inode i).ref = 1) :
    s.lock i = none := by
  obtain ⟨pos, two⟩ := inv.lock.putting t i put
  have refs := inv.inode.refs i
  have mine : (s.proc t).hand i ≤ procRef i (s.proc t) := Nat.le_add_right _ _
  have le := proc_le_ref inv t i
  cases held : s.lock i with
  | none => rfl
  | some u =>
    by_cases same : u = t
    · subst same
      have both := two held
      omega
    · have sum := Finset.add_sum_erase Finset.univ (fun v => procRef i (s.proc v)) (Finset.mem_univ t)
      unfold inodeRefs at refs
      rcases inv.lock.used i u held with hand | ⟨f, -, file⟩
      · have other := Finset.single_le_sum (f := fun v => procRef i (s.proc v)) (fun _ _ => Nat.zero_le _)
          (Finset.mem_erase.mpr ⟨same, Finset.mem_univ u⟩)
        have theirs : (s.proc u).hand i ≤ procRef i (s.proc u) := Nat.le_add_right _ _
        omega
      · have one : fileRef i (s.file f) = 1 := if_pos file
        have other := Finset.single_le_sum (f := fun g => fileRef i (s.file g)) (fun _ _ => Nat.zero_le _)
          (Finset.mem_univ f)
        omega

/-- A thread outside a call has nothing in its local variables. -/
theorem idle_still (inv : RefInv s) (idle : Idle t s) : Still (s.proc t) := by
  by_cases running : (s.proc t).state = .running
  · exact (idle.ready running).still
  · exact inv.proc.still t running

theorem inode_refs_exact (run : Relation.ReflTransGen (Running sb) (start block) c) :
    (∀ i j, 0 < (c.shared.inode i).ref → 0 < (c.shared.inode j).ref → (c.shared.inode i).dev = (c.shared.inode j).dev →
      (c.shared.inode i).inum = (c.shared.inode j).inum → i = j) ∧
    (∀ i, (c.shared.inode i).ref = openFiles c.shared i + workingDirs c.shared i + pointers c.shared i) ∧
    (∀ t, c.code t = .ret () → (∀ i, (c.shared.proc t).hand i = 0) ∧ (c.shared.proc t).spent = false) ∧
    ∀ t i k, c.code t = .act (.iput i) k →
      (∀ s, exec sb t (.iput i) c.shared = some (true, s) →
        (c.shared.inode i).nlink = 0 ∧ (c.shared.inode i).ref = 1 ∧ (c.shared.proc t).hand i = 1) ∧
      ((c.shared.inode i).ref = 1 → c.shared.lock i = none) := by
  have kept := run_kept run
  refine ⟨kept.1.inode.distinct, refs_split kept.1, fun t point => ?_, fun t i k point => ?_⟩
  · have still := idle_still kept.1 (kept.ready point)
    exact ⟨still.hand, still.spent⟩
  have put : (c.shared.proc t).putting = some i := kept.ok point i rfl
  refine ⟨fun s frees => ?_, lock_free kept.1 put⟩
  obtain ⟨pos, -⟩ := kept.1.lock.putting t i put
  have le := proc_le_ref kept.1 t i
  have mine : (c.shared.proc t).hand i ≤ procRef i (c.shared.proc t) := Nat.le_add_right _ _
  simp only [exec, Kernel.iput] at frees
  split at frees
  · rename_i test
    exact ⟨test.2.2, test.1, by omega⟩
  · cases frees

/-- In a call of `unlink`, which looks up the directory of an empty path, and after it. -/
theorem inode_refs_exact_unlinking : ∃ (c c' : Conf) (k : Bool → Code Unit),
    Relation.ReflTransGen (Running ⟨0, 0, 0, 0⟩) (start fun _ _ => 0) c ∧ c.code 0 = .act (.iput 0) k ∧
    (c.shared.inode 0).ref = 2 ∧
    (c.shared.inode 0).ref = openFiles c.shared 0 + workingDirs c.shared 0 + pointers c.shared 0 ∧
    Relation.ReflTransGen (Running ⟨0, 0, 0, 0⟩) c c' ∧ c'.code 0 = .ret () ∧ (c'.shared.proc 0).hand 0 = 0 := by
  have called : Running ⟨0, 0, 0, 0⟩ (start fun _ _ => 0) _ := .call 0 _ rfl ⟨rfl, .unlink (some [])⟩
  have went : (sys_unlink ⟨0, 0, 0, 0⟩ (some []) >>= fun _ => pure ()).advance (exec ⟨0, 0, 0, 0⟩ 0) 4
      (boot fun _ _ => 0) = some (_, _) := rfl
  have looks : Relation.ReflTransGen (Running ⟨0, 0, 0, 0⟩) _ _ :=
    Step.advance (Called ⟨0, 0, 0, 0⟩) (fun _ => .ret ()) went
  have run := Relation.ReflTransGen.head called looks
  suffices ended : ∃ c', Relation.ReflTransGen (Running ⟨0, 0, 0, 0⟩) _ c' ∧ c'.code 0 = .ret () by
    obtain ⟨c', rest, idle⟩ := ended
    exact ⟨_, c', _, run, rfl, rfl, (inode_refs_exact run).2.1 0, rest, idle,
      ((inode_refs_exact (run.trans rest)).2.2.1 0 idle).1 0⟩
  exact ⟨_, Step.run (Called ⟨0, 0, 0, 0⟩) (fun _ => .ret ()) rfl, rfl⟩

/-! ### Files and pipes -/

theorem slots_counted (inv : RefInv s) (idle : ∀ t, Idle t s) (f : Fin nfile) :
    (s.file f).ref = (Finset.univ.filter fun slot : Tid × Fin nofile =>
      (s.proc slot.1).ofile slot.2 = some f).card := by
  have opened : ∀ t, Open s (s.proc t) := by
    intro t
    cases state : (s.proc t).state with
    | running => exact ((idle t).ready state).opened
    | embryo => exact inv.proc.embryo t state
    | unused =>
      intro fd g slot
      rw [(inv.proc.bare t (.inl state)).1 fd] at slot
      cases slot
    | zombie =>
      intro fd g slot
      rw [(inv.proc.bare t (.inr state)).1 fd] at slot
      cases slot
  rw [inv.file.refs f, Finset.card_filter, Fintype.sum_prod_type]
  unfold fileRefs fdRef
  apply Finset.sum_congr rfl
  intro t _
  rw [(idle_still inv (idle t)).files f, Nat.zero_add]
  apply Finset.sum_congr rfl
  intro fd _
  unfold slotRef Proc.slot
  apply if_congr _ rfl rfl
  rw [Prod.mk.injEq]
  exact ⟨fun h => h.1, fun slot => ⟨slot, (opened t fd f slot).1⟩⟩

/-- A live file that is an end of the pipe. -/
def IsEnd (s : Kernel) (pi : Page) (f : Fin nfile) : Prop :=
  0 < (s.file f).ref ∧ (s.file f).type = .pipe ∧ (s.file f).pipe = pi

instance (pi : Page) (f : Fin nfile) : Decidable (IsEnd s pi f) := inferInstanceAs (Decidable (_ ∧ _ ∧ _))

theorem opened_iff (inv : RefInv s) (idle : ∀ t, Idle t s) (pi : Page) (w : Bool) :
    (s.pipe pi).opened w = true ↔ ∃ f, IsEnd s pi f ∧ (s.file f).writable = w := by
  have ends := inv.pipe.opened pi w
  have none : ∑ t, closeRef pi w (s.proc t) = 0 := by
    apply Finset.sum_eq_zero
    intro t _
    simp [closeRef, (idle_still inv (idle t)).closing]
  unfold Fs.ends at ends
  rw [none, Nat.add_zero] at ends
  constructor
  · intro opened
    rw [opened] at ends
    obtain ⟨f, -, pos⟩ := Finset.exists_ne_zero_of_sum_ne_zero (by rw [← ends]; decide)
    unfold endRef at pos
    split at pos
    · rename_i is
      refine ⟨f, ⟨Nat.pos_of_ne_zero fun zero => ?_, is.1, is.2.1⟩, is.2.2⟩
      have type := inv.file.unused f zero
      rw [is.1] at type
      cases type
    · exact absurd rfl pos
  · intro exists_end
    obtain ⟨f, ⟨-, type, pipe⟩, writable⟩ := exists_end
    have one : endRef pi w (s.file f) = 1 := if_pos ⟨type, pipe, writable⟩
    have le := Finset.single_le_sum (f := fun g => endRef pi w (s.file g)) (fun _ _ => Nat.zero_le _)
      (Finset.mem_univ f)
    cases value : (s.pipe pi).opened w
    · rw [value] at ends
      simp only [Bool.toNat_false] at ends
      omega
    · rfl

theorem allocated_iff (inv : RefInv s) (idle : ∀ t, Idle t s) (pi : Page) :
    (s.pipe pi).allocated = true ↔ ∃ f, IsEnd s pi f := by
  have pages := inv.pipe.pages pi
  have none : ∑ t, pageRef pi (s.proc t) = 0 := by
    apply Finset.sum_eq_zero
    intro t _
    simp [pageRef, (idle_still inv (idle t)).page]
  rw [none, Nat.zero_add] at pages
  have allocated : (s.pipe pi).allocated = ((s.pipe pi).readopen || (s.pipe pi).writeopen) := by
    revert pages
    cases (s.pipe pi).allocated <;> cases (s.pipe pi).readopen || (s.pipe pi).writeopen <;> simp
  have reads := opened_iff inv idle pi false
  have writes := opened_iff inv idle pi true
  have readopen : (s.pipe pi).opened false = (s.pipe pi).readopen := rfl
  have writeopen : (s.pipe pi).opened true = (s.pipe pi).writeopen := rfl
  rw [allocated, Bool.or_eq_true, ← readopen, ← writeopen, reads, writes]
  constructor
  · intro either
    rcases either with ⟨f, is, -⟩ | ⟨f, is, -⟩
    · exact ⟨f, is⟩
    · exact ⟨f, is⟩
  · intro exists_end
    obtain ⟨f, is⟩ := exists_end
    cases way : (s.file f).writable
    · exact .inl ⟨f, is, way⟩
    · exact .inr ⟨f, is, way⟩

theorem file_lifetimes (run : Relation.ReflTransGen (Running sb) (start block) c) (idle : ∀ t, c.code t = .ret ()) :
    (∀ f, (c.shared.file f).ref =
      (Finset.univ.filter fun slot : Tid × Fin nofile => (c.shared.proc slot.1).ofile slot.2 = some f).card) ∧
    (∀ f, (c.shared.file f).ref = 0 → (c.shared.file f).type = .none) ∧
    (∀ pi, (c.shared.pipe pi).allocated = true ↔ ∃ f, IsEnd c.shared pi f) ∧
    (∀ pi, (c.shared.pipe pi).readopen = true ↔ ∃ f, IsEnd c.shared pi f ∧ (c.shared.file f).readable = true) ∧
    (∀ pi, (c.shared.pipe pi).writeopen = true ↔ ∃ f, IsEnd c.shared pi f ∧ (c.shared.file f).writable = true) ∧
    ∀ pi, (c.shared.pipe pi).allocs = (c.shared.pipe pi).frees + if ∃ f, IsEnd c.shared pi f then 1 else 0 := by
  have kept := run_kept run
  have rest : ∀ t, Idle t c.shared := fun t => kept.ready (idle t)
  refine ⟨slots_counted kept.1 rest, kept.1.file.unused, allocated_iff kept.1 rest, fun pi => ?_,
    fun pi => opened_iff kept.1 rest pi true, fun pi => ?_⟩
  · have reads := opened_iff kept.1 rest pi false
    have readopen : (c.shared.pipe pi).opened false = (c.shared.pipe pi).readopen := rfl
    rw [← readopen, reads]
    apply exists_congr
    intro f
    apply and_congr_right
    intro is
    rw [kept.1.pipe.ways f is.2.1]
    simp
  · rw [kept.1.pipe.freed pi]
    by_cases live : ∃ f, IsEnd c.shared pi f
    · rw [if_pos live, (allocated_iff kept.1 rest pi).mpr live]
      rfl
    · have free : (c.shared.pipe pi).allocated = false := by
        rw [← Bool.not_eq_true]
        exact fun allocated => live ((allocated_iff kept.1 rest pi).mp allocated)
      rw [if_neg live, free]
      rfl

/-- After a call of `pipe`. -/
theorem file_lifetimes_piped : ∃ c : Conf, Relation.ReflTransGen (Running ⟨0, 0, 0, 0⟩) (start fun _ _ => 0) c ∧
    (∀ t, c.code t = .ret ()) ∧ (c.shared.pipe 7).allocs = 1 ∧ (c.shared.pipe 7).frees = 0 ∧
    ((c.shared.pipe 7).allocated = true ↔ ∃ f, IsEnd c.shared 7 f) := by
  have made : ((sys_pipe (some 7) true >>= fun _ => pure ()).run (exec ⟨0, 0, 0, 0⟩ 0) (boot fun _ _ => 0)).map
      (fun x => ((x.2.pipe 7).allocs, (x.2.pipe 7).frees)) = some (1, 0) := by decide +kernel
  obtain ⟨⟨_, s⟩, ran, counts⟩ := Option.map_eq_some_iff.mp made
  obtain ⟨allocs, frees⟩ := Prod.mk.inj counts
  have called : Running ⟨0, 0, 0, 0⟩ (start fun _ _ => 0) _ :=
    .call 0 _ rfl ⟨rfl, .pipe (some 7) true⟩
  have rest : Relation.ReflTransGen (Running ⟨0, 0, 0, 0⟩) _ _ := Step.run (Called ⟨0, 0, 0, 0⟩) (fun _ => .ret ()) ran
  have run := Relation.ReflTransGen.head called rest
  have idle : ∀ t, Function.update (fun _ : Tid => (.ret () : Code Unit)) 0 (.ret ()) t = .ret () := by
    intro t
    rw [Function.update_eq_self]
  exact ⟨_, run, idle, allocs, frees, (file_lifetimes run idle).2.2.1 7⟩

end Xv6Labs.Fs
