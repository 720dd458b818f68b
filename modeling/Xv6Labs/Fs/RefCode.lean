import Xv6Labs.Fs.ProcRules

/-!
# References in `fs.c`

What the functions of the inode layer do to the references and locks of their caller.
-/

namespace Xv6Labs.Fs

open Threads Prog

variable {s s' : Kernel} {t u : Tid} {sb : Superblock} {α β : Type} {P Q : Proc} {L : Set (Fin ninode)}
  {X : Fin nfile → File} {i j : Fin ninode}

/-! ### Code that only reads and writes contents -/

/-- The actions that change no reference. -/
def Action.Quiet : Action → Prop
  | .panic | .begin_op | .end_op | .load _ | .bzero _ | .balloc _ | .ialloc _ _ | .iupdate _ | .iload _
  | .setEntry _ _ _ | .write _ _ _ _ _ | .inode _ | .setInode _ _ | .setAddr _ _ _ | .bfreeAddr _ _
  | .bfreeEntry _ _ _ | .invalidate _ | .file _ | .setOff _ _ | .fd _ | .cwd => True
  | _ => False

inductive Quiet : Code α → Prop where
  | ret (a : α) : Quiet (.ret a)
  | act {a : Action} {k : a.Result → Code α} (quiet : a.Quiet) (rest : ∀ r, Quiet (k r)) : Quiet (.act a k)

theorem quiet_pure (a : α) : Quiet (pure a : Code α) := .ret a

theorem quiet_act {a : Action} (quiet : a.Quiet) : Quiet (act a) := .act quiet .ret

theorem Quiet.bind {p : Code α} {f : α → Code β} (first : Quiet p) (rest : ∀ a, Quiet (f a)) : Quiet (p >>= f) := by
  change Quiet (Prog.bind p f)
  induction first with
  | ret a => exact rest a
  | act quiet _ ih => exact .act quiet ih

theorem quiet_step {a : Action} {f : a.Result → Code β} (quiet : a.Quiet) (rest : ∀ r, Quiet (f r)) :
    Quiet (act a >>= f) := (quiet_act quiet).bind rest

theorem plain_block (s : Kernel) (n : UInt32) (d : Block) : Plain s (s.setBlock n d) :=
  ⟨rfl, rfl, rfl, fun _ => ⟨rfl, rfl, rfl⟩, fun _ => ⟨rfl, rfl⟩⟩

theorem plain_inode {x : Inode} (ref : x.ref = (s.inode i).ref) (dev : x.dev = (s.inode i).dev)
    (inum : x.inum = (s.inode i).inum) : Plain s (s.setInode i x) := by
  refine ⟨rfl, rfl, rfl, fun j => ?_, fun _ => ⟨rfl, rfl⟩⟩
  by_cases same : j = i
  · subst same
    simp only [Kernel.setInode, Function.update_self]
    exact ⟨ref, dev, inum⟩
  · simp [Kernel.setInode, same]

theorem Plain.trans {s'' : Kernel} (first : Plain s s') (second : Plain s' s'') : Plain s s'' where
  proc := second.proc.trans first.proc
  lock := second.lock.trans first.lock
  pipe := second.pipe.trans first.pipe
  inode := fun i => ⟨(second.inode i).1.trans (first.inode i).1, (second.inode i).2.1.trans (first.inode i).2.1,
    (second.inode i).2.2.trans (first.inode i).2.2⟩
  file := fun f => ⟨(second.file f).1.trans (first.file f).1, (second.file f).2.trans (first.file f).2⟩

theorem plain_fresh (s : Kernel) (t : Tid) (b : Option UInt32) : Plain s (s.setFresh t b) :=
  ⟨rfl, rfl, rfl, fun _ => ⟨rfl, rfl, rfl⟩, fun _ => ⟨rfl, rfl⟩⟩

theorem logWrite_eq {n : UInt32} {d : Block} {r : Unit} (h : s.logWrite n d = some (r, s')) :
    s' = s.setBlock n d ∧ 1 ≤ s.outstanding := by
  unfold Kernel.logWrite at h
  split at h
  · cases h
  · rename_i inside
    obtain ⟨-, rfl⟩ := Prod.mk.inj (Option.some.inj h)
    exact ⟨rfl, not_lt.mp inside⟩

theorem plain_logWrite {n : UInt32} {d : Block} {r : Unit} (h : s.logWrite n d = some (r, s')) : Plain s s' := by
  rw [(logWrite_eq h).1]
  exact plain_block s n d

theorem plain_bfree {b : UInt32} {r : Unit} (h : s.bfree sb b = some (r, s')) : Plain s s' := by
  unfold Kernel.bfree at h
  split at h
  · exact plain_logWrite h
  · cases h

/-- The bitmap block with number `k`. -/
def bitmap (sb : Superblock) (k : ℕ) : UInt32 := sb.bmapstart + UInt32.ofNat k

theorem balloc_cases {k : ℕ} {r : Option UInt32} (h : s.balloc sb t k = some (r, s')) :
    (findFree (s.block (bitmap sb k)) (k * bpb) sb.size.toNat = none ∧ r = none ∧ s' = s) ∨
      ∃ bi, findFree (s.block (bitmap sb k)) (k * bpb) sb.size.toNat = some bi ∧
      r = some (UInt32.ofNat (k * bpb + bi)) ∧
        s' = (s.setBlock (bitmap sb k) (setBit (s.block (bitmap sb k)) bi)).setFresh t r := by
  unfold Kernel.balloc at h
  extract_lets n at h
  cases found : findFree (s.block n) (k * bpb) sb.size.toNat with
  | none =>
    rw [found] at h
    obtain ⟨rfl, rfl⟩ := Prod.mk.inj (Option.some.inj h)
    exact .inl ⟨found, rfl, rfl⟩
  | some bi =>
    rw [found] at h
    dsimp only at h
    cases written : s.logWrite n (setBit (s.block n) bi) with
    | none =>
      rw [written] at h
      cases h
    | some result =>
      rw [written] at h
      obtain ⟨rfl, rfl⟩ := Prod.mk.inj (Option.some.inj h)
      refine .inr ⟨bi, found, rfl, ?_⟩
      rw [(logWrite_eq written).1]
      rfl

theorem plain_balloc {k : ℕ} {r : Option UInt32} (h : s.balloc sb t k = some (r, s')) : Plain s s' := by
  rcases balloc_cases h with ⟨-, -, rfl⟩ | ⟨bi, -, -, rfl⟩
  · exact .refl s'
  · exact (plain_block _ _ _).trans (plain_fresh _ _ _)

-- Unification must not run the search of `balloc`.
attribute [local irreducible] Kernel.balloc

theorem quiet_plain {a : Action} {r : a.Result} (quiet : a.Quiet) (run : exec sb t a s = some (r, s')) :
    Plain s s' := by
  cases a with
  | panic => cases run
  | begin_op =>
    cases run
    exact ⟨rfl, rfl, rfl, fun _ => ⟨rfl, rfl, rfl⟩, fun _ => ⟨rfl, rfl⟩⟩
  | end_op =>
    cases run
    exact ⟨rfl, rfl, rfl, fun _ => ⟨rfl, rfl, rfl⟩, fun _ => ⟨rfl, rfl⟩⟩
  | load n =>
    obtain ⟨-, rfl⟩ := Prod.mk.inj (Option.some.inj run)
    exact .refl s
  | bzero n => exact plain_logWrite run
  | balloc k => exact plain_balloc run
  | ialloc inum type =>
    simp only [exec, Kernel.ialloc] at run
    split at run
    · split at run
      · cases run
      · rename_i written
        cases run
        exact plain_logWrite written
    · cases run
      exact .refl s
  | iupdate i => exact plain_logWrite run
  | iload i =>
    simp only [exec, Kernel.iload] at run
    split at run
    · cases run
    · cases run
      exact plain_inode rfl rfl rfl
  | setEntry n k addr =>
    simp only [exec, Kernel.setEntry] at run
    split at run
    · cases run
    · rename_i written
      cases run
      exact (plain_logWrite written).trans (plain_fresh _ _ _)
  | write n off src m logged =>
    simp only [exec, Kernel.write] at run
    split at run
    · exact plain_logWrite run
    · cases run
      exact plain_block _ _ _
  | inode i =>
    cases run
    exact .refl s
  | setInode i f =>
    cases run
    exact plain_inode rfl rfl rfl
  | setAddr i k addr =>
    cases run
    have changed : Plain s (s.setInode i { s.inode i with addrs := Function.update (s.inode i).addrs k addr }) :=
      plain_inode rfl rfl rfl
    exact changed.trans (plain_fresh _ _ _)
  | bfreeAddr i k =>
    simp only [exec, Kernel.bfreeAddr] at run
    split at run
    · cases run
    · rename_i freed
      cases run
      exact (plain_bfree freed).trans (plain_inode rfl rfl rfl)
  | bfreeEntry i k addr =>
    simp only [exec, Kernel.bfreeEntry] at run
    split at run
    · cases run
      exact plain_inode rfl rfl rfl
    · split at run
      · cases run
      · rename_i freed
        cases run
        exact (plain_bfree freed).trans (plain_inode rfl rfl rfl)
  | invalidate i =>
    cases run
    exact plain_inode rfl rfl rfl
  | file f =>
    cases run
    exact .refl s
  | setOff f off =>
    cases run
    refine ⟨rfl, rfl, rfl, fun _ => ⟨rfl, rfl, rfl⟩, fun g => ?_⟩
    by_cases same : g = f
    · subst same
      simp [Kernel.setFile, File.kind]
    · simp [Kernel.setFile, same]
  | fd fd =>
    cases run
    exact .refl s
  | cwd =>
    simp only [exec] at run
    split at run
    · cases run
    · cases run
      exact .refl s
  | _ => exact quiet.elim

theorem keeps_quiet {p : Code α} (quiet : Quiet p) (has : Has t P L X s) : Keeps sb t p (fun _ => Has t P L X) s := by
  induction quiet generalizing s with
  | ret a =>
    intro x frame inv
    exact has.frame frame.2
  | @act a k quiet _ ih =>
    intro x frame inv
    refine ⟨fun i same => ?_, fun r y run _ _ => ?_⟩
    · rw [same] at quiet
      exact quiet.elim
    · have plain := quiet_plain quiet run
      have now := (has.frame frame.2).frame (plain.frame t)
      exact ⟨plain.inv inv.2, fun u _ => plain.frame u, ih r now⟩

theorem keeps_quiet_bind {p : Code α} {f : α → Code β} {post : β → Kernel → Prop} (quiet : Quiet p)
    (has : Has t P L X s) (rest : ∀ a s, Has t P L X s → Keeps sb t (f a) post s) : Keeps sb t (p >>= f) post s := by
  apply keeps_bind
  exact keeps_mono (keeps_quiet quiet has) fun a s' _ now => rest a s' now

theorem keeps_seq {p : Code α} {f : α → Code β} {mid : α → Kernel → Prop} {post : β → Kernel → Prop}
    (first : Keeps sb t p mid s) (rest : ∀ a s, mid a s → Keeps sb t (f a) post s) : Keeps sb t (p >>= f) post s := by
  apply keeps_bind
  exact keeps_mono first fun a s' _ now => rest a s' now

theorem keeps_done {a : α} {post : α → Kernel → Prop} (after : Stable t (post a)) (now : post a s) :
    Keeps sb t (pure a) post s := by
  apply keeps_ret
  intro x frame _
  exact after s x now frame.2

/-! ### Contents -/

theorem quiet_forEach {body : α → Code Unit} (quiet : ∀ x, Quiet (body x)) (xs : List α) : Quiet (forEach body xs) := by
  induction xs with
  | nil => exact quiet_pure ()
  | cons x xs ih => exact (quiet x).bind fun _ => ih

theorem quiet_balloc : Quiet (balloc sb) := by
  have from' : ∀ more k, Quiet (ballocFrom more k) := by
    intro more
    induction more with
    | zero => exact fun _ => quiet_step (by trivial) fun _ => quiet_pure 0
    | succ more ih =>
      intro k
      refine quiet_step (by trivial) fun r => ?_
      cases r with
      | none => exact ih (k + 1)
      | some b => exact quiet_step (by trivial) fun _ => quiet_pure b
  exact from' _ _

theorem quiet_addrOf (k : Fin (ndirect + 1)) : Quiet (addrOf sb i k) := by
  refine quiet_step (by trivial) fun ip => ?_
  split
  · exact quiet_balloc.bind fun _ => quiet_step (by trivial) fun _ => quiet_pure _
  · exact quiet_pure _

theorem quiet_entryOf (indirect : UInt32) (bn : ℕ) : Quiet (entryOf sb indirect bn) := by
  refine quiet_step (by trivial) fun a => ?_
  split
  · exact quiet_balloc.bind fun _ => quiet_step (by trivial) fun _ => quiet_pure _
  · exact quiet_pure _

theorem quiet_bmap (bn : ℕ) : Quiet (bmap sb i bn) := by
  unfold bmap
  split
  · exact quiet_addrOf _
  · split
    · exact (quiet_addrOf _).bind fun _ => quiet_entryOf _ _
    · exact quiet_step (by trivial) fun _ => quiet_pure _

theorem quiet_itrunc : Quiet (itrunc i) := by
  apply (quiet_forEach _ _).bind
  · intro _
    apply Quiet.bind
    · refine quiet_step (by trivial) fun ip => ?_
      split
      · exact quiet_pure _
      · refine quiet_step (by trivial) fun a => ?_
        apply (quiet_forEach (fun _ => quiet_act (by trivial)) _).bind
        exact fun _ => quiet_act (by trivial)
    · exact fun _ => quiet_step (by trivial) fun _ => quiet_act (by trivial)
  · intro k
    refine quiet_step (by trivial) fun ip => ?_
    split
    · exact quiet_pure _
    · exact quiet_act (by trivial)

theorem quiet_readi (dst : Dest) (off n : UInt32) : Quiet (readi sb i dst off n) := by
  have loop : ∀ (fuel n off tot : ℕ) (data : List UInt8), Quiet (readLoop sb i dst n fuel off tot data) := by
    intro fuel n
    induction fuel with
    | zero => exact fun _ _ _ => quiet_pure _
    | succ fuel ih =>
      intro off tot data
      unfold readLoop
      split
      · apply (quiet_bmap _).bind
        intro b
        refine quiet_step (by trivial) fun d => ?_
        dsimp only
        split
        · exact ih _ _ _
        · exact quiet_pure _
      · exact quiet_pure _
  refine quiet_step (by trivial) fun ip => ?_
  split
  · exact quiet_pure _
  · exact loop _ _ _ _ _

theorem quiet_writei (src : Source) (off n : UInt32) : Quiet (writei sb i src off n) := by
  have loop : ∀ fuel n off tot : ℕ, Quiet (writeLoop sb i src n fuel off tot) := by
    intro fuel n
    induction fuel with
    | zero => exact fun _ _ => quiet_pure _
    | succ fuel ih =>
      intro off tot
      unfold writeLoop
      split
      · apply (quiet_bmap _).bind
        intro b
        refine quiet_step (by trivial) fun _ => ?_
        split
        · exact ih _ _
        · exact quiet_pure _
      · exact quiet_pure _
  refine quiet_step (by trivial) fun ip => ?_
  split
  · exact quiet_pure _
  · split
    · exact quiet_pure _
    · apply (loop _ _ _ _).bind
      intro last
      split
      · exact quiet_pure _
      · apply Quiet.bind
        · exact quiet_step (by trivial) fun _ => quiet_step (by trivial) fun _ => quiet_act (by trivial)
        · exact fun _ => quiet_pure _

theorem quiet_readDirent (off : UInt32) : Quiet (readDirent sb i off) := by
  apply (quiet_readi _ _ _).bind
  intro r
  obtain ⟨tot, data⟩ := r
  dsimp only
  split
  · exact quiet_pure _
  · exact quiet_step (by trivial) fun _ => quiet_pure _

theorem quiet_writeDirent (off : UInt32) (de : Dirent) : Quiet (writeDirent sb i off de) := by
  apply (quiet_writei _ _ _).bind
  intro r
  split
  · exact quiet_pure _
  · exact quiet_act (by trivial)

/-! ### Locks and references -/

/-- A process in a call, outside of `iput` and the ends of pipes. -/
structure Calm (P : Proc) : Prop where
  putting : P.putting = none
  closing : P.closing = none
  page : P.page = none
  spent : P.spent = false

theorem Calm.take (calm : Calm P) : Calm (P.take i) := ⟨calm.putting, calm.closing, calm.page, calm.spent⟩

theorem Calm.give (calm : Calm P) : Calm (P.give i) := ⟨calm.putting, calm.closing, calm.page, calm.spent⟩

@[simp] theorem give_take (P : Proc) (i : Fin ninode) : (P.take i).give i = P := by
  unfold Proc.give Proc.take
  simp

@[simp] theorem give_take_take (P : Proc) (i j : Fin ninode) : ((P.take i).take j).give i = P.take j := by
  unfold Proc.give Proc.take
  by_cases same : j = i
  · subst same
    simp
  · have ne : i ≠ j := fun h => same h.symm
    simp only [Function.update_of_ne same, Function.update_of_ne ne, Function.update_self, Nat.add_sub_cancel]
    rw [Function.update_comm ne, Function.update_idem, Function.update_comm ne.symm, Function.update_eq_self]

theorem take_hand (P : Proc) (i : Fin ninode) : 0 < (P.take i).hand i := by
  rw [hand_take, if_pos rfl]
  omega

theorem Has.of_eq (has : Has t P L X s) (same : P = Q) : Has t Q L X s := same ▸ has

theorem putting_none (calm : P.putting = none) : { P with putting := none } = P := by rw [← calm]

theorem keeps_ilock (has : Has t P L X s) (reaches : Reaches P X i) (calm : P.putting = none) :
    Keeps sb t (ilock i) (fun _ s => i ∉ L ∧ Has t P (insert i L) X s) s := by
  have locks : Keeps sb t (act (.acquiresleep i)) (fun _ s => i ∉ L ∧ Has t P (insert i L) X s) s := by
    refine keeps_step has (by rintro _ ⟨⟩) (fun _ _ _ now frame => ⟨now.1, now.2.frame frame⟩) ?_
    intro x r y has inv run
    refine (acquired inv has reaches calm run).imp fun now => ⟨fun inside => ?_, now⟩
    simp only [exec] at run
    split at run
    · rename_i free
      rw [(has.lock i).mpr inside] at free
      cases free.2
    · cases run
  apply keeps_seq locks
  intro _ s' now
  apply keeps_quiet_bind (quiet_act (by trivial)) now.2
  intro ip s' has
  have quiet : Quiet (if ip.valid = false then act (.iload i) else pure ()) := by
    split
    · exact quiet_act (by trivial)
    · exact quiet_pure ()
  exact keeps_mono (keeps_quiet quiet has) fun _ _ _ has' => ⟨now.1, has'⟩

theorem keeps_iunlock (has : Has t P (insert i L) X s) (out : i ∉ L) (calm : P.putting = none) :
    Keeps sb t (iunlock i) (fun _ => Has t P L X) s := by
  have step : Keeps sb t (iunlock i) (fun _ => Has t P (insert i L \ {i}) X) s := keeps_releasesleep has i calm
  rwa [Set.insert_sdiff_self_of_notMem out] at step

theorem keeps_iput (has : Has t P L X s) (calm : P.putting = none) (pos : 0 < P.hand i) (two : i ∈ L → 2 ≤ P.hand i) :
    Keeps sb t (iput i) (fun _ => Has t (P.give i) L X) s := by
  apply keeps_seq (keeps_callIput has pos two)
  intro _ s₁ has₁
  apply keeps_seq (keeps_iput_test has₁ pos two)
  intro freed s₂ now
  cases freed with
  | false =>
    exact keeps_done Has.stable (now.of_eq (putting_none (P := P.give i) calm))
  | true =>
    obtain ⟨has₂, out⟩ : Has t { P with putting := none } (insert i L) X s₂ ∧ i ∉ L := now
    replace has₂ := has₂.of_eq (putting_none calm)
    simp only [if_true]
    apply keeps_quiet_bind quiet_itrunc has₂
    intro _ s₃ has₃
    apply keeps_quiet_bind (quiet_act (by trivial)) has₃
    intro _ s₄ has₄
    apply keeps_quiet_bind (quiet_act (by trivial)) has₄
    intro _ s₅ has₅
    apply keeps_quiet_bind (quiet_act (by trivial)) has₅
    intro _ s₆ has₆
    apply keeps_seq (keeps_iputUnlock has₆ calm (Set.mem_insert i L))
    intro _ s₇ has₇
    rw [Set.insert_sdiff_self_of_notMem out] at has₇
    apply keeps_mono (keeps_iputDrop has₇ pos two)
    intro _ s₈ _ has₈
    exact has₈.of_eq (putting_none (P := P.give i) calm)

theorem keeps_iunlockput (has : Has t P (insert i L) X s) (out : i ∉ L) (calm : P.putting = none) (pos : 0 < P.hand i) :
    Keeps sb t (iunlockput i) (fun _ => Has t (P.give i) L X) s := by
  apply keeps_seq (keeps_iunlock has out calm)
  intro _ s₁ has₁
  exact keeps_iput has₁ calm pos fun inside => absurd inside out

theorem keeps_ialloc (has : Has t P L X s) (dev : UInt32) (type : UInt16) :
    Keeps sb t (ialloc sb dev type) (fun i => Has t (P.take i) L X) s := by
  have from' : ∀ more inum s, Has t P L X s →
      Keeps sb t (iallocFrom dev type more inum) (fun i => Has t (P.take i) L X) s := by
    intro more
    induction more with
    | zero =>
      intro inum s has x frame inv
      exact ⟨nofun, fun r y run => by cases run⟩
    | succ more ih =>
      intro inum s has
      apply keeps_quiet_bind (quiet_act (by trivial)) has
      intro found s₁ has₁
      cases found with
      | false => exact ih _ _ has₁
      | true => exact keeps_iget has₁ dev inum
  exact from' _ _ s has

/-! ### Directories and paths -/

theorem quiet_lookupFrom (name : List UInt8) (size : UInt32) (fuel : ℕ) (off : UInt32) :
    Quiet (lookupFrom sb i name size fuel off) := by
  induction fuel generalizing off with
  | zero => exact quiet_pure _
  | succ fuel ih =>
    unfold lookupFrom
    split
    · apply (quiet_readDirent off).bind
      intro de
      split
      · exact quiet_pure _
      · exact ih _
    · exact quiet_pure _

theorem quiet_emptySlot (size : UInt32) (fuel : ℕ) (off : UInt32) : Quiet (emptySlot sb i size fuel off) := by
  induction fuel generalizing off with
  | zero => exact quiet_pure _
  | succ fuel ih =>
    unfold emptySlot
    split
    · apply (quiet_readDirent off).bind
      intro de
      split
      · exact quiet_pure _
      · exact ih _
    · exact quiet_pure _

/-- What a lookup leaves its caller with. -/
def Found (t : Tid) (P : Proc) (L : Set (Fin ninode)) (X : Fin nfile → File) : Option (Fin ninode × α) → Kernel → Prop
  | none => Has t P L X
  | some (i, _) => Has t (P.take i) L X

theorem Found.stable (r : Option (Fin ninode × α)) : Stable t (Found t P L X r) := by
  cases r <;> exact Has.stable

theorem keeps_panic {post : α → Kernel → Prop} {f : Unit → Code α} : Keeps sb t (act .panic >>= f) post s :=
  fun _ _ _ => ⟨nofun, fun _ _ run => by cases run⟩

theorem keeps_dirlookup {dp : Fin ninode} (has : Has t P L X s) (name : List UInt8) :
    Keeps sb t (dirlookup sb dp name) (Found t P L X) s := by
  apply keeps_quiet_bind (quiet_act (by trivial)) has
  intro d s₁ has₁
  split
  · apply keeps_quiet_bind (quiet_lookupFrom _ _ _ _) has₁
    intro entry s₂ has₂
    cases entry with
    | none => exact keeps_done (Found.stable none) has₂
    | some entry =>
      apply keeps_seq (keeps_iget has₂ d.dev entry.1.toUInt32)
      intro i s₃ has₃
      exact keeps_done (Found.stable (some (i, entry.2))) has₃
  · exact keeps_panic

theorem keeps_dirlink {dp : Fin ninode} (has : Has t P L X s) (calm : P.putting = none) (held : ∀ i ∈ L, 0 < P.hand i)
    (name : List UInt8) (inum : UInt32) : Keeps sb t (dirlink sb dp name inum) (fun _ => Has t P L X) s := by
  apply keeps_seq (keeps_dirlookup has name)
  intro r s₁ now
  cases r with
  | none =>
    have has₁ : Has t P L X s₁ := now
    apply keeps_quiet _ has₁
    refine quiet_step (by trivial) fun d => ?_
    exact (quiet_emptySlot _ _ _).bind fun off => (quiet_writeDirent _ _).bind fun _ => quiet_pure true
  | some entry =>
    have has₁ : Has t (P.take entry.1) L X s₁ := now
    apply keeps_seq (keeps_iput has₁ calm (take_hand P entry.1) ?_)
    · intro _ s₂ has₂
      rw [give_take] at has₂
      exact keeps_done Has.stable has₂
    · intro inside
      have one := held entry.1 inside
      rw [hand_take, if_pos rfl]
      omega

theorem keeps_walk (parent : Bool) (fuel : ℕ) (path name : List UInt8) (has : Has t (P.take i) ∅ X s)
    (calm : P.putting = none) : Keeps sb t (walk sb parent fuel i path name) (Found t P ∅ X) s := by
  induction fuel generalizing i path name s with
  | zero => exact keeps_panic
  | succ fuel ih =>
    unfold walk
    cases skipelem path with
    | none =>
      dsimp only
      split
      · apply keeps_seq (keeps_iput has calm (take_hand P i) (fun inside => absurd inside id))
        intro _ s₁ has₁
        rw [give_take] at has₁
        exact keeps_done (Found.stable none) has₁
      · exact keeps_done (Found.stable (some (i, name))) has
    | some elem =>
      obtain ⟨name, path⟩ := elem
      apply keeps_seq (keeps_ilock has (.inl (take_hand P i)) calm)
      intro _ s₁ now
      apply keeps_quiet_bind (quiet_act (by trivial)) now.2
      intro ip s₂ has₂
      split
      · apply keeps_seq (keeps_iunlockput has₂ now.1 calm (take_hand P i))
        intro _ s₃ has₃
        rw [give_take] at has₃
        exact keeps_done (Found.stable none) has₃
      · split
        · apply keeps_seq (keeps_iunlock has₂ now.1 calm)
          intro _ s₃ has₃
          exact keeps_done (Found.stable (some (i, name))) has₃
        · apply keeps_seq (keeps_dirlookup has₂ name)
          intro r s₃ found
          cases r with
          | none =>
            have has₃ : Has t (P.take i) (insert i ∅) X s₃ := found
            apply keeps_seq (keeps_iunlockput has₃ now.1 calm (take_hand P i))
            intro _ s₄ has₄
            rw [give_take] at has₄
            exact keeps_done (Found.stable none) has₄
          | some entry =>
            have has₃ : Has t ((P.take i).take entry.1) (insert i ∅) X s₃ := found
            have pos : 0 < ((P.take i).take entry.1).hand i := by
              rw [hand_take]
              exact (take_hand P i).trans_le (Nat.le_add_right _ _)
            apply keeps_seq (keeps_iunlockput has₃ now.1 calm pos)
            intro _ s₄ has₄
            rw [give_take_take] at has₄
            exact ih path name has₄

theorem keeps_cwd (has : Has t P L X s) :
    Keeps sb t (act .cwd) (fun i s => P.cwd = some i ∧ Has t P L X s) s := by
  refine keeps_step has (by nofun) (fun _ _ _ now frame => ⟨now.1, now.2.frame frame⟩) ?_
  intro x r y has inv run
  simp only [exec, has.proc] at run
  split at run
  · cases run
  · rename_i dir
    cases run
    exact ⟨inv, fun u _ => Frame.refl u x, dir, has⟩

theorem keeps_namex (has : Has t P ∅ X s) (calm : Calm P) (path : List UInt8) (parent : Bool) :
    Keeps sb t (namex sb path parent) (Found t P ∅ X) s := by
  unfold namex
  split
  · apply keeps_seq (keeps_iget has rootdev rootino)
    intro i s₁ has₁
    exact keeps_walk parent _ path [] has₁ calm.putting
  · apply keeps_seq (keeps_cwd has)
    intro i s₁ now
    have refers : 0 < procRef i P := by
      unfold procRef cwdRef
      rw [now.1, calm.spent, if_pos ⟨rfl, rfl⟩]
      omega
    apply keeps_seq (keeps_idup now.2 refers)
    intro _ s₂ has₂
    exact keeps_walk parent _ path [] has₂ calm.putting

theorem keeps_namei (has : Has t P ∅ X s) (calm : Calm P) (path : List UInt8) :
    Keeps sb t (namei sb path) (fun r => match r with
      | none => Has t P ∅ X
      | some i => Has t (P.take i) ∅ X) s := by
  apply keeps_seq (keeps_namex has calm path false)
  intro r s₁ now
  cases r with
  | none => exact keeps_done Has.stable now
  | some entry => exact keeps_done Has.stable now

theorem keeps_nameiparent (has : Has t P ∅ X s) (calm : Calm P) (path : List UInt8) :
    Keeps sb t (nameiparent sb path) (Found t P ∅ X) s := keeps_namex has calm path true

end Xv6Labs.Fs
