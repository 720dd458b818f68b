import Xv6Labs.Fs.RefRules

/-!
# Files, pipes and processes

The rules for actions on the file table, on descriptors and pipes, and for `fork` and `exit`.
-/

namespace Xv6Labs.Fs

open Threads Prog

variable {s s' : Kernel} {t u : Tid} {sb : Superblock} {α : Type} {P : Proc} {L : Set (Fin ninode)}
  {X : Fin nfile → File}

/-! ### A process that changes its own record -/

theorem recorded {p : Proc} (inv : RefInv s) (has : Has t P L X s) (runs : p.state = .running)
    (child : p.child = P.child) (refs : ∀ i, procRef i p = procRef i P) (fds : ∀ f, fdRef f p = fdRef f P)
    (closing : p.closing = P.closing) (page : p.page = P.page) (hand : ∀ i ∈ L, 0 < P.hand i → 0 < p.hand i)
    (calm : p.putting = none) : Does t s (s.setProc t p) (Has t p L X) := by
  have l : Local t s (s.setProc t p) := .own (p := p) has runs child rfl (fun _ _ _ => Iff.rfl) fun _ _ _ _ => rfl
  have mine : (s.setProc t p).proc t = p := Function.update_self _ _ _
  refine ⟨?_, fun u ne => l.frame inv.proc ne, mine, runs, has.lock, fun f refers => has.kind f (fds f ▸ refers)⟩
  apply l.inodes inv rfl rfl
  · intro f
    rw [mine, has.proc]
    exact fds f
  · rw [mine, has.proc]
    exact closing
  · rw [mine, has.proc]
    exact page
  · intro i
    rw [mine, has.proc, refs i]
    rfl
  · exact inv.inode.distinct
  · intro i held
    rcases inv.lock.used i t held with used | ⟨f, refers, file⟩
    · apply Or.inl
      rw [has.proc] at used
      rw [mine]
      exact hand i ((has.lock i).mp held) used
    · refine Or.inr ⟨f, ?_, file⟩
      rw [has.proc] at refers
      rw [mine, fds]
      exact refers
  · intro i put
    rw [mine, calm] at put
    cases put

theorem keeps_takeCwd (has : Has t P L X s) (whole : P.spent = false) (calm : P.putting = none) :
    Keeps sb t (act .takeCwd) (fun i => Has t { P.take i with spent := true } L X) s := by
  refine keeps_step has (by nofun) (fun _ => Has.stable) ?_
  intro x r y has inv run
  simp only [exec, has.proc] at run
  cases dir : P.cwd with
  | none =>
    rw [dir] at run
    cases run
  | some i =>
    rw [dir] at run
    cases run
    refine recorded inv has has.running rfl (fun j => ?_) (fun f => rfl) rfl rfl (fun j _ pos => ?_) calm
    · have change := hand_take P r j
      unfold procRef cwdRef
      rw [dir, whole]
      change (P.take r).hand j + _ = _
      by_cases same : j = r
      · subst same
        rw [if_pos rfl] at change
        simp [Proc.take]
      · have ne : r ≠ j := fun h => same h.symm
        rw [if_neg same] at change
        simp [Proc.take, dir, ne, same]
    · change 0 < (P.take r).hand j
      rw [hand_take]
      omega

theorem keeps_setCwd {i : Fin ninode} (has : Has t P ∅ X s) (spent : P.spent = true) (pos : 0 < P.hand i)
    (calm : P.putting = none) :
    Keeps sb t (act (.setCwd (some i))) (fun _ => Has t { P.give i with cwd := some i, spent := false } ∅ X) s := by
  refine keeps_step has (by nofun) (fun _ => Has.stable) ?_
  intro x r y has inv run
  simp only [exec, has.proc] at run
  cases run
  refine recorded inv has has.running rfl (fun j => ?_) (fun f => rfl) rfl rfl (fun j inside => absurd inside id) calm
  have change := hand_give P i j
  unfold procRef cwdRef
  rw [spent]
  change (P.give i).hand j + _ = _
  by_cases same : j = i
  · subst same
    rw [if_pos rfl] at change
    simp
    omega
  · have ne : i ≠ j := fun h => same h.symm
    rw [if_neg same] at change
    simp [ne]
    omega

theorem keeps_clearCwd (has : Has t P ∅ X s) (spent : P.spent = true) (calm : P.putting = none) :
    Keeps sb t (act (.setCwd none)) (fun _ => Has t { P with cwd := none, spent := false } ∅ X) s := by
  refine keeps_step has (by nofun) (fun _ => Has.stable) ?_
  intro x r y has inv run
  simp only [exec, has.proc] at run
  cases run
  refine recorded inv has has.running rfl (fun j => ?_) (fun f => rfl) rfl rfl (fun j inside => absurd inside id) calm
  unfold procRef cwdRef
  rw [spent]
  simp

/-! ### Descriptors -/

theorem slots_setFd (P : Proc) (fd : Fin nofile) (o : Option (Fin nfile)) (c : Bool) (f : Fin nfile) :
    ∑ d, slotRef f ((P.setFd fd o c).slot d) + slotRef f (P.slot fd) =
      ∑ d, slotRef f (P.slot d) + slotRef f (o, c) := by
  have same : (P.setFd fd o c).slot = Function.update P.slot fd (o, c) := by
    funext d
    unfold Proc.slot Proc.setFd
    by_cases h : d = fd
    · subst h
      simp
    · simp [h]
  have sums := Log.sum_update (slotRef f) P.slot fd (o, c)
  rwa [← same] at sums

theorem fdRef_takeFile (P : Proc) (f g : Fin nfile) : fdRef g (P.takeFile f) = fdRef g P + if g = f then 1 else 0 := by
  have slots : (P.takeFile f).slot = P.slot := rfl
  unfold fdRef
  rw [slots]
  by_cases h : g = f
  · subst h
    simp only [Proc.takeFile, Function.update_self, if_true]
    omega
  · simp only [Proc.takeFile, Function.update_of_ne h, if_neg h]
    omega

theorem fdRef_giveFile {P : Proc} {f : Fin nfile} (pos : 0 < P.files f) (g : Fin nfile) :
    fdRef g (P.giveFile f) + (if g = f then 1 else 0) = fdRef g P := by
  have slots : (P.giveFile f).slot = P.slot := rfl
  unfold fdRef
  rw [slots]
  by_cases h : g = f
  · subst h
    simp only [Proc.giveFile, Function.update_self, if_true]
    omega
  · simp only [Proc.giveFile, Function.update_of_ne h, if_neg h]
    omega

theorem fdRef_setFd (P : Proc) (fd : Fin nofile) (o : Option (Fin nfile)) (c : Bool) (f : Fin nfile) :
    fdRef f (P.setFd fd o c) + slotRef f (P.slot fd) = fdRef f P + slotRef f (o, c) := by
  have sums := slots_setFd P fd o c f
  have files : (P.setFd fd o c).files = P.files := rfl
  unfold fdRef
  rw [files]
  omega

theorem slotRef_some (f g : Fin nfile) : slotRef g (some f, true) = if g = f then 1 else 0 := by
  unfold slotRef
  by_cases h : g = f
  · simp [h]
  · have ne : f ≠ g := fun same => h same.symm
    simp [h, ne]

theorem slotRef_uncounted (f : Fin nfile) (o : Option (Fin nfile)) : slotRef f (o, false) = 0 := by simp [slotRef]

theorem slotRef_none (f : Fin nfile) (c : Bool) : slotRef f (none, c) = 0 := by simp [slotRef]

theorem keeps_fdalloc (has : Has t P L X s) {f : Fin nfile} (pos : 0 < P.files f) (calm : P.putting = none) :
    Keeps sb t (act (.fdalloc f true)) (fun r => match r with
      | none => Has t P L X
      | some fd => fun s => P.ofile fd = none ∧ Has t ((P.giveFile f).setFd fd (some f) true) L X s) s := by
  refine keeps_step has (by nofun) (fun r => ?_) ?_
  · cases r with
    | none => exact Has.stable
    | some fd => exact fun _ _ now frame => ⟨now.1, now.2.frame frame⟩
  intro x r y has inv run
  simp only [exec, Kernel.fdalloc, has.proc] at run
  split at run
  · cases run
    exact ⟨inv, fun u _ => Frame.refl u x, has⟩
  · rename_i fd found
    cases run
    have empty := List.find?_some found
    simp only [decide_eq_true_eq] at empty
    have step : Does t x (x.setProc t ((P.giveFile f).setFd fd (some f) true))
        (Has t ((P.giveFile f).setFd fd (some f) true) L X) := by
      refine recorded inv has has.running rfl (fun _ => rfl) (fun g => ?_) rfl rfl (fun _ _ pos => pos) calm
      have change := fdRef_setFd (P.giveFile f) fd (some f) true g
      have given := fdRef_giveFile pos g
      have none : slotRef g ((P.giveFile f).slot fd) = 0 := by
        change slotRef g (P.ofile fd, P.counted fd) = 0
        rw [empty, slotRef_none]
      rw [slotRef_some, none] at change
      omega
    exact ⟨step.1, step.2.1, empty, step.2.2⟩

theorem keeps_fdalloc_shared (has : Has t P L X s) {f : Fin nfile} (calm : P.putting = none) :
    Keeps sb t (act (.fdalloc f false)) (fun r => match r with
      | none => Has t P L X
      | some fd => fun s => P.ofile fd = none ∧ Has t (P.setFd fd (some f) false) L X s) s := by
  refine keeps_step has (by nofun) (fun r => ?_) ?_
  · cases r with
    | none => exact Has.stable
    | some fd => exact fun _ _ now frame => ⟨now.1, now.2.frame frame⟩
  intro x r y has inv run
  simp only [exec, Kernel.fdalloc, has.proc, Bool.false_eq_true, if_false] at run
  split at run
  · cases run
    exact ⟨inv, fun u _ => Frame.refl u x, has⟩
  · rename_i fd found
    cases run
    have empty := List.find?_some found
    simp only [decide_eq_true_eq] at empty
    have step : Does t x (x.setProc t (P.setFd fd (some f) false)) (Has t (P.setFd fd (some f) false) L X) := by
      refine recorded inv has has.running rfl (fun _ => rfl) (fun g => ?_) rfl rfl (fun _ _ pos => pos) calm
      have change := fdRef_setFd P fd (some f) false g
      have none : slotRef g (P.slot fd) = 0 := by
        change slotRef g (P.ofile fd, P.counted fd) = 0
        rw [empty, slotRef_none]
      rw [slotRef_uncounted, none] at change
      omega
    exact ⟨step.1, step.2.1, empty, step.2.2⟩

/-- A descriptor loses its reference to a variable. -/
theorem fdRef_moved {fd : Fin nofile} {f : Fin nfile} (slot : P.slot fd = (some f, true)) (o : Option (Fin nfile))
    (c : Bool) (none : ∀ g, slotRef g (o, c) = 0) (g : Fin nfile) :
    fdRef g ((P.takeFile f).setFd fd o c) = fdRef g P := by
  have change := fdRef_setFd (P.takeFile f) fd o c g
  have taken := fdRef_takeFile P f g
  have old : (P.takeFile f).slot fd = (some f, true) := slot
  rw [old, none, slotRef_some] at change
  omega

theorem keeps_takeFd (has : Has t P L X s) {fd : Fin nofile} (counted : ∀ f, P.ofile fd = some f → P.counted fd = true)
    (calm : P.putting = none) :
    Keeps sb t (act (.takeFd fd)) (fun r s => r = P.ofile fd ∧ match r with
      | none => Has t P L X s
      | some f => Has t ((P.takeFile f).setFd fd (some f) false) L X s) s := by
  refine keeps_step has (by nofun) (fun r => ?_) ?_
  · cases r with
    | none => exact fun _ _ now frame => ⟨now.1, now.2.frame frame⟩
    | some f => exact fun _ _ now frame => ⟨now.1, now.2.frame frame⟩
  intro x r y has inv run
  simp only [exec, Kernel.takeFd, has.proc] at run
  cases slot : P.ofile fd with
  | none =>
    rw [slot] at run
    cases run
    exact ⟨inv, fun u _ => Frame.refl u x, rfl, has⟩
  | some f =>
    have owns := counted f slot
    rw [slot, owns] at run
    cases run
    have step : Does t x (x.setProc t ((P.takeFile f).setFd fd (some f) false))
        (Has t ((P.takeFile f).setFd fd (some f) false) L X) := by
      refine recorded inv has has.running rfl (fun _ => rfl) ?_ rfl rfl (fun _ _ pos => pos) calm
      apply fdRef_moved
      · unfold Proc.slot
        rw [slot, owns]
      · exact fun g => slotRef_uncounted g _
    exact ⟨step.1, step.2.1, rfl, step.2.2⟩

theorem keeps_clearFd (has : Has t P L X s) {fd : Fin nofile} {f : Fin nfile} (slot : P.ofile fd = some f)
    (counted : P.counted fd = true) (calm : P.putting = none) :
    Keeps sb t (act (.clearFd fd)) (fun _ => Has t ((P.takeFile f).setFd fd none false) L X) s := by
  refine keeps_step has (by nofun) (fun _ => Has.stable) ?_
  intro x r y has inv run
  simp only [exec, Kernel.clearFd, has.proc, slot, counted] at run
  cases run
  refine recorded inv has has.running rfl (fun _ => rfl) ?_ rfl rfl (fun _ _ pos => pos) calm
  apply fdRef_moved
  · unfold Proc.slot
    rw [slot, counted]
  · exact fun g => slotRef_none g _

/-- `exit` forgets a descriptor whose reference it has already given up. -/
theorem keeps_dropFd (has : Has t P L X s) {fd : Fin nofile} (uncounted : P.counted fd = false)
    (calm : P.putting = none) :
    Keeps sb t (act (.clearFd fd)) (fun _ => Has t (P.setFd fd none false) L X) s := by
  refine keeps_step has (by nofun) (fun _ => Has.stable) ?_
  intro x r y has inv run
  have same : x.clearFd t fd = x.setProc t (P.setFd fd none false) := by
    unfold Kernel.clearFd
    simp only [has.proc, uncounted, Bool.false_eq_true, if_false]
    cases P.ofile fd with
    | none => rfl
    | some f => rfl
  simp only [exec, same] at run
  cases run
  refine recorded inv has has.running rfl (fun _ => rfl) (fun g => ?_) rfl rfl (fun _ _ pos => pos) calm
  have change := fdRef_setFd P fd none false g
  have old : slotRef g (P.slot fd) = 0 := by
    change slotRef g (P.ofile fd, P.counted fd) = 0
    rw [uncounted, slotRef_uncounted]
  rw [old, slotRef_none] at change
  omega

/-! ### The file table -/

theorem fd_le_ref (inv : RefInv s) (t : Tid) (f : Fin nfile) : fdRef f (s.proc t) ≤ (s.file f).ref := by
  rw [inv.file.refs]
  exact Finset.single_le_sum (f := fun u => fdRef f (s.proc u)) (fun _ _ => Nat.zero_le _) (Finset.mem_univ t)

theorem two_fds_le (inv : RefInv s) {f : Fin nfile} (ne : u ≠ t) :
    fdRef f (s.proc u) + fdRef f (s.proc t) ≤ (s.file f).ref := by
  rw [inv.file.refs]
  unfold fileRefs
  have sum := Finset.add_sum_erase Finset.univ (fun v => fdRef f (s.proc v)) (Finset.mem_univ t)
  have le := Finset.single_le_sum (f := fun v => fdRef f (s.proc v)) (fun _ _ => Nat.zero_le _)
    (Finset.mem_erase.mpr ⟨ne, Finset.mem_univ u⟩)
  omega

/-- A file without a type belongs to the process that has allocated it. -/
theorem no_other (inv : RefInv s) (has : Has t P L X s) {f : Fin nfile} (refers : 0 < fdRef f P)
    (last : (s.file f).ref ≤ 1) (ne : u ≠ t) : fdRef f (s.proc u) = 0 := by
  have le := two_fds_le inv (f := f) ne
  rw [has.proc] at le
  omega

theorem Has.update {x : File} {f : Fin nfile} (has : Has t P L X s) (kind : (s.file f).kind = x.kind) :
    Has t P L (Function.update X f x) s := by
  refine ⟨has.proc, has.running, has.lock, fun g refers => ?_⟩
  by_cases same : g = f
  · subst same
    rw [Function.update_self, kind]
  · rw [Function.update_of_ne same]
    exact has.kind g refers

/-- A step of the count of one file, which keeps its kind. -/
theorem counts {f : Fin nfile} {n : ℕ} {p : Proc} (inv : RefInv s) (has : Has t P L X s)
    (runs : p.state = .running) (child : p.child = P.child) (hand : p.hand = P.hand) (cwd : p.cwd = P.cwd)
    (spent : p.spent = P.spent) (putting : p.putting = P.putting) (closing : p.closing = P.closing)
    (page : p.page = P.page) (refs : ∀ g, (if g = f then n else (s.file g).ref) + fdRef g P =
      (s.file g).ref + fdRef g p)
    (typed : n = 0 → (s.file f).type = .none) (untyped : (s.file f).type = .none → n ≤ 1)
    (used : ∀ i ∈ L, 0 < P.hand i ∨ ∀ g, 0 < fdRef g P → 0 < fdRef g p) :
    Does t s ((s.setFile f { s.file f with ref := n }).setProc t p) (Has t p L (Function.update X f (s.file f))) := by
  have kinds : ∀ g, (((s.setFile f { s.file f with ref := n }).setProc t p).file g).kind = (s.file g).kind := by
    intro g
    by_cases same : g = f
    · subst same
      simp only [Kernel.setProc, Kernel.setFile, Function.update_self]
      rfl
    · simp only [Kernel.setProc, Kernel.setFile, Function.update_of_ne same]
  have ref : ∀ g, (((s.setFile f { s.file f with ref := n }).setProc t p).file g).ref =
      if g = f then n else (s.file g).ref := by
    intro g
    by_cases same : g = f
    · subst same
      simp only [Kernel.setProc, Kernel.setFile, Function.update_self, if_true]
    · simp only [Kernel.setProc, Kernel.setFile, Function.update_of_ne same, if_neg same]
  have l : Local t s ((s.setFile f { s.file f with ref := n }).setProc t p) :=
    .own (p := p) has runs child rfl (fun _ _ _ => Iff.rfl) fun _ _ g _ => kinds g
  have mine : ((s.setFile f { s.file f with ref := n }).setProc t p).proc t = p := Function.update_self _ _ _
  refine ⟨?_, fun u ne => l.frame inv.proc ne, mine, runs, has.lock, fun g refers => ?_⟩
  · apply l.files inv rfl rfl rfl
    · rw [mine, has.proc, hand]
    · rw [mine, has.proc, cwd]
    · rw [mine, has.proc, spent]
    · rw [mine, has.proc, putting]
    · rw [mine, has.proc, closing]
    · rw [mine, has.proc, page]
    · exact kinds
    · intro g
      rw [mine, has.proc, ref]
      exact refs g
    · intro g
      rw [ref, kind_type (kinds g)]
      by_cases same : g = f
      · rw [if_pos same, same]
        exact typed
      · rw [if_neg same]
        exact inv.file.unused g
    · intro g
      rw [ref, kind_type (kinds g)]
      by_cases same : g = f
      · rw [if_pos same, same]
        exact untyped
      · rw [if_neg same]
        exact inv.file.untyped g
    · intro i held
      unfold Uses
      rw [mine, hand]
      rcases used i ((has.lock i).mp held) with pos | grows
      · exact .inl pos
      · rcases inv.lock.used i t held with pos | ⟨g, refers, file⟩
        · rw [has.proc] at pos
          exact .inl pos
        · rw [has.proc] at refers
          exact .inr ⟨g, grows g refers, (kind_hasInode (kinds g) i).mpr file⟩
  · rw [kinds]
    by_cases same : g = f
    · subst same
      rw [Function.update_self]
    · rw [Function.update_of_ne same]
      apply has.kind
      have change := refs g
      rw [if_neg same] at change
      omega

theorem keeps_filealloc (has : Has t P L X s) :
    Keeps sb t (act .filealloc) (fun r => match r with
      | none => Has t P L X
      | some f => fun s => fdRef f P = 0 ∧ ∃ x, x.type = .none ∧
          Has t (P.takeFile f) L (Function.update X f x) s) s := by
  refine keeps_step has (by rintro _ ⟨⟩) (fun r => ?_) ?_
  · cases r with
    | none => exact Has.stable
    | some f =>
      intro _ _ now frame
      obtain ⟨zero, x, type, has⟩ := now
      exact ⟨zero, x, type, has.frame frame⟩
  intro x r y has inv run
  simp only [exec, Kernel.filealloc, has.proc] at run
  split at run
  · cases run
    exact ⟨inv, fun u _ => Frame.refl u x, has⟩
  · rename_i f found
    cases run
    have free := List.find?_some found
    simp only [decide_eq_true_eq] at free
    have le := fd_le_ref inv t f
    rw [has.proc] at le
    have step := counts (f := f) (n := 1) (p := P.takeFile f) inv has has.running rfl rfl rfl rfl rfl
      rfl rfl (fun g => ?_) (by rintro ⟨⟩) (fun _ => le_rfl) (fun i _ => .inr fun g pos => ?_)
    · exact ⟨step.1, step.2.1, by omega, x.file f, inv.file.unused f free, step.2.2⟩
    · rw [fdRef_takeFile]
      by_cases same : g = f
      · subst same
        rw [if_pos rfl, if_pos rfl]
        omega
      · rw [if_neg same, if_neg same]
        omega
    · rw [fdRef_takeFile]
      omega

theorem fdRef_counted {fd : Fin nofile} {f : Fin nfile} (slot : P.ofile fd = some f) (fresh : P.counted fd = false)
    (g : Fin nfile) :
    fdRef g { P with counted := Function.update P.counted fd true } = fdRef g P + if g = f then 1 else 0 := by
  have change := fdRef_setFd P fd (some f) true g
  have same : P.setFd fd (some f) true = { P with counted := Function.update P.counted fd true } := by
    unfold Proc.setFd
    rw [← slot, Function.update_eq_self]
  have old : slotRef g (P.slot fd) = 0 := by
    change slotRef g (P.ofile fd, P.counted fd) = 0
    rw [fresh, slotRef_uncounted]
  rw [same, old, slotRef_some] at change
  omega

/-- One more reference to a file that is open. -/
theorem counted_again {f : Fin nfile} {p : Proc} (inv : RefInv s) (has : Has t P L X s)
    (typed : (X f).type ≠ .none) (refers : 0 < fdRef f P)
    (runs : p.state = .running) (child : p.child = P.child) (hand : p.hand = P.hand) (cwd : p.cwd = P.cwd)
    (spent : p.spent = P.spent) (putting : p.putting = P.putting) (closing : p.closing = P.closing)
    (page : p.page = P.page) (grows : ∀ g, fdRef g p = fdRef g P + if g = f then 1 else 0) :
    Does t s ((s.setFile f { s.file f with ref := (s.file f).ref + 1 }).setProc t p) (Has t p L X) := by
  have open' : (s.file f).type ≠ .none := by
    rw [kind_type (has.kind f refers)]
    exact typed
  have step := counts (f := f) (n := (s.file f).ref + 1) inv has runs child hand cwd spent putting closing page
    (fun g => ?_) nofun (fun none => absurd none open') (fun i _ => .inr fun g pos => ?_)
  · refine ⟨step.1, step.2.1, step.2.2.proc, step.2.2.running, step.2.2.lock, fun g pos => ?_⟩
    rw [step.2.2.kind g pos]
    by_cases same : g = f
    · subst same
      rw [Function.update_self]
      exact has.kind g refers
    · rw [Function.update_of_ne same]
  · rw [grows]
    by_cases same : g = f
    · subst same
      rw [if_pos rfl, if_pos rfl]
      omega
    · rw [if_neg same, if_neg same]
      omega
  · rw [grows]
    omega

theorem keeps_filedup_slot (has : Has t P L X s) {f : Fin nfile} {fd : Fin nofile} (slot : P.ofile fd = some f)
    (fresh : P.counted fd = false) (refers : 0 < fdRef f P) (typed : (X f).type ≠ .none) :
    Keeps sb t (act (.filedup f (some fd)))
      (fun _ => Has t { P with counted := Function.update P.counted fd true } L X) s := by
  refine keeps_step has (by nofun) (fun _ => Has.stable) ?_
  intro x r y has inv run
  simp only [exec, Kernel.filedup, has.proc] at run
  split at run
  · cases run
  · cases run
    exact counted_again inv has typed refers has.running rfl rfl rfl rfl rfl rfl rfl (fdRef_counted slot fresh)

/-- The sums over files after one of them changed. -/
theorem sum_files (s : Kernel) (f : Fin nfile) (x : File) (p : Proc) (g : File → ℕ) :
    ∑ h, g (((s.setFile f x).setProc t p).file h) + g (s.file f) = ∑ h, g (s.file h) + g x :=
  Log.sum_update g s.file f x

/-- A file with no other owner gets a new kind. -/
theorem Local.sole {f : Fin nfile} {x : File} {p : Proc} (inv : RefInv s) (has : Has t P L X s) (refers : 0 < fdRef f P)
    (last : (s.file f).ref ≤ 1) (runs : p.state = .running) (child : p.child = P.child) :
    Local t s ((s.setFile f x).setProc t p) := by
  refine .own (p := p) has runs child rfl (fun _ _ _ => Iff.rfl) fun u ne g pos => ?_
  have ne' : g ≠ f := by
    intro same
    have none := no_other inv has refers last ne
    rw [same] at pos
    omega
  simp only [Kernel.setProc, Kernel.setFile, Function.update_of_ne ne']

/-- What the process has after it closed the last reference to a file. -/
def closed (P : Proc) (x : File) : Proc :=
  match x.type with
  | .none => P
  | .pipe => { P with closing := some (x.pipe, x.writable) }
  | .inode | .device => P.take x.ip

section Closed

variable (P) (x : File)

theorem closed_state : (closed P x).state = P.state := by
  unfold closed
  cases x.type <;> rfl

theorem closed_child : (closed P x).child = P.child := by
  unfold closed
  cases x.type <;> rfl

theorem closed_page : (closed P x).page = P.page := by
  unfold closed
  cases x.type <;> rfl

theorem closed_putting : (closed P x).putting = P.putting := by
  unfold closed
  cases x.type <;> rfl

theorem closed_fdRef (f : Fin nfile) : fdRef f (closed P x) = fdRef f P := by
  unfold closed
  cases x.type <;> rfl

theorem closed_hand (i : Fin ninode) : P.hand i ≤ (closed P x).hand i := by
  unfold closed
  cases x.type with
  | none => exact le_rfl
  | pipe => exact le_rfl
  | inode =>
    have taken := hand_take P x.ip i
    simp only
    omega
  | device =>
    have taken := hand_take P x.ip i
    simp only
    omega

theorem closed_procRef (i : Fin ninode) : procRef i (closed P x) = procRef i P + fileRef i x := by
  obtain ⟨type, ref, readable, writable, pipe, ip, off, major⟩ := x
  cases type with
  | none => rfl
  | pipe => rfl
  | inode =>
    have taken := procRef_take P ip i
    simp only [closed, fileRef, File.HasInode, true_or, true_and, taken]
    exact congrArg _ (if_congr eq_comm rfl rfl)
  | device =>
    have taken := procRef_take P ip i
    simp only [closed, fileRef, File.HasInode, or_true, true_and, taken]
    exact congrArg _ (if_congr eq_comm rfl rfl)

theorem closed_closeRef (open' : P.closing = none) (pi : Page) (w : Bool) :
    closeRef pi w (closed P x) = endRef pi w x := by
  unfold closed closeRef endRef
  cases x.type with
  | none => simp [open']
  | pipe => simp
  | inode => simp [Proc.take, open']
  | device => simp [Proc.take, open']

end Closed

theorem closed_last {f : Fin nfile} (inv : RefInv s) (has : Has t P L X s) (pos : 0 < P.files f)
    (last : (s.file f).ref = 1) (open' : P.closing = none) (calm : P.putting = none) (held : ∀ i ∈ L, 0 < P.hand i) :
    Does t s ((s.setFile f { s.file f with ref := 0, type := .none }).setProc t (closed (P.giveFile f) (s.file f)))
      (Has t (closed (P.giveFile f) (s.file f)) L X) := by
  have given := fdRef_giveFile pos
  have refers : 0 < fdRef f P := pos.trans_le (Nat.le_add_right _ _)
  have le := fd_le_ref inv t f
  rw [has.proc] at le
  have l : Local t s ((s.setFile f { s.file f with ref := 0, type := .none }).setProc t
      (closed (P.giveFile f) (s.file f))) := by
    apply Local.sole inv has refers last.le
    · rw [closed_state]
      exact has.running
    · rw [closed_child]
      rfl
  have mine : ((s.setFile f { s.file f with ref := 0, type := .none }).setProc t
      (closed (P.giveFile f) (s.file f))).proc t = closed (P.giveFile f) (s.file f) := Function.update_self _ _ _
  have other : ∀ g, g ≠ f → ((s.setFile f { s.file f with ref := 0, type := .none }).setProc t
      (closed (P.giveFile f) (s.file f))).file g = s.file g := fun g ne => Function.update_of_ne ne _ _
  have self : ((s.setFile f { s.file f with ref := 0, type := .none }).setProc t
      (closed (P.giveFile f) (s.file f))).file f = { s.file f with ref := 0, type := .none } :=
    Function.update_self _ _ _
  refine ⟨⟨⟨fun i => ?_, inv.inode.distinct⟩, ?_, ⟨fun pi w => ?_, fun pi => ?_, inv.pipe.freed, fun g => ?_⟩, ?_,
    l.procInv inv.proc⟩, fun u ne => l.frame inv.proc ne, mine, ?_, has.lock, fun g refers' => ?_⟩
  · have before := inv.inode.refs i
    have procs := l.sum (procRef i)
    have files := sum_files (t := t) s f { s.file f with ref := 0, type := .none }
      (closed (P.giveFile f) (s.file f)) (fileRef i)
    have zero : fileRef i { s.file f with ref := 0, type := .none } = 0 := by simp [fileRef, File.HasInode]
    have same : procRef i (P.giveFile f) = procRef i P := rfl
    rw [mine, has.proc, closed_procRef, same] at procs
    unfold inodeRefs at before ⊢
    change (s.inode i).ref = _
    omega
  · apply l.fileInv inv.file
    · intro g
      have change := given g
      rw [mine, has.proc, closed_fdRef]
      by_cases same : g = f
      · subst same
        rw [self]
        rw [if_pos rfl] at change
        change 0 + _ = _
        omega
      · rw [other g same]
        rw [if_neg same] at change
        omega
    · intro g
      by_cases same : g = f
      · subst same
        rw [self]
        exact fun _ => rfl
      · rw [other g same]
        exact inv.file.unused g
    · intro g
      by_cases same : g = f
      · subst same
        rw [self]
        exact fun _ => Nat.zero_le 1
      · rw [other g same]
        exact inv.file.untyped g
  · have before := inv.pipe.opened pi w
    have procs := l.sum (closeRef pi w)
    have files := sum_files (t := t) s f { s.file f with ref := 0, type := .none } (closed (P.giveFile f) (s.file f))
      (endRef pi w)
    have zero : endRef pi w { s.file f with ref := 0, type := .none } = 0 := by simp [endRef]
    have none : closeRef pi w P = 0 := by simp [closeRef, open']
    rw [mine, has.proc, closed_closeRef (P.giveFile f) (s.file f) open'] at procs
    unfold ends at before ⊢
    change ((s.pipe pi).opened w).toNat = _
    omega
  · have before := inv.pipe.pages pi
    have procs := l.sum (pageRef pi)
    have same : pageRef pi (closed (P.giveFile f) (s.file f)) = pageRef pi P := by
      unfold pageRef
      rw [closed_page]
      rfl
    rw [mine, has.proc, same] at procs
    change (s.pipe pi).allocated.toNat = _ + ((s.pipe pi).readopen || (s.pipe pi).writeopen).toNat
    omega
  · by_cases same : g = f
    · subst same
      rw [self]
      nofun
    · rw [other g same]
      exact inv.pipe.ways g
  · apply l.lockInv inv.lock
    · intro i locked
      apply Or.inl
      rw [mine]
      have hand := held i ((has.lock i).mp locked)
      exact hand.trans_le (closed_hand (P.giveFile f) (s.file f) i)
    · intro i put
      rw [mine, closed_putting] at put
      change P.putting = some i at put
      rw [calm] at put
      cases put
  · rw [closed_state]
    exact has.running
  · rw [closed_fdRef] at refers'
    have change := given g
    have ne : g ≠ f := by
      intro same
      subst same
      rw [if_pos rfl] at change
      omega
    rw [other g ne]
    apply has.kind
    omega

theorem keeps_fileclose_drop (has : Has t P L X s) {f : Fin nfile} (pos : 0 < P.files f) (open' : P.closing = none)
    (calm : P.putting = none) (held : ∀ i ∈ L, 0 < P.hand i) :
    Keeps sb t (act (.fileclose f)) (fun r => match r with
      | none => Has t (P.giveFile f) L X
      | some x => fun s => x.kind = (X f).kind ∧ Has t (closed (P.giveFile f) x) L X s) s := by
  refine keeps_step has (by nofun) (fun r => ?_) ?_
  · cases r with
    | none => exact Has.stable
    | some x => exact fun _ _ now frame => ⟨now.1, now.2.frame frame⟩
  intro x r y has inv run
  have refers : 0 < fdRef f P := pos.trans_le (Nat.le_add_right _ _)
  have given := fdRef_giveFile pos
  simp only [exec, Kernel.fileclose, has.proc] at run
  split at run
  · cases run
  · split at run
    · rename_i more
      cases run
      have step := counts (f := f) (n := (x.file f).ref - 1)
        (p := P.giveFile f) inv has has.running rfl rfl rfl rfl rfl rfl rfl
        (fun g => ?_) (fun zero => by omega) (fun none => ?_) (fun i inside => .inl (held i inside))
      · refine ⟨step.1, step.2.1, step.2.2.proc, step.2.2.running, step.2.2.lock, fun g refers' => ?_⟩
        rw [step.2.2.kind g refers']
        by_cases same : g = f
        · subst same
          rw [Function.update_self]
          exact has.kind g refers
        · rw [Function.update_of_ne same]
      · have change := given g
        by_cases same : g = f
        · subst same
          rw [if_pos rfl] at change ⊢
          omega
        · rw [if_neg same] at change ⊢
          omega
      · have few := inv.file.untyped f none
        omega
    · rename_i some' last
      have one : (x.file f).ref = 1 := by omega
      cases run
      obtain ⟨inv', others, has'⟩ := closed_last inv has pos one open' calm held
      exact ⟨inv', others, has.kind f refers, has'⟩

/-- `sys_open` gives its reference to an inode to the file. -/
theorem opened_file {f : Fin nfile} {x : File} {i : Fin ninode} (inv : RefInv s) (has : Has t P L X s)
    (refers : 0 < fdRef f P) (untyped : (X f).type = .none) (pos : 0 < P.hand i) (calm : P.putting = none)
    (ref : x.ref = (s.file f).ref) (file : x.HasInode i) :
    Does t s ((s.setFile f x).setProc t (P.give i)) (Has t (P.give i) L (Function.update X f x)) := by
  have none : (s.file f).type = .none := (kind_type (has.kind f refers)).trans untyped
  have last := inv.file.untyped f none
  have l : Local t s ((s.setFile f x).setProc t (P.give i)) := Local.sole inv has refers last has.running rfl
  have mine : ((s.setFile f x).setProc t (P.give i)).proc t = P.give i := Function.update_self _ _ _
  have other : ∀ g, g ≠ f → ((s.setFile f x).setProc t (P.give i)).file g = s.file g :=
    fun g ne => Function.update_of_ne ne _ _
  have self : ((s.setFile f x).setProc t (P.give i)).file f = x := Function.update_self _ _ _
  have noPipe : x.type ≠ .pipe := by
    intro pipe
    have type := file.1
    rw [pipe] at type
    simp at type
  have typed : x.type ≠ .none := by
    intro zero
    have type := file.1
    rw [zero] at type
    simp at type
  refine ⟨⟨⟨fun j => ?_, inv.inode.distinct⟩, ?_, ?_, ?_, l.procInv inv.proc⟩, fun u ne => l.frame inv.proc ne, mine,
    has.running, has.lock, fun g refers' => ?_⟩
  · have before := inv.inode.refs j
    have procs := l.sum (procRef j)
    have files := sum_files (t := t) s f x (P.give i) (fileRef j)
    have zero : fileRef j (s.file f) = 0 := by simp [fileRef, File.HasInode, none]
    have given := procRef_give pos j
    have one : fileRef j x = if j = i then 1 else 0 := by
      unfold fileRef
      apply if_congr _ rfl rfl
      constructor
      · intro has'
        exact has'.2.symm.trans file.2
      · intro same
        exact ⟨file.1, file.2.trans same.symm⟩
    rw [mine, has.proc] at procs
    unfold inodeRefs at before ⊢
    change (s.inode j).ref = _
    omega
  · apply l.fileInv inv.file
    · intro g
      have same : fdRef g (P.give i) = fdRef g P := rfl
      rw [mine, has.proc, same]
      by_cases same : g = f
      · subst same
        rw [self, ref]
      · rw [other g same]
    · intro g
      by_cases same : g = f
      · subst same
        rw [self, ref]
        intro zero
        have le := fd_le_ref inv t g
        rw [has.proc] at le
        omega
      · rw [other g same]
        exact inv.file.unused g
    · intro g
      by_cases same : g = f
      · subst same
        rw [self, ref]
        exact fun _ => last
      · rw [other g same]
        exact inv.file.untyped g
  · apply l.pipeInv inv.pipe rfl
    · intro pi w g
      by_cases same : g = f
      · subst same
        rw [self]
        simp [endRef, none, noPipe]
      · rw [other g same]
    · rw [mine, has.proc]
      rfl
    · rw [mine, has.proc]
      rfl
    · intro g
      by_cases same : g = f
      · subst same
        rw [self]
        exact fun pipe => absurd pipe noPipe
      · rw [other g same]
        exact inv.pipe.ways g
  · apply l.lockInv inv.lock
    · intro j held
      by_cases same : j = i
      · subst same
        refine Or.inr ⟨f, ?_, ?_⟩
        · rw [mine]
          exact refers
        · rw [self]
          exact file
      · rcases inv.lock.used j t held with hand | ⟨g, refers', file'⟩
        · apply Or.inl
          rw [has.proc] at hand
          rw [mine, hand_give, if_neg same]
          exact hand
        · have ne : g ≠ f := by
            intro same'
            have type := file'.1
            rw [same', none] at type
            simp at type
          refine Or.inr ⟨g, ?_, ?_⟩
          · rw [mine]
            rw [has.proc] at refers'
            exact refers'
          · rw [other g ne]
            exact file'
    · intro j put
      rw [mine] at put
      change P.putting = some j at put
      rw [calm] at put
      cases put
  · by_cases same : g = f
    · subst same
      rw [self, Function.update_self]
    · rw [other g same, Function.update_of_ne same]
      exact has.kind g refers'

theorem keeps_setFile (has : Has t P L X s) {f : Fin nfile} {i : Fin ninode} (refers : 0 < fdRef f P)
    (untyped : (X f).type = .none) (pos : 0 < P.hand i) (calm : P.putting = none) (omode : UInt32) :
    Keeps sb t (act (.setFile f i omode))
      (fun _ s => ∃ x, x.HasInode i ∧ Has t (P.give i) L (Function.update X f x) s) s := by
  refine keeps_step has (by nofun) (fun _ _ _ now frame => ?_) ?_
  · obtain ⟨x, file, has⟩ := now
    exact ⟨x, file, has.frame frame⟩
  intro x r y has inv run
  simp only [exec, Kernel.openFile, has.proc] at run
  cases run
  by_cases device : (x.inode i).type = tDevice
  · rw [if_pos device]
    refine (opened_file inv has refers untyped pos calm ?_ ?_).imp fun now => ⟨_, ?_, now⟩
    · rfl
    · exact ⟨.inr rfl, rfl⟩
    · exact ⟨.inr rfl, rfl⟩
  · rw [if_neg device]
    refine (opened_file inv has refers untyped pos calm ?_ ?_).imp fun now => ⟨_, ?_, now⟩
    · rfl
    · exact ⟨.inl rfl, rfl⟩
    · exact ⟨.inl rfl, rfl⟩

end Xv6Labs.Fs
