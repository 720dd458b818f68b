import Xv6Labs.Vm.SlotCalls

/-!
# All processes

The memory of the machine from boot on, under any sequence of calls. A page of memory is at one place: it is free, or
a table of the kernel, or a kernel stack, or a pipe, or one slot holds it. A call moves pages between the free list
and one holder.
-/

namespace Xv6Labs.Vm

open Faults

structure Machine where
  memory : Memory
  kernelPagetable : ℕ
  procs : Fin nproc → Held
  pipes : Finset ℕ

def Held.empty (pa : ℕ) : Held := ⟨0, 0, 0, 0, pa⟩

/-- What `main` does with memory. -/
def boot (m : Memory) : Except Fault Machine := do
  let (_, m) ← kinit m
  let (kernelPagetable, m) ← kvminit m
  let (kstacks, m) ← procinit kernelPagetable m
  let (p, m) ← userinit 0 (.empty (kstacks.getD 0 0)) m
  pure ⟨m, kernelPagetable, Function.update (fun i => .empty (kstacks.getD i.val 0)) 0 p, ∅⟩

/-- `exec` of a slot. What it sets of the trapframe is stored at the end. -/
def execSlot (p : Held) (path file : List UInt8) (argv : List (List UInt8)) : Code (ℤ × Held) := do
  let (argc, r) ← exec p.running path file argv
  onlyIf (argc ≠ -1) (do
    store (p.trapframe, Trapframe.a1) r.a1
    store (p.trapframe, Trapframe.epc) r.epc
    store (p.trapframe, Trapframe.sp) r.sp)
  pure (argc, { p with pagetable := r.pagetable, sz := r.sz })

/-- A store of a program to its memory; without the permission for it nothing is stored. -/
def userStore (root va : ℕ) (b : UInt8) : Code Unit := writes fun m =>
  if m.User root va ∧ m.pte root va &&& pteW ≠ 0 then
    m.setPage (m.frame root va) (setByte (m.page (m.frame root va)) (va % pgsize) b)
  else m

/-- The page of `pipealloc`. What is in a pipe is left open. -/
def pipealloc (data : Page) : Code (Option ℕ) := do
  let pi ← kalloc
  match pi with
  | none => pure none
  | some pi => do
    writes fun m => m.setPage pi data
    pure (some pi)

/-- What uses memory. `wait` is `freeproc` of slot `i`, which is a zombie, `store` and `trap` are what a process does
itself, and `others` is what other CPUs do to the coming calls of `kalloc`. -/
inductive Call where
  | fork (q i : Fin nproc)
  | exec (i : Fin nproc) (path file : List UInt8) (argv : List (List UInt8))
  | sbrk (i : Fin nproc) (n : ℤ)
  | wait (i : Fin nproc)
  | copyout (i : Fin nproc) (dstva : ℕ) (src : List UInt8)
  | store (i : Fin nproc) (va : ℕ) (b : UInt8)
  | trap (i : Fin nproc) (registers : Page)
  | pipealloc (data : Page)
  | pipewrite (pi : ℕ) (data : Page)
  | pipeclose (pi : ℕ)
  | others (refuse : ℕ → Bool)

/-- Where a page is. -/
inductive Place where
  | free
  | kernel
  | stack (i : Fin nproc)
  | pipe
  | slot (i : Fin nproc)
deriving DecidableEq

/-- The place that a call changes. -/
def Call.place : Call → Place
  | .fork _ i | .exec i _ _ _ | .sbrk i _ | .wait i | .copyout i _ _ | .store i _ _ | .trap i _ => .slot i
  | .pipealloc _ | .pipewrite _ _ | .pipeclose _ | .others _ => .pipe

namespace Machine

def put (s : Machine) (i : Fin nproc) (p : Held) (m : Memory) : Machine :=
  { s with memory := m, procs := Function.update s.procs i p }

def putPipes (s : Machine) (pipes : Finset ℕ) (m : Memory) : Machine := { s with memory := m, pipes := pipes }

def Uses (s : Machine) (i : Fin nproc) : Prop := (s.procs i).pagetable ≠ 0

instance (s : Machine) (i : Fin nproc) : Decidable (s.Uses i) := inferInstanceAs (Decidable (_ ≠ _))

/-- Whether the call has not returned -1, and the machine after it. -/
def call (s : Machine) : Call → Except Fault (Bool × Machine)
  | .fork q i => (fork (s.procs q) i (s.procs i) s.memory).map fun r => (r.1.1, s.put i r.1.2 r.2)
  | .exec i path file argv => (execSlot (s.procs i) path file argv s.memory).map fun r =>
      (decide (r.1.1 ≠ -1), s.put i r.1.2 r.2)
  | .sbrk i n => (growproc (s.procs i).proc n s.memory).map fun r =>
      (decide (r.1.1 ≠ -1), s.put i { s.procs i with sz := r.1.2.sz } r.2)
  | .wait i => (freeproc (s.procs i) s.memory).map fun r => (true, s.put i r.1 r.2)
  | .copyout i dstva src => (copyout (s.procs i).pagetable dstva src s.memory).map fun r =>
      (decide (r.1 ≠ -1), s.put i (s.procs i) r.2)
  | .store i va b => (userStore (s.procs i).pagetable va b s.memory).map fun r => (true, s.put i (s.procs i) r.2)
  | .trap i registers => .ok (true, s.put i (s.procs i) (s.memory.setPage (s.procs i).trapframe registers))
  | .pipealloc data => (Vm.pipealloc data s.memory).map fun r =>
      (r.1.isSome, s.putPipes (r.1.elim s.pipes fun pi => insert pi s.pipes) r.2)
  | .pipewrite pi data => .ok (true, s.putPipes s.pipes (s.memory.setPage pi data))
  | .pipeclose pi => (kfree pi s.memory).map fun r => (true, s.putPipes (s.pipes.erase pi) r.2)
  | .others refuse => .ok (true, s.putPipes s.pipes { s.memory with refuse := refuse })

/-- Who may make a call: a slot in use, and for `fork` there is one that is not. -/
def Allows (s : Machine) : Call → Prop
  | .fork q i => s.Uses q ∧ ¬ s.Uses i
  | .exec i _ file _ => s.Uses i ∧ file.length < 2 ^ 32
  | .sbrk i n => s.Uses i ∧ -2 ^ 31 ≤ n ∧ n < 2 ^ 31
  | .wait i | .copyout i _ _ | .store i _ _ | .trap i _ => s.Uses i
  | .pipealloc _ | .others _ => True
  | .pipewrite pi _ | .pipeclose pi => pi ∈ s.pipes

def pages (s : Machine) : Place → Set ℕ
  | .free => {x | x ∈ s.memory.free}
  | .kernel => s.memory.nodes s.kernelPagetable
  | .stack i => {(s.procs i).pa}
  | .pipe => {x | x ∈ s.pipes}
  | .slot i => if s.Uses i then s.memory.held (s.procs i) else ∅

/-- What `kernel_pagetable` maps. -/
def kernelMap (s : Machine) : List Region :=
  kernelRegions s.memory.image ++ (List.finRange nproc).map fun i : Fin nproc => stackRegion i.val (s.procs i).pa

end Machine

/-- From `s` to `t` by calls that return. -/
inductive Runs (s : Machine) : List Call → Machine → Prop where
  | start : Runs s [] s
  | step {calls : List Call} {t u : Machine} {c : Call} {done : Bool} (run : Runs s calls t) (allows : t.Allows c)
      (ran : t.call c = .ok (done, u)) : Runs s (calls ++ [c]) u

/-- Each page of memory is at one place. -/
structure Sound (s : Machine) : Prop where
  list : s.memory.Free
  kernel : MapsAll s.memory s.kernelPagetable s.kernelMap (insert 16 processBlocks)
  slots : ∀ i, s.Uses i → Slotted s.memory i (s.procs i)
  unused : ∀ i, ¬ s.Uses i → s.procs i = (s.procs i).cleared
  apart : ∀ x a b, x ∈ s.pages a → x ∈ s.pages b → a = b
  all : ∀ x, s.memory.Real x ↔ ∃ a, x ∈ s.pages a

variable {s t u : Machine} {m m' : Memory} {i j q : Fin nproc} {p p' : Held} {c : Call} {calls : List Call}
  {done : Bool} {a b : Place}

theorem put_self : (s.put i p m).procs i = p := Function.update_self ..

theorem put_of_ne (other : j ≠ i) : (s.put i p m).procs j = s.procs j := Function.update_of_ne other ..

theorem pages_slot (uses : s.Uses i) : s.pages (.slot i) = s.memory.held (s.procs i) := if_pos uses

theorem pages_unused (unused : ¬ s.Uses i) : s.pages (.slot i) = ∅ := if_neg unused

theorem Sound.stack_real (sound : Sound s) (i : Fin nproc) : s.memory.Real (s.procs i).pa :=
  (sound.all _).mpr ⟨.stack i, rfl⟩

theorem Sound.unused_slot (sound : Sound s) (unused : ¬ s.Uses i) : (s.procs i).Unused :=
  ⟨sound.unused i unused, (sound.stack_real i).aligned, (sound.stack_real i).phystop⟩

/-- From `s` to `t`, what `a` holds has changed. The rest is as before. -/
structure Swaps (s t : Machine) (a : Place) : Prop where
  trades : Trades s.memory t.memory (s.pages a) (t.pages a)
  root : t.kernelPagetable = s.kernelPagetable
  pa : ∀ j, (t.procs j).pa = (s.procs j).pa
  pipes : a ≠ .pipe → t.pipes = s.pipes
  procs : ∀ j, a ≠ .slot j → t.procs j = s.procs j
  slot : ∀ j, a = .slot j → t.Uses j → Slotted t.memory j (t.procs j)
  clear : ∀ j, a = .slot j → ¬ t.Uses j → t.procs j = (t.procs j).cleared
  holder : a = .pipe ∨ ∃ i, a = .slot i

/-- A place that is no part of the exchange. -/
def Place.Far (a b : Place) : Prop := b ≠ .free ∧ b ≠ a

theorem Swaps.stays (swaps : Swaps s t a) (sound : Sound s) (far : a.Far b) :
    ∀ x ∈ s.pages b, x ∉ t.memory.free ∧ x ∉ t.pages a ∧ t.memory.page x = s.memory.page x :=
  swaps.trades.stays (fun x mem there => far.1 (sound.apart x b .free mem there)) fun x mem there =>
    far.2 (sound.apart x b a mem there)

theorem Swaps.far_pages (swaps : Swaps s t a) (sound : Sound s) (far : a.Far b) : t.pages b = s.pages b := by
  have stays := swaps.stays sound far
  cases b with
  | free => exact absurd rfl far.1
  | kernel =>
    rw [Machine.pages, swaps.root]
    exact nodes_agree fun x mem => (stays x mem).2.2
  | stack j =>
    rw [Machine.pages, swaps.pa]
    rfl
  | pipe =>
    rw [Machine.pages, swaps.pipes far.2.symm]
    rfl
  | slot j =>
    have procs := swaps.procs j far.2.symm
    by_cases uses : s.Uses j
    · have uses' : t.Uses j := by rwa [Machine.Uses, procs]
      rw [pages_slot uses] at stays ⊢
      rw [pages_slot uses', procs]
      exact held_agree (fun x mem => (stays x (.inl (.inr (.inl mem)))).2.2) fun x mem => (stays x (.inr mem)).2.2
    · have uses' : ¬ t.Uses j := by rwa [Machine.Uses, procs]
      rw [pages_unused uses, pages_unused uses']

theorem Place.far_or (a b : Place) : a.Far b ∨ b = .free ∨ b = a := by
  by_cases free : b = .free
  · exact .inr (.inl free)
  · by_cases same : b = a
    · exact .inr (.inr same)
    · exact .inl ⟨free, same⟩

/-- What is free or at `a` after an exchange was so before it. -/
theorem Swaps.near (swaps : Swaps s t a) {x : ℕ} :
    (∃ b, (b = .free ∨ b = a) ∧ x ∈ t.pages b) ↔ ∃ b, (b = .free ∨ b = a) ∧ x ∈ s.pages b := by
  have pool := swaps.trades.pool x
  have near (u : Machine) : (∃ b, (b = .free ∨ b = a) ∧ x ∈ u.pages b) ↔ x ∈ u.memory.free ∨ x ∈ u.pages a := by
    constructor
    · rintro ⟨b, rfl | rfl, mem⟩
      · exact .inl mem
      · exact .inr mem
    · rintro (mem | mem)
      · exact ⟨.free, .inl rfl, mem⟩
      · exact ⟨a, .inr rfl, mem⟩
  rw [near, near, pool]

theorem Swaps.all (swaps : Swaps s t a) (sound : Sound s) {x : ℕ} : (∃ b, x ∈ t.pages b) ↔ ∃ b, x ∈ s.pages b := by
  constructor
  · rintro ⟨b, mem⟩
    rcases a.far_or b with far | near
    · exact ⟨b, by rwa [swaps.far_pages sound far] at mem⟩
    · obtain ⟨b', -, mem'⟩ := swaps.near.mp ⟨b, near, mem⟩
      exact ⟨b', mem'⟩
  · rintro ⟨b, mem⟩
    rcases a.far_or b with far | near
    · exact ⟨b, by rwa [swaps.far_pages sound far]⟩
    · obtain ⟨b', -, mem'⟩ := swaps.near.mpr ⟨b, near, mem⟩
      exact ⟨b', mem'⟩

theorem Swaps.apart (swaps : Swaps s t a) (sound : Sound s) {x : ℕ} {b b' : Place} (mem : x ∈ t.pages b)
    (mem' : x ∈ t.pages b') : b = b' := by
  have mixed {b b' : Place} (far : a.Far b) (near : b' = .free ∨ b' = a) (mem : x ∈ t.pages b)
      (mem' : x ∈ t.pages b') : False := by
    rw [swaps.far_pages sound far] at mem
    obtain ⟨b'', near', mem''⟩ := swaps.near.mp ⟨b', near, mem'⟩
    have same := sound.apart x b b'' mem mem''
    rcases near' with rfl | rfl
    · exact far.1 same
    · exact far.2 same
  rcases a.far_or b with far | near
  · rcases a.far_or b' with far' | near'
    · rw [swaps.far_pages sound far] at mem
      rw [swaps.far_pages sound far'] at mem'
      exact sound.apart x b b' mem mem'
    · exact (mixed far near' mem mem').elim
  · rcases a.far_or b' with far' | near'
    · exact (mixed far' near mem' mem).elim
    · rcases near with rfl | rfl <;> rcases near' with rfl | rfl
      · rfl
      · exact absurd mem (swaps.trades.apart x mem')
      · exact absurd mem' (swaps.trades.apart x mem)
      · rfl

theorem Swaps.kernel_far (swaps : Swaps s t a) : a.Far .kernel := by
  rcases swaps.holder with rfl | ⟨i, rfl⟩ <;> exact ⟨by simp, by simp⟩

theorem Swaps.kernelMap (swaps : Swaps s t a) : t.kernelMap = s.kernelMap := by
  simp only [Machine.kernelMap, swaps.pa, swaps.trades.image]

/-- A slot that the exchange is not about. -/
theorem Swaps.slotted (swaps : Swaps s t a) (sound : Sound s) (uses : s.Uses j) (other : a ≠ .slot j) :
    Slotted t.memory j (s.procs j) ∧ ∀ x ∈ s.memory.held (s.procs j), t.memory.page x = s.memory.page x := by
  have stays := swaps.stays sound (b := .slot j) ⟨by simp, other.symm⟩
  rw [pages_slot uses] at stays
  exact ⟨(sound.slots j uses).keep (fun x mem => (stays x (.inl (.inr (.inl mem)))).2.2)
    (fun x mem => (stays x (.inr mem)).2.2)
    swaps.trades.image fun x mem => (stays x mem).1, fun x mem => (stays x mem).2.2⟩

theorem Sound.swaps (sound : Sound s) (swaps : Swaps s t a) : Sound t := by
  refine ⟨swaps.trades.list, ?_, fun j uses => ?_, fun j unused => ?_, fun x b b' => swaps.apart sound, fun x => ?_⟩
  · have stays := swaps.stays sound swaps.kernel_far
    rw [swaps.root, swaps.kernelMap]
    exact sound.kernel.agree (fun x mem => (stays x mem).2.2) swaps.trades.image fun x mem => (stays x mem).1
  · by_cases same : a = .slot j
    · exact swaps.slot j same uses
    · rw [Machine.Uses, swaps.procs j same] at uses
      rw [swaps.procs j same]
      exact (swaps.slotted sound uses same).1
  · by_cases same : a = .slot j
    · exact swaps.clear j same unused
    · rw [Machine.Uses, swaps.procs j same] at unused
      rw [swaps.procs j same]
      exact sound.unused j unused
  · rw [swaps.all sound, ← sound.all]
    exact ⟨fun real => real.of_image swaps.trades.image.symm, fun real => real.of_image swaps.trades.image⟩

theorem put_swaps (trades : Trades s.memory m (s.pages (.slot i)) ((s.put i p m).pages (.slot i)))
    (pa : p.pa = (s.procs i).pa) (slot : p.pagetable ≠ 0 → Slotted m i p) (clear : p.pagetable = 0 → p = p.cleared) :
    Swaps s (s.put i p m) (.slot i) := by
  refine ⟨trades, rfl, fun j => ?_, fun _ => rfl, fun j other => ?_, ?_, ?_, .inr ⟨i, rfl⟩⟩
  · by_cases same : j = i
    · subst same
      rw [put_self, pa]
    · rw [put_of_ne same]
  · refine put_of_ne ?_
    rintro rfl
    exact other rfl
  · rintro j ⟨⟩ uses
    rw [Machine.Uses, put_self] at uses
    rw [put_self]
    exact slot uses
  · rintro j ⟨⟩ unused
    rw [Machine.Uses, put_self, not_not] at unused
    rw [put_self]
    exact clear unused

theorem putPipes_swaps {l : Finset ℕ} (trades : Trades s.memory m {x | x ∈ s.pipes} {x | x ∈ l}) :
    Swaps s (s.putPipes l m) .pipe :=
  ⟨trades, rfl, fun _ => rfl, fun wrong => absurd rfl wrong, fun _ _ => rfl, by simp, by simp, .inl rfl⟩

/-! ### One call -/

theorem put_held (nonzero : p.pagetable ≠ 0) : (s.put i p m).pages (.slot i) = m.held p := by
  have uses : (s.put i p m).Uses i := by rwa [Machine.Uses, put_self]
  rw [pages_slot uses, put_self]
  rfl

theorem put_empty (zero : p.pagetable = 0) : (s.put i p m).pages (.slot i) = ∅ := by
  refine pages_unused ?_
  rw [Machine.Uses, put_self]
  exact not_not.mpr zero

theorem Exchanges.swaps (exchanges : Exchanges s.memory m i (s.procs i) p) (uses : s.Uses i) :
    Swaps s (s.put i p m) (.slot i) := by
  have nonzero : p.pagetable ≠ 0 := exchanges.slot.whole.nonzero
  exact put_swaps (exchanges.trades.congr (pages_slot uses) (put_held nonzero)) exchanges.pa (fun _ => exchanges.slot)
    fun zero => absurd zero nonzero

theorem Forks.swaps (forks : Forks s.memory m i (s.procs q) (s.procs i) p) (unused : ¬ s.Uses i) :
    Swaps s (s.put i p m) (.slot i) := by
  have nonzero : p.pagetable ≠ 0 := forks.slot.whole.nonzero
  exact put_swaps (forks.trades.congr (pages_unused unused) (put_held nonzero)) forks.pa (fun _ => forks.slot)
    fun zero => absurd zero nonzero

/-- A call that has given back what it took. -/
theorem Sound.back (sound : Sound s) (unused : ¬ s.Uses i) (trades : Trades s.memory m ∅ ∅) :
    Swaps s (s.put i (s.procs i) m) (.slot i) :=
  put_swaps (trades.congr (pages_unused unused) (put_empty (not_not.mp unused))) rfl (fun uses => absurd uses unused)
    fun _ => sound.unused i unused

theorem fork_call (sound : Sound s) (allows : s.Allows (.fork q i)) :
    ((s.memory.Fails 0 ∨ ∀ k, k < 73 → ¬ s.memory.Fails k) ∧ ∃ done p m, s.call (.fork q i) = .ok (done, s.put i p m) ∧
      Swaps s (s.put i p m) (.slot i) ∧
      (done = false ∧ p = s.procs i ∧ Trades s.memory m ∅ ∅ ∧
        (∃ k, k < 76 + 3 * pagesOf (s.procs q).sz ∧ s.memory.Fails k) ∨
        done = true ∧ Forks s.memory m i (s.procs q) (s.procs i) p)) ∨
    ¬ s.memory.Fails 0 ∧ s.memory.Fails 1 ∧ s.call (.fork q i) = .error .null ∨
    ¬ s.memory.Fails 0 ∧ ¬ s.memory.Fails 1 ∧ (∃ k, 2 ≤ k ∧ k < 73 ∧ s.memory.Fails k) ∧
      s.call (.fork q i) = .error (.panic "Pvmmap") := by
  obtain ⟨uses, unused⟩ := allows
  rcases fork_spec (sound.slots q uses) sound.list i.isLt (sound.unused_slot unused) with
    ⟨condition, ⟨done, p⟩, m, ran, result⟩ | ⟨given, failed, ran⟩ | ⟨given, given', some, ran⟩
  · have called : s.call (.fork q i) = .ok (done, s.put i p m) := by
      rw [Machine.call, ran]
      rfl
    refine .inl ⟨condition, done, p, m, called, ?_⟩
    rcases result with ⟨same, trades, some⟩ | ⟨rfl, forks⟩
    · cases same
      exact ⟨sound.back unused trades, .inl ⟨rfl, rfl, trades, some⟩⟩
    · exact ⟨forks.swaps unused, .inr ⟨rfl, forks⟩⟩
  · refine .inr (.inl ⟨given, failed, ?_⟩)
    rw [Machine.call, ran]
    rfl
  · refine .inr (.inr ⟨given, given', some, ?_⟩)
    rw [Machine.call, ran]
    rfl

/-- The calls other than `fork` return. -/
def Returned (s : Machine) (c : Call) : Prop := ∃ done t, s.call c = .ok (done, t) ∧ Swaps s t c.place

theorem Exchanges.returned (done : Bool) (exchanges : Exchanges s.memory m i (s.procs i) p) (uses : s.Uses i)
    (place : c.place = .slot i) (ran : s.call c = .ok (done, s.put i p m)) : Returned s c :=
  ⟨done, _, ran, place ▸ exchanges.swaps uses⟩

theorem sbrk_call {n : ℤ} (sound : Sound s) (allows : s.Allows (.sbrk i n)) : Returned s (.sbrk i n) := by
  obtain ⟨uses, low, high⟩ := allows
  obtain ⟨r, m, ran, -, exchanges⟩ := growproc_exchanges (sound.slots i uses) sound.list low high
  refine exchanges.returned (decide (r.1 ≠ -1)) uses rfl ?_
  rw [Machine.call, ran]
  rfl

theorem wait_call (sound : Sound s) (allows : s.Allows (.wait i)) : Returned s (.wait i) := by
  have uses : s.Uses i := allows
  obtain ⟨r, m, ran, rfl, trades⟩ := freeproc_trades (sound.slots i uses) sound.list
  refine ⟨true, s.put i (s.procs i).cleared m, ?_,
    put_swaps (trades.congr (pages_slot uses) (put_empty rfl)) rfl ?_ fun _ => rfl⟩
  · rw [Machine.call, ran]
    rfl
  · exact fun nonzero => absurd rfl nonzero

/-- Above its pages a process has no permission. -/
theorem Whole.user {root n va : ℕ} (whole : Whole m root n) (user : m.User root va) : va < n * pgsize := by
  by_contra above
  by_cases below : va < trapframe
  · exact user.valid (whole.space.unmapped va (Nat.le_of_not_lt above) below)
  · exact user.user (whole.traps va (Nat.le_of_not_lt below) user.below).2

theorem Whole.users {root n : ℕ} (whole : Whole m root n) : Users m root := by
  have owned := whole.space.owned
  refine ⟨fun b user zero => ?_, fun a b user user' => ?_, fun b user => owned.apart b (by omega) (whole.user user)⟩
  · have low := owned.kend b (by omega) (whole.user user)
    have base := m.image.kernbase_lt
    omega
  · exact owned.distinct a b (by omega) (whole.user user) (by omega) (whole.user user')

/-- Pages of the process that are no tables may be written. -/
theorem Slotted.writes {slot : ℕ} (used : Slotted m slot p) (free : m.Free) (image : m'.image = m.image)
    (list : m'.free = m.free)
    (others : ∀ x, (∀ va, m.User p.pagetable va → x ≠ m.frame p.pagetable va) → m'.page x = m.page x) :
    Exchanges m m' slot p p := by
  have mem {va : ℕ} (user : m.User p.pagetable va) : m.frame p.pagetable va ∈ m.owns p.pagetable (pagesOf p.sz) :=
    .inr (mem_frames (by omega) (used.whole.user user))
  have same : ∀ x ∈ m.nodes p.pagetable, m'.page x = m.page x := fun x there => others x fun va user eq =>
    used.whole.users.apart va user (eq ▸ there)
  have same' : ∀ x ∈ m.nodes p.kpgtbl, m'.page x = m.page x := fun x there => others x fun va user eq =>
    used.apart _ (mem user) (eq ▸ there)
  have out : ∀ x ∈ m.held p, x ∉ m'.free := fun x there => list ▸ used.used x there
  have held := held_agree same same'
  refine ⟨used.keep same same' image out, ⟨free.of_same list image, image, fun x => ?_, fun x there => ?_,
    fun x _ off => ?_⟩, rfl⟩
  · rw [held, list]
  · exact out x (held ▸ there)
  · refine others x fun va user eq => off ?_
    rw [eq]
    exact .inl (.inr (mem user))

theorem copyout_call {dstva : ℕ} {src : List UInt8} (sound : Sound s) (allows : s.Allows (.copyout i dstva src)) :
    Returned s (.copyout i dstva src) := by
  have uses : s.Uses i := allows
  have used := sound.slots i uses
  have copies : Returns (copyout (s.procs i).pagetable dstva src) s.memory _ := copyout_spec used.whole.users
  obtain ⟨r, m, ran, n, -, put, -⟩ := copies
  refine (used.writes sound.list put.image put.free fun x off => ?_).returned (decide (r ≠ -1)) uses rfl ?_
  · exact put.others x fun k less => off _ (put.user k less)
  · rw [Machine.call, ran]
    rfl

theorem userStore_exchanges {slot : ℕ} (va : ℕ) (used : Slotted m slot p) (free : m.Free) (b : UInt8) :
    Returns (userStore p.pagetable va b) m fun _ m' => Exchanges m m' slot p p := by
  refine .writes ?_
  split
  case isTrue writable =>
    refine used.writes free rfl rfl fun x off => setPage_of_ne ?_
    exact off va writable.1
  case isFalse => exact ⟨used, Trades.refl free used.used, rfl⟩

theorem store_call {va : ℕ} {b : UInt8} (sound : Sound s) (allows : s.Allows (.store i va b)) :
    Returned s (.store i va b) := by
  have uses : s.Uses i := allows
  obtain ⟨r, m, ran, exchanges⟩ := userStore_exchanges va (sound.slots i uses) sound.list b
  refine exchanges.returned true uses rfl ?_
  rw [Machine.call, ran]
  rfl

theorem trap_call {registers : Page} (sound : Sound s) (allows : s.Allows (.trap i registers)) :
    Returned s (.trap i registers) := by
  have uses : s.Uses i := allows
  exact ((sound.slots i uses).trapframe_write sound.list registers).returned true uses rfl rfl

theorem trapframe_store {slot : ℕ} (first : Exchanges m m' slot p p') (w : Fin 512) (v : ℕ) :
    Exchanges m (m'.store (p'.trapframe, w) v) slot p p' :=
  first.trans (first.slot.trapframe_write first.trades.list _)

theorem execSlot_exchanges {slot : ℕ} {file : List UInt8} (path : List UInt8) (argv : List (List UInt8))
    (used : Slotted m slot p) (free : m.Free) (size : file.length < 2 ^ 32) :
    Returns (execSlot p path file argv) m fun r m' => Exchanges m m' slot p r.2 ∧
      (r.1 = -1 → r.2 = p ∧ Trades m m' ∅ ∅) := by
  refine .bind ((exec_exchanges used free path file argv size).mono ?_)
  rintro ⟨argc, r⟩ m₁ ⟨frame, exchanges, failing⟩
  dsimp only at exchanges failing ⊢
  by_cases failed : argc = -1
  · obtain ⟨rfl, trades⟩ := failing failed
    rw [onlyIf, if_neg (not_not.mpr failed)]
    exact .bind (.pure (.pure ⟨exchanges, fun _ => ⟨rfl, trades⟩⟩))
  · rw [onlyIf, if_pos failed]
    refine .bind (.bind (.writes (.bind (.writes (.writes (.pure ⟨?_, fun wrong => absurd wrong failed⟩))))))
    exact trapframe_store (trapframe_store (trapframe_store exchanges _ _) _ _) _ _

theorem exec_call {path file : List UInt8} {argv : List (List UInt8)} (sound : Sound s)
    (allows : s.Allows (.exec i path file argv)) :
    ∃ done p m, s.call (.exec i path file argv) = .ok (done, s.put i p m) ∧ Swaps s (s.put i p m) (.slot i) ∧
      (done = false → p = s.procs i ∧ Trades s.memory m ∅ ∅) := by
  obtain ⟨uses, size⟩ := allows
  obtain ⟨r, m, ran, exchanges, failing⟩ := execSlot_exchanges path argv (sound.slots i uses) sound.list size
  refine ⟨decide (r.1 ≠ -1), _, m, ?_, exchanges.swaps uses, fun failed => failing ?_⟩
  · rw [Machine.call, ran]
    rfl
  · simpa using failed

theorem Sound.pipes_out (sound : Sound s) : ∀ x ∈ {x | x ∈ s.pipes}, x ∉ s.memory.free :=
  fun x mem there => by cases sound.apart x .pipe .free mem there

theorem pipealloc_trades {C : Set ℕ} (free : m.Free) (out : ∀ x ∈ C, x ∉ m.free) (data : Page) :
    Returns (pipealloc data) m fun r m' => Trades m m' C (r.elim C fun pi => insert pi C) := by
  unfold pipealloc
  by_cases failed : m.Fails 0
  · refine .bind ⟨none, m.refused, congrArg Except.ok (kalloc_none failed), .pure ?_⟩
    exact ⟨free.of_same rfl rfl, rfl, fun _ => Iff.rfl, out, fun _ _ _ => rfl⟩
  · obtain ⟨f, rest, list, taken⟩ := kalloc_give failed
    refine .bind ⟨some f, _, congrArg Except.ok taken, .bind (.writes (.pure ?_))⟩
    have given := (give_trades free list).frame out fun x _ none => Set.notMem_empty x none
    have written := Trades.write given.list given.apart (.inl rfl) data
    exact (given.trans written).congr (Set.empty_union C).symm rfl

theorem pipealloc_call (sound : Sound s) (data : Page) : Returned s (.pipealloc data) := by
  obtain ⟨r, m, ran, trades⟩ := pipealloc_trades sound.list sound.pipes_out data
  refine ⟨r.isSome, s.putPipes (r.elim s.pipes fun pi => insert pi s.pipes) m, ?_, putPipes_swaps (trades.congr rfl ?_)⟩
  · rw [Machine.call, ran]
    rfl
  · cases r with
    | none => rfl
    | some pi => exact Finset.coe_insert pi s.pipes

theorem pipewrite_call {pi : ℕ} {data : Page} (sound : Sound s) (allows : s.Allows (.pipewrite pi data)) :
    Returned s (.pipewrite pi data) :=
  ⟨true, _, rfl, putPipes_swaps (Trades.write sound.list sound.pipes_out allows data)⟩

theorem pipeclose_call {pi : ℕ} (sound : Sound s) (allows : s.Allows (.pipeclose pi)) : Returned s (.pipeclose pi) := by
  have mem : pi ∈ s.pipes := allows
  have real := (sound.all pi).mpr ⟨.pipe, mem⟩
  have out : ∀ x ∈ {x | x ∈ s.pipes.erase pi}, x ∉ s.memory.free :=
    fun x there => sound.pipes_out x (Finset.mem_of_mem_erase there)
  obtain ⟨r, m, ran, freed⟩ := Freed.kfree real
  have only {x : ℕ} (same : x ∈ ({pi} : Set ℕ)) : x = pi := same
  have trades := freed.trades sound.list (fun x same => only same ▸ real) fun x same => only same ▸
    sound.pipes_out pi mem
  have kept := trades.frame out fun x there same => Finset.ne_of_mem_erase there (only same)
  refine ⟨true, s.putPipes (s.pipes.erase pi) m, ?_, putPipes_swaps (kept.congr ?_ (Set.empty_union _).symm)⟩
  · rw [Machine.call, ran]
    rfl
  · exact (congrArg _ (Finset.insert_erase mem)).symm.trans (Finset.coe_insert pi _)

theorem others_call {refuse : ℕ → Bool} (sound : Sound s) : Returned s (.others refuse) :=
  ⟨true, _, rfl, putPipes_swaps ⟨sound.list.of_same rfl rfl, rfl, fun _ => Iff.rfl, sound.pipes_out, fun _ _ _ => rfl⟩⟩

theorem Sound.returned (sound : Sound s) (allows : s.Allows c) (other : ∀ q i, c ≠ .fork q i) : Returned s c := by
  cases c with
  | fork q i => exact absurd rfl (other q i)
  | exec i path file argv =>
    obtain ⟨done, p, m, ran, swaps, -⟩ := exec_call sound allows
    exact ⟨done, _, ran, swaps⟩
  | sbrk i n => exact sbrk_call sound allows
  | wait i => exact wait_call sound allows
  | copyout i dstva src => exact copyout_call sound allows
  | store i va b => exact store_call sound allows
  | trap i registers => exact trap_call sound allows
  | pipealloc data => exact pipealloc_call sound data
  | pipewrite pi data => exact pipewrite_call sound allows
  | pipeclose pi => exact pipeclose_call sound allows
  | others refuse => exact others_call sound

/-- A call that returns changes what one place holds. -/
theorem Sound.call (sound : Sound s) (allows : s.Allows c) (ran : s.call c = .ok (done, t)) : Swaps s t c.place := by
  by_cases fork : ∃ q i, c = .fork q i
  · obtain ⟨q, i, rfl⟩ := fork
    rcases fork_call sound allows with ⟨-, done', p, m, ran', swaps, -⟩ | ⟨-, -, failed⟩ | ⟨-, -, -, failed⟩
    · cases ran.symm.trans ran'
      exact swaps
    · cases ran.symm.trans failed
    · cases ran.symm.trans failed
  · obtain ⟨done', t', ran', swaps⟩ := sound.returned allows fun q i same => fork ⟨q, i, same⟩
    cases ran.symm.trans ran'
    exact swaps

theorem Sound.runs (sound : Sound s) (run : Runs s calls t) : Sound t := by
  induction run with
  | start => exact sound
  | step run allows ran ih => exact ih.swaps (ih.call allows ran)

end Xv6Labs.Vm
