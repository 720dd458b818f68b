import Xv6Labs.Vm.Machine

/-!
# From boot on

`kinit` frees all the memory behind the kernel, and 216 of these pages are needed to boot. What holds then holds
after any calls: no page is lost, a kernel page table of a process differs from the kernel's own only where it must,
and no process changes another.
-/

namespace Xv6Labs.Vm

open Faults

variable {m m' : Memory} {s t u : Machine} {i j q : Fin nproc} {c : Call} {calls : List Call} {spare : ℕ}

/-! ### kinit -/

theorem freerangeFrom_spec (start : ℕ) {fuel p : ℕ} (free : m.Free) (mem : ∀ x, x ∈ m.free ↔ m.Real x ∧ x < p)
    (aligned : p % pgsize = 0)
    (low : m.image.kend ≤ p) (le : p ≤ phystop) (count : start + m.free.length * pgsize = p)
    (enough : phystop - p < fuel) :
    Returns (freerangeFrom phystop fuel p) m fun _ m' => m'.Free ∧ m'.image = m.image ∧ m'.refuse = m.refuse ∧
      (∀ x, x ∈ m'.free ↔ m.Real x) ∧ start + m'.free.length * pgsize = phystop := by
  induction fuel generalizing m p with
  | zero => exact absurd enough (Nat.not_lt_zero _)
  | succ fuel ih =>
    have size : pgsize = 4096 := rfl
    have top : phystop = 0x88000000 := rfl
    unfold freerangeFrom
    by_cases more : p + pgsize ≤ phystop
    · have real : m.Real p := ⟨aligned, low, by omega⟩
      have only {x : ℕ} (same : x ∈ ({p} : Set ℕ)) : x = p := same
      have out {x : ℕ} (same : x ∈ ({p} : Set ℕ)) : x ∉ m.free := fun there => by
        have below := ((mem x).mp there).2
        have := only same
        omega
      rw [if_pos more]
      refine .bind ((Freed.kfree real).mono fun _ m₁ freed => ?_)
      have trades := freed.trades free (fun x same => only same ▸ real) fun x same => out same
      have mem₁ (x : ℕ) : x ∈ m₁.free ↔ m₁.Real x ∧ x < p + pgsize := by
        have pool := trades.pool x
        rw [Set.mem_empty_iff_false, or_false, Set.mem_singleton_iff, mem] at pool
        rw [pool]
        constructor
        · rintro (⟨there, below⟩ | rfl)
          · exact ⟨there.of_image trades.image, by omega⟩
          · exact ⟨real.of_image trades.image, by omega⟩
        · rintro ⟨there, below⟩
          have real' : m.Real x := there.of_image trades.image.symm
          have := real'.aligned
          rw [size] at this aligned below
          obtain rfl | less : x = p ∨ x < p := by omega
          · exact .inr rfl
          · exact .inl ⟨real', less⟩
      have length : m₁.free.length = m.free.length + 1 := by
        rw [freed.free, List.length_append, List.length_singleton, Nat.add_comm]
      have aligned₁ : (p + pgsize) % pgsize = 0 := by rw [Nat.add_mod_right, aligned]
      refine (ih trades.list mem₁ aligned₁ ?_ more ?_ (by omega)).mono ?_
      · rw [trades.image]
        omega
      · rw [length, Nat.succ_mul, ← count]
        omega
      · rintro - m₂ ⟨free₂, image₂, refuse₂, mem₂, count₂⟩
        refine ⟨free₂, image₂.trans trades.image, refuse₂.trans freed.refuse, fun x => ?_, count₂⟩
        rw [mem₂]
        exact ⟨fun real => real.of_image trades.image.symm, fun real => real.of_image trades.image⟩
    · have last : p = phystop := by
        rw [size] at aligned more
        omega
      rw [if_neg more]
      refine .pure ⟨free, rfl, rfl, fun x => ?_, by rw [count, last]⟩
      rw [mem]
      exact ⟨fun there => there.1, fun real => ⟨real, last ▸ real.phystop⟩⟩

/-- Memory before `kinit`, with `spare` pages more than the kernel needs to boot. -/
structure Memory.Bare (m : Memory) (spare : ℕ) : Prop where
  empty : m.free = []
  ram : m.image.kend + (216 + spare) * pgsize ≤ phystop
  granted : ∀ k, k < 216 + spare → m.refuse k = false

theorem Memory.Bare.kinit (bare : m.Bare spare) : Returns kinit m fun _ m' =>
    m'.Free ∧ m'.image = m.image ∧ (∀ x, x ∈ m'.free ↔ m.Real x) ∧ ∀ k, k < 216 + spare → ¬ m'.Fails k := by
  obtain ⟨empty, ram, granted⟩ := bare
  have size : pgsize = 4096 := rfl
  have top : phystop = 0x88000000 := rfl
  have start : pgroundup m.image.kend % pgsize = 0 := Nat.mul_mod_left ..
  have bounds : m.image.kend ≤ pgroundup m.image.kend ∧ pgroundup m.image.kend < m.image.kend + pgsize := by
    rw [size] at ram
    rw [pgroundup, wrap, Nat.mod_eq_of_lt (by omega), size]
    omega
  have below : pgroundup m.image.kend ≤ phystop := by
    rw [size] at ram bounds
    omega
  have free : m.Free := by constructor <;> rw [empty] <;> simp
  have none (x : ℕ) : x ∈ m.free ↔ m.Real x ∧ x < pgroundup m.image.kend := by
    rw [empty]
    constructor
    · exact fun there => absurd there List.not_mem_nil
    · rintro ⟨real, less⟩
      have aligned := real.aligned
      have low := real.kend
      rw [size] at aligned start bounds
      omega
  have rounds : phystop - pgroundup m.image.kend < Vm.rounds := by
    have : Vm.rounds = 2 ^ 53 := rfl
    omega
  refine .bind (.reads ((freerangeFrom_spec (pgroundup m.image.kend) free none start bounds.1 below ?_ rounds).mono ?_))
  · rw [empty, List.length_nil, Nat.zero_mul, Nat.add_zero]
  rintro - m' ⟨free', image, refuse, mem, count⟩
  refine ⟨free', image, mem, fun k less => ?_⟩
  rintro (refused | few)
  · rw [refuse, granted k less] at refused
    exact Bool.false_ne_true refused
  · rw [size] at count ram bounds
    omega

/-! ### boot -/

theorem mapIdx_getD {l : List ℕ} {n : ℕ} (f : ℕ → ℕ → Region) (length : l.length = n) :
    l.mapIdx f = (List.finRange n).map fun i : Fin n => f i.val (l.getD i.val 0) := by
  subst length
  refine List.ext_getElem (by simp) fun k small _ => ?_
  simp

/-- The machine once `procinit` has run. -/
def booting (m : Memory) (root : ℕ) (pas : List ℕ) : Machine := ⟨m, root, fun i => .empty (pas.getD i.val 0), ∅⟩

theorem booting_sound {m₀ : Memory} {root : ℕ} {tables pas : List ℕ} (free : m₀.Free)
    (mem : ∀ x, x ∈ m₀.free ↔ m₀.Real x)
    (boots : Boots m₀ m root tables pas) (length : pas.length = nproc) : Sound (booting m root pas) := by
  have nodup := free.nodup
  rw [boots.free, List.nodup_append, List.nodup_append] at nodup
  obtain ⟨-, ⟨nodup', -, apart'⟩, apart⟩ := nodup
  have stack (i : Fin nproc) : pas.getD i.val 0 ∈ pas := by
    rw [List.getD_eq_getElem _ _ (by rw [length]; exact i.isLt)]
    exact List.getElem_mem _
  have inj {i j : Fin nproc} (same : pas.getD i.val 0 = pas.getD j.val 0) : i = j := by
    rw [List.getD_eq_getElem _ _ (by rw [length]; exact i.isLt),
      List.getD_eq_getElem _ _ (by rw [length]; exact j.isLt)] at same
    exact Fin.ext (nodup'.getElem_inj_iff.mp same)
  have places {x : ℕ} {a : Place} (there : x ∈ (booting m root pas).pages a) :
      a = .free ∧ x ∈ m.free ∨ a = .kernel ∧ x ∈ tables ∨ ∃ i : Fin nproc, a = .stack i ∧ x = pas.getD i.val 0 := by
    cases a with
    | free => exact .inl ⟨rfl, there⟩
    | kernel => exact .inr (.inl ⟨rfl, by rwa [Machine.pages, booting, boots.nodes] at there⟩)
    | stack i => exact .inr (.inr ⟨i, rfl, there⟩)
    | pipe => exact absurd there (Finset.notMem_empty x)
    | slot i => exact absurd there (by rw [pages_unused (not_not.mpr rfl)]; exact Set.notMem_empty x)
  refine ⟨boots.list, ?_, fun i uses => absurd rfl uses, fun i _ => rfl, fun x a b here there => ?_, fun x => ?_⟩
  · have map : (booting m root pas).kernelMap = kernelRegions m₀.image ++ pas.mapIdx stackRegion := by
      rw [mapIdx_getD stackRegion length, ← boots.image]
      rfl
    rw [map]
    exact boots.maps
  · rcases places here with ⟨rfl, mem⟩ | ⟨rfl, mem⟩ | ⟨i, rfl, rfl⟩
    · rcases places there with ⟨rfl, -⟩ | ⟨rfl, mem'⟩ | ⟨j, rfl, rfl⟩
      · rfl
      · exact absurd rfl (apart x mem' x (List.mem_append_right _ mem))
      · exact absurd rfl (apart' _ (stack j) _ mem)
    · rcases places there with ⟨rfl, mem'⟩ | ⟨rfl, -⟩ | ⟨j, rfl, rfl⟩
      · exact absurd rfl (apart x mem x (List.mem_append_right _ mem'))
      · rfl
      · exact absurd rfl (apart _ mem _ (List.mem_append_left _ (stack j)))
    · rcases places there with ⟨rfl, mem'⟩ | ⟨rfl, mem'⟩ | ⟨j, rfl, same⟩
      · exact absurd rfl (apart' _ (stack i) _ mem')
      · exact absurd rfl (apart _ mem' _ (List.mem_append_left _ (stack i)))
      · rw [inj same]
  · have real : m.Real x ↔ x ∈ tables ++ (pas ++ m.free) := by
      rw [← boots.free, mem]
      exact ⟨fun real => real.of_image boots.image.symm, fun real => real.of_image boots.image⟩
    change m.Real x ↔ _
    rw [real, List.mem_append, List.mem_append]
    constructor
    · rintro (there | there | there)
      · exact ⟨.kernel, by rwa [Machine.pages, booting, boots.nodes]⟩
      · obtain ⟨k, small, rfl⟩ := List.getElem_of_mem there
        exact ⟨.stack ⟨k, length ▸ small⟩, (List.getD_eq_getElem _ _ small).symm⟩
      · exact ⟨.free, there⟩
    · rintro ⟨a, there⟩
      rcases places there with ⟨-, there⟩ | ⟨-, there⟩ | ⟨i, -, rfl⟩
      · exact .inr (.inr there)
      · exact .inl there
      · exact .inr (.inl (stack i))

theorem Memory.Bare.boot (bare : m.Bare spare) :
    ∃ s, boot m = .ok s ∧ Sound s ∧ (∀ i, s.Uses i ↔ i = 0) ∧ (s.procs 0).sz = pgsize ∧ ∀ k, k < spare →
      ¬ s.memory.Fails k := by
  obtain ⟨done, m₁, ran₁, free₁, image₁, mem₁, given⟩ := bare.kinit
  obtain ⟨root, m₂, ran₂, nonzero, tables, boots⟩ := kvminit_boots free₁ fun k less => given k (by omega)
  have given₂ (k : ℕ) (less : k < nproc) : ¬ m₂.Fails k := by
    have : nproc = 64 := rfl
    rw [boots.fails]
    exact given _ (by rw [List.length_nil]; omega)
  obtain ⟨pas, m₃, ran₃, length, boots'⟩ := procinit_boots boots given₂
  have mem (x : ℕ) : x ∈ m₁.free ↔ m₁.Real x := by
    rw [mem₁]
    exact ⟨fun real => real.of_image image₁, fun real => real.of_image image₁.symm⟩
  have sound := booting_sound free₁ mem boots' length
  have given₃ (k : ℕ) (less : k < 79) : ¬ m₃.Fails k := by
    have : nproc = 64 := rfl
    rw [boots'.fails]
    exact given _ (by omega)
  have unused : ¬ (booting m₃ root pas).Uses 0 := not_not.mpr rfl
  obtain ⟨p, m₄, ran₄, slot, trades, pa, sz, n, few, spends⟩ :=
    userinit_spec sound.list (i := (0 : Fin nproc).val) (Fin.isLt 0) (sound.unused_slot unused) given₃
  have nonzero' : p.pagetable ≠ 0 := slot.whole.nonzero
  have swaps : Swaps (booting m₃ root pas) ((booting m₃ root pas).put 0 p m₄) (.slot 0) :=
    put_swaps (trades.congr (pages_unused unused) (put_held nonzero')) pa (fun _ => slot) fun zero =>
      absurd zero nonzero'
  refine ⟨(booting m₃ root pas).put 0 p m₄, ?_, sound.swaps swaps, fun i => ?_, ?_, fun k less => ?_⟩
  · have ran₄' : userinit 0 (.empty (pas.getD 0 0)) m₃ = .ok (p, m₄) := ran₄
    rw [Vm.boot, ran₁]
    change (kvminit m₁ >>= _) = _
    rw [ran₂]
    change (procinit root m₂ >>= _) = _
    rw [ran₃]
    change (userinit 0 (.empty (pas.getD 0 0)) m₃ >>= _) = _
    rw [ran₄']
    rfl
  · by_cases first : i = 0
    · subst first
      rw [Machine.Uses, put_self]
      exact ⟨fun _ => rfl, fun _ => nonzero'⟩
    · rw [Machine.Uses, put_of_ne first]
      exact ⟨fun uses => absurd rfl uses, fun same => absurd same first⟩
  · rw [put_self, sz]
  · have : nproc = 64 := rfl
    have fails : m₄.Fails k ↔ m₃.Fails (k + n) := spends.fails k
    change ¬ m₄.Fails k
    rw [fails, boots'.fails]
    exact given _ (by omega)

/-- A machine that has booted and then run. -/
def Booted (m : Memory) (s : Machine) : Prop := ∃ s₀ calls, boot m = .ok s₀ ∧ Runs s₀ calls s

theorem Memory.Bare.sound (bare : m.Bare spare) (booted : Booted m s) : Sound s := by
  obtain ⟨s₀, calls, ran, run⟩ := booted
  obtain ⟨s₁, ran', sound, -⟩ := bare.boot
  cases ran.symm.trans ran'
  exact sound.runs run

/-- A machine with 128 MB. -/
def bareMemory : Memory where
  image := blankMemory.image
  page _ _ := 0
  free := []
  refuse _ := false

theorem bareMemory_bare : bareMemory.Bare 200 := ⟨rfl, by decide, fun _ _ => rfl⟩

theorem growproc_gives {p : Proc} {n c : ℕ} (positive : 0 < c) (bound : p.sz + c < 2 ^ 32)
    (gives : m.Gives (n + 3 * (pagesOf (p.sz + c) - pagesOf p.sz))) :
    Ends (growproc p c) m fun r m' => r = (0, { p with sz := p.sz + c }) ∧ m'.Gives n := by
  have high : 2 ^ 32 ≤ trapframe := by decide
  have new : toUint ((p.sz : ℤ) + c) = p.sz + c := toUint_of_lt bound
  unfold growproc
  rw [if_pos (by exact_mod_cast positive), toUint_of_lt (by omega), new]
  refine .bind ((uvmalloc_gives (by omega) gives).mono ?_)
  rintro r m₁ ⟨rfl, gives₁⟩
  rw [max_eq_right (Nat.le_add_right ..), toUint_of_lt bound, if_neg (by omega)]
  exact .pure ⟨rfl, gives₁⟩

/-- The first process grows by a page and forks. -/
theorem bareMemory_forks : ∃ s t, boot bareMemory = .ok s ∧ Runs s [.sbrk 0 4096, .fork 0 1] t ∧ t.Uses 1 ∧
    (t.procs 1).sz = 2 * pgsize := by
  obtain ⟨s, ran, sound, uses, sz, given⟩ := bareMemory_bare.boot
  have uses₀ : s.Uses 0 := (uses 0).mpr rfl
  have gives : s.memory.Gives (100 + 3 * (pagesOf ((s.procs 0).proc.sz + 4096) - pagesOf (s.procs 0).proc.sz)) := by
    change s.memory.Gives (100 + 3 * (pagesOf ((s.procs 0).sz + 4096) - pagesOf (s.procs 0).sz))
    rw [sz]
    exact fun k less => given k (less.trans (by decide))
  have bound : (s.procs 0).proc.sz + 4096 < 2 ^ 32 := by
    change (s.procs 0).sz + 4096 < 2 ^ 32
    rw [sz]
    decide
  obtain ⟨r, m, grown, -, rfl, left⟩ :=
    (growproc_exchanges (n := (4096 : ℕ)) (sound.slots 0 uses₀) sound.list (by decide) (by decide)).and_ends
      (growproc_gives (by decide) bound gives)
  have allows : s.Allows (.sbrk 0 4096) := ⟨uses₀, by decide, by decide⟩
  have called : s.call (.sbrk 0 4096) = .ok (true, s.put 0 { s.procs 0 with sz := (s.procs 0).proc.sz + 4096 } m) := by
    change Except.map _ (growproc (s.procs 0).proc ((4096 : ℕ) : ℤ) s.memory) = _
    rw [grown]
    rfl
  have run : Runs s [.sbrk 0 4096] _ := .step .start allows called
  have size : ((s.put 0 { s.procs 0 with sz := (s.procs 0).proc.sz + 4096 } m).procs 0).sz = 2 * pgsize := by
    rw [put_self]
    change (s.procs 0).sz + 4096 = _
    rw [sz]
    rfl
  have free : (s.put 0 { s.procs 0 with sz := (s.procs 0).proc.sz + 4096 } m).memory.Gives 100 := left
  have allows' : (s.put 0 { s.procs 0 with sz := (s.procs 0).proc.sz + 4096 } m).Allows (.fork 0 1) := by
    refine ⟨?_, fun wrong => absurd ((uses 1).mp ?_) (by decide)⟩
    · rw [Machine.Uses, put_self]
      exact uses₀
    · rwa [Machine.Uses, put_of_ne (by decide)] at wrong
  generalize s.put 0 { s.procs 0 with sz := (s.procs 0).proc.sz + 4096 } m = t at *
  have few : 76 + 3 * pagesOf (t.procs 0).sz ≤ 100 := by rw [size]; decide
  rcases fork_call (sound.runs run) allows' with
    ⟨-, done, p, m', forked, -, ⟨-, -, -, k, less, failed⟩ | ⟨rfl, forks⟩⟩ | ⟨-, failed, -⟩ |
    ⟨-, -, ⟨k, -, less, failed⟩, -⟩
  · exact absurd failed (free k (by omega))
  · refine ⟨s, _, ran, .step run allows' forked, ?_, ?_⟩
    · rw [Machine.Uses, put_self]
      exact forks.slot.whole.nonzero
    · rw [put_self, forks.sz, size]
  · exact absurd failed (free 1 (by decide))
  · exact absurd failed (free k (by omega))

/-! ### The pages -/

/-- No page is lost, and none is held twice. Without processes and pipes, what is not free is a table of the kernel
or a kernel stack. -/
theorem pages_accounted (bare : m.Bare spare) : (∃ s, boot m = .ok s) ∧ ∀ s, Booted m s →
    (∀ x, s.memory.Real x ↔ ∃! a, x ∈ s.pages a) ∧
    ((∀ i, ¬ s.Uses i) → s.pipes = ∅ → ∀ x, x ∈ s.memory.free ↔
      s.memory.Real x ∧ x ∉ s.memory.nodes s.kernelPagetable ∧ ∀ i, x ≠ (s.procs i).pa) := by
  obtain ⟨s₀, ran, -⟩ := bare.boot
  refine ⟨⟨s₀, ran⟩, fun s booted => ?_⟩
  have sound := bare.sound booted
  refine ⟨fun x => ?_, fun unused empty x => ?_⟩
  · rw [sound.all]
    constructor
    · rintro ⟨a, mem⟩
      exact ⟨a, mem, fun b mem' => sound.apart x b a mem' mem⟩
    · rintro ⟨a, mem, -⟩
      exact ⟨a, mem⟩
  · constructor
    · intro mem
      refine ⟨(sound.all x).mpr ⟨.free, mem⟩, fun there => ?_, ?_⟩
      · cases sound.apart x .free .kernel mem there
      · rintro i rfl
        cases sound.apart _ .free (.stack i) mem rfl
    · rintro ⟨real, table, stack⟩
      obtain ⟨a, mem⟩ := (sound.all x).mp real
      cases a with
      | free => exact mem
      | kernel => exact absurd mem table
      | stack i => exact absurd mem (stack i)
      | pipe => exact absurd (show x ∈ s.pipes from mem) (by rw [empty]; exact Finset.notMem_empty x)
      | slot i => exact absurd mem (by rw [pages_unused (unused i)]; exact Set.notMem_empty x)

theorem pages_accounted_forks : ∃ s t, boot bareMemory = .ok s ∧ Runs s [.sbrk 0 4096, .fork 0 1] t ∧ t.Uses 1 ∧
    ∀ x, t.memory.Real x ↔ ∃! a, x ∈ t.pages a := by
  obtain ⟨s, t, ran, run, uses, -⟩ := bareMemory_forks
  exact ⟨s, t, ran, run, uses, ((pages_accounted bareMemory_bare).2 t ⟨s, _, ran, run⟩).1⟩

/-! ### The kernel page tables -/

theorem entries_mem {l : List Region} {r : Region} {b : ℕ} (apart : l.Pairwise Region.Apart) (mem : r ∈ l)
    (here : r.Has b) :
    entries l b = r.entry b := by
  induction l with
  | nil => exact absurd mem List.not_mem_nil
  | cons s l ih =>
    obtain ⟨first, rest⟩ := List.pairwise_cons.mp apart
    rw [entries_cons]
    rcases List.mem_cons.mp mem with rfl | mem
    · rw [Region.entry, if_pos here]
      rfl
    · have off : ¬ s.Has b := fun there => (first r mem).not_has there here
      rw [ih rest mem, Region.entry, if_neg off]
      rfl

variable {va : ℕ}

theorem Sound.small (sound : Sound s) : s.memory.image.Small := (sound.stack_real 0).small

theorem Sound.kernelMap_apart (sound : Sound s) : s.kernelMap.Pairwise Region.Apart := by
  refine List.pairwise_append.mpr ⟨kernelRegions_apart sound.small, ?_, fun r mem r' mem' => ?_⟩
  · refine List.pairwise_map.mpr ((List.nodup_finRange nproc).imp fun other => ?_)
    exact stacks_apart (Fin.isLt _) (Fin.isLt _) fun same => other (Fin.ext same)
  · obtain ⟨i, -, rfl⟩ := List.mem_map.mp mem'
    exact stack_apart sound.small i.isLt mem

/-- The regions that only the kernel's own page table maps. -/
def Machine.Private (s : Machine) (i : Fin nproc) (va : ℕ) : Prop :=
  clintRegion.Has va ∨ ∃ j, j ≠ i ∧ (stackRegion j.val (s.procs j).pa).Has va

instance (s : Machine) (i : Fin nproc) (va : ℕ) : Decidable (s.Private i va) := inferInstanceAs (Decidable (_ ∨ _))

theorem mem_kernelMap {r : Region} : r ∈ s.kernelMap ↔
    r ∈ slotRegions s.memory.image i (s.procs i).pa ∨ r = clintRegion ∨ ∃ j, j ≠ i ∧
      r = stackRegion j.val (s.procs j).pa := by
  rw [Machine.kernelMap, slotRegions, List.mem_append, List.mem_append, mem_kernelRegions, List.mem_singleton]
  constructor
  · rintro ((rfl | mem) | mem)
    · exact .inr (.inl rfl)
    · exact .inl (.inl mem)
    · obtain ⟨j, -, rfl⟩ := List.mem_map.mp mem
      by_cases same : j = i
      · exact .inl (.inr (by rw [same]))
      · exact .inr (.inr ⟨j, same, rfl⟩)
  · rintro ((mem | rfl) | rfl | ⟨j, -, rfl⟩)
    · exact .inl (.inr mem)
    · exact .inr (List.mem_map.mpr ⟨i, List.mem_finRange i, rfl⟩)
    · exact .inl (.inl rfl)
    · exact .inr (List.mem_map.mpr ⟨j, List.mem_finRange j, rfl⟩)

theorem slotRegions_sublist : (slotRegions s.memory.image i (s.procs i).pa).Sublist s.kernelMap := by
  refine processRegions_sublist.append (List.singleton_sublist.mpr ?_)
  exact List.mem_map.mpr ⟨i, List.mem_finRange i, rfl⟩

/-- A region of a process is none of the kernel's own. -/
theorem Sound.not_private (sound : Sound s) {r : Region} (mem : r ∈ slotRegions s.memory.image i (s.procs i).pa)
    (here : r.Has va) :
    ¬ s.Private i va := by
  have small := sound.small
  have clint_mem : clintRegion ∈ kernelRegions s.memory.image := mem_kernelRegions.mpr (.inl rfl)
  rcases List.mem_append.mp mem with mem | own
  · rintro (there | ⟨j, -, there⟩)
    · have apart := kernelRegions_apart small
      rw [kernelRegions, List.pairwise_cons, List.pairwise_cons, List.pairwise_cons] at apart
      obtain ⟨first, second, third, -⟩ := apart
      simp only [processRegions, List.mem_cons] at mem
      rcases mem with rfl | rfl | mem
      · exact (first clintRegion (by simp)).not_has here there
      · exact (second clintRegion (by simp)).not_has here there
      · exact (third r (by simpa only [List.mem_cons] using mem)).not_has there here
    · exact (stack_apart small j.isLt (mem_kernelRegions.mpr (.inr mem))).not_has here there
  · rw [List.mem_singleton.mp own] at here
    rintro (there | ⟨j, other, there⟩)
    · exact (stack_apart small i.isLt clint_mem).not_has there here
    · exact (stacks_apart j.isLt i.isLt fun same => other (Fin.ext same)).not_has there here

/-- The regions of the two tables agree. -/
theorem Sound.entries_slot (sound : Sound s) : entries (slotRegions s.memory.image i (s.procs i).pa) va =
    if s.Private i va then none else entries s.kernelMap va := by
  have apart := sound.kernelMap_apart
  by_cases mapped : ∃ r ∈ slotRegions s.memory.image i (s.procs i).pa, r.Has va
  · obtain ⟨r, mem, here⟩ := mapped
    have whole : r ∈ s.kernelMap := slotRegions_sublist.subset mem
    rw [if_neg (sound.not_private mem here), entries_mem apart whole here,
      entries_mem (apart.sublist slotRegions_sublist) mem here]
  · have gap : ∀ r ∈ slotRegions s.memory.image i (s.procs i).pa, ¬ r.Has va := fun r mem here => mapped ⟨r, mem, here⟩
    rw [entries_none.mpr gap]
    by_cases own : s.Private i va
    · rw [if_pos own]
    · rw [if_neg own, eq_comm, entries_none]
      intro r mem here
      rcases (mem_kernelMap (i := i)).mp mem with mem | rfl | ⟨j, other, rfl⟩
      · exact gap r mem here
      · exact own (.inl here)
      · exact own (.inr ⟨j, other, here⟩)

theorem kvmpa_spec {root pa perm : ℕ} (below : va < maxva) (leaf : LeafPerm perm) (aligned : pa % pgsize = 0)
    (bound : pa < phystop)
    (mapped : m.pte root va = entry pa perm) : kvmpa root va m = .ok (pa + va % pgsize, m) := by
  have top : phystop < 2 ^ 63 := by decide
  have offset : va % pgsize < 2 ^ 63 := (Nat.mod_lt va (by decide : 0 < pgsize)).trans (by decide)
  have valid : m.pte root va &&& pteV ≠ 0 := by
    rw [mapped]
    exact valid_iff.mpr (entry_valid leaf.small)
  obtain ⟨x, found⟩ := node_of_valid valid
  have read : m.page x (px 0 va) = entry pa perm := (pte_of_node found).symm.trans mapped
  have done : Returns (kvmpa root va) m fun r m' => r = pa + va % pgsize ∧ m' = m := by
    refine .bind ((walk_look below).mono ?_)
    rintro r m' ⟨rfl, rfl⟩
    rw [found]
    refine .bind (.reads (.bind ?_))
    change Returns (panicIf (m'.page x (px 0 va) &&& pteV = 0) "kvmpa") m' _
    rw [panicIf, onlyIf, read, if_neg (mapped ▸ valid), entry, entry_pa leaf.small aligned (by omega)]
    refine .pure (.pure ⟨?_, rfl⟩)
    rw [wrap, Nat.mod_eq_of_lt (by omega)]
  obtain ⟨r, m', ran, rfl, rfl⟩ := done
  exact ran

/-- The page under a kernel stack is in no region. -/
theorem Sound.guard (sound : Sound s) (from_ : kstack i - pgsize ≤ va) (to_ : va < kstack i) :
    entries s.kernelMap va = none := by
  obtain ⟨above, below, -, -⟩ := sound.small
  obtain ⟨place, less⟩ := kstack_eq i.isLt
  have size : pgsize = 4096 := rfl
  rw [place, size] at from_
  rw [place] at to_
  rw [Machine.kernelMap, entries_none]
  intro r there
  rcases List.mem_append.mp there with mem | mem
  · clear there size place
    simp only [kernbase, phystop_eq] at above below
    revert r
    simp only [kernelRegions, clintRegion, List.forall_mem_cons, List.not_mem_nil, IsEmpty.forall_iff,
      implies_true, and_true, Region.Has, uart0, virtio0, plic, clint, kernbase, phystop_eq, trampoline_eq, pgsize]
    omega
  · obtain ⟨j, -, rfl⟩ := List.mem_map.mp mem
    obtain ⟨place', less'⟩ := kstack_eq j.isLt
    simp only [Region.Has, stackRegion, place', size]
    omega

/-- In a process the kernel sees what it sees outside, apart from the CLINT and the kernel stacks of the others. No
kernel page table maps the page under a kernel stack. -/
theorem kernel_tables_agree (bare : m.Bare spare) (booted : Booted m s) (i : Fin nproc) :
    (s.Uses i → ∀ va, va < maxva → s.memory.pte (s.procs i).kpgtbl va =
      if s.Private i va then 0 else s.memory.pte s.kernelPagetable va) ∧
    (∀ k, k < pgsize → kvmpa s.kernelPagetable (kstack i + k) s.memory = .ok ((s.procs i).pa + k, s.memory)) ∧
    ∀ va, kstack i - pgsize ≤ va → va < kstack i → s.memory.pte s.kernelPagetable va = 0 ∧
      ∀ j, s.Uses j → s.memory.pte (s.procs j).kpgtbl va = 0 := by
  have sound := bare.sound booted
  obtain ⟨place, less⟩ := kstack_eq i.isLt
  have top : maxva = 0x4000000000 := rfl
  have size : pgsize = 4096 := rfl
  have kernel {va : ℕ} (below : va < maxva) := sound.kernel.ptes va below
  have slot {j : Fin nproc} {va : ℕ} (uses : s.Uses j) (below : va < maxva) : s.memory.pte (s.procs j).kpgtbl va =
      if s.Private j va then 0 else s.memory.pte s.kernelPagetable va := by
    rw [(sound.slots j uses).kernel.ptes va below, sound.entries_slot, kernel below]
    split <;> rfl
  refine ⟨fun uses va below => slot uses below, fun k small => ?_, fun va from_ to_ => ?_⟩
  · have aligned : kstack i % pgsize = 0 := by
      rw [place, size]
      omega
    have below : kstack i + k < maxva := by
      rw [place]
      omega
    have has : (stackRegion i.val (s.procs i).pa).Has (kstack i + k) :=
      ⟨Nat.le_add_right .., Nat.add_lt_add_left small _⟩
    have mem : stackRegion i.val (s.procs i).pa ∈ s.kernelMap :=
      slotRegions_sublist.subset (List.mem_append_right _ (List.mem_singleton.mpr rfl))
    have offset : (kstack i + k) % pgsize = k := by
      rw [Nat.add_mod, aligned, Nat.zero_add, Nat.mod_mod, Nat.mod_eq_of_lt small]
    have down : pgrounddown (kstack i + k) = kstack i := by
      have := Nat.div_add_mod' (kstack i + k) pgsize
      rw [pgrounddown]
      omega
    have mapped : s.memory.pte s.kernelPagetable (kstack i + k) = entry (s.procs i).pa (pteR ||| pteW) := by
      rw [kernel below, entries_mem sound.kernelMap_apart mem has, Region.entry, if_pos has, down]
      exact congrArg (fun n => entry n _) (by simp [stackRegion])
    rw [kvmpa_spec below data_perm (sound.stack_real i).aligned (sound.stack_real i).phystop mapped, offset]
  · have below : va < maxva := by
      rw [place] at to_
      omega
    have zero : s.memory.pte s.kernelPagetable va = 0 := by
      rw [kernel below, sound.guard from_ to_]
      rfl
    refine ⟨zero, fun j uses => ?_⟩
    rw [slot uses below, zero, ite_self]

theorem kernel_tables_agree_forks : ∃ s t, boot bareMemory = .ok s ∧ Runs s [.sbrk 0 4096, .fork 0 1] t ∧
    (t.procs 1).sz = 2 * pgsize ∧ ∀ va, va < maxva →
      t.memory.pte (t.procs 1).kpgtbl va = if t.Private 1 va then 0 else t.memory.pte t.kernelPagetable va := by
  obtain ⟨s, t, ran, run, uses, size⟩ := bareMemory_forks
  exact ⟨s, t, ran, run, size, (kernel_tables_agree bareMemory_bare ⟨s, _, ran, run⟩ 1).1 uses⟩

/-! ### The calls -/

/-- A call ends, and the kernel panics only for a kernel page table that it cannot finish. -/
theorem call_faults_iff (bare : m.Bare spare) (booted : Booted m s) (allows : s.Allows c) :
    ((∃ e, s.call c = .error e) ↔
      (∃ q i, c = .fork q i) ∧ ¬ s.memory.Fails 0 ∧ ∃ k, 1 ≤ k ∧ k < 73 ∧ s.memory.Fails k) ∧
    (s.call c = .error .null ↔ (∃ q i, c = .fork q i) ∧ ¬ s.memory.Fails 0 ∧ s.memory.Fails 1) ∧
    ∀ e, s.call c = .error e → e = .null ∨ e = .panic "Pvmmap" := by
  have sound := bare.sound booted
  by_cases fork : ∃ q i, c = .fork q i
  · have kind := fork
    obtain ⟨q, i, rfl⟩ := fork
    rcases fork_call sound allows with
      ⟨condition, done, p, m', ran, -⟩ | ⟨given, failed, ran⟩ | ⟨given, given', ⟨k, two, few, failed⟩, ran⟩
    · have fine : ¬ (¬ s.memory.Fails 0 ∧ ∃ k, 1 ≤ k ∧ k < 73 ∧ s.memory.Fails k) := by
        rintro ⟨given, k, -, few, failed⟩
        exact condition.elim given fun never => never k few failed
      refine ⟨⟨?_, fun wrong => absurd wrong.2 fine⟩, ⟨fun wrong => ?_, fun wrong => ?_⟩, fun e wrong => ?_⟩
      · rintro ⟨e, wrong⟩
        cases ran.symm.trans wrong
      · cases ran.symm.trans wrong
      · exact absurd ⟨wrong.2.1, 1, le_rfl, by decide, wrong.2.2⟩ fine
      · cases ran.symm.trans wrong
    · refine ⟨⟨fun _ => ⟨kind, given, 1, le_rfl, by decide, failed⟩, fun _ => ⟨_, ran⟩⟩,
        ⟨fun _ => ⟨kind, given, failed⟩, fun _ => ran⟩, fun e wrong => ?_⟩
      cases ran.symm.trans wrong
      exact .inl rfl
    · refine ⟨⟨fun _ => ⟨kind, given, k, by omega, few, failed⟩, fun _ => ⟨_, ran⟩⟩,
        ⟨fun wrong => ?_, fun wrong => absurd wrong.2.2 given'⟩, fun e wrong => ?_⟩
      · cases ran.symm.trans wrong
      · cases ran.symm.trans wrong
        exact .inr rfl
  · obtain ⟨done, t, ran, -⟩ := sound.returned allows fun q i same => fork ⟨q, i, same⟩
    refine ⟨⟨?_, fun wrong => absurd wrong.1 fork⟩, ⟨fun wrong => ?_, fun wrong => absurd wrong.1 fork⟩,
      fun e wrong => ?_⟩
    · rintro ⟨e, wrong⟩
      cases ran.symm.trans wrong
    · cases ran.symm.trans wrong
    · cases ran.symm.trans wrong

/-- Another CPU takes the page for the root of the kernel page table. -/
theorem call_faults_iff_null : ∃ s t, boot bareMemory = .ok s ∧ Runs s [.others fun k => k == 1] t ∧ t.call
    (.fork 0 1) = .error .null := by
  obtain ⟨s, ran, sound, uses, -, given⟩ := bareMemory_bare.boot
  have run : Runs s [.others fun k => k == 1] (s.putPipes s.pipes { s.memory with refuse := fun k => k == 1 }) :=
    .step (c := .others fun k => k == 1) .start trivial rfl
  have allows : (s.putPipes s.pipes { s.memory with refuse := fun k => k == 1 }).Allows (.fork 0 1) :=
    ⟨(uses 0).mpr rfl, fun wrong => absurd ((uses 1).mp wrong) (by decide)⟩
  have some : ¬ s.memory.free.length ≤ 0 := fun none => given 0 (by decide) (.inr none)
  refine ⟨s, _, ran, run, (call_faults_iff bareMemory_bare ⟨s, _, ran, run⟩ allows).2.1.mpr ⟨⟨0, 1, rfl⟩, ?_, .inl rfl⟩⟩
  rintro (wrong | none)
  · exact Bool.false_ne_true wrong
  · exact some none

/-- What slot `j` holds is the same in `s` and `t`. -/
structure Keeps (s t : Machine) (j : Fin nproc) : Prop where
  procs : t.procs j = s.procs j
  held : t.memory.held (s.procs j) = s.memory.held (s.procs j)
  page : ∀ x ∈ s.memory.held (s.procs j), t.memory.page x = s.memory.page x

theorem Keeps.trans (first : Keeps s t j) (second : Keeps t u j) : Keeps s u j := by
  obtain ⟨procs, held, page⟩ := second
  rw [first.procs] at procs held page
  refine ⟨procs, held.trans first.held, fun x mem => (page x ?_).trans (first.page x mem)⟩
  rwa [first.held]

theorem Swaps.keeps {a : Place} (swaps : Swaps s t a) (sound : Sound s) (uses : s.Uses j) (other : a ≠ .slot j) :
    Keeps s t j := by
  have same := (swaps.slotted sound uses other).2
  exact ⟨swaps.procs j other, held_agree (fun x mem => same x (.inl (.inr (.inl mem))))
    (fun x mem => same x (.inr mem)), same⟩

theorem Sound.keeps (sound : Sound s) (run : Runs s calls t) (uses : s.Uses j)
    (others : ∀ c ∈ calls, c.place ≠ .slot j) : Keeps s t j := by
  induction run with
  | start => exact ⟨rfl, rfl, fun _ _ => rfl⟩
  | step run allows ran ih =>
    have kept := ih fun c mem => others c (List.mem_append_left _ mem)
    have sound' := sound.runs run
    have uses' := uses
    rw [Machine.Uses, ← kept.procs] at uses'
    exact kept.trans ((sound'.call allows ran).keeps sound' uses'
      (others _ (List.mem_append_right _ (List.mem_singleton.mpr rfl))))

theorem Keeps.pte (keeps : Keeps s t j) (va : ℕ) :
    t.memory.pte (s.procs j).pagetable va = s.memory.pte (s.procs j).pagetable va ∧
      t.memory.pte (s.procs j).kpgtbl va = s.memory.pte (s.procs j).kpgtbl va :=
  ⟨pte_agree fun x mem => keeps.page x (.inl (.inr (.inl mem))), pte_agree fun x mem => keeps.page x (.inr mem)⟩

theorem Keeps.byte (keeps : Keeps s t j) (va : ℕ) (low : va < (s.procs j).sz) :
    t.memory.at (s.procs j).pagetable va = s.memory.at (s.procs j).pagetable va := by
  have upto := le_pagesOf (a := (s.procs j).sz)
  have frame : t.memory.frame (s.procs j).pagetable va = s.memory.frame (s.procs j).pagetable va := by
    rw [Memory.frame, (keeps.pte va).1]
    rfl
  rw [Memory.at, Memory.at, frame, keeps.page]
  exact .inl (.inr (.inr (mem_frames (by omega) (by omega))))

/-- What others do does not change a process: its registers, its memory and what it maps, and what the kernel maps
for it. -/
theorem processes_isolated (bare : m.Bare spare) (booted : Booted m s) (run : Runs s calls t) (uses : s.Uses j)
    (others : ∀ c ∈ calls, c.place ≠ .slot j) :
    t.procs j = s.procs j ∧ t.memory.page (s.procs j).trapframe = s.memory.page (s.procs j).trapframe ∧
    (∀ va, va < (s.procs j).sz → t.memory.at (s.procs j).pagetable va = s.memory.at (s.procs j).pagetable va) ∧
    ∀ va, t.memory.translate (s.procs j).pagetable va = s.memory.translate (s.procs j).pagetable va ∧
      t.memory.translate (s.procs j).kpgtbl va = s.memory.translate (s.procs j).kpgtbl va := by
  have keeps := (bare.sound booted).keeps run uses others
  refine ⟨keeps.procs, keeps.page _ (.inl (.inl rfl)), fun va low => keeps.byte va low, fun va => ?_⟩
  exact ⟨translate_congr (keeps.pte va).1, translate_congr (keeps.pte va).2⟩

/-- A pipe is made. -/
theorem processes_isolated_pipe : ∃ s t, boot bareMemory = .ok s ∧ Runs s [.pipealloc (filled 0)] t ∧
    ∀ va, va < pgsize → t.memory.at (s.procs 0).pagetable va = s.memory.at (s.procs 0).pagetable va := by
  obtain ⟨s, ran, sound, uses, sz, -⟩ := bareMemory_bare.boot
  obtain ⟨done, t, called, -⟩ := pipealloc_call sound (filled 0)
  have run : Runs s [.pipealloc (filled 0)] t := .step .start trivial called
  refine ⟨s, t, ran, run, fun va low => ?_⟩
  refine (processes_isolated bareMemory_bare ⟨s, [], ran, .start⟩ run ((uses 0).mpr rfl) ?_).2.2.1 va (by rwa [sz])
  rintro c mem
  rw [List.mem_singleton.mp mem]
  decide

/-- From `s` to `t`, at most the free pages have changed. -/
structure Undone (s t : Machine) : Prop where
  procs : t.procs = s.procs
  root : t.kernelPagetable = s.kernelPagetable
  pipes : t.pipes = s.pipes
  pages : ∀ a, t.pages a = s.pages a
  page : ∀ x, x ∉ s.memory.free → t.memory.page x = s.memory.page x

theorem Sound.undone (sound : Sound s) (trades : Trades s.memory m' ∅ ∅) : Undone s (s.put i (s.procs i) m') := by
  have procs : (s.put i (s.procs i) m').procs = s.procs := Function.update_eq_self i s.procs
  have page (x : ℕ) (out : x ∉ s.memory.free) : m'.page x = s.memory.page x := trades.others x out (Set.notMem_empty x)
  refine ⟨procs, rfl, rfl, fun a => ?_, page⟩
  cases a with
  | free =>
    ext x
    have pool := trades.pool x
    rwa [Set.mem_empty_iff_false, or_false, or_false] at pool
  | kernel => exact nodes_agree fun x mem => page x (sound.kernel.table.owned x mem)
  | stack j => rw [Machine.pages, procs, Machine.pages]
  | pipe => rfl
  | slot j =>
    by_cases uses : s.Uses j
    · have uses' : (s.put i (s.procs i) m').Uses j := by rwa [Machine.Uses, procs]
      have used := (sound.slots j uses).used
      rw [pages_slot uses, pages_slot uses', procs]
      exact held_agree (fun x mem => page x (used x (.inl (.inr (.inl mem))))) fun x mem => page x (used x (.inr mem))
    · have unused : ¬ (s.put i (s.procs i) m').Uses j := by rwa [Machine.Uses, procs]
      rw [pages_unused uses, pages_unused unused]

/-- A `fork` or `exec` that returns -1 has changed nothing. -/
theorem failed_call_undone (bare : m.Bare spare) (booted : Booted m s) (allows : s.Allows c)
    (kind : (∃ q i, c = .fork q i) ∨ ∃ i path file argv, c = .exec i path file argv)
    (ran : s.call c = .ok (false, t)) : Undone s t := by
  have sound := bare.sound booted
  rcases kind with ⟨q, i, rfl⟩ | ⟨i, path, file, argv, rfl⟩
  · rcases fork_call sound allows with
      ⟨-, done, p, m', ran', -, ⟨-, rfl, trades, -⟩ | ⟨rfl, -⟩⟩ | ⟨-, -, ran'⟩ | ⟨-, -, -, ran'⟩
    · cases ran.symm.trans ran'
      exact sound.undone trades
    · cases ran.symm.trans ran'
    · cases ran.symm.trans ran'
    · cases ran.symm.trans ran'
  · obtain ⟨done, p, m', ran', -, failing⟩ := exec_call sound allows
    cases ran.symm.trans ran'
    obtain ⟨rfl, trades⟩ := failing rfl
    exact sound.undone trades

/-- Three strings that do not fit into a page with their addresses. -/
def longArguments : List (List UInt8) := List.replicate 3 (List.replicate 2000 97)

/-- The file is loaded, and the image is given back for the arguments. -/
theorem failed_call_undone_exec : ∃ s t img m₁, boot bareMemory = .ok s ∧
    loadImage (s.procs 0).trapframe twoSegments s.memory = .ok (some img, m₁) ∧
    s.call (.exec 0 [97] twoSegments longArguments) = .ok (false, t) ∧ Undone s t := by
  obtain ⟨s, ran, sound, uses, -, given⟩ := bareMemory_bare.boot
  have uses : s.Uses 0 := (uses 0).mpr rfl
  have gives : s.memory.Gives 17 := fun k less => given k (less.trans (by decide))
  obtain ⟨_, m₁, loaded, img, rfl⟩ :=
    loadImage_gives (n := 0) twoSegments_wellFormed sound.list gives (s.procs 0).trapframe
  have more : pgsize < need longArguments := by
    rw [need, strings, longArguments, List.map_replicate, List.sum_replicate, List.length_replicate,
      List.length_replicate]
    decide
  have fails : Returns (execSlot (s.procs 0) [97] twoSegments longArguments) s.memory fun r _ => r.1 = -1 := by
    refine .bind ((exec_spec (p := (s.procs 0).running) sound.list
      (sound.slots 0 uses).whole twoSegments_wellFormed.size
      [97] longArguments).mono ?_)
    rintro _ m₂ ⟨_, m₃, -, ⟨-, rfl, -⟩ | ⟨img', -, -, ⟨rfl, -, -⟩ | ⟨enough, -⟩⟩⟩
    · exact .bind (.pure (.pure rfl))
    · exact .bind (.pure (.pure rfl))
    · omega
  obtain ⟨⟨_, p⟩, m₂, ended, rfl⟩ := fails
  have failed : s.call (.exec 0 [97] twoSegments longArguments) = .ok (false, s.put 0 p m₂) := by
    rw [Machine.call, ended]
    rfl
  have allows : s.Allows (.exec 0 [97] twoSegments longArguments) := ⟨uses, twoSegments_wellFormed.size⟩
  exact ⟨s, _, img, m₁, ran, loaded, failed, failed_call_undone bareMemory_bare ⟨s, [], ran, .start⟩ allows
    (.inr ⟨0, [97], twoSegments, longArguments, rfl⟩) failed⟩

/-- `fork` with enough pages: whatever runs afterwards, the child has the memory and the registers of its parent
until it runs itself. -/
theorem fork_copies (bare : m.Bare spare) (booted : Booted m s) (allows : s.Allows (.fork q i))
    (given : ∀ k, k < 76 + 3 * pagesOf (s.procs q).sz → ¬ s.memory.Fails k) :
    ∃ t, s.call (.fork q i) = .ok (true, t) ∧ ∀ calls u, Runs t calls u → (∀ c ∈ calls, c.place ≠ .slot i) →
      (u.procs i).sz = (s.procs q).sz ∧
      (∀ b, b < (s.procs q).sz → u.memory.at (u.procs i).pagetable b = s.memory.at (s.procs q).pagetable b) ∧
      (∀ b, b < pgroundup (s.procs q).sz →
        pteFlags (u.memory.pte (u.procs i).pagetable b) = pteFlags (s.memory.pte (s.procs q).pagetable b)) ∧
      ∀ w : Fin 512, w.val < 36 → u.memory.page (u.procs i).trapframe w =
        if w = Trapframe.a0 then 0 else s.memory.page (s.procs q).trapframe w := by
  have sound := bare.sound booted
  rcases fork_call sound allows with
    ⟨-, done, p, m', ran, swaps, ⟨-, -, -, k, few, failed⟩ | ⟨rfl, forks⟩⟩ | ⟨-, failed, -⟩ |
    ⟨-, -, ⟨k, -, few, failed⟩, -⟩
  · exact absurd failed (given k few)
  · refine ⟨_, ran, fun calls u run others => ?_⟩
    have child : (s.put i p m').procs i = p := put_self
    have uses : (s.put i p m').Uses i := by
      rw [Machine.Uses, child]
      exact forks.slot.whole.nonzero
    have keeps := (sound.swaps swaps).keeps run uses others
    have same : (s.put i p m').memory = m' := rfl
    have bytes := keeps.byte
    have ptes := keeps.pte
    have page := keeps.page
    rw [child, same] at page
    simp only [child, same] at bytes ptes
    rw [keeps.procs, child]
    refine ⟨forks.sz, fun b low => ?_, fun b low => ?_, fun w small => ?_⟩
    · rw [bytes b (forks.sz ▸ low), forks.bytes b low]
    · rw [(ptes b).1, forks.flags b low]
    · rw [page _ (.inl (.inl rfl)), forks.registers w small]
  · exact absurd failed (given 1 (by omega))
  · exact absurd failed (given k (by omega))

theorem fork_copies_first : ∃ s t, boot bareMemory = .ok s ∧ s.call (.fork 0 1) = .ok
    (true, t) ∧ (t.procs 1).sz = pgsize := by
  obtain ⟨s, ran, -, uses, sz, given⟩ := bareMemory_bare.boot
  have allows : s.Allows (.fork 0 1) := ⟨(uses 0).mpr rfl, fun wrong => absurd ((uses 1).mp wrong) (by decide)⟩
  have few : 76 + 3 * pagesOf (s.procs 0).sz ≤ 200 := by rw [sz]; decide
  obtain ⟨t, called, later⟩ := fork_copies bareMemory_bare ⟨s, [], ran, .start⟩ allows fun k less => given k (by omega)
  exact ⟨s, t, ran, called, (later [] t .start (by simp)).1.trans sz⟩

end Xv6Labs.Vm
