import Xv6Labs.Vm.Create
import Xv6Labs.Vm.Kernel
import Xv6Labs.Vm.Regions

/-!
# What the kernel page tables map

A kernel page table is made from a list of regions, and maps these. It takes one page for each of its tables, which
are 72 for a process whatever the size of the kernel's code. If one of them cannot be allocated, the kernel does not
go on.
-/

namespace Xv6Labs.Vm

open Faults

variable {m m' m'' : Memory} {image : Image} {root b f i j pa : ℕ} {taken taken' rest : List ℕ} {l : List Region}
  {B : Finset ℕ} {text : String}

/-! ### The regions -/

theorem phystop_eq : phystop = 0x88000000 := rfl

theorem trampoline_eq : trampoline = 0x3ffffff000 := rfl

def processRegions (image : Image) : List Region :=
  [⟨uart0, uart0, pgsize, pteR ||| pteW⟩, ⟨virtio0, virtio0, pgsize, pteR ||| pteW⟩,
    ⟨plic, plic, 0x400000, pteR ||| pteW⟩, ⟨kernbase, kernbase, image.etext - kernbase, pteR ||| pteX⟩,
    ⟨image.etext, image.etext, phystop - image.etext, pteR ||| pteW⟩,
    ⟨trampoline, image.trampoline, pgsize, pteR ||| pteX⟩]

def clintRegion : Region := ⟨clint, clint, 0x10000, pteR ||| pteW⟩

def kernelRegions (image : Image) : List Region :=
  [⟨uart0, uart0, pgsize, pteR ||| pteW⟩, ⟨virtio0, virtio0, pgsize, pteR ||| pteW⟩, clintRegion,
    ⟨plic, plic, 0x400000, pteR ||| pteW⟩, ⟨kernbase, kernbase, image.etext - kernbase, pteR ||| pteX⟩,
    ⟨image.etext, image.etext, phystop - image.etext, pteR ||| pteW⟩,
    ⟨trampoline, image.trampoline, pgsize, pteR ||| pteX⟩]

/-- The kernel stack of slot `i`, which is at `pa`. -/
def stackRegion (i pa : ℕ) : Region := ⟨kstack i, pa, pgsize, pteR ||| pteW⟩

/-- The blocks of the regions of a process. -/
def processBlocks : Finset ℕ := {96, 97, 128, 131071} ∪ Finset.Icc 1024 1087

theorem mem_kernelRegions {r : Region} : r ∈ kernelRegions image ↔ r = clintRegion ∨ r ∈ processRegions image := by
  simp only [kernelRegions, processRegions, List.mem_cons, List.not_mem_nil, or_false]
  tauto

theorem kstack_eq (small : i < nproc) : kstack i = 0x3ffffff000 - (i + 1) * 0x2000 ∧ i < 64 := by
  rw [kstack, trampoline_eq, pgsize]
  exact ⟨by omega, small⟩

theorem data_perm : LeafPerm (pteR ||| pteW) := ⟨by decide, by decide⟩

theorem text_perm : LeafPerm (pteR ||| pteX) := ⟨by decide, by decide⟩

/-- `etext` is in memory, and on a page boundary. -/
structure Image.Small (image : Image) : Prop where
  above : kernbase < image.etext
  below : image.etext < phystop
  aligned : image.etext % pgsize = 0
  trampoline : image.trampoline < phystop

theorem Memory.Real.small (real : m.Real f) : m.image.Small := by
  obtain ⟨-, low, high⟩ := real
  have base := m.image.base
  have text := m.image.text
  have data := m.image.data
  have aligned := m.image.aligned
  rw [pgsize] at text aligned
  exact ⟨by omega, by omega, by rw [pgsize]; omega, by omega⟩

theorem Memory.Free.small (free : m.Free) (mem : f ∈ m.free) : m.image.Small := (free.real mem).small

theorem Memory.Free.of_same (free : m.Free) (list : m'.free = m.free) (image : m'.image = m.image) : m'.Free :=
  ⟨list ▸ free.nodup, list ▸ free.aligned, image ▸ list ▸ free.kend, list ▸ free.phystop⟩

theorem processRegions_fit (small : image.Small) : ∀ r ∈ processRegions image, r.Fits := by
  obtain ⟨above, below, aligned, frame⟩ := small
  have aligned' := image.aligned
  simp only [pgsize, kernbase, phystop_eq] at above below aligned frame aligned'
  simp only [processRegions, List.forall_mem_cons, List.not_mem_nil, IsEmpty.forall_iff, implies_true, and_true]
  refine ⟨⟨?_, ?_, ?_, ?_, ?_, ?_, data_perm⟩, ⟨?_, ?_, ?_, ?_, ?_, ?_, data_perm⟩, ⟨?_, ?_, ?_, ?_, ?_, ?_, data_perm⟩,
    ⟨?_, ?_, ?_, ?_, ?_, ?_, text_perm⟩, ⟨?_, ?_, ?_, ?_, ?_, ?_, data_perm⟩, ⟨?_, ?_, ?_, ?_, ?_, ?_, text_perm⟩⟩ <;>
    simp only [uart0, virtio0, plic, kernbase, phystop_eq, trampoline_eq, maxva_eq, pgsize] <;> omega

theorem clintRegion_fits : clintRegion.Fits := by
  refine ⟨?_, ?_, ?_, ?_, ?_, ?_, data_perm⟩ <;> decide

theorem stackRegion_fits (small : i < nproc) (aligned : pa % pgsize = 0) (bound : pa < phystop) :
    (stackRegion i pa).Fits := by
  obtain ⟨place, less⟩ := kstack_eq small
  rw [phystop_eq] at bound
  refine ⟨?_, ?_, ?_, aligned, ?_, ?_, data_perm⟩ <;> simp only [stackRegion, place, maxva_eq, pgsize] <;> omega

theorem kernelRegions_apart (small : image.Small) : (kernelRegions image).Pairwise Region.Apart := by
  obtain ⟨above, below, -, -⟩ := small
  simp only [kernbase, phystop_eq] at above below
  simp only [kernelRegions, clintRegion, List.pairwise_cons, List.forall_mem_cons, List.not_mem_nil,
    IsEmpty.forall_iff, implies_true,
    and_true, List.Pairwise.nil, Region.Apart, uart0, virtio0, plic, clint, kernbase, phystop_eq, trampoline_eq, pgsize]
  omega

theorem processRegions_sublist : (processRegions image).Sublist (kernelRegions image) :=
  ((List.Sublist.refl _).cons _).cons_cons _ |>.cons_cons _

theorem stack_apart {r : Region} (small : image.Small) (less : i < nproc) (mem : r ∈ kernelRegions image) :
    r.Apart (stackRegion i pa) := by
  obtain ⟨above, below, -, -⟩ := small
  obtain ⟨place, less⟩ := kstack_eq less
  simp only [kernbase, phystop_eq] at above below
  revert r
  simp only [kernelRegions, clintRegion, stackRegion, List.forall_mem_cons, List.not_mem_nil, IsEmpty.forall_iff,
    implies_true,
    and_true, Region.Apart, uart0, virtio0, plic, clint, kernbase, phystop_eq, trampoline_eq, pgsize, place]
  omega

theorem stacks_apart {pa' : ℕ} (less : i < nproc) (less' : j < nproc) (other : i ≠ j) :
    (stackRegion i pa).Apart (stackRegion j pa') := by
  obtain ⟨place, less⟩ := kstack_eq less
  obtain ⟨place', less'⟩ := kstack_eq less'
  simp only [Region.Apart, stackRegion, place, place', pgsize]
  omega

/-! ### Their tables -/

theorem tableCount_process : tableCount processBlocks = 71 := by decide +kernel

theorem tableCount_kernel : tableCount (insert 16 processBlocks) = 72 := by decide +kernel

theorem mem_processBlocks {x : ℕ} :
    x ∈ processBlocks ↔ x = 96 ∨ x = 97 ∨ x = 128 ∨ x = 131071 ∨ (1024 ≤ x ∧ x ≤ 1087) := by
  simp [processBlocks]

/-- The text and the data are next to each other, so it does not matter where one ends. -/
theorem blocksOf_process (small : image.Small) : blocksOf (processRegions image) = processBlocks := by
  obtain ⟨above, below, aligned, -⟩ := small
  simp only [kernbase, phystop_eq, pgsize] at above below aligned
  ext x
  rw [mem_processBlocks]
  simp only [processRegions, blocksOf, Region.blocks, blocksFrom, Finset.mem_union, Finset.mem_Icc,
    Finset.notMem_empty, or_false, uart0, virtio0, plic, kernbase, phystop_eq, trampoline_eq, blocksize, pgsize]
  omega

theorem blocksOf_kernel (small : image.Small) : blocksOf (kernelRegions image) = insert 16 processBlocks := by
  have process := blocksOf_process small
  have timer : clintRegion.blocks = {16} := by decide
  simp only [processRegions, kernelRegions, blocksOf, timer, Finset.insert_eq] at process ⊢
  rw [← process]
  ext x
  simp only [Finset.mem_union]
  tauto

theorem stack_blocks (less : i < nproc) : (stackRegion i pa).blocks = {131071} := by
  obtain ⟨place, less⟩ := kstack_eq less
  ext x
  simp only [stackRegion, Region.blocks, blocksFrom, Finset.mem_Icc, Finset.mem_singleton, place, blocksize, pgsize]
  omega

/-! ### A new table -/

/-- What `kvminit` and `Pvminit` share. -/
def makeTable (text : String) (regions : Image → List Region) : Code ℕ := do
  let page ← kalloc
  let root := page.getD 0
  memset root 0
  let image ← reads fun m => m.image
  mapRegions root text (regions image)
  pure root

theorem kvminit_eq : kvminit = makeTable "kvmmap" kernelRegions := by
  simp only [kvminit, makeTable, mapRegions, kernelRegions, each, kvmmap, clintRegion, bind_assoc, pure_bind]

theorem pvminit_eq : pvminit = makeTable "Pvmmap" processRegions := by
  simp only [pvminit, makeTable, mapRegions, processRegions, each, pvmmap, bind_assoc, pure_bind]

/-- From `m` to `m'`, a table at `root` that maps the regions `l` has been made from free pages, one for each call of
`kalloc`. -/
structure Builds (m m' : Memory) (root : ℕ) (tables : List ℕ) (l : List Region) (B : Finset ℕ) : Prop where
  table : Table m' root
  list : m'.Free
  image : m'.image = m.image
  free : m.free = tables ++ m'.free
  nodes : m'.nodes root = {x | x ∈ tables}
  ptes : ∀ b, b < maxva → m'.pte root b = (entries l b).getD 0
  others : ∀ p, p ∉ m.free → m'.page p = m.page p
  covers : Covers m' root B
  count : tables.length = tableCount B + 1
  refuse : ∀ k, m'.refuse k = m.refuse (k + tables.length)
  never : ∀ k, k < tables.length → ¬ m.Fails k

theorem makeTable_null {regions : Image → List Region} (failed : m.Fails 0) :
    makeTable text regions m = .error .null := by
  refine fails_bind ⟨none, m.refused, congrArg Except.ok (kalloc_none failed), ?_⟩
  rfl

theorem makeTable_spec (text : String) (regions : Image → List Region) (free : m.Free) (given : ¬ m.Fails 0)
    (fits : ∀ r ∈ regions m.image, r.Fits) (apart : (regions m.image).Pairwise Region.Apart) :
    Returns (makeTable text regions) m (fun root m' => root ≠ 0 ∧ ∃ tables,
        Builds m m' root tables (regions m.image) (blocksOf (regions m.image))) ∨
      makeTable text regions m = .error (.panic text) ∧ ∃ k, k < tableCount (blocksOf (regions m.image)) ∧
      m.Fails (k + 1) := by
  obtain ⟨granted, f, rest, list⟩ := not_fails_zero given
  have mem : f ∈ m.free := by rw [list]; exact List.mem_cons_self
  have nonnull := free.nonzero mem
  have fresh : Fresh m (m.grant f rest (filled 0)) f rest := ⟨list, rfl⟩
  have refuse₁ (k : ℕ) : (m.grant f rest (filled 0)).refuse k = m.refuse (k + 1) := rfl
  have step {post : ℕ → Memory → Prop}
      (later : Returns (mapRegions f text (regions m.image)) (m.grant f rest (filled 0)) fun _ => post f) :
      Returns (makeTable text regions) m post := by
    refine .bind ⟨some f, _, congrArg Except.ok (kalloc_some f rest list granted), .bind ?_⟩
    rw [Option.getD_some, memset, if_neg nonnull]
    exact .writes (.bind (.reads (.bind (later.mono fun _ m' done => .pure done))))
  have failing (failed : mapRegions f text (regions m.image) (m.grant f rest (filled 0)) = .error (.panic text)) :
      makeTable text regions m = .error (.panic text) := by
    refine fails_bind ⟨some f, _, congrArg Except.ok (kalloc_some f rest list granted), fails_bind ?_⟩
    rw [Option.getD_some, memset, if_neg nonnull]
    refine .writes (fails_bind (.reads ?_))
    change (mapRegions f text (regions m.image) (m.grant f rest (filled 0)) >>= _) = _
    rw [failed]
    rfl
  generalize m.grant f rest (filled 0) = m₁ at fresh refuse₁ step failing
  obtain ⟨free₁, -⟩ := fresh.free free
  obtain ⟨table, -, ptes⟩ := fresh.table free
  have empty (r : Region) (_ : r ∈ regions m.image) (b : ℕ) (_ : r.Has b) : m₁.pte f b &&& pteV = 0 := by
    rw [ptes]
    exact Nat.zero_and _
  have fails {k : ℕ} (failed : m₁.Fails k) : m.Fails (k + 1) := fresh.fails failed
  rcases mapRegions_lays text table free₁ (blank_covers fresh.blank) fits apart empty with
    done | ⟨failed, k, less, fail⟩
  · refine .inl (step (done.mono ?_))
    rintro - m' ⟨taken, lays⟩
    have covers := lays.covers
    have count := lays.count
    rw [Finset.empty_union] at covers count
    have zero : tableCount ∅ = 0 := rfl
    obtain ⟨split, nodes, image, -, -, others⟩ := fresh.grows free lays.toGrows
    refine ⟨nonnull, f :: taken, lays.table, free₁.grows lays.toGrows, image, split, nodes, fun b bound => ?_,
      others, covers, ?_, fun k => ?_, fun k less => ?_⟩
    · rw [lays.ptes b bound, ptes]
    · rw [List.length_cons]
      omega
    · rw [lays.refuse, refuse₁, List.length_cons]
      rfl
    · cases k with
      | zero => exact given
      | succ k =>
        have later := lays.never k (Nat.lt_of_succ_lt_succ less)
        intro failed
        refine later ?_
        rcases failed with refused | few
        · exact .inl ((refuse₁ k).trans refused)
        · refine .inr ?_
          have : m₁.free = rest := by rw [fresh.given]; rfl
          rw [list] at few
          rw [this]
          exact Nat.le_of_succ_le_succ few
  · rw [Finset.empty_union] at less
    have zero : tableCount ∅ = 0 := rfl
    exact .inr ⟨failing failed, k, by omega, fails fail⟩

/-! ### One more region -/

theorem entries_append {l' : List Region} : entries (l ++ l') b = (entries l b).or (entries l' b) := by
  rw [entries, List.findSome?_append]
  rfl

theorem entries_singleton {r : Region} : entries [r] b = r.entry b := by
  rw [entries_cons, show entries [] b = none from rfl, Option.or_none]

theorem entries_apart {r : Region} (apart : ∀ s ∈ l, s.Apart r) (here : r.Has b) : entries l b = none :=
  entries_none.mpr fun s mem there => (apart s mem).not_has there here

/-- `root` maps the regions `l`, with tables for the blocks `B`. -/
structure MapsAll (m : Memory) (root : ℕ) (l : List Region) (B : Finset ℕ) : Prop where
  table : Table m root
  real : ∀ x ∈ m.nodes root, m.Real x
  ptes : ∀ b, b < maxva → m.pte root b = (entries l b).getD 0
  covers : Covers m root B

theorem Builds.mapsAll (builds : Builds m m' root taken l B) (free : m.Free) : MapsAll m' root l B := by
  refine ⟨builds.table, fun x mem => ?_, builds.ptes, builds.covers⟩
  rw [builds.nodes] at mem
  have real := free.real (n := x) (by rw [builds.free]; exact List.mem_append_left _ mem)
  exact ⟨real.aligned, builds.image ▸ real.kend, real.phystop⟩

theorem covers_agree (covers : Covers m root B) (same : ∀ x ∈ m.nodes root, m'.page x = m.page x) : Covers m' root B :=
  ⟨fun i => by rw [node_agree same (by simp), covers.upper], fun i j => by rw [node_agree same (by simp), covers.lower]⟩

theorem MapsAll.agree (maps : MapsAll m root l B) (same : ∀ x ∈ m.nodes root, m'.page x = m.page x)
    (image : m'.image = m.image) (owned : ∀ x ∈ m.nodes root, x ∉ m'.free) : MapsAll m' root l B := by
  refine ⟨maps.table.agree same owned, fun x mem => ?_, fun b bound => ?_, covers_agree maps.covers same⟩
  · rw [nodes_agree same] at mem
    have real := maps.real x mem
    exact ⟨real.aligned, image ▸ real.kend, real.phystop⟩
  · rw [pte_agree same, maps.ptes b bound]

/-- A region in blocks that have their tables is mapped without a call of `kalloc`. -/
structure Adds (m m' : Memory) (root : ℕ) (l : List Region) (B : Finset ℕ) : Prop where
  maps : MapsAll m' root l B
  nodes : m'.nodes root = m.nodes root
  image : m'.image = m.image
  free : m'.free = m.free
  refuse : m'.refuse = m.refuse
  others : ∀ p, p ∉ m.nodes root → p ∉ m.free → m'.page p = m.page p

theorem MapsAll.region {r : Region} (maps : MapsAll m root l B) (free : m.Free) (fits : r.Fits)
    (apart : ∀ s ∈ l, s.Apart r) (within : r.blocks ⊆ B) :
    Returns (mappages root r.va r.size r.pa r.perm) m fun x m' => x = 0 ∧ Adds m m' root (l ++ [r]) B := by
  have union : B ∪ r.blocks = B := Finset.union_eq_left.mpr within
  have unmapped (b : ℕ) (here : r.Has b) : m.pte root b &&& pteV = 0 := by
    rw [maps.ptes b (lt_of_lt_of_le here.2 fits.below), entries_apart apart here]
    rfl
  refine (fits.mappages_lays maps.table free maps.covers unmapped).mono ?_
  rintro x m' (⟨rfl, taken, lays⟩ | ⟨-, k, less, -⟩)
  · have count := lays.count
    rw [union] at count
    have none : taken = [] := List.length_eq_zero_iff.mp (by omega)
    subst none
    have nodes : m'.nodes root = m.nodes root := by
      rw [lays.nodes]
      simp
    refine ⟨rfl, ⟨lays.table, fun x mem => ?_, fun b bound => ?_, ?_⟩, nodes, lays.image, lays.free.symm,
      funext lays.refuse, lays.others⟩
    · rw [nodes] at mem
      have real := maps.real x mem
      exact ⟨real.aligned, lays.image ▸ real.kend, real.phystop⟩
    · rw [lays.ptes b bound, maps.ptes b bound, entries_append, entries_singleton]
      by_cases here : r.Has b
      · rw [entries_apart apart here, Option.none_or, Region.entry, if_pos here]
        rfl
      · rw [Region.entry, if_neg here, Option.or_none]
        rfl
    · have covers := lays.covers
      rwa [union] at covers
  · rw [union] at less
    omega

/-! ### procinit -/

/-- A page that has been taken and not written yet. -/
def Memory.give (m : Memory) (f : ℕ) (rest : List ℕ) : Memory := m.grant f rest (filled 5)

theorem kalloc_give (given : ¬ m.Fails 0) : ∃ f rest, m.free = f :: rest ∧ m.kalloc = (some f, m.give f rest) := by
  obtain ⟨granted, f, rest, list⟩ := not_fails_zero given
  refine ⟨f, rest, list, (kalloc_some f rest list granted).trans ?_⟩
  simp only [Memory.give, Memory.grant, Memory.setPage, Function.update_idem]

theorem give_fails (list : m.free = f :: rest) (k : ℕ) : (m.give f rest).Fails k ↔ m.Fails (k + 1) := by
  have length : m.free.length ≤ k + 1 ↔ rest.length ≤ k := by
    rw [list, List.length_cons]
    omega
  exact or_congr Iff.rfl length.symm

theorem give_page {x : ℕ} (list : m.free = f :: rest) (out : x ∉ m.free) : (m.give f rest).page x = m.page x := by
  rw [Memory.give, grant_page, if_neg]
  rintro rfl
  exact out (by rw [list]; exact List.mem_cons_self)

theorem MapsAll.give (maps : MapsAll m root l B) (list : m.free = f :: rest) : MapsAll (m.give f rest) root l B :=
  maps.agree (grant_agree _ maps.table list) rfl fun x mem there =>
    maps.table.owned x mem (by rw [list]; exact List.mem_cons_of_mem _ there)

theorem give_nodes (table : Table m root) (list : m.free = f :: rest) : (m.give f rest).nodes root = m.nodes root :=
  nodes_agree (grant_agree _ table list)

variable {m₀ : Memory} {tables pas : List ℕ}

/-- The kernel's page table, once `procinit` has come to the slot after the stacks `pas`. -/
structure Boots (m₀ m : Memory) (root : ℕ) (tables pas : List ℕ) : Prop where
  maps : MapsAll m root (kernelRegions m₀.image ++ pas.mapIdx stackRegion) (insert 16 processBlocks)
  list : m.Free
  image : m.image = m₀.image
  free : m₀.free = tables ++ (pas ++ m.free)
  nodes : m.nodes root = {x | x ∈ tables}
  count : tables.length = 73
  refuse : ∀ k, m.refuse k = m₀.refuse (k + (73 + pas.length))

theorem Boots.fails (boots : Boots m₀ m root tables pas) (k : ℕ) : m.Fails k ↔ m₀.Fails (k + (73 + pas.length)) := by
  have count := boots.count
  have length : m₀.free.length ≤ k + (73 + pas.length) ↔ m.free.length ≤ k := by
    rw [boots.free, List.length_append, List.length_append]
    omega
  rw [Memory.Fails, Memory.Fails, boots.refuse, length]

theorem kvminit_boots (free : m.Free) (given : ∀ k, k < 73 → ¬ m.Fails k) :
    Returns kvminit m fun root m' => root ≠ 0 ∧ ∃ tables, Boots m m' root tables [] := by
  obtain ⟨-, f, rest, list⟩ := not_fails_zero (given 0 (by decide))
  have small := free.small (f := f) (by rw [list]; exact List.mem_cons_self)
  have fits : ∀ r ∈ kernelRegions m.image, r.Fits := by
    intro r mem
    rcases mem_kernelRegions.mp mem with rfl | mem
    · exact clintRegion_fits
    · exact processRegions_fit small r mem
  rw [kvminit_eq]
  rcases makeTable_spec "kvmmap" kernelRegions free (given 0 (by decide)) fits (kernelRegions_apart small) with
    done | ⟨-, k, less, failed⟩
  · refine done.mono ?_
    rintro root m' ⟨nonzero, tables, builds⟩
    rw [blocksOf_kernel small] at builds
    have count := builds.count
    rw [tableCount_kernel] at count
    refine ⟨nonzero, tables, ?_, builds.list, builds.image, builds.free, builds.nodes, count, fun k => ?_⟩
    · rw [List.mapIdx_nil, List.append_nil]
      exact builds.mapsAll free
    · rw [builds.refuse, count]
      rfl
  · rw [blocksOf_kernel small, tableCount_kernel] at less
    exact absurd failed (given (k + 1) (by omega))

theorem Boots.stack (boots : Boots m₀ m root tables pas) (less : pas.length < nproc) (list : m.free = f :: rest) :
    Returns (kvmmap root (kstack pas.length) f pgsize (pteR ||| pteW)) (m.give f rest) fun _ m' =>
      Boots m₀ m' root tables (pas ++ [f]) := by
  have mem : f ∈ m.free := by rw [list]; exact List.mem_cons_self
  have small := boots.list.small mem
  rw [boots.image] at small
  have fits := stackRegion_fits less (boots.list.aligned f mem) (boots.list.phystop f mem)
  have apart (s : Region) (there : s ∈ kernelRegions m₀.image ++ pas.mapIdx stackRegion) :
      s.Apart (stackRegion pas.length f) := by
    rcases List.mem_append.mp there with there | there
    · exact stack_apart small less there
    · obtain ⟨i, low, rfl⟩ := List.mem_mapIdx.mp there
      exact stacks_apart (low.trans less) less low.ne
  have within : (stackRegion pas.length f).blocks ⊆ insert 16 processBlocks := by
    rw [stack_blocks less]
    decide
  have free₁ : (m.give f rest).Free := boots.list.grant list
  refine .bind (((boots.maps.give list).region free₁ fits apart within).mono ?_)
  rintro x m' ⟨rfl, adds⟩
  refine .pure ⟨?_, ?_, adds.image.trans boots.image, ?_, ?_, boots.count, fun k => ?_⟩
  · rw [List.mapIdx_concat, ← List.append_assoc]
    exact adds.maps
  · exact free₁.of_same adds.free adds.image
  · rw [boots.free, list, adds.free, List.append_assoc]
    rfl
  · rw [adds.nodes, give_nodes boots.maps.table list, boots.nodes]
  · rw [adds.refuse, List.length_append]
    exact boots.refuse (k + 1) |>.trans (congrArg _ (by simp only [List.length_singleton]; omega))

theorem procinitFrom_boots {n : ℕ} (boots : Boots m₀ m root tables pas) (upto : pas.length + n ≤ nproc)
    (given : ∀ k, k < n → ¬ m.Fails k) :
    Returns (procinitFrom root n pas.length) m fun r m' => r.length = n ∧ Boots m₀ m' root tables (pas ++ r) := by
  induction n generalizing m pas with
  | zero => exact .pure ⟨rfl, by rwa [List.append_nil]⟩
  | succ n ih =>
    obtain ⟨f, rest, list, taken⟩ := kalloc_give (given 0 (Nat.succ_pos n))
    unfold procinitFrom
    refine .bind ⟨some f, _, congrArg Except.ok taken, .bind ((boots.stack (by omega) list).mono fun _ m₁ boots₁ => ?_)⟩
    have next : (pas ++ [f]).length = pas.length + 1 := List.length_append
    have given₁ (k : ℕ) (less : k < n) : ¬ m₁.Fails k := by
      rw [boots₁.fails, next]
      have before := given (k + 1) (Nat.succ_lt_succ less)
      rw [boots.fails] at before
      rwa [show k + (73 + (pas.length + 1)) = k + 1 + (73 + pas.length) by omega]
    have later := ih boots₁ (by omega) given₁
    rw [next] at later
    refine .bind (later.mono ?_)
    rintro r m' ⟨length, boots'⟩
    rw [List.append_assoc] at boots'
    exact .pure ⟨congrArg Nat.succ length, boots'⟩

/-- The kernel boots with 137 pages: 73 tables and 64 stacks. -/
theorem procinit_boots (boots : Boots m₀ m root tables []) (given : ∀ k, k < nproc → ¬ m.Fails k) :
    Returns (procinit root) m fun r m' => r.length = nproc ∧ Boots m₀ m' root tables r :=
  procinitFrom_boots boots (Nat.zero_add _).le given

end Xv6Labs.Vm
