import Xv6Labs.Vm.Trades

/-!
# The memory of a process

A used slot of `proc[]` holds a trapframe, the memory of the user and a kernel page table. `allocproc` takes all that
from the free list, or gives back what it has taken; `freeproc` gives it back.
-/

namespace Xv6Labs.Vm

open Faults

variable {m m' m'' : Memory} {i : ℕ} {p p' : Held} {C : Set ℕ}

def Memory.held (m : Memory) (p : Held) : Set ℕ :=
  ({p.trapframe} ∪ m.owns p.pagetable (pagesOf p.sz)) ∪ m.nodes p.kpgtbl

/-- What a process kernel page table maps. -/
def slotRegions (image : Image) (i pa : ℕ) : List Region := processRegions image ++ [stackRegion i pa]

/-- Slot `i` is in use. -/
structure Slotted (m : Memory) (i : ℕ) (p : Held) : Prop where
  trap : m.Real p.trapframe
  whole : Whole m p.pagetable (pagesOf p.sz)
  kernel : MapsAll m p.kpgtbl (slotRegions m.image i p.pa) processBlocks
  used : ∀ x ∈ m.held p, x ∉ m.free
  frame : p.trapframe ∉ m.owns p.pagetable (pagesOf p.sz)
  frame' : p.trapframe ∉ m.nodes p.kpgtbl
  apart : ∀ x ∈ m.owns p.pagetable (pagesOf p.sz), x ∉ m.nodes p.kpgtbl

theorem Memory.Real.nonzero {x : ℕ} (real : m.Real x) : x ≠ 0 := by
  have low := real.kend
  have base := m.image.kernbase_lt
  omega

theorem Memory.Real.of_image {x : ℕ} (real : m.Real x) (image : m'.image = m.image) : m'.Real x :=
  ⟨real.aligned, image ▸ real.kend, real.phystop⟩

theorem held_agree (user : ∀ x ∈ m.nodes p.pagetable, m'.page x = m.page x)
    (kernel : ∀ x ∈ m.nodes p.kpgtbl, m'.page x = m.page x) :
    m'.held p = m.held p := by
  rw [Memory.held, Memory.held, Whole.owns_agree user, nodes_agree kernel]

theorem Slotted.real (slot : Slotted m i p) : ∀ x ∈ m.held p, m.Real x := by
  rintro x ((rfl | mem) | mem)
  · exact slot.trap
  · exact slot.whole.owns_real x mem
  · exact slot.kernel.real x mem

/-- A slot is as it was when its tables are, and none of its pages is freed. -/
theorem Slotted.keep (slot : Slotted m i p) (user : ∀ x ∈ m.nodes p.pagetable, m'.page x = m.page x)
    (kernel : ∀ x ∈ m.nodes p.kpgtbl, m'.page x = m.page x) (image : m'.image = m.image)
    (out : ∀ x ∈ m.held p, x ∉ m'.free) :
    Slotted m' i p := by
  have held := held_agree user kernel
  refine ⟨slot.trap.of_image image, slot.whole.keep user image fun x mem => out x (.inl (.inr mem)), ?_, ?_, ?_, ?_, ?_⟩
  · rw [image]
    exact slot.kernel.agree kernel image fun x mem => out x (.inr mem)
  · rw [held]
    exact out
  · rw [Whole.owns_agree user]
    exact slot.frame
  · rw [nodes_agree kernel]
    exact slot.frame'
  · rw [Whole.owns_agree user, nodes_agree kernel]
    exact slot.apart

/-! ### freeproc -/

theorem Freed.stays {pages : Set ℕ} {freed : List ℕ} (done : Freed m m' pages freed) (out : ∀ x ∈ C, x ∉ m.free)
    (off : ∀ x ∈ C, x ∉ pages) : ∀ x ∈ C, x ∉ m'.free ∧ m'.page x = m.page x := by
  intro x mem
  refine ⟨?_, done.others x (off x mem)⟩
  rw [done.free, List.mem_append, done.mem]
  rintro (there | there)
  · exact off x mem there
  · exact out x mem there

theorem Freed.kfree {x : ℕ} (real : m.Real x) : Returns (kfree x) m fun _ m' => Freed m m' {x} [x] :=
  ⟨(), m.kfree x, kfree_real real, rfl, rfl, List.nodup_singleton x, fun _ => List.mem_singleton, rfl,
    fun _ off => Function.update_of_ne off _ _⟩

theorem Freed.trans {pages pages' : Set ℕ} {freed freed' : List ℕ} (first : Freed m m' pages freed)
    (second : Freed m' m'' pages' freed')
    (apart : ∀ x ∈ pages, x ∉ pages') : Freed m m'' (pages ∪ pages') (freed' ++ freed) := by
  refine ⟨second.image.trans first.image, second.refuse.trans first.refuse, ?_, fun x => ?_, ?_, fun x off => ?_⟩
  · refine List.nodup_append.mpr ⟨second.nodup, first.nodup, fun x there y there' same => ?_⟩
    subst same
    exact apart x ((first.mem x).mp there') ((second.mem x).mp there)
  · rw [List.mem_append, second.mem, first.mem]
    exact or_comm
  · rw [second.free, first.free, List.append_assoc]
  · rw [second.others x fun there => off (.inr there), first.others x fun there => off (.inl there)]

def Held.cleared (p : Held) : Held := { p with trapframe := 0, pagetable := 0, kpgtbl := 0, sz := 0 }

theorem freeproc_spec (slot : Slotted m i p) :
    Returns (freeproc p) m fun r m' => r = p.cleared ∧ ∃ freed, Freed m m' (m.held p) freed := by
  have kernel_nonzero := (slot.kernel.real _ Radix.root_mem_nodes).nonzero
  unfold freeproc
  rw [onlyIf, if_pos slot.trap.nonzero, onlyIf, if_pos slot.whole.nonzero, onlyIf, if_pos kernel_nonzero]
  refine .bind ((Freed.kfree slot.trap).mono fun _ m₁ first => ?_)
  have stays₁ := first.stays (C := m.owns p.pagetable (pagesOf p.sz)) (fun x mem => slot.used x (.inl (.inr mem)))
    fun x mem same => slot.frame (same ▸ mem)
  have user₁ : ∀ x ∈ m.nodes p.pagetable, m₁.page x = m.page x := fun x mem => (stays₁ x (.inl mem)).2
  have whole₁ := slot.whole.keep user₁ first.image fun x mem => (stays₁ x mem).1
  have owns₁ : m₁.owns p.pagetable (pagesOf p.sz) = m.owns p.pagetable (pagesOf p.sz) := Whole.owns_agree user₁
  refine .bind ((procFreepagetable_spec whole₁).mono ?_)
  rintro - m₂ ⟨freed₂, second⟩
  rw [owns₁] at second
  have both := first.trans second fun x same mem => slot.frame (same ▸ mem)
  have stays₂ := both.stays (C := m.nodes p.kpgtbl) (fun x mem => slot.used x (.inr mem)) (by
    rintro x mem (rfl | there)
    · exact slot.frame' mem
    · exact slot.apart x there mem)
  have kernel₂ := slot.kernel.agree (fun x mem => (stays₂ x mem).2) both.image fun x mem => (stays₂ x mem).1
  refine .bind ((pfreewalk_spec kernel₂.table kernel₂.real).mono ?_)
  rintro - m₃ ⟨freed₃, third⟩
  rw [nodes_agree fun x mem => (stays₂ x mem).2] at third
  refine .pure ⟨rfl, _, both.trans third ?_⟩
  rintro x (rfl | there)
  · exact slot.frame'
  · exact slot.apart x there

theorem freeproc_trades (slot : Slotted m i p) (free : m.Free) :
    Returns (freeproc p) m fun r m' => r = p.cleared ∧ Trades m m' (m.held p) ∅ := by
  refine (freeproc_spec slot).mono ?_
  rintro r m' ⟨rfl, freed, done⟩
  exact ⟨rfl, done.trades free slot.real slot.used⟩

/-! ### allocproc -/

variable {f root : ℕ} {rest : List ℕ}

/-- What `allocproc` has before it makes the page table of the user. -/
structure Half (m : Memory) (i pa f root : ℕ) : Prop where
  trap : m.Real f
  kernel : MapsAll m root (slotRegions m.image i pa) processBlocks
  used : ∀ x ∈ {f} ∪ m.nodes root, x ∉ m.free
  frame : f ∉ m.nodes root

theorem Half.keep {pa : ℕ} (half : Half m i pa f root) (same : ∀ x ∈ m.nodes root, m'.page x = m.page x)
    (image : m'.image = m.image) (out : ∀ x ∈ {f} ∪ m.nodes root, x ∉ m'.free) : Half m' i pa f root := by
  refine ⟨half.trap.of_image image, ?_, ?_, ?_⟩
  · rw [image]
    exact half.kernel.agree same image fun x mem => out x (.inr mem)
  · rw [nodes_agree same]
    exact out
  · rw [nodes_agree same]
    exact half.frame

/-- Without a page table of the user, `freeproc` frees the rest. -/
theorem Half.freeproc {pa : ℕ} (half : Half m i pa f root) (free : m.Free) (trap : p.trapframe = f)
    (kernel : p.kpgtbl = root) (user : p.pagetable = 0) : Returns (freeproc p) m fun r m' => r = p.cleared ∧
      Trades m m' ({f} ∪ m.nodes root) ∅ := by
  have kernel_nonzero := (half.kernel.real _ Radix.root_mem_nodes).nonzero
  unfold Vm.freeproc
  rw [trap, kernel, user, onlyIf, if_pos half.trap.nonzero, onlyIf, if_neg fun absent => absent rfl, onlyIf,
    if_pos kernel_nonzero]
  refine .bind ((Freed.kfree half.trap).mono fun _ m₁ first => .bind (.pure ?_))
  have stays := first.stays (C := m.nodes root) (fun x mem => half.used x (.inr mem)) fun x mem same =>
    half.frame (same ▸ mem)
  have kernel₁ := half.kernel.agree (fun x mem => (stays x mem).2) first.image fun x mem => (stays x mem).1
  refine .bind ((pfreewalk_spec kernel₁.table kernel₁.real).mono ?_)
  rintro - m₂ ⟨freed, second⟩
  rw [nodes_agree fun x mem => (stays x mem).2] at second
  have both := first.trans second fun x same mem => half.frame (same ▸ mem)
  refine .pure ⟨rfl, both.trades free ?_ half.used⟩
  rintro x (rfl | mem)
  · exact half.trap
  · exact half.kernel.real x mem

/-- `Pvminit` and the mapping of the kernel stack. -/
theorem pvminit_half (free : m.Free) (less : i < nproc) {pa : ℕ} (aligned : pa % pgsize = 0) (bound : pa < phystop)
    (list : m.free = f :: rest) (granted : ¬ m.Fails 0) (given : ¬ (m.give f rest).Fails 0) :
    Returns pvminit (m.give f rest) (fun root m₂ => root ≠ 0 ∧ Spends m m₂ 73 ∧
        Returns (pvmmap (kstack i) pa pgsize (pteR ||| pteW) root) m₂ fun _ m' =>
          Half m' i pa f root ∧ Trades m m' ∅ ({f} ∪ m'.nodes root) ∧ Spends m m' 73) ∨
      pvminit (m.give f rest) = .error (.panic "Pvmmap") ∧ ∃ k, 2 ≤ k ∧ k < 73 ∧ m.Fails k := by
  have mem : f ∈ m.free := by rw [list]; exact List.mem_cons_self
  have small := free.small mem
  have free₁ : (m.give f rest).Free := free.grant list
  have real := free.real mem
  have first := give_trades free list
  have f_out : f ∉ (m.give f rest).free := first.apart f rfl
  have fails (k : ℕ) : (m.give f rest).Fails k ↔ m.Fails (k + 1) := give_fails list k
  have image₁ : (m.give f rest).image = m.image := rfl
  rw [pvminit_eq]
  obtain done | ⟨failed, k, few, fail⟩ := makeTable_spec "Pvmmap" processRegions free₁ given
    (processRegions_fit small) ((kernelRegions_apart small).sublist processRegions_sublist)
  · left
    refine done.mono ?_
    rintro root m₂ ⟨nonzero, tables, builds⟩
    rw [image₁, blocksOf_process small] at builds
    have maps := builds.mapsAll free₁
    have fits := stackRegion_fits less aligned bound
    have apart (s : Region) (there : s ∈ processRegions m.image) : s.Apart (stackRegion i pa) :=
      stack_apart small less (processRegions_sublist.subset there)
    have within : (stackRegion i pa).blocks ⊆ processBlocks := by
      rw [stack_blocks less]
      decide
    have spends := builds.spends
    rw [tableCount_process] at spends
    have before := (give_spends list granted).trans spends
    refine ⟨nonzero, before, .bind ((maps.region builds.list fits apart within).mono ?_)⟩
    rintro x m₃ ⟨rfl, adds⟩
    have second := builds.trades free₁
    have stays := second.stays (C := {f}) (by rintro x rfl; exact f_out) fun x _ none => Set.notMem_empty x none
    have third := adds.trades builds.list fun x mem => builds.table.owned x mem
    have build : Trades (m.give f rest) m₃ {f} ({f} ∪ m₃.nodes root) := by
      refine ((second.trans third).frame (C := {f}) (by rintro x rfl; exact f_out) fun x _ none =>
        Set.notMem_empty x none).congr ?_ ?_
      · rw [Set.empty_union]
      · rw [Set.union_comm]
    have all := first.trans build
    have off : f ∉ m₃.nodes root := by
      rw [adds.nodes]
      exact (stays f rfl).2.1
    have image₃ : m₃.image = m.image := adds.image.trans builds.image
    refine .pure ⟨⟨real.of_image image₃, ?_, all.apart, off⟩, all, before.trans adds.spends⟩
    rw [image₃]
    exact adds.maps
  · right
    rw [image₁, blocksOf_process small, tableCount_process] at few
    exact ⟨failed, k + 2, by omega, by omega, (fails (k + 1)).mp fail⟩

def trapRegion (frame : ℕ) : Region := ⟨trapframe, frame, pgsize, pteR ||| pteW⟩

def textRegion (image : Image) : Region := ⟨trampoline, image.trampoline, pgsize, pteR ||| pteX⟩

theorem trapRegion_fits {frame : ℕ} (aligned : frame % pgsize = 0) (bound : frame < phystop) :
    (trapRegion frame).Fits := by
  have top : phystop + pgsize ≤ 2 ^ 64 := by decide
  have below : trapframe + pgsize ≤ maxva := by decide
  have start : trapframe % pgsize = 0 := by decide
  have positive : 0 < pgsize := by decide
  exact ⟨positive, start, Nat.mod_self pgsize, aligned, below,
    (Nat.add_le_add_right bound.le pgsize).trans top, data_perm⟩

/-- `proc_pagetable` takes three pages, and fails if `kalloc` does for one of them. -/
theorem procPagetable_counts {frame : ℕ} (free : m.Free) (aligned : frame % pgsize = 0) (bound : frame < phystop) :
    Ends (procPagetable frame) m fun r m' => r ≠ 0 → Spends m m' 3 := by
  unfold procPagetable uvmcreate
  by_cases failed : m.Fails 0
  · refine .bind (.bind (Returns.ends ⟨none, m.refused, congrArg Except.ok (kalloc_none failed), .pure ?_⟩))
    rw [if_pos rfl]
    exact .pure fun nonzero => absurd rfl nonzero
  obtain ⟨granted, f, rest, list⟩ := not_fails_zero failed
  have mem : f ∈ m.free := by rw [list]; exact List.mem_cons_self
  have nonnull := free.nonzero mem
  have small := free.small mem
  refine .bind (.bind (Returns.ends ⟨some f, _, congrArg Except.ok (kalloc_some f rest list granted), .bind ?_⟩))
  rw [memset, if_neg nonnull]
  refine Returns.ends (.writes (.pure ?_))
  rw [if_neg nonnull]
  refine .bind (Returns.ends (.reads ?_))
  change Ends _ (m.grant f rest (filled 0)) _
  have fresh : Fresh m (m.grant f rest (filled 0)) f rest := ⟨list, rfl⟩
  have refuse₁ (k : ℕ) : (m.grant f rest (filled 0)).refuse k = m.refuse (k + 1) := rfl
  have length₁ : m.free.length = (m.grant f rest (filled 0)).free.length + 1 := by rw [list]; rfl
  generalize m.grant f rest (filled 0) = m₁ at fresh refuse₁ length₁
  obtain ⟨free₁, -⟩ := fresh.free free
  obtain ⟨table, -, ptes⟩ := fresh.table free
  have text_fits : (textRegion m.image).Fits := processRegions_fit small _ (by simp [processRegions, textRegion])
  have trap_fits := trapRegion_fits aligned bound
  have high : (textRegion m.image).blocks = {131071} :=
    (by decide : blocksFrom trampoline (trampoline + pgsize - pgsize) = {131071})
  have high' : (trapRegion frame).blocks = {131071} :=
    (by decide : blocksFrom trapframe (trapframe + pgsize - pgsize) = {131071})
  have two : tableCount {131071} = 2 := by decide
  have zero : tableCount ∅ = 0 := rfl
  refine .bind (Returns.ends ((text_fits.mappages_lays table free₁ (blank_covers fresh.blank) fun b _ => ?_).mono ?_))
  · rw [ptes]
    exact Nat.zero_and _
  rintro x m₂ (⟨rfl, taken, lays⟩ | ⟨rfl, -⟩)
  · rw [if_neg (by decide)]
    have count := lays.count
    have covers := lays.covers
    rw [high, Finset.empty_union] at count covers
    refine .bind (Returns.ends ((trap_fits.mappages_lays lays.table (free₁.grows lays.toGrows) covers fun b here =>
      ?_).mono ?_))
    · have low : ¬ (textRegion m.image).Has b := by
        have below : trapframe + pgsize = trampoline := by decide
        have high : b < trapframe + pgsize := here.2
        rintro ⟨low, -⟩
        change trampoline ≤ b at low
        omega
      rw [lays.ptes b (lt_of_lt_of_le here.2 trap_fits.below), Region.entry, if_neg low, ptes]
      exact Nat.zero_and _
    rintro x m₃ (⟨rfl, taken', lays'⟩ | ⟨rfl, -⟩)
    · rw [if_neg (by decide)]
      have count' := lays'.count
      rw [high', Finset.union_self] at count'
      have none : taken' = [] := List.length_eq_zero_iff.mp (by omega)
      subst none
      have length : m₁.free.length = taken.length + m₂.free.length := by rw [lays.free, List.length_append]
      have length' : m₂.free.length = m₃.free.length := congrArg List.length lays'.free
      refine .pure fun _ => ⟨by omega, fun k => ?_, fun k less => ?_⟩
      · rw [lays'.refuse, lays.refuse, refuse₁, show taken.length = 2 by omega]
        rfl
      · cases k with
        | zero => exact failed
        | succ k =>
          have given := lays.never k (by omega)
          rw [Memory.Fails, refuse₁] at given
          rwa [Memory.Fails, length₁, Nat.add_le_add_iff_right]
    · rw [if_pos (by decide)]
      exact .bind (.always fun _ _ => .bind (.always fun _ _ => .pure fun nonzero => absurd rfl nonzero))
  · rw [if_pos (by decide)]
    exact .bind (.always fun _ _ => .pure fun nonzero => absurd rfl nonzero)

/-- A slot that is not in use, with its kernel stack. -/
structure Held.Unused (p : Held) : Prop where
  clear : p = p.cleared
  aligned : p.pa % pgsize = 0
  bound : p.pa < phystop

/-- A slot has been made from free pages. -/
structure Allocates (m m' : Memory) (i : ℕ) (p p' : Held) : Prop where
  slot : Slotted m' i p'
  trades : Trades m m' ∅ (m'.held p')
  spends : Spends m m' 76
  pa : p'.pa = p.pa
  sz : p'.sz = 0

/-- How `allocproc` ends. The first failure of `kalloc` decides: at the trapframe it returns 0; at the 72 pages of
the kernel page table the kernel faults; at the 3 pages of the user's page table it gives everything back. -/
theorem allocproc_spec (free : m.Free) (less : i < nproc) (unused : p.Unused) :
    m.Fails 0 ∧ Returns (allocproc i p) m (fun r m' => r = (false, p) ∧ Trades m m' ∅ ∅) ∨
    ¬ m.Fails 0 ∧ m.Fails 1 ∧ allocproc i p m = .error .null ∨
    ¬ m.Fails 0 ∧ ¬ m.Fails 1 ∧ (∃ k, 2 ≤ k ∧ k < 73 ∧ m.Fails k) ∧ allocproc i p m = .error (.panic "Pvmmap") ∨
    (∀ k, k < 73 → ¬ m.Fails k) ∧ Returns (allocproc i p) m (fun r m' =>
      r = (false, p) ∧ Trades m m' ∅ ∅ ∧ (∃ k, 73 ≤ k ∧ k < 76 ∧ m.Fails k) ∨ r.1 = true ∧ Allocates m m' i p r.2) := by
  by_cases failed : m.Fails 0
  · refine .inl ⟨failed, .bind ⟨none, m.refused, congrArg Except.ok (kalloc_none failed), .pure ⟨?_, ?_⟩⟩⟩
    · rw [unused.clear]
      rfl
    · exact (⟨rfl, List.Perm.refl _, fun _ _ => rfl⟩ : Back m m.refused).trades free
  obtain ⟨f, rest, list, taken⟩ := kalloc_give failed
  have fails := give_fails list
  right
  by_cases failed₁ : m.Fails 1
  · refine .inl ⟨failed, failed₁, fails_bind ⟨some f, _, congrArg Except.ok taken, ?_⟩⟩
    change (pvminit (m.give f rest) >>= _) = _
    rw [pvminit_eq, makeTable_null ((fails 0).mpr failed₁)]
    rfl
  right
  have given : ¬ (m.give f rest).Fails 0 := fun fail => failed₁ ((fails 0).mp fail)
  rcases pvminit_half free less unused.aligned unused.bound list failed given with done | ⟨panics, some⟩
  · have never : ∀ k, k < 73 → ¬ m.Fails k := by
      obtain ⟨_, _, _, _, spends, _⟩ := done
      exact spends.never
    refine .inr ⟨never, .bind ⟨some f, _, congrArg Except.ok taken, .bind (done.mono ?_)⟩⟩
    rintro root m₂ ⟨nonzero, -, stack⟩
    rw [if_neg nonzero]
    refine .bind (stack.mono ?_)
    rintro - m₃ ⟨half, build, spent⟩
    refine .bind (((procPagetable_spec build.list f).and_ends
      (procPagetable_counts build.list half.trap.aligned half.trap.phystop)).mono ?_)
    rintro user m₄ ⟨⟨rfl, back, k, few, fail⟩ | ⟨nonzero', tables, made⟩, counts⟩
    · have trades := back.trades build.list
      have stays := trades.stays (C := {f} ∪ m₃.nodes root) half.used fun x _ none => Set.notMem_empty x none
      have same : ∀ x ∈ m₃.nodes root, m₄.page x = m₃.page x := fun x mem => (stays x (.inr mem)).2.2
      have half₄ := half.keep same trades.image fun x mem => (stays x mem).1
      have kept := trades.frame (C := {f} ∪ m₃.nodes root) half.used fun x _ none => Set.notMem_empty x none
      rw [if_pos rfl]
      refine .bind ((half₄.freeproc (p := { p with trapframe := f, kpgtbl := root, pagetable := 0 }) trades.list rfl
        rfl rfl).mono ?_)
      rintro - m₅ ⟨rfl, freed⟩
      rw [nodes_agree same] at freed
      rw [Set.empty_union] at kept
      refine .pure (.inl ⟨?_, (build.trans kept).trans freed, k + 73, by omega, by omega, (spent.fails k).mp fail⟩)
      rw [unused.clear]
      rfl
    · have trades := made.trades build.list
      have stays := trades.stays (C := {f} ∪ m₃.nodes root) half.used fun x _ none => Set.notMem_empty x none
      have same : ∀ x ∈ m₃.nodes root, m₄.page x = m₃.page x := fun x mem => (stays x (.inr mem)).2.2
      have half₄ := half.keep same trades.image fun x mem => (stays x mem).1
      have kept := trades.frame (C := {f} ∪ m₃.nodes root) half.used fun x _ none => Set.notMem_empty x none
      have size : p.sz = 0 := congrArg Held.sz unused.clear
      have held : m₄.held { p with trapframe := f, kpgtbl := root, pagetable := user } =
          m₄.owns user 0 ∪ ({f} ∪ m₃.nodes root) := by
        rw [Memory.held, size, nodes_agree same]
        ext x
        simp only [Set.mem_union]
        tauto
      rw [Set.empty_union, ← held] at kept
      have all := build.trans kept
      have zero : pagesOf p.sz = 0 := by rw [size]; rfl
      rw [if_neg nonzero']
      refine .pure (.inr ⟨rfl, ⟨half₄.trap, ?_, half₄.kernel, all.apart, ?_, half₄.frame, fun x mem there => ?_⟩, all,
        spent.trans (counts nonzero'), rfl, size⟩)
      · dsimp only
        rw [zero]
        exact made.whole
      · dsimp only
        rw [zero]
        exact (stays f (.inl rfl)).2.1
      · dsimp only at mem there
        rw [zero] at mem
        rw [nodes_agree same] at there
        exact (stays x (.inr there)).2.1 mem
  · refine .inl ⟨failed, failed₁, some, fails_bind ⟨_, _, congrArg Except.ok taken, ?_⟩⟩
    change (pvminit (m.give f rest) >>= _) = _
    rw [panics]
    rfl

end Xv6Labs.Vm