import Xv6Labs.Kalloc.PerCpuInv

/-!
# Uncontended calls of the Lab 3 page allocator

Calls of `kalloc` and `kfree` during which no other thread makes a step, and the states of a small machine
that they lead to.
-/

namespace Xv6Labs.Kalloc.PerCpu

open Relation LinkedChain

variable {image : Image} {s s' : State} {t u : Tid} {i j cpu : Fin ncpu}

/-- A step of thread `t` to a state whose lists satisfy `P`. -/
def Solo (image : Image) (t : Tid) (P : (Fin ncpu → ℕ) → Prop) (s s' : State) : Prop :=
  (∃ here, step image s t here = some s') ∧ P s'.heap.freelist

/-- `s` with the fields that thread `t` changes during a call, and `t` at `pc`. -/
def State.point (s : State) (t : Tid) (lock : Fin ncpu → Option Tid) (h : Heap) (out : List (Option Tid × ℕ))
    (pc : Pc) : State :=
  { heap := h, lock := lock, pc := Function.update s.pc t pc, out := out }

variable {P : (Fin ncpu → ℕ) → Prop} {lock : Fin ncpu → Option Tid} {h : Heap} {out : List (Option Tid × ℕ)}
  {pc pc' : Pc} {r pa : ℕ}

@[simp] theorem point_pc : (s.point t lock h out pc).pc t = pc := by simp [State.point]

@[simp] theorem point_heap : (s.point t lock h out pc).heap = h := rfl

@[simp] theorem point_goto : (s.point t lock h out pc).goto t pc' = s.point t lock h out pc' := by
  simp [State.point, State.goto]

theorem point_acquire (free : lock cpu = none) :
    (s.point t lock h out pc).acquire t cpu pc' =
      some (s.point t (Function.update lock cpu (some t)) h out pc') := by
  simp [State.point, State.acquire, State.goto, free]

theorem point_release (free : lock cpu = none) :
    (s.point t (Function.update lock cpu (some t)) h out pc).release t cpu pc' = s.point t lock h out pc' := by
  have back : Function.update (Function.update lock cpu (some t)) cpu none = lock := by
    rw [Function.update_idem, ← free, Function.update_eq_self]
  simp [State.point, State.release, State.goto, back]

theorem point_self (here : s.pc t = pc) : s.point t s.lock s.heap s.out pc = s := by
  subst here
  simp [State.point]

theorem point_idle (idle : s.pc t = .idle) :
    s.point t s.lock h out .idle = { s with heap := h, out := out } := by
  rw [State.point, ← idle, Function.update_eq_self]

/-- `kalloc` on a CPU whose list is empty gets into its steal loop. -/
theorem solo_scan (cpu : Fin ncpu) (free : lock cpu = none) (empty : h.freelist cpu = 0) (ok : P h.freelist) :
    ReflTransGen (Solo image t P) (s.point t lock h out .alloc) (s.point t lock h out (.scanAcquire 0)) := by
  refine .head (b := s.point t lock h out (.allocAcquire cpu)) ⟨⟨cpu, ?_⟩, ok⟩ ?_
  · simp only [step, point_pc, point_goto]
  refine .head (b := s.point t (Function.update lock cpu (some t)) h out (.allocRead cpu)) ⟨⟨cpu, ?_⟩, ok⟩ ?_
  · simp only [step, point_pc, point_acquire free]
  refine .head (b := s.point t (Function.update lock cpu (some t)) h out (.allocTake cpu 0)) ⟨⟨cpu, ?_⟩, ok⟩ ?_
  · simp only [step, point_pc, point_heap, empty, point_goto]
  refine .head (b := s.point t (Function.update lock cpu (some t)) h out (.allocRelease cpu 0)) ⟨⟨cpu, ?_⟩, ok⟩
    (.single ⟨⟨cpu, ?_⟩, ok⟩)
  · simp only [step, point_pc, State.take, if_pos, point_goto]
  · simp only [step, point_pc, if_pos, point_release free]

/-- A round of the steal loop at an empty list. -/
theorem solo_round (free : lock i = none) (empty : h.freelist i = 0) (ok : P h.freelist) :
    ReflTransGen (Solo image t P) (s.point t lock h out (.scanAcquire i)) (s.point t lock h out (scanNext i)) := by
  refine .head (b := s.point t (Function.update lock i (some t)) h out (.scanRead i)) ⟨⟨0, ?_⟩, ok⟩ ?_
  · simp only [step, point_pc, point_acquire free]
  refine .head (b := s.point t (Function.update lock i (some t)) h out (.scanTake i 0)) ⟨⟨0, ?_⟩, ok⟩ ?_
  · simp only [step, point_pc, point_heap, empty, point_goto]
  refine .head (b := s.point t (Function.update lock i (some t)) h out (.scanRelease i 0)) ⟨⟨0, ?_⟩, ok⟩
    (.single ⟨⟨0, ?_⟩, ok⟩)
  · simp only [step, point_pc, State.take, if_pos, point_goto]
  · simp only [step, point_pc, if_pos, point_release free]

/-- The rest of the steal loop when the lists from `i` on are empty. -/
theorem solo_fail (free : ∀ k, lock k = none) (empty : ∀ k, i ≤ k → h.freelist k = 0)
    (ok : P h.freelist) :
    ReflTransGen (Solo image t P) (s.point t lock h out (.scanAcquire i)) (s.point t lock h out (.ret 0)) := by
  obtain ⟨n, remaining⟩ : ∃ n, ncpu - i.val = n := ⟨_, rfl⟩
  induction n using Nat.strong_induction_on generalizing i with
  | _ n ih =>
    refine (solo_round (free i) (empty i le_rfl) ok).trans ?_
    unfold scanNext
    split
    · rename_i more
      exact ih (ncpu - (i.val + 1)) (by omega) (fun k above => empty k ((Nat.le_succ _).trans above)) rfl
    · exact .refl

/-- The steal loop takes the first page of the first list that is not empty. -/
theorem solo_steal (free : lock i = none) (head : h.freelist i = r) (nonzero : r ≠ 0) (before : P h.freelist)
    (after : P (Function.update h.freelist i (h.mem r))) :
    ReflTransGen (Solo image t P) (s.point t lock h out (.scanAcquire i))
      (s.point t lock ((h.setFreelist i (h.mem r)).memset r junkAlloc) ((some t, r) :: out) (.ret r)) := by
  let held := Function.update lock i (some t)
  let h' := h.setFreelist i (h.mem r)
  refine .head (b := s.point t held h out (.scanRead i)) ⟨⟨0, ?_⟩, before⟩ ?_
  · simp only [step, point_pc, point_acquire free, held]
  refine .head (b := s.point t held h out (.scanTake i r)) ⟨⟨0, ?_⟩, before⟩ ?_
  · simp only [step, point_pc, point_heap, head, point_goto]
  refine .head (b := s.point t held h' ((some t, r) :: out) (.scanRelease i r)) ⟨⟨0, ?_⟩, after⟩ ?_
  · simp only [step, point_pc, State.take, if_neg nonzero]
    simp [State.point, State.goto, h']
  refine .head (b := s.point t lock h' ((some t, r) :: out) (.fill r)) ⟨⟨0, ?_⟩, after⟩ (.single ⟨⟨0, ?_⟩, after⟩)
  · simp only [step, point_pc, if_neg nonzero, held, point_release free]
  · simp [step, State.point, State.goto, h']

/-- `kalloc` on a CPU whose list is not empty takes its first page. -/
theorem solo_kalloc (cpu : Fin ncpu) (idle : s.pc t = .idle) (free : s.lock cpu = none) (head : s.heap.freelist cpu = r)
    (nonzero : r ≠ 0) (before : P s.heap.freelist)
    (after : P (Function.update s.heap.freelist cpu (s.heap.mem r))) :
    ReflTransGen (Solo image t P) (s.goto t .alloc) { s with
      heap := (s.heap.setFreelist cpu (s.heap.mem r)).memset r junkAlloc, out := (none, r) :: s.out } := by
  rw [← point_idle idle]
  let lock := Function.update s.lock cpu (some t)
  let h := s.heap.setFreelist cpu (s.heap.mem r)
  refine .head (b := s.point t s.lock s.heap s.out (.allocAcquire cpu)) ⟨⟨cpu, ?_⟩, before⟩ ?_
  · simp [step, State.goto, State.point]
  refine .head (b := s.point t lock s.heap s.out (.allocRead cpu)) ⟨⟨cpu, ?_⟩, before⟩ ?_
  · simp only [step, point_pc, point_acquire free, lock]
  refine .head (b := s.point t lock s.heap s.out (.allocTake cpu r)) ⟨⟨cpu, ?_⟩, before⟩ ?_
  · simp only [step, point_pc, point_heap, head, point_goto]
  refine .head (b := s.point t lock h ((some t, r) :: s.out) (.allocRelease cpu r)) ⟨⟨cpu, ?_⟩, after⟩ ?_
  · simp only [step, point_pc, State.take, if_neg nonzero]
    simp [State.point, State.goto, h]
  refine .head (b := s.point t s.lock h ((some t, r) :: s.out) (.fill r)) ⟨⟨cpu, ?_⟩, after⟩ ?_
  · simp only [step, point_pc, if_neg nonzero, lock, point_release free]
  refine .head (b := s.point t s.lock (h.memset r junkAlloc) ((some t, r) :: s.out) (.ret r)) ⟨⟨cpu, ?_⟩, after⟩
    (.single ⟨⟨cpu, ?_⟩, after⟩)
  · simp [step, State.point, State.goto]
  · simp only [step, point_pc, if_neg nonzero]
    simp [State.point, State.pass, State.goto, h]

theorem solo_kfree (cpu : Fin ncpu) (idle : s.pc t = .idle) (free : s.lock cpu = none) (page : IsPage image pa)
    (before : P s.heap.freelist) (after : P (Function.update s.heap.freelist cpu pa)) :
    ReflTransGen (Solo image t P) (s.pass none (some t) pa t (.free pa)) { s with
      heap := ((s.heap.memset pa junkFree).setNext pa (s.heap.freelist cpu)).setFreelist cpu pa,
      out := s.out.erase (none, pa) } := by
  rw [← point_idle idle]
  let lock := Function.update s.lock cpu (some t)
  let out := (some t, pa) :: s.out.erase (none, pa)
  let h := (s.heap.memset pa junkFree).setNext pa (s.heap.freelist cpu)
  refine .head (b := s.point t s.lock s.heap out (.freeFill cpu pa)) ⟨⟨cpu, ?_⟩, before⟩ ?_
  · simp [step, State.goto, State.point, State.pass, page.not_bad, out]
  refine .head (b := s.point t s.lock (s.heap.memset pa junkFree) out (.freeAcquire cpu pa)) ⟨⟨cpu, ?_⟩, before⟩ ?_
  · simp [step, State.goto, State.point]
  refine .head (b := s.point t lock (s.heap.memset pa junkFree) out (.freeLink cpu pa)) ⟨⟨cpu, ?_⟩, before⟩ ?_
  · simp only [step, point_pc, point_acquire free, lock]
  refine .head (b := s.point t lock h out (.freePush cpu pa)) ⟨⟨cpu, ?_⟩, before⟩ ?_
  · simp [step, State.goto, State.point, h, Heap.memset]
  refine .head (b := s.point t lock (h.setFreelist cpu pa) (s.out.erase (none, pa)) (.freeRelease cpu))
    ⟨⟨cpu, ?_⟩, after⟩ (.single ⟨⟨cpu, ?_⟩, after⟩)
  · simp [step, State.goto, State.point, out]
  · simp only [step, point_pc, lock, point_release free]
    rfl

theorem solo_steps (steps : ReflTransGen (Solo image t P) s s') : ReflTransGen (Step image) s s' := by
  induction steps with
  | refl => exact .refl
  | tail _ last ih =>
    obtain ⟨⟨here, h⟩, -⟩ := last
    exact ih.tail (.run t here h)

theorem Reachable.solo (reach : Reachable image s) (steps : ReflTransGen (Solo image t P) s s') :
    Reachable image s' := by
  obtain ⟨mem, heap, boot, before⟩ := reach
  exact ⟨mem, heap, boot, before.trans (solo_steps steps)⟩

/-! ### A machine with two pages -/

/-- A machine with two pages of memory for the allocator. -/
def twoPages : Image := ⟨phystop - 2 * pgsize, by decide⟩

theorem twoPages_boot : ∃ h x y, kinit twoPages (fun _ => 0) = some h ∧ IsPage twoPages x ∧ IsPage twoPages y ∧
    x ≠ y ∧ h.freelist 0 = x ∧ h.mem x = y ∧ h.mem y = 0 ∧ ∀ k, k ≠ 0 → h.freelist k = 0 := by
  obtain ⟨h, l, boot, booting⟩ := kinit_booting twoPages fun _ => 0
  have pages : l.Perm [phystop - 2 * pgsize, phystop - pgsize] := by
    rw [List.perm_iff_count]
    intro q
    have pages : IsPage twoPages q ∧ q < phystop ↔ q = phystop - 2 * pgsize ∨ q = phystop - pgsize := by
      unfold IsPage pgroundup twoPages phystop kernbase pgsize
      simp only
      omega
    rw [booting.once q]
    simp only [pages, List.count_cons, List.count_nil]
    by_cases first : q = phystop - 2 * pgsize
    · subst first
      decide
    · by_cases second : q = phystop - pgsize
      · subst second
        decide
      · simp [first, second, Ne.symm first, Ne.symm second]
  obtain ⟨x, y, rfl⟩ := List.length_eq_two.mp pages.length_eq
  obtain ⟨rfl, -, link, -, last⟩ := booting.chain
  have distinct : [h.freelist 0, y].Nodup := pages.nodup_iff.mpr (by decide)
  have page : ∀ q ∈ [h.freelist 0, y], IsPage twoPages q := by
    intro q member
    have := pages.mem_iff.mp member
    revert this
    simp only [List.mem_cons, List.not_mem_nil, or_false]
    rintro (rfl | rfl) <;> decide
  exact ⟨h, _, y, boot, page _ (by simp), page _ (by simp), by simpa using distinct, rfl, link, link ▸ last,
    booting.others⟩

/-- Nothing is free: the kernel owns `x` and `y`. -/
structure Taken (s : State) (x y : ℕ) : Prop where
  reach : Reachable twoPages s
  idle : ∀ t, s.pc t = .idle
  free : ∀ k, s.lock k = none
  pages : IsPage twoPages x ∧ IsPage twoPages y ∧ x ≠ y
  empty : ∀ k, s.heap.freelist k = 0
  owned : (none, x) ∈ s.out ∧ (none, y) ∈ s.out

theorem taken_exists : ∃ s x y, Taken s x y := by
  obtain ⟨h, x, y, boot, pageX, pageY, ne, head, link, last, others⟩ := twoPages_boot
  -- Thread 1 takes both pages from list 0.
  have reach₀ : Reachable twoPages (initial h) := ⟨_, h, boot, .refl⟩
  have reach₁ := (reach₀.step (.kalloc 1 rfl)).solo (solo_kalloc (P := fun _ => True) (s := initial h) (t := 1)
    0 rfl rfl head pageX.ne_zero trivial trivial)
  let s₁ : State := { initial h with
    heap := (h.setFreelist 0 (h.mem x)).memset x junkAlloc, out := [(none, x)] }
  have apart : ∀ (heap : Heap) w, (heap.memset x w).mem y = heap.mem y := fun heap w =>
    memset_outside heap w pageY pageX ne.symm
  have reach₂ := (Reachable.step (s := s₁) reach₁ (.kalloc 1 rfl)).solo (solo_kalloc (P := fun _ => True) (s := s₁)
    (t := 1) (r := y) 0 rfl rfl (by simp [s₁, Heap.setFreelist, Heap.memset, link]) pageY.ne_zero trivial
    trivial)
  refine ⟨_, x, y, reach₂, fun _ => rfl, fun _ => rfl, ⟨pageX, pageY, ne⟩, fun k => ?_, by simp [s₁]⟩
  by_cases eq : k = 0
  · subst eq
    simpa [s₁, Heap.setFreelist, Heap.memset] using (apart _ _).trans last
  · simpa [s₁, Heap.setFreelist, Heap.memset, initial, eq] using others k eq

/-- The only free page is `x`, on list 2, and the kernel owns `y`. -/
structure Apart (s : State) (x y : ℕ) : Prop where
  reach : Reachable twoPages s
  idle : ∀ t, s.pc t = .idle
  free : ∀ k, s.lock k = none
  pages : IsPage twoPages x ∧ IsPage twoPages y ∧ x ≠ y
  head : s.heap.freelist 2 = x
  empty : ∀ k, k ≠ 2 → s.heap.freelist k = 0
  last : s.heap.mem x = 0
  owned : (none, y) ∈ s.out

/-- Thread 1 gives the first page back on CPU 2. -/
theorem Taken.apart {x y : ℕ} (taken : Taken s x y) :
    ∃ s', ReflTransGen (Step twoPages) s s' ∧ Apart s' x y := by
  obtain ⟨pageX, pageY, ne⟩ := taken.pages
  have call : Step twoPages s (s.pass none (some 1) x 1 (.free x)) := .kfree 1 x (taken.idle 1) taken.owned.1
  have freed := solo_kfree (P := fun _ => True) (t := 1) 2 (taken.idle 1) (taken.free 2) pageX
    trivial trivial
  refine ⟨_, .head call (solo_steps freed), (taken.reach.step call).solo freed, taken.idle, taken.free,
    ⟨pageX, pageY, ne⟩, ?_, fun k other => ?_, ?_, ?_⟩
  · simp [Heap.setFreelist]
  · simpa [Heap.setFreelist, Heap.setNext, Heap.memset, other] using taken.empty k
  · simpa [Heap.setFreelist, Heap.setNext] using taken.empty 2
  · exact (List.mem_erase_of_ne (by simp [ne.symm])).mpr taken.owned.2

theorem apart_exists : ∃ s x y, Apart s x y := by
  obtain ⟨s, x, y, taken⟩ := taken_exists
  obtain ⟨s', -, apart⟩ := taken.apart
  exact ⟨s', x, y, apart⟩

/-! ### Conservation -/

/-- The free lists are finite, acyclic and pairwise disjoint; they and the pages handed out make up the pages
of the allocator's range, each counted once; a thread has the page that its call is about and no other, so
none when it is not in a call; and a page that `kalloc` returns belongs to nobody else. -/
structure Conserved (image : Image) (s : State) : Prop where
  lists : ∃ l : Fin ncpu → List ℕ, (∀ cpu, Chain s.heap.mem (s.heap.freelist cpu) (l cpu)) ∧
    (∀ cpu, (l cpu).Nodup) ∧ (∀ i j, i ≠ j → List.Disjoint (l i) (l j)) ∧
    ∀ p, ∑ cpu, (l cpu).count p + (s.out.map Prod.snd).count p =
      if p % pgsize = 0 ∧ pgroundup image.last ≤ p ∧ p < phystop then 1 else 0
  held : ∀ t p, (some t, p) ∈ s.out ↔ (s.pc t).page = some p
  fresh : ∀ t r, s.pc t = .ret r → r ≠ 0 → (some t, r) ∈ s.out ∧ ∀ o, (o, r) ∈ s.out → o = some t

theorem Asserts.page {p : ℕ} {pc : Pc} (own : Asserts s t pc) (page : pc.page = some p) : (some t, p) ∈ s.out := by
  cases pc with
  | idle | alloc | allocAcquire | allocRead | allocTake | scanAcquire | scanRead | scanTake | freeRelease => cases page
  | panic => exact own.elim
  | allocRelease cpu r | scanRelease cpu r =>
    by_cases zero : r = 0
    · simp [Pc.page, zero] at page
    · obtain rfl : r = p := by simpa [Pc.page, zero] using page
      exact own.2 zero
  | fill r =>
    by_cases zero : r = 0
    · simp [Pc.page, zero] at page
    · obtain rfl : r = p := by simpa [Pc.page, zero] using page
      exact own
  | ret r =>
    by_cases zero : r = 0
    · simp [Pc.page, zero] at page
    · obtain rfl : r = p := by simpa [Pc.page, zero] using page
      exact own zero
  | free pa | freeFill cpu pa | freeAcquire cpu pa =>
    obtain rfl := Option.some.inj page
    exact own
  | freeLink cpu pa =>
    obtain rfl := Option.some.inj page
    exact own.2
  | freePush cpu pa =>
    obtain rfl := Option.some.inj page
    exact own.2.1

theorem reachable_conserved (h : Reachable image s) : Conserved image s := by
  have inv := reachable_inv h
  obtain ⟨l, lists⟩ := inv.lists
  refine ⟨⟨l, lists.chain, fun cpu => ?_, fun i j ne p left right => ?_, lists.once⟩,
    fun t p => ⟨reachable_held h t p, (inv.threads t).page⟩, fun t r pc nonzero => ?_⟩
  · rw [List.nodup_iff_count_le_one]
    intro p
    have le := lists.count_list_le cpu p
    split at le <;> omega
  · have once := lists.once p
    have := List.count_pos_iff.mpr left
    have := List.count_pos_iff.mpr right
    have two := Finset.add_sum_erase Finset.univ (fun k => (l k).count p) (Finset.mem_univ i)
    have := Finset.single_le_sum (f := fun k => (l k).count p) (fun _ _ => Nat.zero_le _)
      (Finset.mem_erase.mpr ⟨ne.symm, Finset.mem_univ j⟩)
    split at once <;> omega
  · have own := inv.threads t
    rw [pc] at own
    exact ⟨own nonzero, fun o other => lists.owner other (own nonzero)⟩

/-- Page `x` was freed on CPU 2 and thread 0 has stolen it from there. -/
theorem reachable_conserved_steal : ∃ s s' x y, Taken s x y ∧ ReflTransGen (Step twoPages) s s' ∧
    s'.pc 0 = .ret x ∧ (∀ k, s'.heap.freelist k = 0) ∧ Conserved twoPages s' := by
  obtain ⟨s, x, y, taken⟩ := taken_exists
  obtain ⟨s₁, steps, apart⟩ := taken.apart
  obtain ⟨pageX, -, -⟩ := apart.pages
  have call : Step twoPages s₁ (s₁.goto 0 .alloc) := .kalloc 0 (apart.idle 0)
  have scan : ReflTransGen (Solo twoPages 0 fun _ => True) (s₁.point 0 s₁.lock s₁.heap s₁.out .alloc)
      (s₁.point 0 s₁.lock s₁.heap s₁.out (.scanAcquire 0)) :=
        solo_scan 1 (apart.free 1) (apart.empty 1 (by decide)) trivial
  have stolen := ((scan.trans (solo_round (apart.free 0) (apart.empty 0 (by decide)) trivial)).trans
    (solo_round (apart.free 1) (apart.empty 1 (by decide)) trivial)).trans
    (solo_steal (i := 2) (apart.free 2) apart.head pageX.ne_zero trivial trivial)
  refine ⟨s, _, x, y, taken, steps.trans (.head call (solo_steps stolen)), point_pc, fun k => ?_,
    reachable_conserved ((apart.reach.step call).solo stolen)⟩
  by_cases eq : k = 2
  · subst eq
    simpa [Heap.setFreelist, Heap.memset] using apart.last
  · simpa [Heap.setFreelist, Heap.memset, eq] using apart.empty k eq

end Xv6Labs.Kalloc.PerCpu
