import Mathlib
import Xv6Labs.Kalloc.PerCpu
import Xv6Labs.Lib.Chain

/-!
# The Lab 3 page allocator conserves pages

`Lists` says that the free lists are chains in memory and that every page of the range given to the
allocator is either on exactly one of them, once, or handed out, once. `Asserts` is what a thread relies on
between two of its steps and `Guarantee u` is what a step of thread `u` leaves to the others: who holds a
list's lock finds its head unchanged, and who has a page finds its first word unchanged.
-/

namespace Xv6Labs.Kalloc.PerCpu

open LinkedChain

variable {image : Image} {h h' : Heap} {s s' : State} {t u : Tid} {out : List (Option Tid × ℕ)}
  {l : Fin ncpu → List ℕ} {cpu here : Fin ncpu} {p pa : ℕ}

def IsPage (image : Image) (p : ℕ) : Prop := p % pgsize = 0 ∧ pgroundup image.last ≤ p ∧ p < phystop

instance : Decidable (IsPage image p) := inferInstanceAs (Decidable (_ ∧ _ ∧ _))

/-- The chains of the free lists, and every page counted once. -/
structure Lists (image : Image) (h : Heap) (out : List (Option Tid × ℕ)) (l : Fin ncpu → List ℕ) : Prop where
  chain : ∀ cpu, Chain h.mem (h.freelist cpu) (l cpu)
  once : ∀ p, ∑ cpu, (l cpu).count p + (out.map Prod.snd).count p = if IsPage image p then 1 else 0

def Asserts (s : State) (t : Tid) : Pc → Prop
  | .idle | .alloc | .allocAcquire _ | .scanAcquire _ => True
  | .panic => False
  | .allocRead cpu | .scanRead cpu | .freeRelease cpu => s.lock cpu = some t
  | .allocTake cpu r | .scanTake cpu r => s.lock cpu = some t ∧ s.heap.freelist cpu = r
  | .allocRelease cpu r | .scanRelease cpu r => s.lock cpu = some t ∧ (r ≠ 0 → (some t, r) ∈ s.out)
  | .ret r => r ≠ 0 → (some t, r) ∈ s.out
  | .fill pa | .free pa | .freeFill _ pa | .freeAcquire _ pa => (some t, pa) ∈ s.out
  | .freeLink cpu pa => s.lock cpu = some t ∧ (some t, pa) ∈ s.out
  | .freePush cpu pa => s.lock cpu = some t ∧ (some t, pa) ∈ s.out ∧ s.heap.mem pa = s.heap.freelist cpu

structure Inv (image : Image) (s : State) : Prop where
  lists : ∃ l, Lists image s.heap s.out l
  threads : ∀ t, Asserts s t (s.pc t)

structure Guarantee (u : Tid) (s s' : State) : Prop where
  pc : ∀ t, t ≠ u → s'.pc t = s.pc t
  lock : ∀ t, t ≠ u → ∀ cpu, s.lock cpu = some t → s'.lock cpu = some t
  out : ∀ t, t ≠ u → ∀ p, (some t, p) ∈ s.out → (some t, p) ∈ s'.out
  freelist : ∀ t, t ≠ u → ∀ cpu, s.lock cpu = some t → s'.heap.freelist cpu = s.heap.freelist cpu
  mem : ∀ t, t ≠ u → ∀ p, (some t, p) ∈ s.out → s'.heap.mem p = s.heap.mem p

theorem Asserts.stable {pc : Pc} (a : Asserts s t pc) (g : Guarantee u s s') (ne : t ≠ u) :
    Asserts s' t pc := by
  have lock := g.lock t ne
  have out := g.out t ne
  cases pc with
  | idle | alloc | allocAcquire | scanAcquire => trivial
  | panic => exact a
  | allocRead | scanRead | freeRelease => exact lock _ a
  | allocTake | scanTake => exact ⟨lock _ a.1, by rw [g.freelist t ne _ a.1, a.2]⟩
  | allocRelease | scanRelease => exact ⟨lock _ a.1, fun nonzero => out _ (a.2 nonzero)⟩
  | ret => exact fun nonzero => out _ (a nonzero)
  | fill | free | freeFill | freeAcquire => exact out _ a
  | freeLink => exact ⟨lock _ a.1, out _ a.2⟩
  | freePush =>
    exact ⟨lock _ a.1, out _ a.2.1, by rw [g.mem t ne _ a.2.1, g.freelist t ne _ a.1, a.2.2]⟩

theorem Inv.next (inv : Inv image s) (g : Guarantee u s s') (lists : ∃ l, Lists image s'.heap s'.out l)
    (own : Asserts s' u (s'.pc u)) : Inv image s' := by
  refine ⟨lists, fun t => ?_⟩
  by_cases eq : t = u
  · subst eq
    exact own
  · rw [g.pc t eq]
    exact (inv.threads t).stable g eq

/-! ### Counting pages -/

theorem IsPage.not_bad (page : IsPage image p) : ¬BadPage image p := by
  unfold BadPage pgsize
  unfold IsPage pgroundup pgsize at page
  omega

theorem IsPage.ne_zero (page : IsPage image p) : p ≠ 0 := by
  have loaded := image.loaded
  unfold kernbase at loaded
  unfold IsPage pgroundup pgsize at page
  omega

theorem IsPage.apart (page : IsPage image p) (page' : IsPage image pa) (ne : p ≠ pa) :
    ¬(pa ≤ p ∧ p < pa + pgsize) := by
  unfold IsPage pgsize at page page'
  unfold pgsize
  omega

theorem sum_count_update (l : Fin ncpu → List ℕ) (cpu : Fin ncpu) (v : List ℕ) (p : ℕ) :
    ∑ k, (Function.update l cpu v k).count p + (l cpu).count p = ∑ k, (l k).count p + v.count p := by
  have moved : (fun k => (Function.update l cpu v k).count p) =
      Function.update (fun k => (l k).count p) cpu (v.count p) := by
    funext k
    by_cases eq : k = cpu
    · subst eq
      simp
    · simp [eq]
  rw [moved, Finset.sum_update_of_mem (Finset.mem_univ cpu),
    ← Finset.sum_sdiff (Finset.subset_univ {cpu}), Finset.sum_singleton]
  omega

theorem Lists.page_of_out (lists : Lists image h out l) {o : Option Tid} (member : (o, p) ∈ out) :
    IsPage image p := by
  have once := lists.once p
  have := List.count_pos_iff.mpr (List.mem_map_of_mem (f := Prod.snd) member)
  by_contra other
  rw [if_neg other] at once
  simp only at this
  omega

theorem Lists.count_list_le (lists : Lists image h out l) (cpu : Fin ncpu) (p : ℕ) :
    (l cpu).count p + (out.map Prod.snd).count p ≤ if IsPage image p then 1 else 0 := by
  have once := lists.once p
  have := Finset.single_le_sum (f := fun k => (l k).count p) (fun _ _ => Nat.zero_le _) (Finset.mem_univ cpu)
  omega

theorem Lists.page_of_mem (lists : Lists image h out l) (member : p ∈ l cpu) : IsPage image p := by
  have le := lists.count_list_le cpu p
  have := List.count_pos_iff.mpr member
  by_contra other
  rw [if_neg other] at le
  omega

theorem Lists.apart (lists : Lists image h out l) {o : Option Tid} (member : p ∈ l cpu) (given : (o, pa) ∈ out) :
    p ≠ pa := by
  rintro rfl
  have le := lists.count_list_le cpu p
  have := List.count_pos_iff.mpr member
  have := List.count_pos_iff.mpr (List.mem_map_of_mem (f := Prod.snd) given)
  simp only at this
  split at le <;> omega

theorem map_snd_perm {o : Option Tid} (member : (o, p) ∈ out) :
    (out.map Prod.snd).Perm (p :: (out.erase (o, p)).map Prod.snd) :=
  (List.perm_cons_erase member).map Prod.snd

/-- A page that is handed out is handed out once. -/
theorem Lists.gone (lists : Lists image h out l) {o o' : Option Tid} (member : (o, p) ∈ out) :
    (o', p) ∉ out.erase (o, p) := by
  intro again
  have once := lists.once p
  have := List.count_pos_iff.mpr (List.mem_map_of_mem (f := Prod.snd) again)
  rw [(map_snd_perm member).count_eq, List.count_cons_self] at once
  simp only at this
  split at once <;> omega

theorem Lists.owner (lists : Lists image h out l) {o o' : Option Tid} (member : (o, p) ∈ out)
    (member' : (o', p) ∈ out) : o = o' := by
  by_contra other
  exact lists.gone member ((List.mem_erase_of_ne (by simpa using fun e => other e.symm)).mpr member')

/-! ### What the kinds of steps do to the lists -/

/-- Writes to handed-out pages leave the chains alone. -/
theorem Lists.congr (lists : Lists image h out l) {out' : List (Option Tid × ℕ)}
    (heads : h'.freelist = h.freelist) (words : ∀ cpu, ∀ p ∈ l cpu, h'.mem p = h.mem p)
    (pages : (out'.map Prod.snd).Perm (out.map Prod.snd)) : Lists image h' out' l := by
  refine ⟨fun cpu => ?_, fun p => ?_⟩
  · rw [heads]
    exact (lists.chain cpu).congr (words cpu)
  · rw [pages.count_eq]
    exact lists.once p

theorem Lists.take (lists : Lists image h out l) {r : ℕ} (head : h.freelist cpu = r) (nonzero : r ≠ 0)
    (o : Option Tid) : ∃ l', Lists image (h.setFreelist cpu (h.mem r)) ((o, r) :: out) l' := by
  subst head
  obtain ⟨rest, split, chain⟩ := (lists.chain cpu).head nonzero
  refine ⟨Function.update l cpu rest, fun k => ?_, fun p => ?_⟩
  · by_cases eq : k = cpu
    · subst eq
      simpa [Heap.setFreelist] using chain
    · simpa [Heap.setFreelist, eq] using lists.chain k
  · have once := lists.once p
    have moved := sum_count_update l cpu rest p
    rw [split, List.count_cons] at moved
    show _ + (h.freelist cpu :: out.map Prod.snd).count p = _
    rw [List.count_cons]
    omega

theorem Lists.push (lists : Lists image h out l) {o : Option Tid} (given : (o, pa) ∈ out)
    (link : h.mem pa = h.freelist cpu) : ∃ l', Lists image (h.setFreelist cpu pa) (out.erase (o, pa)) l' := by
  refine ⟨Function.update l cpu (pa :: l cpu), fun k => ?_, fun p => ?_⟩
  · by_cases eq : k = cpu
    · subst eq
      have chain := lists.chain k
      rw [← link] at chain
      simpa [Heap.setFreelist] using chain.cons (lists.page_of_out given).ne_zero
    · simpa [Heap.setFreelist, eq] using lists.chain k
  · have once := lists.once p
    have moved := sum_count_update l cpu (pa :: l cpu) p
    rw [(map_snd_perm given).count_eq, List.count_cons] at once
    rw [List.count_cons] at moved
    omega

theorem Lists.write (lists : Lists image h out l) (h' : Heap) {o : Option Tid} (given : (o, pa) ∈ out)
    (outside : ∀ p, IsPage image p → IsPage image pa → p ≠ pa → h'.mem p = h.mem p) :
    (∀ k, ∀ p ∈ l k, h'.mem p = h.mem p) ∧
      ∀ o' p, (o', p) ∈ out → o' ≠ o → h'.mem p = h.mem p := by
  have page := lists.page_of_out given
  constructor
  · intro k p member
    exact outside p (lists.page_of_mem member) page (lists.apart member given)
  · intro o' p other ne
    apply outside p (lists.page_of_out other) page
    rintro rfl
    exact ne (lists.owner other given)

theorem memset_outside (h : Heap) (w : ℕ) (page : IsPage image p) (page' : IsPage image pa) (ne : p ≠ pa) :
    (h.memset pa w).mem p = h.mem p := by
  unfold Heap.memset
  exact if_neg (page.apart page' ne)

/-! ### Every step -/

theorem goto_pc (s : State) (t : Tid) (pc : Pc) : (s.goto t pc).pc t = pc := by simp [State.goto]

theorem goto_pc_other (s : State) (pc : Pc) (ne : t ≠ u) : (s.goto u pc).pc t = s.pc t := by
  simp [State.goto, ne]

theorem Inv.goto (inv : Inv image s) {pc : Pc} (own : Asserts (s.goto u pc) u pc) :
    Inv image (s.goto u pc) := by
  refine inv.next (u := u) ?g inv.lists ?o
  case o =>
    rw [goto_pc]
    exact own
  case g =>
    exact ⟨fun t ne => goto_pc_other s pc ne, fun _ _ _ h => h, fun _ _ _ h => h, fun _ _ _ _ => rfl,
      fun _ _ _ _ => rfl⟩

theorem Inv.acquire (inv : Inv image s) {pc : Pc} (ok : s.acquire u cpu pc = some s')
    (own : s'.lock cpu = some u → s'.heap = s.heap → s'.out = s.out → Asserts s' u pc) : Inv image s' := by
  unfold State.acquire at ok
  split at ok
  · rename_i free
    obtain rfl := Option.some.inj ok
    refine inv.next (u := u) ?g inv.lists ?o
    case o =>
      rw [goto_pc]
      exact own (by simp [State.goto]) rfl rfl
    case g =>
      refine ⟨fun t ne => goto_pc_other _ pc ne, fun t ne k held => ?_, fun _ _ _ h => h, fun _ _ _ _ => rfl,
        fun _ _ _ _ => rfl⟩
      have other : k ≠ cpu := by
        rintro rfl
        rw [free] at held
        cases held
      simpa [State.goto, other] using held
  · cases ok

theorem Inv.release (inv : Inv image s) {pc : Pc} (held : s.lock cpu = some u)
    (own : Asserts (s.release u cpu pc) u pc) : Inv image (s.release u cpu pc) := by
  refine inv.next (u := u) ?g inv.lists ?o
  case o =>
    unfold State.release
    rw [goto_pc]
    exact own
  case g =>
    refine ⟨fun t ne => goto_pc_other _ pc ne, fun t ne k other => ?_, fun _ _ _ h => h, fun _ _ _ _ => rfl,
      fun _ _ _ _ => rfl⟩
    have apart : k ≠ cpu := by
      rintro rfl
      exact ne (Option.some.inj (other.symm.trans held))
    simpa [State.release, State.goto, apart] using other

/-- A write to the memory of a page by the thread that has it. -/
theorem Inv.write (inv : Inv image s) (h' : Heap) (given : (some u, pa) ∈ s.out)
    (heads : h'.freelist = s.heap.freelist)
    (outside : ∀ p, IsPage image p → IsPage image pa → p ≠ pa → h'.mem p = s.heap.mem p) {pc : Pc}
    (own : Asserts ({ s with heap := h' }.goto u pc) u pc) : Inv image ({ s with heap := h' }.goto u pc) := by
  obtain ⟨l, lists⟩ := inv.lists
  obtain ⟨chains, others⟩ := lists.write h' given outside
  refine inv.next (u := u) ?g ⟨l, lists.congr heads chains (List.Perm.refl _)⟩ ?o
  case o =>
    rw [goto_pc]
    exact own
  case g =>
    exact ⟨fun t ne => goto_pc_other _ pc ne, fun _ _ _ h => h, fun _ _ _ h => h,
      fun _ _ _ _ => congrFun heads _, fun t ne p other => others (some t) p other (by simpa using ne)⟩

theorem Inv.take (inv : Inv image s) {r : ℕ} (held : s.lock cpu = some u) (head : s.heap.freelist cpu = r) {pc : Pc}
    (own : (r ≠ 0 → (some u, r) ∈ (s.take u cpu r pc).out) → (s.take u cpu r pc).lock = s.lock →
      Asserts (s.take u cpu r pc) u pc) : Inv image (s.take u cpu r pc) := by
  unfold State.take at own ⊢
  split
  · rename_i zero
    apply inv.goto
    rw [if_pos zero] at own
    exact own (fun nonzero => (nonzero zero).elim) rfl
  · rename_i nonzero
    rw [if_neg nonzero] at own
    obtain ⟨l, lists⟩ := inv.lists
    apply inv.next (u := u) ?_ (lists.take head nonzero (some u))
    · rw [goto_pc]
      exact own (fun _ => List.mem_cons_self) rfl
    · refine ⟨fun t ne => goto_pc_other _ pc ne, fun _ _ _ h => h, fun _ _ _ h => List.mem_cons_of_mem _ h,
        fun t ne k other => ?_, fun _ _ _ _ => rfl⟩
      have apart : k ≠ cpu := by
        rintro rfl
        exact ne (Option.some.inj (other.symm.trans held))
      simp [State.goto, Heap.setFreelist, apart]

theorem Inv.push (inv : Inv image s) (held : s.lock cpu = some u) (given : (some u, pa) ∈ s.out)
    (link : s.heap.mem pa = s.heap.freelist cpu) {pc : Pc}
    (own : Asserts ({ s with heap := s.heap.setFreelist cpu pa, out := s.out.erase (some u, pa) }.goto u pc) u pc) :
    Inv image ({ s with heap := s.heap.setFreelist cpu pa, out := s.out.erase (some u, pa) }.goto u pc) := by
  obtain ⟨l, lists⟩ := inv.lists
  apply inv.next (u := u) ?_ (lists.push given link)
  · rw [goto_pc]
    exact own
  · refine ⟨fun t ne => goto_pc_other _ pc ne, fun _ _ _ h => h, fun t ne p other => ?_, fun t ne k other => ?_,
      fun _ _ _ _ => rfl⟩
    · exact (List.mem_erase_of_ne (by simp [ne])).mpr other
    · have apart : k ≠ cpu := by
        rintro rfl
        exact ne (Option.some.inj (other.symm.trans held))
      simp [State.goto, Heap.setFreelist, apart]

theorem Inv.pass (inv : Inv image s) {src dst : Option Tid} (given : (src, pa) ∈ s.out)
    (mine : src = some u ∨ src = none) {pc : Pc} (own : Asserts (s.pass src dst pa u pc) u pc) :
    Inv image (s.pass src dst pa u pc) := by
  obtain ⟨l, lists⟩ := inv.lists
  apply inv.next (u := u) ?_ ⟨l, ?_⟩
  · unfold State.pass
    rw [goto_pc]
    exact own
  · refine ⟨fun t ne => goto_pc_other _ pc ne, fun _ _ _ h => h, fun t ne p other => ?_, fun _ _ _ _ => rfl,
      fun _ _ _ _ => rfl⟩
    apply List.mem_cons_of_mem
    apply (List.mem_erase_of_ne _).mpr other
    rcases mine with rfl | rfl
    · simp [ne]
    · simp
  · exact lists.congr rfl (fun _ _ _ => rfl) (map_snd_perm given).symm

theorem step_others (h : step image s t here = some s') (ne : u ≠ t) : s'.pc u = s.pc u := by
  have moved : ∀ (a : State) pc, (a.goto t pc).pc u = a.pc u := fun a pc => goto_pc_other a pc ne
  unfold step at h
  simp only [State.acquire, State.release, State.take, State.pass] at h
  split at h
  all_goals (repeat' split at h)
  all_goals first | (obtain rfl := Option.some.inj h; exact moved _ _) | cases h

theorem step_inv (inv : Inv image s) (h : step image s u here = some s') : Inv image s' := by
  have own := inv.threads u
  cases pc : s.pc u with
  | idle | panic => simp [step, pc] at h
  | alloc =>
    simp only [step, pc, Option.some.injEq] at h
    subst h
    exact inv.goto trivial
  | allocAcquire | scanAcquire =>
    simp only [step, pc] at h
    exact inv.acquire h fun locked _ _ => locked
  | allocRead | scanRead =>
    rw [pc] at own
    simp only [step, pc, Option.some.injEq] at h
    subst h
    exact inv.goto ⟨own, rfl⟩
  | allocTake | scanTake =>
    rw [pc] at own
    simp only [step, pc, Option.some.injEq] at h
    subst h
    exact inv.take own.1 own.2 fun taken lock => ⟨by rw [lock]; exact own.1, taken⟩
  | allocRelease cpu r =>
    rw [pc] at own
    simp only [step, pc, Option.some.injEq] at h
    subst h
    apply inv.release own.1
    split
    · trivial
    · exact own.2 ‹_›
  | scanRelease i r =>
    rw [pc] at own
    simp only [step, pc, Option.some.injEq] at h
    subst h
    apply inv.release own.1
    split
    · unfold scanNext
      split
      · trivial
      · exact fun nonzero => (nonzero rfl).elim
    · exact own.2 ‹_›
  | fill r =>
    rw [pc] at own
    simp only [step, pc, Option.some.injEq] at h
    subst h
    exact inv.write (s.heap.memset r junkAlloc) own rfl (fun _ page page' ne => memset_outside _ _ page page' ne)
      fun _ => own
  | ret r =>
    rw [pc] at own
    simp only [step, pc, Option.some.injEq] at h
    subst h
    split
    · exact inv.goto trivial
    · exact inv.pass (own ‹_›) (.inl rfl) trivial
  | free pa =>
    rw [pc] at own
    simp only [step, pc, Option.some.injEq] at h
    subst h
    obtain ⟨l, lists⟩ := inv.lists
    rw [if_neg (lists.page_of_out own).not_bad]
    exact inv.goto own
  | freeFill cpu pa =>
    rw [pc] at own
    simp only [step, pc, Option.some.injEq] at h
    subst h
    exact inv.write (s.heap.memset pa junkFree) own rfl (fun _ page page' ne => memset_outside _ _ page page' ne)
      own
  | freeAcquire cpu pa =>
    rw [pc] at own
    simp only [step, pc] at h
    exact inv.acquire h fun locked _ out => ⟨locked, by rw [out]; exact own⟩
  | freeLink cpu pa =>
    rw [pc] at own
    simp only [step, pc, Option.some.injEq] at h
    subst h
    refine inv.write (s.heap.setNext pa (s.heap.freelist cpu)) own.2 rfl (fun p _ _ ne => ?_) ⟨own.1, own.2, ?_⟩
    · simp [Heap.setNext, ne]
    · simp [State.goto, Heap.setNext]
  | freePush cpu pa =>
    rw [pc] at own
    simp only [step, pc, Option.some.injEq] at h
    subst h
    exact inv.push own.1 own.2.1 own.2.2 own.1
  | freeRelease cpu =>
    rw [pc] at own
    simp only [step, pc, Option.some.injEq] at h
    subst h
    exact inv.release own trivial

theorem Step.inv (inv : Inv image s) (h : Step image s s') : Inv image s' := by
  cases h with
  | run t here h => exact step_inv inv h
  | kalloc t idle => exact inv.goto trivial
  | kfree t pa idle allocated => exact inv.pass allocated (.inr rfl) List.mem_cons_self
  | write pa a w allocated inside =>
    obtain ⟨l, lists⟩ := inv.lists
    have outside : ∀ p, IsPage image p → IsPage image pa → p ≠ pa →
        Function.update s.heap.mem a w p = s.heap.mem p := by
      intro p page page' ne
      apply Function.update_of_ne
      rintro rfl
      exact page.apart page' ne inside
    obtain ⟨chains, others⟩ :=
      lists.write { s.heap with mem := Function.update s.heap.mem a w } allocated outside
    refine ⟨⟨l, lists.congr rfl chains (List.Perm.refl _)⟩, fun t => ?_⟩
    -- No thread made this step, so it is one of any other thread.
    apply (inv.threads t).stable (u := t + 1) _ (Nat.succ_ne_self t).symm
    exact ⟨fun _ _ => rfl, fun _ _ _ h => h, fun _ _ _ h => h, fun _ _ _ _ => rfl,
      fun v _ p other => others (some v) p other (by simp)⟩

/-! ### Who has a page

A page that a thread took off a list, or was given to free, is its own until it is returned or put on a list. -/

def Pc.page : Pc → Option ℕ
  | .allocRelease _ r | .scanRelease _ r | .fill r | .ret r => if r = 0 then none else some r
  | .free pa | .freeFill _ pa | .freeAcquire _ pa | .freeLink _ pa | .freePush _ pa => some pa
  | .idle | .alloc | .allocAcquire _ | .allocRead _ | .allocTake _ _ | .scanAcquire _ | .scanRead _
  | .scanTake _ _ | .freeRelease _ | .panic => none

/-- A thread has no other page than the one its call is about. -/
def Held (s : State) : Prop := ∀ t p, (some t, p) ∈ s.out → (s.pc t).page = some p

theorem Held.next (held : Held s) (pc : ∀ t, t ≠ u → s'.pc t = s.pc t)
    (out : ∀ t, t ≠ u → ∀ p, (some t, p) ∈ s'.out → (some t, p) ∈ s.out)
    (own : ∀ p, (some u, p) ∈ s'.out → (s'.pc u).page = some p) : Held s' := by
  intro t p member
  by_cases eq : t = u
  · subst eq
    exact own p member
  · rw [pc t eq]
    exact held t p (out t eq p member)

theorem Held.keep (held : Held s) (pc : ∀ t, t ≠ u → s'.pc t = s.pc t) (out : s'.out = s.out)
    (same : (s'.pc u).page = (s.pc u).page) : Held s' := by
  apply held.next pc
  · intro t _ p member
    rwa [out] at member
  · intro p member
    rw [out] at member
    rw [same]
    exact held u p member

theorem Held.take (held : Held s) {r : ℕ} {pc : Pc} (none : (s.pc u).page = none)
    (page : pc.page = if r = 0 then Option.none else some r) : Held (s.take u cpu r pc) := by
  unfold State.take
  split
  · rename_i zero
    apply held.keep (fun t ne => goto_pc_other s pc ne) rfl
    rw [goto_pc, page, none, if_pos zero]
  · rename_i nonzero
    refine held.next (u := u) ?others ?old ?own
    case others => exact fun t ne => goto_pc_other _ pc ne
    case old =>
      intro t ne p member
      simpa [State.goto, ne] using member
    case own =>
      intro p member
      rw [goto_pc, page, if_neg nonzero]
      rcases List.mem_cons.mp member with new | old
      · exact congrArg some (congrArg Prod.snd new).symm
      · have before := held u p old
        rw [none] at before
        cases before

/-- A thread that has given up its page has none. -/
theorem Held.gone (held : Held s) (inv : Inv image s) (page : (s.pc u).page = some pa)
    (given : (some u, pa) ∈ s.out) (p : ℕ) : (some u, p) ∉ s.out.erase (some u, pa) := by
  intro member
  obtain ⟨l, lists⟩ := inv.lists
  have same := held u p (List.mem_of_mem_erase member)
  rw [page] at same
  obtain rfl := Option.some.inj same
  exact lists.gone given member

theorem step_held (inv : Inv image s) (held : Held s) (h : step image s u here = some s') :
    Held s' := by
  have own := inv.threads u
  have others := fun t (ne : t ≠ u) => step_others h ne
  cases pc : s.pc u with
  | idle | panic => simp [step, pc] at h
  | allocAcquire | scanAcquire | freeAcquire =>
    simp only [step, pc, State.acquire] at h
    split at h
    · obtain rfl := Option.some.inj h
      apply held.keep others rfl
      rw [goto_pc, pc]
      rfl
    · cases h
  | alloc | allocRead | scanRead | fill | freeFill | freeLink =>
    simp only [step, pc, Option.some.injEq] at h
    subst h
    apply held.keep others rfl
    rw [goto_pc, pc]
    rfl
  | allocTake cpu r | scanTake cpu r =>
    simp only [step, pc, Option.some.injEq] at h
    subst h
    apply held.take _ rfl
    rw [pc]
    rfl
  | allocRelease cpu r =>
    simp only [step, pc, Option.some.injEq] at h
    subst h
    apply held.keep others rfl
    rw [State.release, goto_pc, pc]
    by_cases zero : r = 0 <;> simp [Pc.page, zero]
  | scanRelease i r =>
    simp only [step, pc, Option.some.injEq] at h
    subst h
    apply held.keep others rfl
    rw [State.release, goto_pc, pc, scanNext]
    by_cases zero : r = 0
    · rw [if_pos zero]
      split <;> simp [Pc.page, zero]
    · simp [Pc.page, zero]
  | ret r =>
    rw [pc] at own
    simp only [step, pc, Option.some.injEq] at h
    subst h
    by_cases zero : r = 0
    · simp only [if_pos zero] at others ⊢
      apply held.keep others rfl
      rw [goto_pc, pc]
      simp [Pc.page, zero]
    · have page : (s.pc u).page = some r := by rw [pc]; exact if_neg zero
      simp only [if_neg zero] at others ⊢
      apply held.next others
      · intro t ne p member
        exact List.mem_of_mem_erase (by simpa [State.pass, State.goto] using member)
      · intro p member
        exact (held.gone inv page (own zero) p (by simpa [State.pass, State.goto] using member)).elim
  | free pa =>
    rw [pc] at own
    simp only [step, pc, Option.some.injEq] at h
    subst h
    obtain ⟨l, lists⟩ := inv.lists
    apply held.keep others rfl
    rw [goto_pc, pc, if_neg (lists.page_of_out own).not_bad]
    rfl
  | freePush cpu pa =>
    rw [pc] at own
    simp only [step, pc, Option.some.injEq] at h
    subst h
    apply held.next others
    · exact fun t _ p member => List.mem_of_mem_erase member
    · exact fun p member => (held.gone inv (by rw [pc]; rfl) own.2.1 p member).elim
  | freeRelease cpu =>
    simp only [step, pc, Option.some.injEq] at h
    subst h
    apply held.keep others rfl
    rw [State.release, goto_pc, pc]
    rfl

theorem Step.held (inv : Inv image s) (held : Held s) (h : Step image s s') : Held s' := by
  cases h with
  | run t here h => exact step_held inv held h
  | kalloc t idle =>
    apply held.keep (fun u ne => goto_pc_other s .alloc ne) rfl
    rw [goto_pc, idle]
    rfl
  | kfree t pa idle allocated =>
    refine held.next (u := t) ?others ?old ?own
    case others => exact fun u ne => goto_pc_other _ _ ne
    case old =>
      intro u ne p member
      simpa [State.pass, State.goto, ne] using member
    case own =>
      intro p member
      rw [State.pass, goto_pc]
      rcases List.mem_cons.mp member with new | old
      · exact congrArg some (congrArg Prod.snd new).symm
      · have before := held t p (List.mem_of_mem_erase old)
        rw [idle] at before
        cases before
  | write => exact held

/-! ### Booting -/

/-- List 0 while `freerange` is at address `p`. -/
structure Booting (image : Image) (p : ℕ) (h : Heap) (l : List ℕ) : Prop where
  chain : Chain h.mem (h.freelist 0) l
  others : ∀ cpu, cpu ≠ 0 → h.freelist cpu = 0
  once : ∀ q, l.count q = if IsPage image q ∧ q < p then 1 else 0

theorem Booting.kfree (boot : Booting image p h l') (page : IsPage image p) :
    ∃ h', kfree image h 0 p = some h' ∧ Booting image (p + pgsize) h' (p :: l') := by
  have absent : ∀ q ∈ l', IsPage image q ∧ q ≠ p := by
    intro q member
    have once := boot.once q
    have := List.count_pos_iff.mpr member
    split at once <;> rename_i inside
    · exact ⟨inside.1, inside.2.ne⟩
    · omega
  unfold PerCpu.kfree
  rw [if_neg page.not_bad]
  refine ⟨_, rfl, ?_, ?_, ?_⟩
  · simp only [Heap.setFreelist, Heap.setNext, Function.update_self]
    apply Chain.cons _ page.ne_zero
    rw [Function.update_self]
    apply boot.chain.congr
    intro q member
    rw [Function.update_of_ne (absent q member).2]
    exact memset_outside h _ (absent q member).1 page (absent q member).2
  · intro cpu ne
    simpa [Heap.setFreelist, Heap.setNext, Heap.memset, ne] using boot.others cpu ne
  · intro q
    rw [List.count_cons, boot.once q]
    by_cases same : p = q
    · subst same
      have : p < p + pgsize := by unfold pgsize; omega
      simp [page, this]
    · have step : IsPage image q ∧ q < p + pgsize ↔ IsPage image q ∧ q < p := by
        unfold IsPage pgsize at *
        omega
      simp [same, step]

theorem Booting.freerange (rounds : ℕ) (l' : List ℕ) (boot : Booting image p h l') (aligned : p % pgsize = 0)
    (above : pgroundup image.last ≤ p) (enough : phystop ≤ p + rounds * pgsize) :
    ∃ h' l, freerange image rounds p h = some h' ∧ Booting image phystop h' l := by
  induction rounds generalizing p h l' with
  | zero =>
    refine ⟨h, l', rfl, boot.chain, boot.others, fun q => ?_⟩
    have all : IsPage image q ∧ q < phystop ↔ IsPage image q ∧ q < p := by
      unfold IsPage
      omega
    rw [boot.once q]
    simp only [all]
  | succ rounds ih =>
    unfold PerCpu.freerange
    by_cases more : p + pgsize ≤ phystop
    · rw [if_pos more]
      have page : IsPage image p := by
        unfold IsPage pgsize at *
        omega
      obtain ⟨h', freed, boot'⟩ := boot.kfree page
      rw [freed, Option.bind_some]
      exact ih (p :: l') boot' (by unfold pgsize at *; omega) (by omega) (by rw [Nat.succ_mul] at enough; omega)
    · rw [if_neg more]
      refine ⟨h, l', rfl, boot.chain, boot.others, fun q => ?_⟩
      have all : IsPage image q ∧ q < phystop ↔ IsPage image q ∧ q < p := by
        unfold IsPage pgsize phystop kernbase at *
        omega
      rw [boot.once q]
      simp only [all]

/-- `kinit` does not panic and puts every page on list 0. -/
theorem kinit_booting (image : Image) (mem : ℕ → ℕ) :
    ∃ h l, kinit image mem = some h ∧ Booting image phystop h l := by
  apply Booting.freerange _ []
  · refine ⟨rfl, fun _ _ => rfl, fun q => ?_⟩
    have none : ¬(IsPage image q ∧ q < pgroundup image.last) := by
      unfold IsPage
      omega
    simp [none]
  · unfold pgroundup
    exact Nat.mul_mod_left _ _
  · exact le_rfl
  · unfold phystop pgsize kernbase
    omega

theorem initial_inv {mem : ℕ → ℕ} (boot : kinit image mem = some h) : Inv image (initial h) := by
  obtain ⟨h', l, boot', booting⟩ := kinit_booting image mem
  obtain rfl := Option.some.inj (boot'.symm.trans boot)
  refine ⟨⟨Function.update (fun _ => []) 0 l, fun cpu => ?_, fun p => ?_⟩, fun _ => trivial⟩
  · by_cases eq : cpu = 0
    · subst eq
      simpa [initial] using booting.chain
    · simpa [initial, eq, Chain] using booting.others cpu eq
  · have moved := sum_count_update (fun _ => []) 0 l p
    have below : IsPage image p ∧ p < phystop ↔ IsPage image p := by
      unfold IsPage
      omega
    have once := booting.once p
    simp only [below] at once
    simp only [List.count_nil, Finset.sum_const_zero, Nat.add_zero, Nat.zero_add] at moved
    rw [moved, once]
    rfl

theorem reachable_inv (h : Reachable image s) : Inv image s := by
  obtain ⟨mem, heap, boot, steps⟩ := h
  induction steps with
  | refl => exact initial_inv boot
  | tail _ last ih => exact last.inv ih

theorem reachable_held (h : Reachable image s) : Held s := by
  obtain ⟨mem, heap, boot, steps⟩ := h
  induction steps with
  | refl => simp [Held, initial]
  | tail before last ih => exact last.held (reachable_inv ⟨mem, heap, boot, before⟩) ih

theorem Reachable.step (reach : Reachable image s) (h : Step image s s') : Reachable image s' := by
  obtain ⟨mem, heap, boot, before⟩ := reach
  exact ⟨mem, heap, boot, before.tail h⟩

end Xv6Labs.Kalloc.PerCpu
