import Xv6Labs.Kalloc.Sysinfo

/-!
# What a step does to the free list

`Pages` says that the free list is a chain in memory and that each page is either on it, once, or out, once.
`Asserts` is what a thread relies on between two of its steps, and `Guarantee u` what a step of thread `u` leaves to
the others. A step leaves the list as it is, puts a page in front of it or takes its first page; the links of the
pages that stay are not written.
-/

namespace Xv6Labs.Kalloc.Single

open LinkedChain

variable {image : Image} {s s' : State} {t u : Tid} {mem mem' : ℕ → ℕ} {freelist p pa r : ℕ}
  {out : List (Option Tid × ℕ)} {l l' : List ℕ} {pc : Pc}

structure Pages (image : Image) (mem : ℕ → ℕ) (freelist : ℕ) (out : List (Option Tid × ℕ)) (l : List ℕ) : Prop where
  chain : Chain mem freelist l
  once : (l ++ out.map Prod.snd).Nodup
  page : ∀ p ∈ l ++ out.map Prod.snd, IsPage image p

def Asserts (s : State) (t : Tid) : Pc → Prop
  | .idle | .allocAcquire | .sizeRead | .walk _ _ | .sized _ | .panic => True
  | .allocRead | .freeRelease => s.lock = some t
  | .allocTake r => s.lock = some t ∧ s.freelist = r
  | .allocRelease r => s.lock = some t ∧ (r ≠ 0 → (some t, r) ∈ s.out)
  | .ret r => r ≠ 0 → (some t, r) ∈ s.out
  | .fill pa | .free pa | .freeFill pa | .freeAcquire pa => (some t, pa) ∈ s.out
  | .freeLink pa => s.lock = some t ∧ (some t, pa) ∈ s.out
  | .freePush pa => s.lock = some t ∧ (some t, pa) ∈ s.out ∧ s.mem pa = s.freelist

structure Inv (image : Image) (s : State) (l : List ℕ) : Prop where
  pages : Pages image s.mem s.freelist s.out l
  threads : ∀ t, Asserts s t (s.pc t)

structure Guarantee (u : Tid) (s s' : State) : Prop where
  pc : ∀ t, t ≠ u → s'.pc t = s.pc t
  lock : ∀ t, t ≠ u → s.lock = some t → s'.lock = some t
  out : ∀ t, t ≠ u → ∀ p, (some t, p) ∈ s.out → (some t, p) ∈ s'.out
  freelist : ∀ t, t ≠ u → s.lock = some t → s'.freelist = s.freelist
  mem : ∀ t, t ≠ u → ∀ p, (some t, p) ∈ s.out → s'.mem p = s.mem p

theorem Asserts.stable (a : Asserts s t pc) (g : Guarantee u s s') (other : t ≠ u) : Asserts s' t pc := by
  have lock := g.lock t other
  have out := g.out t other
  cases pc with
  | idle | allocAcquire | sizeRead | walk | sized | panic => trivial
  | allocRead | freeRelease => exact lock a
  | allocTake => exact ⟨lock a.1, by rw [g.freelist t other a.1, a.2]⟩
  | allocRelease => exact ⟨lock a.1, fun nonzero => out _ (a.2 nonzero)⟩
  | ret => exact fun nonzero => out _ (a nonzero)
  | fill | free | freeFill | freeAcquire => exact out _ a
  | freeLink => exact ⟨lock a.1, out _ a.2⟩
  | freePush => exact ⟨lock a.1, out _ a.2.1, by rw [g.mem t other _ a.2.1, g.freelist t other a.1, a.2.2]⟩

theorem Inv.next (inv : Inv image s l) (g : Guarantee u s s') (pages : Pages image s'.mem s'.freelist s'.out l')
    (own : Asserts s' u (s'.pc u)) : Inv image s' l' := by
  refine ⟨pages, fun t => ?_⟩
  by_cases same : t = u
  · subst same
    exact own
  · rw [g.pc t same]
    exact (inv.threads t).stable g same

/-! ### Pages -/

theorem IsPage.ne_zero (page : IsPage image p) : p ≠ 0 := by
  have loaded := image.loaded
  unfold kernbase at loaded
  unfold IsPage at page
  omega

theorem IsPage.apart (page : IsPage image p) (page' : IsPage image pa) (other : p ≠ pa) :
    ¬ (pa ≤ p ∧ p < pa + pgsize) := by
  unfold IsPage pgsize at page page'
  unfold pgsize
  omega

theorem IsPage.not_bad (page : IsPage image p) : ¬ BadPage image p := by
  unfold BadPage
  unfold IsPage at page
  omega

theorem Pages.congr (pages : Pages image mem freelist out l) (same : ∀ p ∈ l, mem' p = mem p) :
    Pages image mem' freelist out l := ⟨pages.chain.congr same, pages.once, pages.page⟩

theorem Pages.out_page (pages : Pages image mem freelist out l) {o : Option Tid} (mem : (o, pa) ∈ out) :
    IsPage image pa :=
  pages.page pa (List.mem_append_right _ (List.mem_map_of_mem mem))

theorem Pages.list_page (pages : Pages image mem freelist out l) (mem : p ∈ l) : IsPage image p :=
  pages.page p (List.mem_append_left _ mem)

/-- A page that is out is no page of the list. -/
theorem Pages.apart (pages : Pages image mem freelist out l) {o : Option Tid} (mem : (o, pa) ∈ out) (mem' : p ∈ l) :
    p ≠ pa := by
  rintro rfl
  exact (List.nodup_append.mp pages.once).2.2 p mem' p (List.mem_map_of_mem mem) rfl

/-- A page has one owner. -/
theorem Pages.owner (pages : Pages image mem freelist out l) {o o' : Option Tid} (mem : (o, p) ∈ out)
    (mem' : (o', pa) ∈ out) (other : o ≠ o') : p ≠ pa := by
  rintro rfl
  have nodup := (List.nodup_append.mp pages.once).2.1
  have same := List.inj_on_of_nodup_map nodup mem mem' rfl
  exact other (congrArg Prod.fst same)

theorem Pages.take (pages : Pages image mem r out l) (nonzero : r ≠ 0) (t : Tid) :
    ∃ rest, l = r :: rest ∧ Pages image mem (mem r) ((some t, r) :: out) rest := by
  obtain ⟨rest, rfl, chain⟩ := pages.chain.head nonzero
  have perm : (rest ++ r :: out.map Prod.snd).Perm (r :: rest ++ out.map Prod.snd) := List.perm_middle
  exact ⟨rest, rfl, chain, perm.nodup_iff.mpr pages.once, fun p mem => pages.page p (perm.mem_iff.mp mem)⟩

theorem erase_perm {o : Option Tid} (mem : (o, pa) ∈ out) :
    (out.map Prod.snd).Perm (pa :: (out.erase (o, pa)).map Prod.snd) :=
  (List.perm_cons_erase mem).map Prod.snd

theorem Pages.push (pages : Pages image mem freelist out l) {o : Option Tid} (there : (o, pa) ∈ out)
    (link : mem pa = freelist) :
    Pages image mem pa (out.erase (o, pa)) (pa :: l) := by
  have perm : (l ++ out.map Prod.snd).Perm (pa :: l ++ (out.erase (o, pa)).map Prod.snd) :=
    ((erase_perm there).append_left l).trans List.perm_middle
  refine ⟨?_, perm.nodup_iff.mp pages.once, fun p mem => pages.page p (perm.mem_iff.mpr mem)⟩
  have chain := pages.chain
  rw [← link] at chain
  exact chain.cons (pages.out_page there).ne_zero

theorem Pages.pass (pages : Pages image mem freelist out l) {o o' : Option Tid} (there : (o, pa) ∈ out) :
    Pages image mem freelist ((o', pa) :: out.erase (o, pa)) l := by
  have perm : (l ++ out.map Prod.snd).Perm (l ++ pa :: (out.erase (o, pa)).map Prod.snd) :=
    (erase_perm there).append_left l
  exact ⟨pages.chain, perm.nodup_iff.mp pages.once, fun p mem => pages.page p (perm.mem_iff.mpr mem)⟩

/-! ### Steps -/

@[simp] theorem goto_pc (s : State) (t : Tid) (pc : Pc) : (s.goto t pc).pc t = pc := Function.update_self ..

theorem goto_pc_other (s : State) (u : Tid) (pc : Pc) (other : t ≠ u) : (s.goto u pc).pc t = s.pc t :=
  Function.update_of_ne other _ _

/-- What happens to the free list. -/
inductive Change (s s' : State) (l : List ℕ) : List ℕ → Prop where
  | same : Change s s' l l
  | push (pa : ℕ) : Change s s' l (pa :: l)
  | take (u : Tid) (r : ℕ) (rest : List ℕ) (split : l = r :: rest) (nonzero : r ≠ 0) (before : s.pc u = .allocTake r)
      (after : s'.pc u = .allocRelease r) : Change s s' l rest

/-- The links of pages that stay on the list. -/
def Links (s s' : State) (l l' : List ℕ) : Prop := ∀ p ∈ l, p ∈ l' → s'.mem p = s.mem p

/-- A write to a page that `o` has. -/
theorem Pages.written (pages : Pages image mem freelist out l) {o : Option Tid} (there : (o, pa) ∈ out)
    (outside : ∀ a, ¬ (pa ≤ a ∧ a < pa + pgsize) → mem' a = mem a) :
    (∀ p ∈ l, mem' p = mem p) ∧ ∀ o' p, (o', p) ∈ out → o' ≠ o → mem' p = mem p := by
  refine ⟨fun p mem => outside p ?_, fun o' p mem other => outside p ?_⟩
  · exact (pages.list_page mem).apart (pages.out_page there) (pages.apart there mem)
  · exact (pages.out_page mem).apart (pages.out_page there) (pages.owner mem there other)

/-- A step that leaves the allocator's data alone, apart from the lock. -/
theorem Inv.still (inv : Inv image s l) (u : Tid) (pc : ∀ t, t ≠ u → s'.pc t = s.pc t)
    (lock : ∀ t, t ≠ u → s.lock = some t → s'.lock = some t) (mem : s'.mem = s.mem)
    (freelist : s'.freelist = s.freelist) (out : s'.out = s.out) (own : Asserts s' u (s'.pc u)) :
    ∃ l', Inv image s' l' ∧ Change s s' l l' ∧ Links s s' l l' := by
  refine ⟨l, inv.next ⟨pc, lock, fun t _ p mem => out ▸ mem, fun _ _ _ => freelist,
    fun _ _ _ _ => by rw [mem]⟩ ?_ own, .same, fun _ _ _ => by rw [mem]⟩
  rw [mem, freelist, out]
  exact inv.pages

/-- A step that writes to a page that its thread, or the kernel, has. -/
theorem Inv.scribble (inv : Inv image s l) {o : Option Tid} (there : (o, pa) ∈ s.out) (u : Tid)
    (who : ∀ t, t ≠ u → some t ≠ o)
    (outside : ∀ a, ¬ (pa ≤ a ∧ a < pa + pgsize) → s'.mem a = s.mem a) (pc : ∀ t, t ≠ u → s'.pc t = s.pc t)
    (lock : s'.lock = s.lock) (freelist : s'.freelist = s.freelist) (out : s'.out = s.out)
    (own : Asserts s' u (s'.pc u)) : ∃ l', Inv image s' l' ∧ Change s s' l l' ∧ Links s s' l l' := by
  obtain ⟨list, others⟩ := inv.pages.written there outside
  refine ⟨l, inv.next ⟨pc, fun _ _ held => lock.trans held, fun t _ p mem => out ▸ mem, fun _ _ _ => freelist,
    fun t other p mem => others (some t) p mem (who t other)⟩ ?_ own, .same, fun p mem _ => list p mem⟩
  rw [freelist, out]
  exact inv.pages.congr list

/-- A page that changes hands. -/
theorem Inv.pass (inv : Inv image s l) {o o' : Option Tid} (there : (o, pa) ∈ s.out) (u : Tid)
    (who : ∀ t, t ≠ u → some t ≠ o) (own : Asserts (s.pass o o' pa u pc) u pc) :
    ∃ l', Inv image (s.pass o o' pa u pc) l' ∧ Change s (s.pass o o' pa u pc) l l' ∧
      Links s (s.pass o o' pa u pc) l l' := by
  refine ⟨l, inv.next (u := u) ⟨fun t other => goto_pc_other _ u pc other, fun _ _ held => held,
    fun t other p mem => ?_,
    fun _ _ _ => rfl, fun _ _ _ _ => rfl⟩ (inv.pages.pass there) (by rw [State.pass, goto_pc]; exact own), .same,
    fun _ _ _ => rfl⟩
  refine List.mem_cons_of_mem _ ((List.mem_erase_of_ne ?_).mpr mem)
  intro same
  exact who t other (congrArg Prod.fst same)

end Xv6Labs.Kalloc.Single
