import Xv6Labs.Vm.Grow
import Xv6Labs.Vm.Slot

/-!
# System calls on the memory of a process

`sbrk`, `exec` and `fork` exchange pages between a slot and the free list. `fork` that fails gives back all it has
taken.
-/

namespace Xv6Labs.Vm

open Faults

variable {m m' m'' : Memory} {i j n root sz : ℕ} {p p' q np : Held}

/-- The user memory of a slot is exchanged for another. -/
theorem Slotted.user (slot : Slotted m i p) (whole : Whole m' root (pagesOf sz))
    (trades : Trades m m' (m.owns p.pagetable (pagesOf p.sz)) (m'.owns root (pagesOf sz))) :
    Slotted m' i { p with pagetable := root, sz := sz } ∧
      Trades m m' (m.held p) (m'.held { p with pagetable := root, sz := sz }) := by
  have out : ∀ x ∈ {p.trapframe} ∪ m.nodes p.kpgtbl, x ∉ m.free := by
    rintro x (rfl | mem)
    · exact slot.used _ (.inl (.inl rfl))
    · exact slot.used x (.inr mem)
  have off : ∀ x ∈ {p.trapframe} ∪ m.nodes p.kpgtbl, x ∉ m.owns p.pagetable (pagesOf p.sz) := by
    rintro x (rfl | mem)
    · exact slot.frame
    · exact fun there => slot.apart x there mem
  have stays := trades.stays out off
  have kernel : ∀ x ∈ m.nodes p.kpgtbl, m'.page x = m.page x := fun x mem => (stays x (.inr mem)).2.2
  have before : m.held p = m.owns p.pagetable (pagesOf p.sz) ∪ ({p.trapframe} ∪ m.nodes p.kpgtbl) := by
    ext x
    simp only [Memory.held, Set.mem_union]
    tauto
  have after : m'.held { p with pagetable := root, sz := sz } =
      m'.owns root (pagesOf sz) ∪ ({p.trapframe} ∪ m.nodes p.kpgtbl) := by
    rw [Memory.held, nodes_agree kernel]
    ext x
    simp only [Set.mem_union]
    tauto
  have all := (trades.frame out off).congr before after
  refine ⟨⟨slot.trap.of_image trades.image, whole, ?_, all.apart, (stays _ (.inl rfl)).2.1, ?_,
    fun x mem there => ?_⟩, all⟩
  · rw [trades.image]
    exact slot.kernel.agree kernel trades.image fun x mem => (stays x (.inr mem)).1
  · rw [nodes_agree kernel]
    exact slot.frame'
  · rw [nodes_agree kernel] at there
    exact (stays x (.inr there)).2.1 mem

/-! ### sbrk -/

def Held.proc (p : Held) : Proc := ⟨p.pagetable, p.sz⟩

/-- A call on a slot that gives it new pages for old ones. -/
structure Exchanges (m m' : Memory) (i : ℕ) (p p' : Held) : Prop where
  slot : Slotted m' i p'
  trades : Trades m m' (m.held p) (m'.held p')
  pa : p'.pa = p.pa

theorem growproc_exchanges {n : ℤ} (slot : Slotted m i p) (free : m.Free) (low : -2 ^ 31 ≤ n) (high : n < 2 ^ 31) :
    Returns (growproc p.proc n) m fun r m' => r.2.pagetable = p.pagetable ∧
      Exchanges m m' i p { p with sz := r.2.sz } := by
  have space : Space m p.proc.pagetable (pagesOf p.proc.sz) := slot.whole.space
  have small := space.size_ram
  have size := toUint_of_lt (a := p.proc.sz) (by omega)
  have done {sz : ℕ} {m' : Memory} (whole : Whole m' p.pagetable (pagesOf sz))
      (trades : Trades m m' (m.owns p.pagetable (pagesOf p.sz)) (m'.owns p.pagetable (pagesOf sz))) :
      Exchanges m m' i p { p with sz := sz } := by
    obtain ⟨slot', trades'⟩ := slot.user whole trades
    exact ⟨slot', trades', rfl⟩
  have same : Exchanges m m i p p := ⟨slot, Trades.refl free slot.used, rfl⟩
  rcases lt_trichotomy n 0 with less | zero | more
  · by_cases negative : p.proc.sz + n < 0
    · refine (growproc_wraps small low negative).mono ?_
      rintro r m' ⟨rfl, rfl⟩
      exact ⟨rfl, same⟩
    · obtain ⟨d, rest⟩ := Int.eq_ofNat_of_zero_le (not_lt.mp negative)
      have new := toUint_of_lt (a := d) (by omega)
      have shrink : d ≤ p.sz := by
        have : p.proc.sz = p.sz := rfl
        omega
      have le : pagesOf d ≤ pagesOf p.sz := Nat.div_le_div_right (by omega)
      unfold growproc
      rw [if_neg (by omega), if_pos less, size, rest, new]
      refine .bind ((uvmdealloc_free space.table (space.owned.sub (Nat.zero_le _) le_rfl) space.size_le).mono ?_)
      rintro r m' ⟨rfl, clears⟩
      obtain ⟨whole, trades⟩ := clears.shrinks slot.whole free le
      have result : min p.proc.sz d = d := min_eq_right shrink
      rw [result, new]
      exact .pure ⟨rfl, done whole trades⟩
  · subst zero
    unfold growproc
    rw [if_neg (lt_irrefl 0), if_neg (lt_irrefl 0), size]
    exact .pure ⟨rfl, same⟩
  · obtain ⟨d, rfl⟩ := Int.eq_ofNat_of_zero_le more.le
    have sum : toUint (p.proc.sz + d : ℕ) = p.proc.sz + d := toUint_of_lt (by omega)
    unfold growproc
    rw [if_pos more, size, ← Nat.cast_add, sum]
    refine .bind ((uvmalloc_spec space free (Nat.le_add_right ..)).mono ?_)
    rintro r m' ⟨taken, ⟨rfl, added⟩ | ⟨rfl, restores⟩⟩
    · rw [sum, if_neg (by omega)]
      exact .pure ⟨rfl, done (added.whole slot.whole free) (added.trades (Nat.div_le_div_right (by omega)))⟩
    · rw [if_pos (by decide)]
      exact .pure ⟨rfl, done (restores.whole slot.whole free) (restores.trades slot.whole free)⟩

/-! ### exec -/

theorem Built.trades {m₀ : Memory} {perm : ℕ → ℕ} {bytes : ℕ → Page} (built : Built m₀ m root n perm bytes)
    (free : m₀.Free) :
    Trades m₀ m ∅ (m.owns root n) := by
  obtain ⟨m₁, tables, taken, made, added⟩ := built
  exact (made.trades free).trans (added.trades (Nat.zero_le n))

/-- The old memory is freed once the new one is there. -/
theorem Built.replaces {old : ℕ} {perm : ℕ → ℕ} {bytes : ℕ → Page} (built : Built m m' root n perm bytes)
    (free : m.Free) (whole : Whole m old (pagesOf sz)) :
    Returns (procFreepagetable old sz) m' fun _ m'' => Whole m'' root n ∧
      Trades m m'' (m.owns old (pagesOf sz)) (m''.owns root n) := by
  have trades := built.trades free
  have stays := trades.stays (C := m.owns old (pagesOf sz)) whole.space.owns_used fun x _ none =>
    Set.notMem_empty x none
  have same : ∀ x ∈ m.nodes old, m'.page x = m.page x := fun x mem => (stays x (.inl mem)).2.2
  have old_whole := whole.keep same trades.image fun x mem => (stays x mem).1
  have owns : m'.owns old (pagesOf sz) = m.owns old (pagesOf sz) := Whole.owns_agree same
  have new_whole := built.whole free
  refine (procFreepagetable_spec old_whole).mono ?_
  rintro - m'' ⟨freed, done⟩
  have gone := done.trades trades.list old_whole.owns_real old_whole.space.owns_used
  rw [owns] at gone
  have kept := gone.stays (C := m'.owns root n) trades.apart fun x mem there => (stays x there).2.1 mem
  have same' : ∀ x ∈ m'.nodes root, m''.page x = m'.page x := fun x mem => (kept x (.inl mem)).2.2
  have owns' : m''.owns root n = m'.owns root n := Whole.owns_agree same'
  have first := trades.frame (C := m.owns old (pagesOf sz)) whole.space.owns_used fun x _ none =>
    Set.notMem_empty x none
  have second := gone.frame (C := m'.owns root n) trades.apart fun x mem there => (stays x there).2.1 mem
  refine ⟨new_whole.keep same' gone.image fun x mem => (kept x mem).1, ?_⟩
  rw [owns']
  refine (first.trans (second.congr ?_ rfl)).congr ?_ ?_
  · exact Set.union_comm ..
  · exact (Set.empty_union _).symm
  · exact (Set.empty_union _).symm

def Held.running (p : Held) : Running := ⟨p.pagetable, p.sz, p.trapframe, 0, 0, 0, []⟩

theorem exec_exchanges (slot : Slotted m i p) (free : m.Free) (path file : List UInt8) (argv : List (List UInt8))
    (size : file.length < 2 ^ 32) :
    Returns (exec p.running path file argv) m fun r m' => r.2.trapframe = p.trapframe ∧
      Exchanges m m' i p { p with pagetable := r.2.pagetable, sz := r.2.sz } ∧
      (r.1 = -1 → r.2 = p.running ∧ Trades m m' ∅ ∅) := by
  have whole : Whole m p.running.pagetable (pagesOf p.running.sz) := slot.whole
  have unchanged {m' : Memory} (back : Back m m') : Exchanges m m' i p p := by
    have trades := back.trades free
    have stays := trades.stays (C := m.held p) slot.used fun x _ none => Set.notMem_empty x none
    have user : ∀ x ∈ m.nodes p.pagetable, m'.page x = m.page x := fun x mem => (stays x (.inl (.inr (.inl mem)))).2.2
    have kernel : ∀ x ∈ m.nodes p.kpgtbl, m'.page x = m.page x := fun x mem => (stays x (.inr mem)).2.2
    have kept := trades.frame (C := m.held p) slot.used fun x _ none => Set.notMem_empty x none
    refine ⟨slot.keep user kernel trades.image fun x mem => (stays x mem).1, kept.congr ?_ ?_, rfl⟩
    · exact (Set.empty_union _).symm
    · rw [held_agree user kernel]
      exact (Set.empty_union _).symm
  rcases loadImage_spec free size p.running.trapframe with ⟨loaded, m₁, ran, ⟨rfl, back⟩ | ⟨img, rfl, ready⟩⟩
  · unfold exec
    exact .bind ⟨none, m₁, ran, .pure ⟨rfl, unchanged back, fun _ => ⟨rfl, back.trades free⟩⟩⟩
  unfold exec
  refine .bind ⟨some img, m₁, ran, ?_⟩
  have positive : 0 < pgsize := by decide
  obtain ⟨k, total⟩ : ∃ k, img.sz = (k + 2) * pgsize := by
    obtain ⟨k, eq⟩ := Nat.dvd_of_mod_eq_zero ready.aligned
    have big := ready.big
    rw [eq, Nat.mul_comm] at big
    have two := Nat.le_of_mul_le_mul_left big positive
    exact ⟨k - 2, by rw [Nat.sub_add_cancel two, eq, Nat.mul_comm]⟩
  have pages : img.sz / pgsize - 2 = k := by rw [total, Nat.mul_div_cancel _ positive, Nat.add_sub_cancel]
  have base : img.sz - pgsize = (k + 1) * pgsize := by
    have : (k + 2) * pgsize = (k + 1) * pgsize + pgsize := Nat.succ_mul ..
    omega
  have holding := ready.holding
  rw [pages, total, pagesOf_mul] at holding
  have step : (k + 2) * pgsize = (k + 1) * pgsize + pgsize := Nat.succ_mul ..
  have aligned : (k + 2) * pgsize % 16 = 0 := by
    rw [show pgsize = 256 * 16 from rfl, ← Nat.mul_assoc]
    exact Nat.mul_mod_left ..
  have pushed := @pushArgs_spec _ _ _ _ _ 0 _ argv [] aligned (by omega) le_rfl (Nat.zero_le _) rfl holding
  rw [← base, ← total, Nat.zero_add] at pushed
  refine .bind (pushed.mono ?_)
  rintro r m₂ ⟨g, after, ⟨rfl, -⟩ | ⟨-, -, sp, ptrs, rfl, -⟩⟩
  · have discard : Holding m m₂ img.pagetable (pagesOf img.sz) (guarded k) g := by
      rw [total, pagesOf_mul]
      exact after
    exact .bind ((discard.discard free).mono fun _ m' back =>
      .pure ⟨rfl, unchanged back, fun _ => ⟨rfl, back.trades free⟩⟩)
  · obtain ⟨bytes, built⟩ := after.built
    have count : pagesOf img.sz = k + 2 := by rw [total, pagesOf_mul]
    rw [← count] at built
    refine .bind ((built.replaces free whole).mono fun _ m' done => .pure ⟨rfl, ?_, fun failed => ?_⟩)
    · obtain ⟨slot', trades⟩ := slot.user done.1 done.2
      exact ⟨slot', trades, rfl⟩
    · have : ((argv.length : ℕ) : ℤ) ≠ -1 := by omega
      exact absurd failed this

/-! ### fork -/

/-- A page of the holder that is no table of it may be written. -/
theorem Slotted.write (slot : Slotted m i p) (free : m.Free) {x : ℕ} (mem : x ∈ m.held p)
    (user : x ∉ m.nodes p.pagetable)
    (kernel : x ∉ m.nodes p.kpgtbl) (pg : Page) : Exchanges m (m.setPage x pg) i p p := by
  have same {y : ℕ} (other : y ≠ x) : (m.setPage x pg).page y = m.page y := setPage_of_ne other
  have user' : ∀ y ∈ m.nodes p.pagetable, (m.setPage x pg).page y = m.page y :=
    fun y there => same (by rintro rfl; exact user there)
  have kernel' : ∀ y ∈ m.nodes p.kpgtbl, (m.setPage x pg).page y = m.page y :=
    fun y there => same (by rintro rfl; exact kernel there)
  refine ⟨slot.keep user' kernel' rfl slot.used,
    ⟨free.of_same rfl rfl, rfl, fun y => ?_, fun y there => ?_, fun y _ off => same ?_⟩, rfl⟩
  · rw [held_agree user' kernel']
    exact Iff.rfl
  · rw [held_agree user' kernel'] at there
    exact slot.used y there
  · rintro rfl
    exact off mem

theorem Exchanges.trans (first : Exchanges m m' i p p') (second : Exchanges m' m'' i p' q) : Exchanges m m'' i p q :=
  ⟨second.slot, first.trades.trans second.trades, second.pa.trans first.pa⟩

theorem Slotted.trapframe_write (slot : Slotted m i p) (free : m.Free) (pg : Page) :
    Exchanges m (m.setPage p.trapframe pg) i p p :=
  slot.write free (.inl (.inl rfl)) (fun there => slot.frame (.inl there)) slot.frame' pg

/-- What others hold stays as it is while a slot is made or changed. -/
theorem Slotted.stays {A B : Set ℕ} (slot : Slotted m i p) (trades : Trades m m' A B) (off : ∀ x ∈ m.held p, x ∉ A) :
    Slotted m' i p ∧ m'.held p = m.held p ∧ (∀ x ∈ m.held p, x ∉ B) ∧ ∀ x ∈ m.held p, m'.page x = m.page x := by
  have stays := trades.stays slot.used off
  have user : ∀ x ∈ m.nodes p.pagetable, m'.page x = m.page x := fun x mem => (stays x (.inl (.inr (.inl mem)))).2.2
  have kernel : ∀ x ∈ m.nodes p.kpgtbl, m'.page x = m.page x := fun x mem => (stays x (.inr mem)).2.2
  exact ⟨slot.keep user kernel trades.image fun x mem => (stays x mem).1, held_agree user kernel,
    fun x mem => (stays x mem).2.1, fun x mem => (stays x mem).2.2⟩

/-- The child of a fork: `m` is the memory before it. -/
structure Forks (m m' : Memory) (i : ℕ) (q np np' : Held) : Prop where
  slot : Slotted m' i np'
  trades : Trades m m' ∅ (m'.held np')
  pa : np'.pa = np.pa
  sz : np'.sz = q.sz
  bytes : ∀ b, b < q.sz → m'.at np'.pagetable b = m.at q.pagetable b
  flags : ∀ b, b < pgroundup q.sz → pteFlags (m'.pte np'.pagetable b) = pteFlags (m.pte q.pagetable b)
  registers : ∀ w : Fin 512, w.val < 36 → m'.page np'.trapframe w = if w = Trapframe.a0 then 0 else m.page q.trapframe w

theorem Slotted.parent (slot : Slotted m j q) (apart : ∀ x ∈ m.held q, x ∉ m.nodes root) :
    Parent m q.pagetable root q.sz := by
  have upto := le_pagesOf (a := q.sz)
  have owned := slot.whole.space.owned
  refine ⟨slot.whole.space.table, fun b low => owned.mapped b (by omega) (by omega),
    fun b low => owned.apart b (by omega) (by omega), fun x mem => apart x (.inl (.inr (.inl mem))), fun b low =>
      apart _ (.inl (.inr (.inr (mem_frames (by omega) (by omega))))),
    fun b low => owned.used b (by omega) (by omega)⟩

theorem missing_le (m : Memory) (root va : ℕ) : m.missing root va ≤ 2 :=
  Nat.add_le_add (absent_le _) (absent_le _)

theorem grant_spends {f : ℕ} {rest : List ℕ} {pg : Page} (list : m.free = f :: rest) (given : ¬ m.Fails 0) :
    Spends m (m.grant f rest pg) 1 :=
  ⟨(give_spends list given).count, (give_spends list given).refuse, (give_spends list given).never⟩

theorem Spends.granted {va : ℕ} {taken : List ℕ} {g : ℕ → Option ℕ} (first : Spends m m' j)
    (writes : Writes m' m'' root taken g)
    (granted : Granted m' m'' root va taken) : Spends m m'' (j + taken.length) := by
  refine first.trans ⟨?_, granted.refuse, granted.never⟩
  rw [writes.free, List.length_append, Nat.add_comm]

/-- Each page takes at most three: itself and two tables. -/
theorem copyFrom_given {m₀ : Memory} {old new fuel : ℕ} {taken : List ℕ} (parent : Parent m₀ old new sz)
    (reach : j ≤ pagesOf sz) (enough : pagesOf sz - j < fuel) (copies : Copies m₀ m old new j taken)
    (given : ∀ k, k < 3 * (pagesOf sz - j) → ¬ m.Fails k) :
    Returns (copyFrom old new sz fuel (j * pgsize)) m fun r _ => r = none := by
  induction fuel generalizing m j taken with
  | zero => exact absurd enough (Nat.not_lt_zero _)
  | succ fuel ih =>
    have fits := copies.space.owned.fits
    have top : phystop + pgsize < trapframe := by decide
    have high : trapframe ≤ maxva := by decide
    unfold copyFrom
    by_cases more : j * pgsize < sz
    · have next : j + 1 ≤ pagesOf sz := by
        rw [pagesOf, pgsize] at *
        omega
      have low : j * pgsize < pagesOf sz * pgsize := Nat.mul_lt_mul_of_pos_right next (by decide)
      have valid := (parent.mapped_page low).1
      rw [if_pos more]
      refine .bind ((parent.looked copies.others low (by omega)).mono ?_)
      rintro r m₁ ⟨rfl, x, rfl, read⟩
      refine .bind (.reads ?_)
      rw [read]
      refine .bind ?_
      rw [panicIf, onlyIf, if_neg valid]
      refine .pure ?_
      have given₀ := given 0 (by omega)
      obtain ⟨granted, f, rest, list⟩ := not_fails_zero given₀
      have mem : f ∈ m₁.free := by rw [list]; exact List.mem_cons_self
      have source : m₀.frame old (j * pgsize) ≠ f := by
        intro same
        refine (copies.outside (parent.mapped_page low).2.1 (parent.mapped_page low).2.2.1).2.1 ?_
        rwa [same]
      refine .bind ⟨some f, _, congrArg Except.ok (kalloc_some f rest list granted), .bind (.writes ?_)⟩
      rw [kalloc_page source, parent.page copies.others low]
      have perms := parent.table.flagsOf valid
      have first : Spends m₁ (m₁.grant f rest (m₀.bytesOf old j)) 1 := grant_spends list given₀
      have few := missing_le (m₁.grant f rest (m₀.bytesOf old j)) new (j * pgsize)
      have unmapped : (m₁.grant f rest (m₀.bytesOf old j)).pte new (j * pgsize) &&& pteV = 0 := by
        rw [pte_agree (grant_agree _ copies.space.table list)]
        exact copies.space.unmapped _ le_rfl (by omega)
      refine .bind ((mappages_page f (copies.space.table.grant list) (copies.list.grant list)
        (by omega) perms unmapped).mono ?_)
      rintro r m₂ ⟨taken', ⟨rfl, writes, count, grants⟩ | ⟨-, -, -, k, less, failed, -⟩⟩
      · have small : wrap (j * pgsize + pgsize) = (j + 1) * pgsize := by
          rw [Nat.succ_mul, wrap, Nat.mod_eq_of_lt]
          rw [maxva_eq] at high
          omega
        have maps := copies.space.table.maps copies.list list writes
        have both := first.granted writes grants
        rw [if_neg (by decide), small]
        refine ih next (by omega) (copies.round (Nat.zero_le j) perms (by omega) maps) fun k less => ?_
        rw [both.fails]
        exact given _ (by omega)
      · rw [first.fails] at failed
        exact absurd failed (given _ (by omega))
    · rw [if_neg more]
      exact .pure rfl

theorem uvmcopy_given {old new : ℕ} (parent : Parent m old new sz) (space : Space m new 0) (free : m.Free)
    (limit : sz ≤ trapframe)
    (given : ∀ k, k < 3 * pagesOf sz → ¬ m.Fails k) : Returns (uvmcopy old new sz) m fun r _ => r = 0 := by
  have enough : pagesOf sz - 0 < rounds := by
    have : trapframe < rounds := by decide
    rw [pagesOf, pgsize]
    omega
  have loop := copyFrom_given parent (Nat.zero_le _) enough (Added.refl space free) given
  rw [Nat.zero_mul] at loop
  unfold uvmcopy
  refine .bind (loop.mono ?_)
  rintro r m' rfl
  exact .pure rfl

theorem uvmcopy_exchanges (child : Slotted m i np) (empty : np.sz = 0) (parent : Slotted m j q) (free : m.Free)
    (apart : ∀ x ∈ m.held q, x ∉ m.held np) :
    Returns (uvmcopy q.pagetable np.pagetable q.sz) m fun r m' =>
      r = 0 ∧ Exchanges m m' i np { np with sz := q.sz } ∧
        (∀ b, b < pgroundup q.sz → m'.page (m'.frame np.pagetable b) = m.page (m.frame q.pagetable b) ∧
          pteFlags (m'.pte np.pagetable b) = pteFlags (m.pte q.pagetable b) ∧
          m'.frame np.pagetable b ∈ m'.owns np.pagetable (pagesOf q.sz)) ∨
      r = -1 ∧ Exchanges m m' i np np ∧ ∃ k, k < 3 * pagesOf q.sz ∧ m.Fails k := by
  have zero : pagesOf np.sz = 0 := by rw [empty]; rfl
  have whole := child.whole
  have space : Space m np.pagetable 0 := by
    have := whole.space
    rwa [zero] at this
  have parents := parent.parent fun x mem there => apart x mem (.inl (.inr (.inl there)))
  have limit := parent.whole.space.size_le
  have given (never : ∀ k, k < 3 * pagesOf q.sz → ¬ m.Fails k) := uvmcopy_given parents space free limit never
  obtain ⟨r, m', ran, taken, ended⟩ := uvmcopy_spec parents space free
  refine ⟨r, m', ran, ?_⟩
  rcases ended with ⟨rfl, copies⟩ | ⟨rfl, restores⟩
  · rw [zero] at whole
    have trades := copies.trades (Nat.zero_le _)
    rw [← zero] at trades
    obtain ⟨slot', trades'⟩ := child.user (copies.whole whole free) trades
    refine .inl ⟨rfl, ⟨slot', trades', rfl⟩, fun b low => ?_⟩
    rw [pgroundup_pages limit] at low
    have fresh := copies.fresh b (by omega) low
    have perms : LeafPerm (m.flagsOf q.pagetable (b / pgsize)) := by
      rw [flagsOf_page]
      exact flags_leaf (parents.table.flags (parents.mapped_page low).1)
    refine ⟨fresh.2.trans bytesOf_page, ?_, .inr (mem_frames (by omega) low)⟩
    rw [fresh.1, entry, entry_flags perms.small, flagsOf_page,
      flags_or_valid (valid_iff.mp (parents.mapped_page low).1)]
  · obtain ⟨slot', trades'⟩ := child.user (restores.whole child.whole free) (restores.trades child.whole free)
    refine .inr ⟨rfl, ⟨slot', trades', rfl⟩, ?_⟩
    by_contra never
    have done := (given fun k less failed => never ⟨k, less, failed⟩).det ran
    exact absurd done (by decide)

theorem setPage_setPage {dst : ℕ} (pg pg' : Page) : (m.setPage dst pg).setPage dst pg' = m.setPage dst pg' := by
  simp only [Memory.setPage, Function.update_idem]

theorem copyTrapframe_eq {dst src : ℕ} : Returns (copyTrapframe dst src) m fun _ m' => ∃ pg, m' = m.setPage dst pg ∧
    ∀ w : Fin 512, w.val < 36 → pg w = if w = Trapframe.a0 then 0 else m.page src w := by
  unfold copyTrapframe
  refine .bind (.writes (.writes ?_))
  rw [Memory.store, setPage_setPage, setPage_self]
  refine ⟨_, rfl, fun w small => ?_⟩
  rw [Function.update_apply, if_pos small]

/-- `fork` fails as `allocproc` does, or because the user memory cannot be copied. It faults only with `allocproc`. -/
theorem fork_spec (parent : Slotted m j q) (free : m.Free) (less : i < nproc) (unused : np.Unused) :
    (m.Fails 0 ∨ ∀ k, k < 73 → ¬ m.Fails k) ∧ Returns (fork q i np) m (fun r m' =>
      r = (false, np) ∧ Trades m m' ∅ ∅ ∧ (∃ k, k < 76 + 3 * pagesOf q.sz ∧ m.Fails k) ∨ r.1 = true ∧
        Forks m m' i q np r.2) ∨
    ¬ m.Fails 0 ∧ m.Fails 1 ∧ fork q i np m = .error .null ∨
    ¬ m.Fails 0 ∧ ¬ m.Fails 1 ∧ (∃ k, 2 ≤ k ∧ k < 73 ∧ m.Fails k) ∧ fork q i np m = .error (.panic "Pvmmap") := by
  rcases allocproc_spec free less unused with
    ⟨failed, done⟩ | ⟨given, failed, ran⟩ | ⟨given, given', some, ran⟩ | ⟨never, done⟩
  · refine .inl ⟨.inl failed, .bind (done.mono ?_)⟩
    rintro r m' ⟨rfl, trades⟩
    exact .pure (.inl ⟨rfl, trades, 0, by omega, failed⟩)
  · refine .inr (.inl ⟨given, failed, ?_⟩)
    unfold fork
    change (allocproc i np m >>= _) = _
    rw [ran]
    rfl
  · refine .inr (.inr ⟨given, given', some, ?_⟩)
    unfold fork
    change (allocproc i np m >>= _) = _
    rw [ran]
    rfl
  · refine .inl ⟨.inr never, .bind (done.mono ?_)⟩
    rintro ⟨found, np₁⟩ m₁ (⟨same, trades, k, -, few, failed⟩ | ⟨rfl, made⟩)
    · cases same
      exact .pure (.inl ⟨rfl, trades, k, by omega, failed⟩)
    obtain ⟨parent₁, held₁, apart, pages⟩ := parent.stays made.trades fun x _ none => Set.notMem_empty x none
    have size : np₁.sz = 0 := made.sz
    dsimp only at made
    dsimp only
    rw [if_pos rfl]
    refine .bind ((uvmcopy_exchanges made.slot size parent₁ made.trades.list (by rwa [held₁])).mono ?_)
    rintro r m₂ (⟨rfl, copied, memory⟩ | ⟨rfl, undone, k, few, failed⟩)
    · rw [if_neg (by decide)]
      have all := made.trades.trans copied.trades
      obtain ⟨-, -, -, pages₂⟩ := parent.stays all fun x _ none => Set.notMem_empty x none
      refine .bind (copyTrapframe_eq.mono ?_)
      rintro - m₃ ⟨pg, rfl, words⟩
      have written := copied.slot.trapframe_write copied.trades.list pg
      have limit := parent.whole.space.size_le
      have user : ∀ x ∈ m₂.owns np₁.pagetable (pagesOf q.sz), (m₂.setPage np₁.trapframe pg).page x = m₂.page x :=
        fun x mem =>
        setPage_of_ne (by rintro rfl; exact copied.slot.frame mem)
      have pte (b : ℕ) : (m₂.setPage np₁.trapframe pg).pte np₁.pagetable b = m₂.pte np₁.pagetable b :=
        pte_agree fun x mem => user x (.inl mem)
      have frame (b : ℕ) : (m₂.setPage np₁.trapframe pg).frame np₁.pagetable b = m₂.frame np₁.pagetable b := by
        rw [Memory.frame, pte]
        rfl
      have old_pte (b : ℕ) : m₁.pte q.pagetable b = m.pte q.pagetable b :=
        pte_agree fun x mem => pages x (.inl (.inr (.inl mem)))
      have old_frame (b : ℕ) : m₁.frame q.pagetable b = m.frame q.pagetable b := by
        rw [Memory.frame, old_pte]
        rfl
      refine .pure (.inr ⟨rfl, written.slot, all.trans written.trades, made.pa, rfl, fun b low => ?_,
        fun b low => ?_, fun w small => ?_⟩)
      · have upto := le_pagesOf (a := q.sz)
        have low' : b < pgroundup q.sz := by
          rw [pgroundup_pages limit]
          omega
        obtain ⟨bytes, -, owned⟩ := memory b low'
        have mem : m.frame q.pagetable b ∈ m.held q := .inl (.inr (.inr (mem_frames (by omega) (by omega))))
        rw [Memory.at, Memory.at, frame, user _ owned, bytes, old_frame, pages _ mem]
      · rw [pte, (memory b low).2.1, old_pte]
      · rw [setPage_self, words w small, pages₂ _ (.inl (.inl rfl))]
    · rw [if_pos (by decide)]
      refine .bind ((freeproc_trades undone.slot undone.trades.list).mono ?_)
      rintro r m₃ ⟨rfl, freed⟩
      rw [made.spends.fails] at failed
      refine .pure (.inl ⟨?_, (made.trades.trans undone.trades).trans freed, k + 76, by omega, failed⟩)
      rw [unused.clear, Held.cleared, Held.cleared, made.pa]

/-! ### userinit -/

theorem initPerm_leaf : LeafPerm (pteW ||| pteR ||| pteX ||| pteU) := ⟨by decide, by decide⟩

theorem uvminit_exchanges {src : List UInt8} (slot : Slotted m i p) (empty : p.sz = 0) (free : m.Free)
    (given : ∀ k, k < 3 → ¬ m.Fails k) (short : src.length < pgsize) : Returns (uvminit p.pagetable src) m fun _ m' =>
      Exchanges m m' i p { p with sz := pgsize } ∧ ∃ n, n ≤ 3 ∧ Spends m m' n := by
  have zero : pagesOf p.sz = 0 := by rw [empty]; rfl
  have whole := slot.whole
  rw [zero] at whole
  obtain ⟨granted, f, rest, list⟩ := not_fails_zero (given 0 (by decide))
  have mem : f ∈ m.free := by rw [list]; exact List.mem_cons_self
  have nonnull := free.nonzero mem
  have table := whole.space.table
  have below : 0 * pgsize < maxva := by decide
  unfold uvminit
  refine .bind ?_
  rw [panicIf, onlyIf, if_neg (Nat.not_le.mpr short)]
  refine .pure (.bind ⟨some f, _, congrArg Except.ok (kalloc_some f rest list granted), .bind ?_⟩)
  rw [Option.getD_some, memset, if_neg nonnull]
  refine .writes (.bind ?_)
  change Returns _ (m.grant f rest (filled 0)) _
  have unmapped : (m.grant f rest (filled 0)).pte p.pagetable (0 * pgsize) &&& pteV = 0 := by
    rw [pte_agree (grant_agree _ table list)]
    exact whole.space.unmapped _ (by decide) (by decide)
  have table₁ : Table (m.grant f rest (filled 0)) p.pagetable := table.grant list
  have mapped := mappages_page f table₁ (free.grant list) below initPerm_leaf unmapped
  rw [Nat.zero_mul] at mapped
  refine mapped.mono ?_
  have first : Spends m (m.grant f rest (filled 0)) 1 := grant_spends list (given 0 (by decide))
  have most := missing_le (m.grant f rest (filled 0)) p.pagetable 0
  rintro r m₁ ⟨taken, ⟨-, writes, count, grants⟩ | ⟨-, -, -, k, few, failed, -⟩⟩
  · have counts := first.granted writes grants
    have maps := table.maps free list writes
    have start : Added m m p.pagetable 0 0 (fun _ => pteW ||| pteR ||| pteX ||| pteU) (fun _ => filled 0) [] :=
      .refl whole.space free
    have added := start.round le_rfl initPerm_leaf below maps
    have frame {b : ℕ} (low : b < 1 * pgsize) : m₁.frame p.pagetable b = f := by
      have same : b / pgsize = 0 := Nat.div_eq_of_lt (by omega)
      exact (maps.frame free initPerm_leaf (lt_trans low (by decide))).trans (if_pos same)
    have rewrites : Rewrites m₁ (m₁.setPage f (setBytes (m₁.page f) 0 src)) p.pagetable 1 := by
      refine ⟨rfl, rfl, fun x out => setPage_of_ne ?_⟩
      rintro rfl
      exact out 0 (by decide) (frame (by decide)).symm
    have spends : Spends m (m₁.setPage f (setBytes (m₁.page f) 0 src)) (1 + taken.length) :=
      ⟨counts.count, counts.refuse, counts.never⟩
    refine .writes ?_
    generalize m₁.setPage f (setBytes (m₁.page f) 0 src) = m₂ at rewrites spends
    have done := added.rewrite rewrites
    have whole' : Whole m₂ p.pagetable (pagesOf pgsize) := done.whole whole free
    have trades : Trades m m₂ (m.owns p.pagetable (pagesOf p.sz)) (m₂.owns p.pagetable (pagesOf pgsize)) := by
      rw [zero]
      exact done.trades (Nat.zero_le 1)
    obtain ⟨slot', trades'⟩ := slot.user whole' trades
    exact ⟨⟨slot', trades', rfl⟩, 1 + taken.length, by omega, spends⟩
  · rw [first.fails] at failed
    exact absurd failed (given _ (by omega))

/-- The first process takes at most 79 pages. -/
theorem userinit_spec (free : m.Free) (less : i < nproc) (unused : p.Unused) (given : ∀ k, k < 79 → ¬ m.Fails k) :
    Returns (userinit i p) m fun p' m' => Slotted m' i p' ∧ Trades m m' ∅ (m'.held p') ∧ p'.pa = p.pa ∧
      p'.sz = pgsize ∧ ∃ n, n ≤ 79 ∧ Spends m m' n := by
  rcases allocproc_spec free less unused with ⟨failed, -⟩ | ⟨-, failed, -⟩ | ⟨-, -, ⟨k, -, few, failed⟩, -⟩ | ⟨-, done⟩
  · exact absurd failed (given 0 (by decide))
  · exact absurd failed (given 1 (by decide))
  · exact absurd failed (given k (by omega))
  unfold userinit
  refine .bind (done.mono ?_)
  rintro ⟨found, p₁⟩ m₁ (⟨-, -, k, -, few, failed⟩ | ⟨rfl, made⟩)
  · exact absurd failed (given k (by omega))
  have size : p₁.sz = 0 := made.sz
  have given₁ (k : ℕ) (less : k < 3) : ¬ m₁.Fails k := by
    rw [made.spends.fails]
    exact given (k + 76) (by omega)
  have short : initcode.length < pgsize := by decide
  dsimp only at made ⊢
  rw [if_pos rfl]
  refine .bind ((uvminit_exchanges made.slot size made.trades.list given₁ short).mono ?_)
  rintro - m₂ ⟨first, n, few, spends⟩
  refine .bind (.writes (.bind (.writes ?_)))
  have second := first.trans (first.slot.trapframe_write first.trades.list
    (Function.update (m₂.page p₁.trapframe) Trapframe.epc 0))
  have third := second.trans (second.slot.trapframe_write second.trades.list
    (Function.update ((m₂.store (p₁.trapframe, Trapframe.epc) 0).page p₁.trapframe) Trapframe.sp pgsize))
  have all := made.spends.trans spends
  exact .pure ⟨third.slot, made.trades.trans third.trades, third.pa.trans made.pa, rfl,
    76 + n, by omega, all.count, all.refuse, all.never⟩

end Xv6Labs.Vm
