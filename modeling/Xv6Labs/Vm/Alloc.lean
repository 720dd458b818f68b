import Xv6Labs.Vm.Unmap

/-!
# `uvmalloc`

Each round adds a page with a zeroed frame of its own. Where one fails, `uvmdealloc` takes away what the rounds
before it have added.
-/

namespace Xv6Labs.Vm

open Faults

variable {m₀ m m' : Memory} {root va n a b e f j k fuel oldsz newsz : ℕ} {taken taken' : List ℕ} {perm : ℕ → ℕ}
  {bytes : ℕ → Page} {rest : List ℕ} {pg : Page}

/-- From `m₀` to `m`, the pages from `n` to `j` have been added, with the tables `taken` for them. Page `i` has the
permissions `perm i` and the contents `bytes i`. -/
structure Added (m₀ m : Memory) (root n j : ℕ) (perm : ℕ → ℕ) (bytes : ℕ → Page) (taken : List ℕ) : Prop where
  space : Space m root j
  list : m.Free
  image : m.image = m₀.image
  free : (m.frames root n j ++ (taken ++ m.free)).Perm m₀.free
  nodes : m.nodes root = m₀.nodes root ∪ {x | x ∈ taken}
  kept : ∀ b, b < maxva → ¬ (n * pgsize ≤ b ∧ b < j * pgsize) → m.pte root b = m₀.pte root b
  fresh : ∀ b, n * pgsize ≤ b → b < j * pgsize →
    m.pte root b = entry (m.frame root b) (perm (b / pgsize)) ∧ m.page (m.frame root b) = bytes (b / pgsize)
  others : ∀ p, p ∉ m₀.nodes root → p ∉ m₀.free → m.page p = m₀.page p
  low : ∀ i : Fin 512, 256 ≤ i.val → m.node root [i] = m₀.node root [i]

theorem Added.refl (space : Space m root n) (free : m.Free) : Added m m root n n perm bytes [] := by
  refine ⟨space, free, rfl, ?_, by simp, fun _ _ _ => rfl, fun b _ _ => ?_, fun _ _ _ => rfl, fun _ _ => rfl⟩
  · simp [Memory.frames]
  · omega

theorem Added.refused (added : Added m₀ m root n j perm bytes taken) : Added m₀ m.refused root n j perm bytes taken :=
  ⟨⟨⟨added.space.table.distinct, added.space.table.inner, added.space.table.leaf, added.space.table.owned⟩,
    ⟨added.space.owned.mapped, added.space.owned.distinct, added.space.owned.apart, added.space.owned.used,
      added.space.owned.kend, added.space.owned.phystop⟩, added.space.unmapped, added.space.bound⟩,
    ⟨added.list.nodup, added.list.aligned, added.list.kend, added.list.phystop⟩, added.image, added.free,
    added.nodes, added.kept, added.fresh, added.others, added.low⟩

theorem frames_concat (le : n ≤ j) : m.frames root n (j + 1) = m.frames root n j ++ [m.frame root (j * pgsize)] := by
  have count : j + 1 - n = (j - n) + 1 := by omega
  rw [Memory.frames, count, List.range'_concat, List.map_append, Memory.frames]
  have last : n + 1 * (j - n) = j := by omega
  rw [last]
  rfl

/-- Memory with a page that has been taken from the free list, and written. -/
def Memory.grant (m : Memory) (f : ℕ) (rest : List ℕ) (pg : Page) : Memory :=
  ({ m.setPage f (filled 5) with free := rest, refuse := fun k => m.refuse (k + 1) }).setPage f pg

theorem grant_page (x : ℕ) : (m.grant f rest pg).page x = if x = f then pg else m.page x := by
  simp only [Memory.grant, Memory.setPage]
  by_cases same : x = f
  · subst same
    rw [Function.update_self, if_pos rfl]
  · rw [Function.update_of_ne same, Function.update_of_ne same, if_neg same]

theorem grant_agree (pg : Page) (table : Table m root) (list : m.free = f :: rest) :
    ∀ x ∈ m.nodes root, (m.grant f rest pg).page x = m.page x := by
  intro x mem
  rw [grant_page, if_neg]
  rintro rfl
  exact table.owned x mem (by rw [list]; exact List.mem_cons_self)

theorem Table.grant (table : Table m root) (list : m.free = f :: rest) : Table (m.grant f rest pg) root :=
  table.agree (grant_agree _ table list) fun x mem there =>
    table.owned x mem (by rw [list]; exact List.mem_cons_of_mem _ there)

theorem Memory.Free.grant (free : m.Free) (list : m.free = f :: rest) : (m.grant f rest pg).Free := by
  have sub (p : ℕ) (mem : p ∈ rest) : p ∈ m.free := by
    rw [list]
    exact List.mem_cons_of_mem _ mem
  have nodup := free.nodup
  rw [list, List.nodup_cons] at nodup
  exact ⟨nodup.2, fun p mem => free.aligned p (sub p mem), fun p mem => free.kend p (sub p mem),
    fun p mem => free.phystop p (sub p mem)⟩

/-- From `m` to `m'`, page `j` has been mapped to the free page `f`, which holds `pg` then. -/
structure Maps (m m' : Memory) (root j f perm : ℕ) (pg : Page) (taken : List ℕ) : Prop where
  table : Table m' root
  image : m'.image = m.image
  free : m.free = f :: (taken ++ m'.free)
  nodes : m'.nodes root = m.nodes root ∪ {x | x ∈ taken}
  here : ∀ b, b < maxva → b / pgsize = j → m'.pte root b = entry f perm
  kept : ∀ b, b < maxva → b / pgsize ≠ j → m'.pte root b = m.pte root b
  bytes : m'.page f = pg
  others : ∀ p, p ∉ m.nodes root → p ∉ m.free → m'.page p = m.page p
  low : ∀ i : Fin 512, 256 ≤ i.val → m'.node root [i] = m.node root [i]

theorem Table.maps {p : ℕ} (table : Table m root) (free : m.Free) (list : m.free = f :: rest)
    (writes : Writes (m.grant f rest pg) m' root taken fun b => if b / pgsize = j then some (entry f p) else none) :
    Maps m m' root j f p pg taken := by
  have agree := grant_agree pg table list
  have mem : f ∈ m.free := by rw [list]; exact List.mem_cons_self
  have nodup := free.nodup
  rw [list, List.nodup_cons] at nodup
  have split : rest = taken ++ m'.free := writes.free
  refine ⟨writes.table,
    writes.image, by rw [list, split], by rw [writes.nodes, nodes_agree agree], fun b bound same => ?_,
    fun b bound other => ?_, ?_, fun x off out => ?_,
    fun i high => (writes.low i high).trans (node_agree agree (by simp))⟩
  · rw [writes.ptes b bound, if_pos same]
    rfl
  · rw [writes.ptes b bound, if_neg other]
    exact pte_agree agree
  · rw [writes.others f _ nodup.1, grant_page, if_pos rfl]
    rw [nodes_agree agree]
    exact fun there => table.owned f there mem
  · have out' : x ∉ (m.grant f rest pg).free := fun there => out (by rw [list]; exact List.mem_cons_of_mem _ there)
    have other : x ≠ f := by
      rintro rfl
      exact out mem
    rw [writes.others x (by rwa [nodes_agree agree]) out', grant_page, if_neg other]

theorem Maps.frame {p b : ℕ} (maps : Maps m m' root j f p pg taken) (free : m.Free) (perms : LeafPerm p)
    (bound : b < maxva) :
    m'.frame root b = if b / pgsize = j then f else m.frame root b := by
  have mem : f ∈ m.free := by rw [maps.free]; exact List.mem_cons_self
  have small : f < 2 ^ 64 := lt_trans (free.phystop f mem) (by decide)
  by_cases same : b / pgsize = j
  · rw [if_pos same, Memory.frame, maps.here b bound same, entry, entry_pa perms.small (free.aligned f mem) small]
  · rw [if_neg same, Memory.frame, maps.kept b bound same]
    rfl

theorem page_cases (to_ : b < (j + 1) * pgsize) : b / pgsize = j ∨ b / pgsize ≠ j ∧ b < j * pgsize := by
  by_cases same : b / pgsize = j
  · exact .inl same
  · refine .inr ⟨same, ?_⟩
    by_contra more
    exact same ((page_div j b).mpr ⟨Nat.le_of_not_lt more, to_⟩)

theorem Maps.owned {p : ℕ} (maps : Maps m m' root j f p pg taken) (table : Table m root) (owned : Owned m root 0 j)
    (free : m.Free) (perms : LeafPerm p) (room : (j + 1) * pgsize ≤ maxva) : Owned m' root 0 (j + 1) := by
  have mem : f ∈ m.free := by rw [maps.free]; exact List.mem_cons_self
  have nodup := free.nodup
  rw [maps.free, List.nodup_cons] at nodup
  have new {b : ℕ} (bound : b < maxva) (same : b / pgsize = j) : m'.frame root b = f := by
    rw [maps.frame free perms bound, if_pos same]
  have old {b : ℕ} (bound : b < maxva) (other : b / pgsize ≠ j) : m'.frame root b = m.frame root b := by
    rw [maps.frame free perms bound, if_neg other]
  have unused {b : ℕ} (low : b < j * pgsize) : m.frame root b ∉ m.free := owned.used b (by omega) low
  have apart {x : ℕ} (off : x ∉ m.nodes root) (out : x ∉ taken) : x ∉ m'.nodes root := by
    rw [maps.nodes]
    rintro (there | there)
    · exact off there
    · exact out there
  have sub {x : ℕ} (there : x ∈ taken ++ m'.free) : x ∈ m.free := by
    rw [maps.free]
    exact List.mem_cons_of_mem _ there
  refine ⟨fun b _ to_ => ?_, fun a b _ to_ _ to' eq => ?_, fun b _ to_ => ?_, fun b _ to_ there => ?_,
    fun b _ to_ => ?_, fun b _ to_ => ?_⟩
  · rcases page_cases to_ with same | ⟨other, low⟩
    · rw [maps.here b (by omega) same]
      exact perms.entry.1
    · rw [maps.kept b (by omega) other]
      exact owned.mapped b (by omega) low
  · rcases page_cases to_ with same | ⟨other, low⟩
    · rcases page_cases to' with same' | ⟨other', low'⟩
      · rw [same, same']
      · rw [new (by omega) same, old (by omega) other'] at eq
        exact absurd (eq ▸ mem) (unused low')
    · rcases page_cases to' with same' | ⟨other', low'⟩
      · rw [new (by omega) same', old (by omega) other] at eq
        exact absurd (eq ▸ mem) (unused low)
      · rw [old (by omega) other, old (by omega) other'] at eq
        exact owned.distinct a b (by omega) low (by omega) low' eq
  · rcases page_cases to_ with same | ⟨other, low⟩
    · rw [new (by omega) same]
      exact apart (fun there => table.owned f there mem) fun there => nodup.1 (List.mem_append_left _ there)
    · rw [old (by omega) other]
      exact apart (owned.apart b (by omega) low) fun there => unused low (sub (List.mem_append_left _ there))
  · rcases page_cases to_ with same | ⟨other, low⟩
    · rw [new (by omega) same] at there
      exact nodup.1 (List.mem_append_right _ there)
    · rw [old (by omega) other] at there
      exact unused low (sub (List.mem_append_right _ there))
  · rw [maps.image]
    rcases page_cases to_ with same | ⟨other, low⟩
    · rw [new (by omega) same]
      exact free.kend f mem
    · rw [old (by omega) other]
      exact owned.kend b (by omega) low
  · rcases page_cases to_ with same | ⟨other, low⟩
    · rw [new (by omega) same]
      exact free.phystop f mem
    · rw [old (by omega) other]
      exact owned.phystop b (by omega) low

/-- Frames of their own are no more than the memory above the kernel has. -/
theorem Owned.fits_ram (owned : Owned m root 0 n) : n * pgsize ≤ Vm.phystop - kernbase := by
  have positive : 0 < pgsize := by decide
  have size : pgsize = 4096 := rfl
  have bottom : kernbase = kernbase / pgsize * pgsize := by decide
  have whole : Vm.phystop = Vm.phystop / pgsize * pgsize := by decide
  have first (i : ℕ) (mem : i ∈ Finset.range n) : i * pgsize < n * pgsize :=
    Nat.mul_lt_mul_of_pos_right (Finset.mem_range.mp mem) positive
  have count : (Finset.range n).card ≤ (Finset.Ico (kernbase / pgsize) (Vm.phystop / pgsize)).card := by
    refine Finset.card_le_card_of_injOn (fun i => m.frame root (i * pgsize) / pgsize)
      (fun i mem => ?_) fun i mem k mem' eq => ?_
    · have high := owned.phystop (i * pgsize) (by omega) (first i mem)
      have low := owned.kend (i * pgsize) (by omega) (first i mem)
      have base := m.image.kernbase_lt
      refine Finset.mem_coe.mpr (Finset.mem_Ico.mpr ?_)
      change _ ≤ m.frame root (i * pgsize) / pgsize ∧ m.frame root (i * pgsize) / pgsize < _
      rw [whole] at high
      exact ⟨Nat.div_le_div_right (by omega), Nat.div_lt_of_lt_mul (lt_of_lt_of_eq high (Nat.mul_comm _ _))⟩
    · have aligned : m.frame root (i * pgsize) % pgsize = 0 := pa_aligned
      have aligned' : m.frame root (k * pgsize) % pgsize = 0 := pa_aligned
      have eq : m.frame root (i * pgsize) / pgsize = m.frame root (k * pgsize) / pgsize := eq
      have same : m.frame root (i * pgsize) = m.frame root (k * pgsize) := by
        rw [size] at *
        omega
      have pages := owned.distinct _ _ (by omega) (first i mem) (by omega) (first k mem') same
      rwa [Nat.mul_div_cancel _ positive, Nat.mul_div_cancel _ positive] at pages
  rw [Finset.card_range, Nat.card_Ico] at count
  rw [whole, bottom, ← Nat.sub_mul]
  exact Nat.mul_le_mul_right _ count

theorem Owned.fits (owned : Owned m root 0 n) : n * pgsize ≤ Vm.phystop := owned.fits_ram.trans (Nat.sub_le ..)

theorem Memory.Free.maps {p : ℕ} (free : m.Free) (maps : Maps m m' root j f p pg taken) : m'.Free := by
  have sub (x : ℕ) (mem : x ∈ m'.free) : x ∈ m.free := by
    rw [maps.free]
    exact List.mem_cons_of_mem _ (List.mem_append_right _ mem)
  have nodup := free.nodup
  rw [maps.free, List.nodup_cons] at nodup
  refine ⟨nodup.2.of_append_right, fun x mem => free.aligned x (sub x mem), fun x mem => ?_,
    fun x mem => free.phystop x (sub x mem)⟩
  rw [maps.image]
  exact free.kend x (sub x mem)

/-- What was neither a table nor free before is neither of these later, and no new frame. -/
theorem Added.outside {p : ℕ} (added : Added m₀ m root n j perm bytes taken) (off : p ∉ m₀.nodes root)
    (out : p ∉ m₀.free) :
    p ∉ m.nodes root ∧ p ∉ m.free ∧ p ∉ m.frames root n j := by
  refine ⟨?_, fun there => out (added.free.subset (List.mem_append_right _ (List.mem_append_right _ there))),
    fun there => out (added.free.subset (List.mem_append_left _ there))⟩
  rw [added.nodes]
  rintro (there | there)
  · exact off there
  · exact out (added.free.subset (List.mem_append_right _ (List.mem_append_left _ there)))

theorem page_lt (below : j * pgsize < maxva) : (j + 1) * pgsize ≤ maxva := by
  rw [maxva_eq, pgsize] at *
  omega

/-- A page that is mapped to a new frame. -/
theorem Added.round (added : Added m₀ m root n j perm bytes taken) (le : n ≤ j) (perms : LeafPerm (perm j))
    (below : j * pgsize < maxva) (maps : Maps m m' root j f (perm j) (bytes j) taken') :
    Added m₀ m' root n (j + 1) perm bytes (taken ++ taken') := by
  have room := page_lt below
  have mem : f ∈ m.free := by rw [maps.free]; exact List.mem_cons_self
  have owned := maps.owned added.space.table added.space.owned added.list perms room
  have top : phystop ≤ trapframe := by decide
  have high : trapframe ≤ maxva := by decide
  have step : (j + 1) * pgsize = j * pgsize + pgsize := Nat.succ_mul j pgsize
  have apart {b : ℕ} (out : ¬ (j * pgsize ≤ b ∧ b < (j + 1) * pgsize)) : b / pgsize ≠ j := fun same =>
    out ((page_div j b).mp same)
  refine ⟨⟨maps.table, owned, fun b from_ to_ => ?_, owned.fits.trans top⟩, added.list.maps maps,
    maps.image.trans added.image, ?_, ?_, fun b bound out => ?_, fun b from_ to_ => ?_, fun p off out => ?_,
    fun i high => (maps.low i high).trans (added.low i high)⟩
  · rw [maps.kept b (by omega) (apart (by omega))]
    exact added.space.unmapped b (by omega) to_
  · have same : m'.frames root n j = m.frames root n j :=
      frames_congr fun b _ to_ => maps.kept b (by omega) (apart (by omega))
    have last : m'.frame root (j * pgsize) = f := by
      rw [maps.frame added.list perms below, if_pos (Nat.mul_div_cancel _ (by decide))]
    rw [frames_concat le, same, last]
    refine List.Perm.trans ?_ added.free
    rw [maps.free, List.append_assoc, List.append_assoc]
    refine List.Perm.append_left _ ?_
    have middle : (taken ++ f :: (taken' ++ m'.free)).Perm (f :: (taken ++ (taken' ++ m'.free))) := List.perm_middle
    exact middle.symm
  · rw [maps.nodes, added.nodes, Set.union_assoc]
    congr 1
    ext x
    simp
  · have := Nat.mul_le_mul_right pgsize le
    rw [maps.kept b bound (apart (by omega))]
    exact added.kept b bound fun there => out ⟨there.1, by omega⟩
  · rw [maps.frame added.list perms (by omega)]
    rcases page_cases to_ with same | ⟨other, low⟩
    · rw [if_pos same, maps.here b (by omega) same, same]
      exact ⟨rfl, maps.bytes⟩
    · obtain ⟨ent, held⟩ := added.fresh b from_ low
      rw [if_neg other, maps.kept b (by omega) other,
        maps.others _ (added.space.owned.apart b (by omega) low) (added.space.owned.used b (by omega) low)]
      exact ⟨ent, held⟩
  · obtain ⟨off', out', -⟩ := added.outside off out
    rw [maps.others p off' out', added.others p off out]

/-- What `uvmalloc` leaves when it fails: the pages it had added are gone again. -/
structure Restores (m₀ m : Memory) (root : ℕ) (taken : List ℕ) : Prop where
  table : Table m root
  image : m.image = m₀.image
  free : (taken ++ m.free).Perm m₀.free
  nodes : m.nodes root = m₀.nodes root ∪ {x | x ∈ taken}
  ptes : ∀ b, b < maxva → m.pte root b = m₀.pte root b ∨ m.pte root b = 0 ∧ m₀.pte root b &&& pteV = 0
  others : ∀ p, p ∉ m₀.nodes root → p ∉ m₀.free → m.page p = m₀.page p
  low : ∀ i : Fin 512, 256 ≤ i.val → m.node root [i] = m₀.node root [i]

theorem translate_none (invalid : m.pte root va &&& pteV = 0) : m.translate root va = none := if_pos invalid

theorem mem_frames (from_ : n * pgsize ≤ b) (to_ : b < j * pgsize) : m.frame root b ∈ m.frames root n j := by
  rw [pgsize] at *
  have same : m.frame root b = m.frame root (b / pgsize * pgsize) := by
    rw [Memory.frame, pte_congr (Nat.mul_div_cancel (b / pgsize) (by decide : 0 < pgsize)).symm]
    rfl
  rw [same]
  refine List.mem_map.mpr ⟨b / pgsize, List.mem_range'_1.mpr ?_, rfl⟩
  rw [pgsize]
  omega

theorem Added.restores (space : Space m₀ root n) (added : Added m₀ m root n j perm bytes taken)
    (clears : Clears m m' root (m.frames root n j).reverse fun b => n * pgsize ≤ b ∧ b < j * pgsize) :
    Restores m₀ m' root taken where
  table := clears.table
  image := clears.image.trans added.image
  free := by
    rw [clears.free]
    refine List.Perm.trans ?_ added.free
    refine (List.perm_append_comm_assoc ..).trans ?_
    exact List.Perm.append_right _ (List.reverse_perm _)
  nodes := clears.nodes.trans added.nodes
  ptes b bound := by
    by_cases inside : n * pgsize ≤ b ∧ b < j * pgsize
    · exact .inr ⟨clears.cleared b bound inside, space.unmapped b inside.1 (lt_of_lt_of_le inside.2 added.space.bound)⟩
    · exact .inl ((clears.kept b bound inside).trans (added.kept b bound inside))
  others p off out := by
    have off' : p ∉ m.nodes root := by
      rw [added.nodes]
      rintro (there | there)
      · exact off there
      · exact out (added.free.subset (List.mem_append_right _ (List.mem_append_left _ there)))
    have out' : p ∉ (m.frames root n j).reverse := fun there =>
      out (added.free.subset (List.mem_append_left _ (List.mem_reverse.mp there)))
    rw [clears.others p off' out', added.others p off out]
  low i high := (clears.low i high).trans (added.low i high)

theorem Restores.translate (restores : Restores m₀ m root taken) (b : ℕ) (bound : b < maxva) :
    m.translate root b = m₀.translate root b := by
  rcases restores.ptes b bound with same | ⟨zero, invalid⟩
  · exact translate_congr same
  · rw [translate_none invalid, translate_none]
    rw [zero]
    exact Nat.zero_and _

theorem Owned.sub {i l : ℕ} (owned : Owned m root j k) (lo : j ≤ i) (hi : l ≤ k) : Owned m root i l := by
  have lo' := Nat.mul_le_mul_right pgsize lo
  have hi' := Nat.mul_le_mul_right pgsize hi
  exact ⟨fun b from_ to_ => owned.mapped b (by omega) (by omega),
    fun a b from_ to_ from' to' => owned.distinct a b (by omega) (by omega) (by omega) (by omega),
    fun b from_ to_ => owned.apart b (by omega) (by omega), fun b from_ to_ => owned.used b (by omega) (by omega),
    fun b from_ to_ => owned.kend b (by omega) (by omega), fun b from_ to_ => owned.phystop b (by omega) (by omega)⟩

theorem pagesOf_mul : pagesOf (j * pgsize) = j := by
  rw [pagesOf, pgsize]
  omega

/-- The cleanup at either failure. -/
theorem Added.cleanup (space : Space m₀ root n) (added : Added m₀ m root n j perm bytes taken) :
    Returns (uvmdealloc root (j * pgsize) (n * pgsize)) m fun _ m' => Restores m₀ m' root taken := by
  have owned := added.space.owned.sub (Nat.zero_le n) le_rfl
  have owned' : Owned m root (pagesOf (n * pgsize)) (pagesOf (j * pgsize)) := by rwa [pagesOf_mul, pagesOf_mul]
  refine (uvmdealloc_free added.space.table owned' added.space.bound).mono fun r m' ⟨_, clears⟩ => ?_
  rw [pagesOf_mul, pagesOf_mul] at clears
  exact added.restores space clears

/-- The memory when a page cannot be mapped: its frame is free again, and tables may have been added. -/
theorem Added.undone (added : Added m₀ m root n j perm bytes taken) (list : m.free = f :: rest)
    (grows : Grows (m.grant f rest pg) m' root taken') (same : ∀ b, m'.pte root b = (m.grant f rest pg).pte root b) :
    Added m₀ (m'.kfree f) root n j perm bytes (taken ++ taken') := by
  have agree := grant_agree pg added.space.table list
  have mem : f ∈ m.free := by rw [list]; exact List.mem_cons_self
  have nodup := added.list.nodup
  rw [list, List.nodup_cons] at nodup
  have nodes : m'.nodes root = m.nodes root ∪ {x | x ∈ taken'} := by rw [grows.nodes, nodes_agree agree]
  have free : rest = taken' ++ m'.free := grows.free
  have high : trapframe ≤ maxva := by decide
  have apart : f ∉ m'.nodes root := by
    rw [nodes]
    rintro (there | there)
    · exact added.space.table.owned f there mem
    · exact nodup.1 (by rw [free]; exact List.mem_append_left _ there)
  have agree' : ∀ x ∈ m'.nodes root, (m'.kfree f).page x = m'.page x := by
    intro x there
    refine Function.update_of_ne ?_ _ _
    rintro rfl
    exact apart there
  have ptes (b : ℕ) : (m'.kfree f).pte root b = m.pte root b := by
    rw [pte_agree agree', same, pte_agree agree]
  have frame (b : ℕ) : (m'.kfree f).frame root b = m.frame root b := by
    rw [Memory.frame, ptes]
    rfl
  have nodes' : (m'.kfree f).nodes root = m.nodes root ∪ {x | x ∈ taken'} := by rw [nodes_agree agree', nodes]
  have list' : (m'.kfree f).free = f :: m'.free := rfl
  have sub {x : ℕ} (there : x ∈ (m'.kfree f).free) : x ∈ m.free := by
    rcases List.mem_cons.mp there with rfl | there
    · exact mem
    · rw [list, free]
      exact List.mem_cons_of_mem _ (List.mem_append_right _ there)
  have image : (m'.kfree f).image = m.image := grows.image
  have page {x : ℕ} (off : x ∉ m.nodes root) (out : x ∉ m.free) : (m'.kfree f).page x = m.page x := by
    have out' : x ∉ (m.grant f rest pg).free := fun there => out (by rw [list]; exact List.mem_cons_of_mem _ there)
    have other : x ≠ f := by
      rintro rfl
      exact out mem
    change Function.update m'.page f _ x = _
    rw [Function.update_of_ne other, grows.others x (by rwa [nodes_agree agree]) out', grant_page, if_neg other]
  have space := added.space
  refine ⟨⟨grows.table.agree agree' fun x there here => ?_,
    ⟨fun b from_ to_ => ?_, fun a b from_ to_ from' to' eq => ?_,
    fun b from_ to_ => ?_, fun b from_ to_ there => ?_, fun b from_ to_ => ?_, fun b from_ to_ => ?_⟩,
    fun b from_ to_ => ?_, space.bound⟩,
    ⟨?_, fun x there => ?_, fun x there => ?_, fun x there => ?_⟩, image.trans added.image, ?_, ?_,
    fun b bound out => ?_, fun b from_ to_ => ?_, fun p off out => ?_,
    fun i high => ((node_agree agree' (by simp)).trans (grows.low i high)).trans
      ((node_agree agree (by simp)).trans (added.low i high))⟩
  · rcases List.mem_cons.mp here with rfl | here
    · exact apart there
    · exact grows.table.owned x there here
  · rw [ptes]
    exact space.owned.mapped b from_ to_
  · rw [frame, frame] at eq
    exact space.owned.distinct a b from_ to_ from' to' eq
  · rw [frame, nodes']
    rintro (there | there)
    · exact space.owned.apart b from_ to_ there
    · refine space.owned.used b from_ to_ ?_
      rw [list, free]
      exact List.mem_cons_of_mem _ (List.mem_append_left _ there)
  · rw [frame] at there
    exact space.owned.used b from_ to_ (sub there)
  · rw [frame, image]
    exact space.owned.kend b from_ to_
  · rw [frame]
    exact space.owned.phystop b from_ to_
  · rw [ptes]
    exact space.unmapped b from_ to_
  · have tail := nodup.2
    rw [free] at tail
    rw [list', List.nodup_cons]
    exact ⟨fun there => nodup.1 (by rw [free]; exact List.mem_append_right _ there), tail.of_append_right⟩
  · exact added.list.aligned x (sub there)
  · rw [image]
    exact added.list.kend x (sub there)
  · exact added.list.phystop x (sub there)
  · have frames : (m'.kfree f).frames root n j = m.frames root n j := frames_congr fun b _ _ => ptes b
    rw [frames, list']
    refine List.Perm.trans (List.Perm.append_left _ ?_) added.free
    rw [list, free, List.append_assoc]
    refine List.Perm.append_left _ ?_
    exact List.perm_middle
  · rw [nodes', added.nodes, Set.union_assoc]
    congr 1
    ext x
    simp
  · rw [ptes]
    exact added.kept b bound out
  · obtain ⟨ent, zero⟩ := added.fresh b from_ to_
    rw [frame, ptes]
    refine ⟨ent, ?_⟩
    rw [page (space.owned.apart b (by omega) to_) (space.owned.used b (by omega) to_)]
    exact zero
  · have off' : p ∉ m.nodes root := by
      rw [added.nodes]
      rintro (there | there)
      · exact off there
      · exact out (added.free.subset (List.mem_append_right _ (List.mem_append_left _ there)))
    have out' : p ∉ m.free := fun there =>
      out (added.free.subset (List.mem_append_right _ (List.mem_append_right _ there)))
    rw [page off' out', added.others p off out]

/-! ### uvmalloc -/

theorem kfree_fine (free : m.Free) (mem : f ∈ m.free) (image : m'.image = m.image) :
    kfree f m' = .ok ((), m'.kfree f) := by
  have fine : ¬ (f % pgsize ≠ 0 ∨ f < m'.image.kend ∨ phystop ≤ f) := by
    have aligned := free.aligned f mem
    have low := free.kend f mem
    have high := free.phystop f mem
    rw [image]
    omega
  exact if_neg fine

theorem userPerm_leaf : LeafPerm userPerm := ⟨by decide, by decide⟩

/-- What `uvmalloc` adds. -/
abbrev Zeroed (m m' : Memory) (root n j : ℕ) (taken : List ℕ) : Prop :=
  Added m m' root n j (fun _ => userPerm) (fun _ => filled 0) taken

theorem allocFrom_spec (space : Space m₀ root n) (le : n ≤ j) (reach : j ≤ pagesOf newsz) (enough : 2 ^ 20 - j < fuel)
    (added : Zeroed m₀ m root n j taken) :
    Returns (allocFrom root (n * pgsize) newsz fuel (j * pgsize)) m fun r m' => ∃ taken,
      r = newsz ∧ Zeroed m₀ m' root n (pagesOf newsz) taken ∨ r = 0 ∧ Restores m₀ m' root taken := by
  induction fuel generalizing m j taken with
  | zero => exact absurd enough (Nat.not_lt_zero _)
  | succ fuel ih =>
    have fits := added.space.owned.fits
    have top : phystop + pgsize < trapframe := by decide
    have high : trapframe ≤ maxva := by decide
    have most : j < 2 ^ 20 := by
      have limit : phystop < 2 ^ 20 * pgsize := by decide
      exact Nat.lt_of_mul_lt_mul_right (lt_of_le_of_lt fits limit)
    unfold allocFrom
    by_cases more : j * pgsize < newsz
    · have next : j + 1 ≤ pagesOf newsz := by
        rw [pagesOf, pgsize] at *
        omega
      rw [if_pos more]
      by_cases failed : m.Fails 0
      · refine .bind ⟨none, m.refused, congrArg Except.ok (kalloc_none failed), ?_⟩
        exact .bind ((added.refused.cleanup space).mono fun _ m' restores => .pure ⟨taken, .inr ⟨rfl, restores⟩⟩)
      obtain ⟨granted, f, rest, list⟩ := not_fails_zero failed
      have mem : f ∈ m.free := by rw [list]; exact List.mem_cons_self
      have nonnull := added.list.nonzero mem
      refine .bind ⟨some f, _, congrArg Except.ok (kalloc_some f rest list granted), ?_⟩
      refine .bind ?_
      rw [memset, if_neg nonnull]
      refine .writes (.bind ?_)
      have unmapped : (m.grant f rest (filled 0)).pte root (j * pgsize) &&& pteV = 0 := by
        rw [pte_agree (grant_agree _ added.space.table list)]
        exact added.space.unmapped _ le_rfl (by omega)
      refine (mappages_page f (added.space.table.grant list) (added.list.grant list)
        (by omega) userPerm_leaf unmapped).mono ?_
      rintro r m₁ ⟨taken', ⟨rfl, writes, -, -⟩ | ⟨rfl, grows, same, -⟩⟩
      · rw [if_neg (by decide)]
        have small : wrap (j * pgsize + pgsize) = (j + 1) * pgsize := by
          rw [Nat.succ_mul, wrap, Nat.mod_eq_of_lt]
          rw [maxva_eq] at high
          omega
        have maps := added.space.table.maps added.list list writes
        rw [small]
        exact ih (by omega) next (by omega) (added.round le userPerm_leaf (by omega) maps)
      · rw [if_pos (by decide)]
        refine .bind ⟨(), m₁.kfree f, kfree_fine added.list mem grows.image, ?_⟩
        exact .bind (((added.undone list grows same).cleanup space).mono fun _ m' restores =>
          .pure ⟨taken ++ taken', .inr ⟨rfl, restores⟩⟩)
    · have done : j = pagesOf newsz := by
        rw [pagesOf, pgsize] at *
        omega
      rw [if_neg more]
      refine .pure ⟨taken, .inl ⟨rfl, ?_⟩⟩
      rwa [← done]

theorem le_pagesOf : a ≤ pagesOf a * pgsize := by
  rw [pagesOf, pgsize]
  omega

theorem Space.size_le (space : Space m root (pagesOf a)) : a ≤ trapframe := le_pagesOf.trans space.bound

theorem uvmalloc_spec (space : Space m root (pagesOf oldsz)) (free : m.Free) (grow : oldsz ≤ newsz) :
    Returns (uvmalloc root oldsz newsz) m fun r m' => ∃ taken,
      r = newsz ∧ Zeroed m m' root (pagesOf oldsz) (pagesOf newsz) taken ∨ r = 0 ∧ Restores m m' root taken := by
  unfold uvmalloc
  rw [if_neg (Nat.not_lt.mpr grow), pgroundup_pages space.size_le]
  refine allocFrom_spec space le_rfl (Nat.div_le_div_right (by omega)) ?_ (Added.refl space free)
  rw [rounds]
  omega

theorem translate_frame (valid : m.pte root va &&& pteV ≠ 0) :
    m.translate root va = some (m.frame root va, pteFlags (m.pte root va)) := if_neg valid

/-- The pages below `n` are mapped, and no others. -/
theorem Space.translates (space : Space m root n) (below : b < trapframe) :
    (m.translate root b).isSome ↔ b < n * pgsize := by
  constructor
  · intro found
    by_contra more
    rw [translate_none (space.unmapped b (Nat.le_of_not_lt more) below)] at found
    cases found
  · intro low
    rw [translate_frame (space.owned.mapped b (by omega) low)]
    rfl

/-- The page of a frame that is mapped before is as before. -/
theorem Space.old_page (space : Space m root n) (low : b < n * pgsize)
    (others : ∀ p, p ∉ m.nodes root → p ∉ m.free → m'.page p = m.page p) :
    m'.page (m.frame root b) = m.page (m.frame root b) :=
  others _ (space.owned.apart b (by omega) low) (space.owned.used b (by omega) low)

theorem Added.mem_free (added : Added m₀ m root n j perm bytes taken) (from_ : n * pgsize ≤ b) (to_ : b < j * pgsize) :
    m.frame root b ∈ m₀.free := added.free.subset (List.mem_append_left _ (mem_frames from_ to_))

theorem Added.translate (added : Added m₀ m root n j perm bytes taken) (from_ : n * pgsize ≤ b) (to_ : b < j * pgsize)
    (perms : LeafPerm (perm (b / pgsize))) :
    m.translate root b = some (m.frame root b, perm (b / pgsize) ||| pteV) := by
  have ent := (added.fresh b from_ to_).1
  rw [translate_frame (added.space.owned.mapped b (by omega) to_), ent, entry, entry_flags perms.small]

theorem filled_zero : filled 0 = fun _ => 0 := by
  funext i
  simp [filled]

theorem uvmalloc_uvmdealloc (space : Space m root (pagesOf oldsz)) (free : m.Free) (grow : oldsz ≤ newsz) :
    Returns (uvmalloc root oldsz newsz) m fun r m' => ∃ taken,
      m'.nodes root = m.nodes root ∪ {x | x ∈ taken} ∧ Table m' root ∧
      (∀ b, b < pgroundup oldsz → m'.page (m.frame root b) = m.page (m.frame root b)) ∧
      (r = newsz ∧
        (∀ b, b < trapframe → ((m'.translate root b).isSome ↔ b < pgroundup newsz)) ∧
        (∀ b, b < maxva → ¬ (pgroundup oldsz ≤ b ∧ b < pgroundup newsz) → m'.translate root b = m.translate root b) ∧
        (∀ b, pgroundup oldsz ≤ b → b < pgroundup newsz → m'.frame root b ∈ m.free ∧
          m'.translate root b = some (m'.frame root b, userPerm ||| pteV) ∧ m'.page (m'.frame root b) = fun _ => 0) ∧
        (∀ a b, a < pgroundup newsz → b < pgroundup newsz → m'.frame root a = m'.frame root b →
          a / pgsize = b / pgsize) ∧
        (m'.frames root (pagesOf oldsz) (pagesOf newsz) ++ (taken ++ m'.free)).Perm m.free ∧
        Returns (uvmdealloc root newsz oldsz) m' (fun r m'' => r = oldsz ∧
          (∀ b, b < maxva → m''.translate root b = m.translate root b) ∧
          m''.free = (m'.frames root (pagesOf oldsz) (pagesOf newsz)).reverse ++ m'.free ∧
          ∀ b, b < pgroundup oldsz → m''.page (m.frame root b) = m.page (m.frame root b)) ∨
      r = 0 ∧ (∀ b, b < maxva → m'.translate root b = m.translate root b) ∧ (taken ++ m'.free).Perm m.free) := by
  rw [pgroundup_pages space.size_le]
  refine (uvmalloc_spec space free grow).mono ?_
  rintro r m' ⟨taken, ⟨rfl, added⟩ | ⟨rfl, restores⟩⟩
  · have owned := added.space.owned.sub (Nat.zero_le (pagesOf oldsz)) le_rfl
    have bound := added.space.size_le
    rw [pgroundup_pages bound]
    refine ⟨taken, added.nodes, added.space.table, fun b low => space.old_page low added.others, .inl
      ⟨rfl, fun b below => added.space.translates below, fun b below out => translate_congr (added.kept b below out),
        fun b from_ to_ => ⟨added.mem_free from_ to_, added.translate from_ to_ userPerm_leaf,
          (added.fresh b from_ to_).2.trans filled_zero⟩,
        fun a b low low' => added.space.owned.distinct a b (by omega) low (by omega) low', added.free, ?_⟩⟩
    refine (uvmdealloc_free added.space.table owned bound).mono fun r m'' ⟨result, clears⟩ => ?_
    have back := added.restores space clears
    exact ⟨result.trans (min_eq_right grow), back.translate, clears.free, fun b low => space.old_page low back.others⟩
  · exact ⟨taken, restores.nodes, restores.table, fun b low => space.old_page low restores.others,
      .inr ⟨rfl, restores.translate, restores.free⟩⟩

theorem blankMemory_space : Space blankMemory 0x87fff000 0 := by
  have owned : 0x87fff000 ∉ blankMemory.free := by decide
  obtain ⟨table, -, ptes⟩ := table_empty rfl owned
  refine ⟨table, ⟨?_, ?_, ?_, ?_, ?_, ?_⟩, fun b _ _ => by rw [ptes b]; rfl, Nat.zero_le _⟩ <;> intros <;> omega

/-- Two pages, for a size that ends within the second. -/
theorem uvmalloc_uvmdealloc_unaligned :
    Returns (uvmalloc 0x87fff000 0 5000) blankMemory fun r m' => ∃ taken,
      (r = 5000 ∧ (m'.frames 0x87fff000 0 2 ++ (taken ++ m'.free)).Perm blankMemory.free ∨
        r = 0 ∧ (taken ++ m'.free).Perm blankMemory.free) := by
  have none : pagesOf 0 = 0 := by decide
  have two : pagesOf 5000 = 2 := by decide
  have space : Space blankMemory 0x87fff000 (pagesOf 0) := by
    rw [none]
    exact blankMemory_space
  refine (uvmalloc_uvmdealloc space blankMemory_free (Nat.zero_le 5000)).mono ?_
  rintro r m' ⟨taken, -, -, -, ⟨grown, -, -, -, -, free, -⟩ | ⟨failed, -, free⟩⟩
  · rw [none, two] at free
    exact ⟨taken, .inl ⟨grown, free⟩⟩
  · exact ⟨taken, .inr ⟨failed, free⟩⟩

/-! ### An address space of 4 MB -/

def sparePages : List ℕ := [0x87ffa000, 0x87ff9000, 0x87ff8000, 0x87ff7000, 0x87ff6000, 0x87ff5000]

/-- A table at `0x87fff000` that maps 1024 pages from `0x80100000` on, one with no entries at `0x87ffb000`, and the
first `c` of `sparePages` free. -/
def userMemory (c : ℕ) : Memory where
  image := blankMemory.image
  page p i :=
    if p = 0x87fff000 then if i = 0 then pa2pte 0x87ffe000 ||| pteV else 0
    else if p = 0x87ffe000 then if i.val < 2 then pa2pte (0x87ffc000 + i.val * 0x1000) ||| pteV else 0
    else if p = 0x87ffc000 then entry (0x80100000 + i.val * 0x1000) userPerm
    else if p = 0x87ffd000 then entry (0x80300000 + i.val * 0x1000) userPerm
    else 0
  free := sparePages.take c
  refuse _ := false

variable {c : ℕ}

theorem userMemory_mem {f : ℕ} (mem : f ∈ (userMemory c).free) : f ∈ sparePages := List.mem_of_mem_take mem

theorem userMemory_free : (userMemory c).Free := by
  have aligned : ∀ f ∈ sparePages, f % pgsize = 0 := by decide
  have low : ∀ f ∈ sparePages, 0x80027000 ≤ f := by decide
  have high : ∀ f ∈ sparePages, f < phystop := by decide
  have nodup : sparePages.Nodup := by decide
  exact ⟨nodup.sublist (List.take_sublist ..), fun f mem => aligned f (userMemory_mem mem),
    fun f mem => low f (userMemory_mem mem), fun f mem => high f (userMemory_mem mem)⟩

/-- The tables of `userMemory`. -/
def userNode : List (Fin 512) → Option ℕ
  | [] => some 0x87fff000
  | [i] => if i = 0 then some 0x87ffe000 else none
  | i :: k :: _ => if i = 0 ∧ k.val < 2 then some (0x87ffc000 + k.val * 0x1000) else none

theorem userMemory_node (p : List (Fin 512)) (le : p.length ≤ 2) : (userMemory c).node 0x87fff000 p = userNode p := by
  have two (i : Fin 512) : child ((userMemory c).page 0x87fff000 i) = if i = 0 then some 0x87ffe000 else none := by
    change child (if i = 0 then pa2pte 0x87ffe000 ||| pteV else 0) = _
    by_cases zero : i = 0
    · rw [if_pos zero, if_pos zero, child_inner (by decide) (by decide)]
    · rw [if_neg zero, if_neg zero, child_zero]
  have one (k : Fin 512) : child ((userMemory c).page 0x87ffe000 k) =
      if k.val < 2 then some (0x87ffc000 + k.val * 0x1000) else none := by
    change child (if k.val < 2 then pa2pte (0x87ffc000 + k.val * 0x1000) ||| pteV else 0) = _
    by_cases low : k.val < 2
    · rw [if_pos low, if_pos low, child_inner]
      · rw [pgsize]
        omega
      · omega
    · rw [if_neg low, if_neg low, child_zero]
  rcases p with _ | ⟨i, _ | ⟨k, _ | ⟨l, rest⟩⟩⟩
  · rfl
  · simp only [Memory.node, Radix.node, two, userNode]
    by_cases zero : i = 0
    · rw [if_pos zero]
      rfl
    · rw [if_neg zero]
      rfl
  · simp only [Memory.node, Radix.node, two, userNode]
    by_cases zero : i = 0
    · rw [if_pos zero]
      simp only [Option.bind_some, one, zero, true_and]
      by_cases low : k.val < 2
      · rw [if_pos low]
        rfl
      · rw [if_neg low]
        rfl
    · rw [if_neg zero, if_neg fun both => zero both.1]
      rfl
  · exact absurd le (by simp)

theorem userMemory_last {k : ℕ} (low : k < 2) (i : Fin 512) : (userMemory c).page (0x87ffc000 + k * 0x1000) i =
    entry (0x80100000 + (k * 512 + i.val) * 0x1000) userPerm := by
  have cases : k = 0 ∨ k = 1 := by omega
  rcases cases with rfl | rfl
  · rw [Nat.zero_mul, Nat.zero_add]
    rfl
  · rw [Nat.add_mul, ← Nat.add_assoc]
    rfl

theorem userMemory_pte (bound : b < maxva) :
    (userMemory c).pte 0x87fff000 b = if b < 1024 * pgsize then entry (0x80100000 + pgrounddown b) userPerm else 0 := by
  have path : (userMemory c).node 0x87fff000 [px 2 b, px 1 b] = userNode [px 2 b, px 1 b] := userMemory_node _ le_rfl
  have two : (px 2 b).val = b / 2 ^ (12 + 9 * 2) % 512 := px_val 2
  have one : (px 1 b).val = b / 2 ^ (12 + 9 * 1) % 512 := px_val 1
  have zero : (px 0 b).val = b / 2 ^ (12 + 9 * 0) % 512 := px_val 0
  norm_num at two one zero
  rw [maxva_eq] at bound
  by_cases low : b < 1024 * pgsize
  · have here : px 2 b = 0 ∧ (px 1 b).val < 2 := by
      rw [pgsize] at low
      refine ⟨Fin.ext ?_, ?_⟩
      · rw [two, Fin.val_zero]
        omega
      · omega
    have address : ((px 1 b).val * 512 + px 0 b) * 0x1000 = pgrounddown b := by
      rw [pgsize] at low
      rw [one, zero, pgrounddown, pgsize]
      omega
    rw [if_pos low, pte_of_node (path.trans (if_pos here)), userMemory_last here.2, address]
  · have gone : ¬ (px 2 b = 0 ∧ (px 1 b).val < 2) := by
      rintro ⟨first, second⟩
      have := congrArg Fin.val first
      rw [two, Fin.val_zero] at this
      rw [pgsize] at low
      omega
    rw [if_neg low, pte_of_none (path.trans (if_neg gone))]

theorem userNode_some {p : List (Fin 512)} {x : ℕ} (there : userNode p = some x) (le : p.length ≤ 2) :
    p = [] ∧ x = 0x87fff000 ∨ p = [0] ∧ x = 0x87ffe000 ∨
      ∃ k : Fin 512, k.val < 2 ∧ p = [0, k] ∧ x = 0x87ffc000 + k.val * 0x1000 := by
  match p with
  | [] => exact .inl ⟨rfl, (Option.some.inj there).symm⟩
  | [i] =>
    simp only [userNode] at there
    split_ifs at there with zero
    exact .inr (.inl ⟨by rw [zero], (Option.some.inj there).symm⟩)
  | [i, k] =>
    simp only [userNode] at there
    split_ifs at there with low
    exact .inr (.inr ⟨k, low.2, by rw [low.1], (Option.some.inj there).symm⟩)
  | _ :: _ :: _ :: _ => exact absurd le (by simp)

theorem userMemory_nodes {x : ℕ} (mem : x ∈ (userMemory c).nodes 0x87fff000) : 0x87ffc000 ≤ x ∧ x ≤ 0x87fff000 := by
  obtain ⟨p, le, there⟩ := mem
  have there : userNode p = some x := (userMemory_node p le).symm.trans there
  rcases userNode_some there le with ⟨-, rfl⟩ | ⟨-, rfl⟩ | ⟨k, low, -, rfl⟩ <;> omega

theorem userMemory_table : Table (userMemory c) 0x87fff000 := by
  refine ⟨fun p q x le le' there there' => ?_, fun p x i short there valid => ?_, fun p x i deep there valid => ?_,
    fun x mem there => ?_⟩
  · have there : userNode p = some x := (userMemory_node p le).symm.trans there
    have there' : userNode q = some x := (userMemory_node q le').symm.trans there'
    obtain ⟨rfl, eq⟩ | ⟨rfl, eq⟩ | ⟨k, low, rfl, eq⟩ := userNode_some there le <;>
      rcases userNode_some there' le' with ⟨rfl, eq'⟩ | ⟨rfl, eq'⟩ | ⟨l, low', rfl, eq'⟩ <;> try omega
    · rfl
    · rfl
    · rw [show k = l from Fin.ext (by omega)]
  · have there : userNode p = some x := (userMemory_node p short.le).symm.trans there
    rcases userNode_some there short.le with ⟨rfl, rfl⟩ | ⟨rfl, rfl⟩ | ⟨k, low, rfl, rfl⟩
    · change (if i = 0 then pa2pte 0x87ffe000 ||| pteV else 0) &&& leafBits = 0
      split
      · exact inner_leafBits
      · exact Nat.zero_and _
    · change (if i.val < 2 then pa2pte (0x87ffc000 + i.val * 0x1000) ||| pteV else 0) &&& leafBits = 0
      split
      · exact inner_leafBits
      · exact Nat.zero_and _
    · exact absurd short (by simp)
  · have there : userNode p = some x := (userMemory_node p deep.le).symm.trans there
    rcases userNode_some there deep.le with ⟨rfl, rfl⟩ | ⟨rfl, rfl⟩ | ⟨k, low, rfl, rfl⟩
    · exact absurd deep (by simp)
    · exact absurd deep (by simp)
    · rw [userMemory_last low]
      exact userPerm_leaf.entry.2
  · have high : ∀ f ∈ sparePages, f < 0x87ffc000 := by decide
    have := high x (userMemory_mem there)
    have := userMemory_nodes mem
    omega

theorem userMemory_frame (low : b < 1024 * pgsize) :
    (userMemory c).frame 0x87fff000 b = 0x80100000 + pgrounddown b := by
  have high : 1024 * pgsize ≤ maxva := by decide
  rw [Memory.frame, userMemory_pte (by omega), if_pos low]
  refine entry_pa userPerm_leaf.small ?_ ?_
  · rw [pgrounddown, pgsize]
    omega
  · rw [pgrounddown, pgsize] at *
    omega

theorem userMemory_owned : Owned (userMemory c) 0x87fff000 0 1024 := by
  have high : 1024 * pgsize ≤ maxva := by decide
  have size : pgsize = 4096 := rfl
  refine ⟨fun b _ low => ?_, fun a b _ low _ low' same => ?_, fun b _ low there => ?_, fun b _ low there => ?_,
    fun b _ low => ?_, fun b _ low => ?_⟩
  · rw [userMemory_pte (by omega), if_pos low]
    exact userPerm_leaf.entry.1
  · rw [userMemory_frame low, userMemory_frame low', pgrounddown, pgrounddown, size] at same
    rw [size]
    omega
  · rw [userMemory_frame low, pgrounddown, size] at there
    have := userMemory_nodes there
    omega
  · have spare : ∀ f ∈ sparePages, 0x80500000 ≤ f := by decide
    rw [userMemory_frame low, pgrounddown, size] at there
    have := spare _ (userMemory_mem there)
    omega
  · rw [userMemory_frame low]
    change 0x80027000 ≤ _
    omega
  · have top : 0x80500000 ≤ phystop := by decide
    rw [userMemory_frame low, pgrounddown, size]
    omega

theorem userMemory_space : Space (userMemory c) 0x87fff000 1024 := by
  have high : trapframe ≤ maxva := by decide
  refine ⟨userMemory_table, userMemory_owned, fun b from_ to_ => ?_, by decide⟩
  rw [userMemory_pte (by omega), if_neg (by omega)]
  rfl

theorem userMemory_empty : Space (userMemory c) 0x87ffb000 0 ∧ (userMemory c).nodes 0x87ffb000 = {0x87ffb000} := by
  have spare : 0x87ffb000 ∉ sparePages := by decide
  have blank : (userMemory c).page 0x87ffb000 = fun _ => 0 := by
    funext i
    simp [userMemory]
  obtain ⟨table, nodes, ptes⟩ := table_empty blank fun mem => spare (userMemory_mem mem)
  refine ⟨⟨table, ⟨?_, ?_, ?_, ?_, ?_, ?_⟩, fun b _ _ => by rw [ptes b]; rfl, Nat.zero_le _⟩, nodes⟩
    <;> intros <;> omega

end Xv6Labs.Vm
