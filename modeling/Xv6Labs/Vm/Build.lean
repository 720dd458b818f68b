import Xv6Labs.Vm.Create
import Xv6Labs.Vm.User

/-!
# A page table under construction

`exec` makes a page table and fills it from the bottom. `Built` says what it holds at any time, and that all of it
comes from pages that were free at the start, so that freeing it brings them back.
-/

namespace Xv6Labs.Vm

open Faults

variable {m₀ m₁ m m' : Memory} {root n j b i sz newsz : ℕ} {taken taken' tables : List ℕ} {perm : ℕ → ℕ}
  {bytes bytes' : ℕ → Page}

/-- Since `m₀`, a page table has been made whose first `n` pages have the permissions `perm` and the contents
`bytes`. -/
def Built (m₀ m : Memory) (root n : ℕ) (perm : ℕ → ℕ) (bytes : ℕ → Page) : Prop :=
  ∃ m₁ tables taken, Made m₀ m₁ root tables ∧ Added m₁ m root 0 n perm bytes taken

theorem Made.built (made : Made m₀ m root tables) : Built m₀ m root 0 perm bytes :=
  ⟨m, tables, [], made, Added.refl made.whole.space made.list⟩

/-- Contents of pages, with further pages after the first `n`. -/
def follow (n : ℕ) (bytes bytes' : ℕ → Page) (i : ℕ) : Page := if i < n then bytes i else bytes' i

theorem frames_append (le : n ≤ j) : m.frames root 0 j = m.frames root 0 n ++ m.frames root n j := by
  rw [Memory.frames, Memory.frames, Memory.frames, ← List.map_append, Nat.sub_zero, Nat.sub_zero]
  congr 1
  have split := @List.range'_append 0 n (j - n) 1
  rw [Nat.zero_add, Nat.one_mul, Nat.add_sub_cancel' le] at split
  exact split.symm

theorem Added.trans (added : Added m₁ m root 0 n perm bytes taken) (more : Added m m' root n j perm bytes' taken')
    (le : n ≤ j) :
    Added m₁ m' root 0 j perm (follow n bytes bytes') (taken ++ taken') := by
  have upto := Nat.mul_le_mul_right pgsize le
  have high : trapframe ≤ maxva := by decide
  have top := more.space.bound
  have old {b : ℕ} (low : b < n * pgsize) : m'.pte root b = m.pte root b := more.kept b (by omega) (by omega)
  have frame {b : ℕ} (low : b < n * pgsize) : m'.frame root b = m.frame root b := by
    rw [Memory.frame, old low]
    rfl
  have positive : 0 < pgsize := by decide
  refine ⟨more.space, more.list, more.image.trans added.image, ?_, ?_, fun b bound out => ?_, fun b _ to_ => ?_,
    fun p off out => ?_, fun i high => (more.low i high).trans (added.low i high)⟩
  · have first : m'.frames root 0 n = m.frames root 0 n := frames_congr fun b _ low => old low
    rw [frames_append le, first]
    refine List.Perm.trans ?_ added.free
    rw [List.append_assoc, List.append_assoc]
    refine List.Perm.append_left _ ?_
    refine (List.perm_append_comm_assoc ..).trans (List.Perm.append_left _ more.free)
  · rw [more.nodes, added.nodes, Set.union_assoc]
    congr 1
    ext x
    simp
  · rw [more.kept b bound (by omega)]
    exact added.kept b bound (by omega)
  · by_cases low : b < n * pgsize
    · have page : b / pgsize < n := (Nat.div_lt_iff_lt_mul positive).mpr low
      obtain ⟨ent, held⟩ := added.fresh b (by omega) low
      rw [frame low, old low, follow, if_pos page,
        more.others _ (added.space.owned.apart b (by omega) low) (added.space.owned.used b (by omega) low)]
      exact ⟨ent, held⟩
    · have page : ¬ b / pgsize < n := mt (Nat.div_lt_iff_lt_mul positive).mp low
      rw [follow, if_neg page]
      exact more.fresh b (by omega) to_
  · obtain ⟨off', out', -⟩ := added.outside off out
    rw [more.others p off' out', added.others p off out]

theorem Made.gap (made : Made m₀ m₁ root tables) (added : Added m₁ m root 0 n perm bytes taken) (from_ : n * pgsize ≤ b)
    (below : b < trapframe) : m.pte root b = 0 := by
  have high : trapframe ≤ maxva := by decide
  rw [added.kept b (by omega) (by omega)]
  exact made.zero b below

theorem Made.traps (made : Made m₀ m₁ root tables) (added : Added m₁ m root 0 n perm bytes taken)
    (from_ : trapframe ≤ b) (bound : b < maxva) : m.pte root b &&& pteV ≠ 0 ∧ m.pte root b &&& pteU = 0 := by
  have top := added.space.bound
  rw [added.kept b bound (by omega)]
  exact made.whole.traps b from_ bound

theorem Memory.Free.of_perm (free : m.Free) (same : (taken ++ m'.free).Perm m.free) (image : m'.image = m.image) :
    m'.Free := by
  have sub {p : ℕ} (mem : p ∈ m'.free) : p ∈ m.free := same.subset (List.mem_append_right _ mem)
  refine ⟨((same.nodup_iff.mpr free.nodup).of_append_right), fun p mem => free.aligned p (sub mem), fun p mem => ?_,
    fun p mem => free.phystop p (sub mem)⟩
  rw [image]
  exact free.kend p (sub mem)

/-- A failed `uvmalloc` leaves what was there. -/
theorem Made.restored (made : Made m₀ m₁ root tables) (added : Added m₁ m root 0 n perm bytes taken)
    (restores : Restores m m' root taken') : Added m₁ m' root 0 n perm bytes (taken ++ taken') := by
  have high : trapframe ≤ maxva := by decide
  have top := added.space.bound
  have same (b : ℕ) (bound : b < maxva) : m'.pte root b = m.pte root b := by
    rcases restores.ptes b bound with same | ⟨zero, invalid⟩
    · exact same
    · by_cases low : b < n * pgsize
      · exact absurd invalid (added.space.owned.mapped b (by omega) low)
      · by_cases below : b < trapframe
        · rw [zero, made.gap added (Nat.le_of_not_lt low) below]
        · exact absurd invalid (made.traps added (Nat.le_of_not_lt below) bound).1
  have frame {b : ℕ} (bound : b < maxva) : m'.frame root b = m.frame root b := by
    rw [Memory.frame, same b bound]
    rfl
  have sub {x : ℕ} (mem : x ∈ taken' ∨ x ∈ m'.free) : x ∈ m.free := restores.free.subset (List.mem_append.mpr mem)
  have owned := added.space.owned
  refine ⟨⟨restores.table, ⟨fun b from_ low => ?_, fun a b from_ low from' low' eq => ?_, fun b from_ low => ?_,
    fun b from_ low there => ?_, fun b from_ low => ?_, fun b from_ low => ?_⟩, fun b from_ below => ?_, top⟩,
    added.list.of_perm restores.free restores.image,
    restores.image.trans added.image, ?_, ?_, fun b bound out => ?_, fun b from_ low => ?_, fun p off out => ?_,
    fun i top => (restores.low i top).trans (added.low i top)⟩
  · rw [same b (by omega)]
    exact owned.mapped b from_ low
  · rw [frame (by omega), frame (by omega)] at eq
    exact owned.distinct a b from_ low from' low' eq
  · rw [frame (by omega), restores.nodes]
    rintro (there | there)
    · exact owned.apart b from_ low there
    · exact owned.used b from_ low (sub (.inl there))
  · rw [frame (by omega)] at there
    exact owned.used b from_ low (sub (.inr there))
  · rw [frame (by omega), restores.image]
    exact owned.kend b from_ low
  · rw [frame (by omega)]
    exact owned.phystop b from_ low
  · rw [same b (by omega)]
    exact added.space.unmapped b from_ below
  · rw [frames_congr fun b _ low => same b (by omega)]
    refine List.Perm.trans (List.Perm.append_left _ ?_) added.free
    rw [List.append_assoc]
    exact List.Perm.append_left _ restores.free
  · rw [restores.nodes, added.nodes, Set.union_assoc]
    congr 1
    ext x
    simp
  · rw [same b bound]
    exact added.kept b bound out
  · rw [frame (by omega), same b (by omega), restores.others _ (owned.apart b from_ low) (owned.used b from_ low)]
    exact added.fresh b from_ low
  · obtain ⟨off', out', -⟩ := added.outside off out
    rw [restores.others p off' out', added.others p off out]

/-! ### What `exec` does to it -/

theorem Built.space (built : Built m₀ m root n perm bytes) : Space m root n := by
  obtain ⟨m₁, tables, taken, -, added⟩ := built
  exact added.space

theorem Built.whole (built : Built m₀ m root n perm bytes) (free : m₀.Free) : Whole m root n := by
  obtain ⟨m₁, tables, taken, made, added⟩ := built
  refine ⟨added.space, fun b from_ bound => made.traps added from_ bound,
    fun i high => (added.low i high).trans (made.whole.low i high), fun x mem => ?_⟩
  have image := added.image.trans made.image
  have all : x ∈ m₀.free := by
    rw [made.free]
    rw [added.nodes, made.nodes] at mem
    rcases mem with mem | mem
    · exact List.mem_append_left _ mem
    · exact List.mem_append_right _ (added.free.subset (List.mem_append_right _ (List.mem_append_left _ mem)))
  have real := free.real all
  exact ⟨real.aligned, image ▸ real.kend, real.phystop⟩

/-- `uvmalloc` that grows. -/
theorem Built.uvmalloc (built : Built m₀ m root (pagesOf sz) (fun _ => userPerm) bytes) (grow : sz ≤ newsz) :
    Returns (uvmalloc root sz newsz) m fun r m' =>
      r = newsz ∧ Built m₀ m' root (pagesOf newsz) (fun _ => userPerm) (follow (pagesOf sz) bytes fun _ => filled 0) ∨
      r = 0 ∧ Built m₀ m' root (pagesOf sz) (fun _ => userPerm) bytes := by
  obtain ⟨m₁, tables, taken, made, added⟩ := built
  refine (uvmalloc_spec added.space added.list grow).mono ?_
  rintro r m' ⟨taken', ⟨rfl, more⟩ | ⟨rfl, restores⟩⟩
  · exact .inl ⟨rfl, m₁, tables, taken ++ taken', made, added.trans more (Nat.div_le_div_right (by omega))⟩
  · exact .inr ⟨rfl, m₁, tables, taken ++ taken', made, made.restored added restores⟩

/-- Only user pages have been written. -/
structure Rewrites (m m' : Memory) (root n : ℕ) : Prop where
  image : m'.image = m.image
  free : m'.free = m.free
  others : ∀ x, (∀ b, b < n * pgsize → x ≠ m.frame root b) → m'.page x = m.page x

theorem Rewrites.agree (writes : Rewrites m m' root n) (owned : Owned m root 0 n) :
    ∀ x ∈ m.nodes root, m'.page x = m.page x := by
  intro x mem
  refine writes.others x fun b low => ?_
  rintro rfl
  exact owned.apart b (by omega) low mem

theorem Owned.agree (owned : Owned m root 0 n) (agree : ∀ x ∈ m.nodes root, m'.page x = m.page x)
    (image : m'.image = m.image) (sub : ∀ x ∈ m'.free, x ∈ m.free) : Owned m' root 0 n := by
  have frame (b : ℕ) : m'.frame root b = m.frame root b := by
    rw [Memory.frame, pte_agree agree]
    rfl
  refine ⟨fun b from_ low => ?_, fun a b from_ low from' low' eq => ?_, fun b from_ low => ?_, fun b from_ low => ?_,
    fun b from_ low => ?_, fun b from_ low => ?_⟩
  · rw [pte_agree agree]
    exact owned.mapped b from_ low
  · rw [frame, frame] at eq
    exact owned.distinct a b from_ low from' low' eq
  · rw [frame, nodes_agree agree]
    exact owned.apart b from_ low
  · rw [frame]
    exact fun mem => owned.used b from_ low (sub _ mem)
  · rw [frame, image]
    exact owned.kend b from_ low
  · rw [frame]
    exact owned.phystop b from_ low

/-- The page table of another process is as it was. -/
theorem Whole.agree (whole : Whole m root n) (agree : ∀ x ∈ m.nodes root, m'.page x = m.page x)
    (image : m'.image = m.image) (sub : ∀ x ∈ m'.free, x ∈ m.free) : Whole m' root n := by
  have space := whole.space
  refine ⟨⟨space.table.agree agree fun x mem there => space.table.owned x mem (sub x there),
    space.owned.agree agree image sub, fun b from_ below => ?_, space.bound⟩, fun b from_ bound => ?_,
    fun i high => (node_agree agree (by simp)).trans (whole.low i high), fun x mem => ?_⟩
  · rw [pte_agree agree]
    exact space.unmapped b from_ below
  · rw [pte_agree agree]
    exact whole.traps b from_ bound
  · rw [nodes_agree agree] at mem
    have real := whole.real x mem
    exact ⟨real.aligned, image ▸ real.kend, real.phystop⟩

theorem Added.rewrite (added : Added m₁ m root 0 n perm bytes taken) (writes : Rewrites m m' root n) :
    Added m₁ m' root 0 n perm (fun i => m'.page (m.frame root (i * pgsize))) taken := by
  have agree := writes.agree added.space.owned
  have frame (b : ℕ) : m'.frame root b = m.frame root b := by
    rw [Memory.frame, pte_agree agree]
    rfl
  have same : ([] ++ m'.free).Perm m.free := by rw [List.nil_append, writes.free]
  have list := added.list.of_perm same writes.image
  refine ⟨⟨added.space.table.agree agree fun x mem => by rw [writes.free]; exact added.space.table.owned x mem,
    added.space.owned.agree agree writes.image (by simp [writes.free]), fun b from_ below => ?_, added.space.bound⟩,
    list,
    writes.image.trans added.image, ?_, ?_, fun b bound out => ?_, fun b from_ low => ⟨?_, ?_⟩, fun p off out => ?_,
    fun i top => ?_⟩
  · rw [pte_agree agree]
    exact added.space.unmapped b from_ below
  · rw [frames_congr fun b _ _ => pte_agree agree, writes.free]
    exact added.free
  · rw [nodes_agree agree]
    exact added.nodes
  · rw [pte_agree agree]
    exact added.kept b bound out
  · rw [pte_agree agree, frame]
    exact (added.fresh b from_ low).1
  · rw [frame, frame_page (Nat.mul_div_cancel (b / pgsize) (by decide : 0 < pgsize))]
  · rw [writes.others p, added.others p off out]
    rintro b low rfl
    exact out (added.mem_free (by omega) low)
  · exact (node_agree agree (by simp)).trans (added.low i top)

theorem Built.rewrite (built : Built m₀ m root n perm bytes) (writes : Rewrites m m' root n) :
    Built m₀ m' root n perm fun i => m'.page (m.frame root (i * pgsize)) := by
  obtain ⟨m₁, tables, taken, made, added⟩ := built
  exact ⟨m₁, tables, taken, made, added.rewrite writes⟩

/-- Its user pages are the first `n`, as far as their permissions say so. -/
theorem Built.user (built : Built m₀ m root n perm bytes) (user : m.User root b) : b < n * pgsize := by
  obtain ⟨m₁, tables, taken, made, added⟩ := built
  by_contra more
  by_cases below : b < trapframe
  · have valid := user.valid
    rw [made.gap added (Nat.le_of_not_lt more) below] at valid
    exact valid (Nat.zero_and _)
  · exact user.user (made.traps added (Nat.le_of_not_lt below) user.below).2

theorem Built.users (built : Built m₀ m root n perm bytes) : Users m root := by
  have owned := built.space.owned
  refine ⟨fun b user zero => ?_, fun a b user user' => ?_, fun b user => ?_⟩
  · have low := owned.kend b (by omega) (built.user user)
    have base := m.image.kernbase_lt
    omega
  · exact owned.distinct a b (by omega) (built.user user) (by omega) (built.user user')
  · exact owned.apart b (by omega) (built.user user)

/-- What a page holds. -/
theorem Built.page (built : Built m₀ m root n perm bytes) (low : b < n * pgsize) :
    m.pte root b = entry (m.frame root b) (perm (b / pgsize)) ∧ m.page (m.frame root b) = bytes (b / pgsize) := by
  obtain ⟨m₁, tables, taken, -, added⟩ := built
  exact added.fresh b (by omega) low

theorem Built.image (built : Built m₀ m root n perm bytes) : m.image = m₀.image := by
  obtain ⟨m₁, tables, taken, made, added⟩ := built
  exact added.image.trans made.image

/-- It is made of pages that were free. -/
theorem Built.owns (built : Built m₀ m root n perm bytes) {x : ℕ} (mem : x ∈ m.owns root n) : x ∈ m₀.free := by
  obtain ⟨m₁, tables, taken, made, added⟩ := built
  rw [made.free]
  rcases mem with mem | mem
  · rw [added.nodes, made.nodes] at mem
    rcases mem with mem | mem
    · exact List.mem_append_left _ mem
    · exact List.mem_append_right _ (added.free.subset (List.mem_append_right _ (List.mem_append_left _ mem)))
  · exact List.mem_append_right _ (added.free.subset (List.mem_append_left _ mem))

theorem Built.free_sub (built : Built m₀ m root n perm bytes) {x : ℕ} (mem : x ∈ m.free) : x ∈ m₀.free := by
  obtain ⟨m₁, tables, taken, made, added⟩ := built
  rw [made.free]
  exact List.mem_append_right _ (added.free.subset (List.mem_append_right _ (List.mem_append_right _ mem)))

theorem Built.others (built : Built m₀ m root n perm bytes) {x : ℕ} (out : x ∉ m₀.free) : m.page x = m₀.page x := by
  obtain ⟨m₁, tables, taken, made, added⟩ := built
  rw [made.free, List.mem_append, not_or] at out
  rw [added.others x, made.others x]
  · rw [made.free, List.mem_append, not_or]
    exact out
  · rw [made.nodes]
    exact out.1
  · exact out.2

/-- Freeing it brings back what it was made of. -/
theorem Built.discard (built : Built m₀ m root (pagesOf sz) perm bytes) (free : m₀.Free) :
    Returns (procFreepagetable root sz) m fun _ m' => Back m₀ m' := by
  have whole := built.whole free
  have owns {x : ℕ} (mem : x ∈ m.owns root (pagesOf sz)) := built.owns mem
  have others {x : ℕ} (out : x ∉ m₀.free) := built.others out
  have image := built.image
  refine (procFreepagetable_spec whole).mono ?_
  rintro - m' ⟨freed, done⟩
  obtain ⟨m₁, tables, taken, made, added⟩ := built
  have first : (m.frames root 0 (pagesOf sz) ++ (taken ++ m.free)).Perm m₁.free := added.free
  have nodup : (tables ++ (m.frames root 0 (pagesOf sz) ++ (taken ++ m.free))).Nodup := by
    have perm : (tables ++ (m.frames root 0 (pagesOf sz) ++ (taken ++ m.free))).Perm m₀.free := by
      rw [made.free]
      exact List.Perm.append_left _ first
    exact perm.nodup_iff.mpr free.nodup
  rw [← List.append_assoc (m.frames root 0 (pagesOf sz)), ← List.append_assoc] at nodup
  refine ⟨done.image.trans image, ?_, fun p out => ?_⟩
  · refine (freed_perm done (List.nodup_append.mp nodup).1 fun x => ?_).trans ?_
    · rw [Memory.owns, added.nodes, made.nodes]
      simp only [Set.mem_union, Set.mem_ofPred_eq, List.mem_append]
      tauto
    · rw [made.free, List.append_assoc, List.append_assoc]
      exact List.Perm.append_left _ first
  · rw [done.others p fun mem => out (owns mem), others out]

end Xv6Labs.Vm
