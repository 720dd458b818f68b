import Xv6Labs.Vm.KernelTable
import Xv6Labs.Vm.Program

/-!
# Pages that change hands

A call takes pages from the free list for their holder, and gives pages back. No page is lost then, and none is held
twice; what the others hold is as it was.
-/

namespace Xv6Labs.Vm

open Faults

variable {m m' m'' : Memory} {root n j sz newsz : ℕ} {A B C : Set ℕ} {freed taken tables : List ℕ} {perm : ℕ → ℕ}
  {bytes : ℕ → Page}

/-- From `m` to `m'`, the holder of the pages `before` has come to hold `after`. -/
structure Trades (m m' : Memory) (before after : Set ℕ) : Prop where
  list : m'.Free
  image : m'.image = m.image
  pool : ∀ x, x ∈ m'.free ∨ x ∈ after ↔ x ∈ m.free ∨ x ∈ before
  apart : ∀ x ∈ after, x ∉ m'.free
  others : ∀ x, x ∉ m.free → x ∉ before → m'.page x = m.page x

theorem Trades.refl (free : m.Free) (out : ∀ x ∈ A, x ∉ m.free) : Trades m m A A :=
  ⟨free, rfl, fun _ => Iff.rfl, out, fun _ _ _ => rfl⟩

theorem Trades.trans (first : Trades m m' A B) (second : Trades m' m'' B C) : Trades m m'' A C := by
  refine ⟨second.list, second.image.trans first.image, fun x => (second.pool x).trans (first.pool x), second.apart,
    fun x out off => ?_⟩
  have away : ¬ (x ∈ m'.free ∨ x ∈ B) := fun there => ((first.pool x).mp there).elim out off
  rw [second.others x (fun there => away (.inl there)) fun there => away (.inr there), first.others x out off]

/-- What another holder has stays its own. -/
theorem Trades.stays (trades : Trades m m' A B) (out : ∀ x ∈ C, x ∉ m.free) (off : ∀ x ∈ C, x ∉ A) :
    ∀ x ∈ C, x ∉ m'.free ∧ x ∉ B ∧ m'.page x = m.page x := by
  intro x mem
  have away : ¬ (x ∈ m'.free ∨ x ∈ B) := fun there => ((trades.pool x).mp there).elim (out x mem) (off x mem)
  exact ⟨fun there => away (.inl there), fun there => away (.inr there), trades.others x (out x mem) (off x mem)⟩

/-- A holder may hold more than what is traded. -/
theorem Trades.frame (trades : Trades m m' A B) (out : ∀ x ∈ C, x ∉ m.free) (off : ∀ x ∈ C, x ∉ A) :
    Trades m m' (A ∪ C) (B ∪ C) := by
  refine ⟨trades.list, trades.image, fun x => ?_, ?_,
    fun x free away => trades.others x free fun there => away (.inl there)⟩
  · rw [Set.mem_union, Set.mem_union, ← or_assoc, ← or_assoc, trades.pool x]
  · rintro x (mem | mem)
    · exact trades.apart x mem
    · exact (trades.stays out off x mem).1

/-- A holder may write its pages. -/
theorem Trades.write {x : ℕ} (free : m.Free) (out : ∀ x ∈ A, x ∉ m.free) (mem : x ∈ A) (pg : Page) :
    Trades m (m.setPage x pg) A A := by
  refine ⟨free.of_same rfl rfl, rfl, fun _ => Iff.rfl, out, fun y _ off => setPage_of_ne ?_⟩
  rintro rfl
  exact off mem

theorem Trades.congr {A' B' : Set ℕ} (trades : Trades m m' A B) (before : A' = A) (after : B' = B) :
    Trades m m' A' B' := by
  rwa [before, after]

theorem Back.trades (back : Back m m') (free : m.Free) : Trades m m' ∅ ∅ := by
  have same : ([] ++ m'.free).Perm m.free := back.free
  refine ⟨free.of_perm same back.image, back.image, fun x => ?_, fun x none => absurd none (Set.notMem_empty x),
    fun x out _ => back.others x out⟩
  rw [back.free.mem_iff]

theorem Freed.trades (done : Freed m m' A freed) (free : m.Free) (real : ∀ x ∈ A, m.Real x)
    (out : ∀ x ∈ A, x ∉ m.free) :
    Trades m m' A ∅ := by
  have real' {x : ℕ} (mem : x ∈ m'.free) : m.Real x := by
    rw [done.free, List.mem_append, done.mem] at mem
    exact mem.elim (real x) free.real
  refine ⟨⟨?_, fun x mem => (real' mem).aligned, fun x mem => ?_, fun x mem => (real' mem).phystop⟩, done.image,
    fun x => ?_, fun x none => absurd none (Set.notMem_empty x), fun x _ off => done.others x off⟩
  · rw [done.free]
    refine List.nodup_append.mpr ⟨done.nodup, free.nodup, fun x there y there' same => ?_⟩
    subst same
    exact out x ((done.mem x).mp there) there'
  · rw [done.image]
    exact (real' mem).kend
  · rw [done.free, List.mem_append, done.mem]
    simp only [Set.mem_empty_iff_false, or_false]
    exact or_comm

/-- A page that `kalloc` has given. -/
theorem give_trades {f : ℕ} {rest : List ℕ} (free : m.Free) (list : m.free = f :: rest) :
    Trades m (m.give f rest) ∅ {f} := by
  have nodup := free.nodup
  rw [list, List.nodup_cons] at nodup
  refine ⟨free.grant list, rfl, fun x => ?_, ?_, fun x out _ => give_page list out⟩
  · rw [list, List.mem_cons]
    simp only [Set.mem_singleton_iff, Set.mem_empty_iff_false, or_false]
    exact or_comm
  · rintro x rfl
    exact nodup.1

/-- What has been made of pages from the front of the list. -/
theorem trades_append (free : m.Free) (list : m'.Free) (image : m'.image = m.image) (split : m.free = tables ++ m'.free)
    (same : ∀ x, x ∈ B ↔ x ∈ tables) (others : ∀ x, x ∉ m.free → m'.page x = m.page x) : Trades m m' ∅ B := by
  have nodup := free.nodup
  rw [split, List.nodup_append] at nodup
  refine ⟨list, image, fun x => ?_, fun x mem there => nodup.2.2 x ((same x).mp mem) x there rfl,
    fun x out _ => others x out⟩
  rw [split, List.mem_append, same]
  simp only [Set.mem_empty_iff_false, or_false]
  exact or_comm

theorem Builds.trades {l : List Region} {blocks : Finset ℕ} (builds : Builds m m' root tables l blocks)
    (free : m.Free) :
    Trades m m' ∅ (m'.nodes root) :=
  trades_append free builds.list builds.image builds.free (fun x => by rw [builds.nodes]; rfl) builds.others

theorem owns_zero : m.owns root 0 = m.nodes root := by
  ext x
  simp [Memory.owns, Memory.frames]

theorem Made.trades (made : Made m m' root tables) (free : m.Free) : Trades m m' ∅ (m'.owns root 0) :=
  trades_append free made.list made.image made.free (fun x => by rw [owns_zero, made.nodes]; rfl) made.others

theorem Adds.trades {l : List Region} {blocks : Finset ℕ} (adds : Adds m m' root l blocks) (free : m.Free)
    (out : ∀ x ∈ m.nodes root, x ∉ m.free) : Trades m m' (m.nodes root) (m'.nodes root) := by
  refine ⟨free.of_same adds.free adds.image, adds.image, fun x => ?_, fun x mem => ?_,
    fun x free off => adds.others x off free⟩
  · rw [adds.nodes, adds.free]
  · rw [adds.nodes] at mem
    rw [adds.free]
    exact out x mem

/-! ### Calls of `kalloc` -/

/-- From `m` to `m'`, `kalloc` has been called `n` times, and has given a page each time. -/
structure Spends (m m' : Memory) (n : ℕ) : Prop where
  count : m.free.length = m'.free.length + n
  refuse : ∀ k, m'.refuse k = m.refuse (k + n)
  never : ∀ k, k < n → ¬ m.Fails k

theorem Spends.fails (spends : Spends m m' n) (k : ℕ) : m'.Fails k ↔ m.Fails (k + n) := by
  have count := spends.count
  have length : m'.free.length ≤ k ↔ m.free.length ≤ k + n := by omega
  rw [Memory.Fails, Memory.Fails, spends.refuse, length]

theorem Spends.trans (first : Spends m m' n) (second : Spends m' m'' j) : Spends m m'' (n + j) := by
  refine ⟨by have := first.count; have := second.count; omega, fun k => ?_, fun k less => ?_⟩
  · rw [second.refuse, first.refuse, Nat.add_assoc, Nat.add_comm j]
  · by_cases before : k < n
    · exact first.never k before
    · have later := second.never (k - n) (by omega)
      rwa [first.fails, Nat.sub_add_cancel (Nat.le_of_not_lt before)] at later

theorem Builds.spends {l : List Region} {blocks : Finset ℕ} (builds : Builds m m' root tables l blocks) :
    Spends m m' (tableCount blocks + 1) := by
  rw [← builds.count]
  refine ⟨?_, builds.refuse, builds.never⟩
  rw [builds.free, List.length_append, Nat.add_comm]

theorem Adds.spends {l : List Region} {blocks : Finset ℕ} (adds : Adds m m' root l blocks) : Spends m m' 0 :=
  ⟨by rw [adds.free, Nat.add_zero], fun k => congrFun adds.refuse k, fun _ less => absurd less (Nat.not_lt_zero _)⟩

theorem give_spends {f : ℕ} {rest : List ℕ} (list : m.free = f :: rest) (given : ¬ m.Fails 0) :
    Spends m (m.give f rest) 1 := by
  refine ⟨by rw [list]; rfl, fun _ => rfl, fun k less => ?_⟩
  cases Nat.lt_one_iff.mp less
  exact given

/-! ### The memory of a user -/

theorem Space.owns_used (space : Space m root n) : ∀ x ∈ m.owns root n, x ∉ m.free := by
  rintro x (mem | mem)
  · exact space.table.owned x mem
  · obtain ⟨b, low, rfl⟩ := frames_owned mem
    exact space.owned.used b (by omega) low

theorem Whole.owns_real (whole : Whole m root n) : ∀ x ∈ m.owns root n, m.Real x := by
  rintro x (mem | mem)
  · exact whole.real x mem
  · obtain ⟨b, low, rfl⟩ := frames_owned mem
    exact ⟨pa_aligned, whole.space.owned.kend b (by omega) low, whole.space.owned.phystop b (by omega) low⟩

theorem Whole.owns_agree (same : ∀ x ∈ m.nodes root, m'.page x = m.page x) : m'.owns root n = m.owns root n := by
  rw [Memory.owns, Memory.owns, nodes_agree same, frames_congr fun b _ _ => pte_agree same]

/-- The memory of a user is as it was when its tables are, and its pages are not freed. -/
theorem Whole.keep (whole : Whole m root n) (same : ∀ x ∈ m.nodes root, m'.page x = m.page x)
    (image : m'.image = m.image) (out : ∀ x ∈ m.owns root n, x ∉ m'.free) : Whole m' root n := by
  have apart : Whole { m' with free := [] } root n := whole.agree same image fun x mem => absurd mem List.not_mem_nil
  obtain ⟨⟨table, owned, unmapped, bound⟩, traps, low, real⟩ := apart
  have owns : m'.owns root n = m.owns root n := Whole.owns_agree same
  refine ⟨⟨⟨table.distinct, table.inner, table.leaf, fun x mem => out x ?_⟩,
    ⟨owned.mapped, owned.distinct, owned.apart, fun b from_ low => out _ ?_, owned.kend, owned.phystop⟩, unmapped,
    bound⟩, traps, low, fun x mem => ⟨(real x mem).aligned, (real x mem).kend, (real x mem).phystop⟩⟩
  · rw [← owns]
    exact .inl mem
  · rw [← owns]
    exact .inr (mem_frames (by omega) low)

theorem Whole.nonzero (whole : Whole m root n) : root ≠ 0 := by
  have real := (whole.real root Radix.root_mem_nodes).kend
  have base := m.image.kernbase_lt
  omega

theorem Added.owns (added : Added m m' root n j perm bytes taken) (le : n ≤ j) (x : ℕ) :
    x ∈ m'.owns root j ↔ x ∈ m.owns root n ∨ x ∈ m'.frames root n j ++ taken := by
  have old : m'.frames root 0 n = m.frames root 0 n := by
    have upto := Nat.mul_le_mul_right pgsize le
    have high : trapframe ≤ maxva := by decide
    have top := added.space.bound
    exact frames_congr fun b _ low => added.kept b (by omega) (by omega)
  rw [Memory.owns, Memory.owns, added.nodes, frames_append le, old]
  simp only [Set.mem_union, Set.mem_ofPred, List.mem_append]
  tauto

theorem Added.trades (added : Added m m' root n j perm bytes taken) (le : n ≤ j) :
    Trades m m' (m.owns root n) (m'.owns root j) := by
  refine ⟨added.list, added.image, fun x => ?_, added.space.owns_used,
    fun x out off => added.others x (fun there => off (.inl there)) out⟩
  rw [added.owns le, ← added.free.mem_iff]
  simp only [List.mem_append]
  tauto

theorem Added.whole (added : Added m m' root n j perm bytes taken) (whole : Whole m root n) (free : m.Free) :
    Whole m' root j := by
  refine ⟨added.space, fun b from_ bound => ?_, fun i high => (added.low i high).trans (whole.low i high),
    fun x mem => ?_⟩
  · have top := added.space.bound
    rw [added.kept b bound (by omega)]
    exact whole.traps b from_ bound
  · rw [added.nodes] at mem
    have real : m.Real x := by
      rcases mem with mem | mem
      · exact whole.real x mem
      · exact free.real (added.free.subset (List.mem_append_right _ (List.mem_append_left _ mem)))
    exact ⟨real.aligned, added.image ▸ real.kend, real.phystop⟩

/-- The user memory after a failed call: there may be more tables. -/
theorem Restores.pte (restores : Restores m m' root taken) {b : ℕ} (bound : b < maxva)
    (mapped : m.pte root b &&& pteV ≠ 0) : m'.pte root b = m.pte root b :=
  (restores.ptes b bound).resolve_right fun gone => mapped gone.2

theorem Restores.frames (restores : Restores m m' root taken) (whole : Whole m root n) :
    m'.frames root 0 n = m.frames root 0 n := by
  have high : trapframe ≤ maxva := by decide
  have top := whole.space.bound
  exact frames_congr fun b from_ low => restores.pte (by omega) (whole.space.owned.mapped b from_ low)

theorem Restores.trades (restores : Restores m m' root taken) (whole : Whole m root n) (free : m.Free) :
    Trades m m' (m.owns root n) (m'.owns root n) := by
  have list := free.of_perm restores.free restores.image
  refine ⟨list, restores.image, fun x => ?_, ?_, fun x out off => restores.others x (fun there => off (.inl there)) out⟩
  · rw [Memory.owns, Memory.owns, restores.nodes, restores.frames whole, ← restores.free.mem_iff]
    simp only [Set.mem_union, Set.mem_ofPred, List.mem_append]
    tauto
  · rintro x (mem | mem) there
    · exact restores.table.owned x mem there
    · rw [restores.frames whole] at mem
      exact whole.space.owns_used x (.inr mem) (restores.free.subset (List.mem_append_right _ there))

theorem Restores.whole (restores : Restores m m' root taken) (whole : Whole m root n) (free : m.Free) :
    Whole m' root n := by
  have high : trapframe ≤ maxva := by decide
  have top := whole.space.bound
  have owned := whole.space.owned
  have trades := restores.trades whole free
  have pte {b : ℕ} (low : b < n * pgsize) : m'.pte root b = m.pte root b :=
    restores.pte (by omega) (owned.mapped b (by omega) low)
  have frame {b : ℕ} (low : b < n * pgsize) : m'.frame root b = m.frame root b := by
    rw [Memory.frame, pte low]
    rfl
  refine ⟨⟨restores.table, ⟨fun b from_ low => ?_, fun a b from_ low from' low' eq => ?_, fun b from_ low => ?_,
    fun b from_ low => ?_,
    fun b from_ low => ?_, fun b from_ low => ?_⟩, fun b from_ below => ?_, top⟩, fun b from_ bound => ?_,
    fun i high => (restores.low i high).trans (whole.low i high), fun x mem => ?_⟩
  · rw [pte low]
    exact owned.mapped b from_ low
  · rw [frame low, frame low'] at eq
    exact owned.distinct a b from_ low from' low' eq
  · rw [frame low, restores.nodes]
    rintro (there | there)
    · exact owned.apart b from_ low there
    · exact owned.used b from_ low (restores.free.subset (List.mem_append_left _ there))
  · exact trades.apart _ (.inr (mem_frames (by omega) low))
  · rw [frame low, restores.image]
    exact owned.kend b from_ low
  · rw [frame low]
    exact owned.phystop b from_ low
  · rcases restores.ptes b (by omega) with same | ⟨zero, -⟩
    · rw [same]
      exact whole.space.unmapped b from_ below
    · rw [zero]
      exact Nat.zero_and _
  · have traps := whole.traps b from_ bound
    rw [restores.pte bound traps.1]
    exact traps
  · rw [restores.nodes] at mem
    have real : m.Real x := by
      rcases mem with mem | mem
      · exact whole.real x mem
      · exact free.real (restores.free.subset (List.mem_append_left _ mem))
    exact ⟨real.aligned, restores.image ▸ real.kend, real.phystop⟩

theorem Clears.mem_owns {P : ℕ → Prop} (clears : Clears m m' root (m.frames root j n).reverse P)
    (frames : m'.frames root 0 j = m.frames root 0 j) (le : j ≤ n) (x : ℕ) :
    x ∈ m.owns root n ↔ x ∈ m'.owns root j ∨ x ∈ (m.frames root j n).reverse := by
  rw [Memory.owns, Memory.owns, clears.nodes, frames, frames_append le]
  simp only [Set.mem_union, Set.mem_ofPred, List.mem_append, List.mem_reverse]
  tauto

/-- `uvmdealloc` from `n` pages to `j`. -/
theorem Clears.shrinks (clears : Clears m m' root (m.frames root j n).reverse fun b => j * pgsize ≤ b ∧ b < n * pgsize)
    (whole : Whole m root n) (free : m.Free) (le : j ≤ n) :
    Whole m' root j ∧ Trades m m' (m.owns root n) (m'.owns root j) := by
  have high : trapframe ≤ maxva := by decide
  have top := whole.space.bound
  have upto := Nat.mul_le_mul_right pgsize le
  have owned := whole.space.owned
  have pte {b : ℕ} (low : b < j * pgsize) : m'.pte root b = m.pte root b := clears.kept b (by omega) (by omega)
  have frame {b : ℕ} (low : b < j * pgsize) : m'.frame root b = m.frame root b := by
    rw [Memory.frame, pte low]
    rfl
  have frames : m'.frames root 0 j = m.frames root 0 j := frames_congr fun b _ low => pte low
  have mem_owns := clears.mem_owns frames le
  have distinct : (m.frames root 0 j ++ m.frames root j n).Nodup := by
    rw [← frames_append le]
    exact frames_nodup owned
  have out (x : ℕ) (mem : x ∈ m'.owns root j) : x ∉ m'.free := by
    rw [clears.free, List.mem_append, List.mem_reverse]
    rintro (there | there)
    · rcases mem with node | frame
      · obtain ⟨b, range, rfl⟩ := List.mem_map.mp there
        obtain ⟨-, less⟩ := List.mem_range'_1.mp range
        rw [clears.nodes] at node
        exact owned.apart _ (by omega) (Nat.mul_lt_mul_of_pos_right (by omega) (by decide)) node
      · rw [frames] at frame
        exact (List.nodup_append.mp distinct).2.2 x frame x there rfl
    · exact whole.space.owns_used x ((mem_owns x).mpr (.inl mem)) there
  have real (x : ℕ) (mem : x ∈ m'.free) : m.Real x := by
    rw [clears.free] at mem
    rcases List.mem_append.mp mem with mem | mem
    · exact whole.owns_real x ((mem_owns x).mpr (.inr mem))
    · exact free.real mem
  have list : m'.Free := by
    refine ⟨?_, fun x mem => (real x mem).aligned, fun x mem => ?_, fun x mem => (real x mem).phystop⟩
    · rw [clears.free]
      refine List.nodup_append.mpr ⟨List.nodup_reverse.mpr (List.nodup_append.mp distinct).2.1, free.nodup,
        fun x there y there' same => ?_⟩
      subst same
      exact whole.space.owns_used x ((mem_owns x).mpr (.inr there)) there'
    · rw [clears.image]
      exact (real x mem).kend
  refine ⟨⟨⟨clears.table, ⟨fun b from_ low => ?_, fun a b from_ low from' low' eq => ?_, fun b from_ low => ?_,
    fun b from_ low => out _ (.inr (mem_frames (by omega) low)), fun b from_ low => ?_, fun b from_ low => ?_⟩,
    fun b from_ below => ?_,
    upto.trans top⟩, fun b from_ bound => ?_, fun i up => (clears.low i up).trans (whole.low i up), fun x mem => ?_⟩,
    list, clears.image, fun x => ?_, out, fun x _ off => ?_⟩
  · rw [pte low]
    exact owned.mapped b from_ (by omega)
  · rw [frame low, frame low'] at eq
    exact owned.distinct a b from_ (by omega) from' (by omega) eq
  · rw [frame low, clears.nodes]
    exact owned.apart b from_ (by omega)
  · rw [frame low, clears.image]
    exact owned.kend b from_ (by omega)
  · rw [frame low]
    exact owned.phystop b from_ (by omega)
  · by_cases inside : j * pgsize ≤ b ∧ b < n * pgsize
    · rw [clears.cleared b (by omega) inside]
      exact Nat.zero_and _
    · rw [clears.kept b (by omega) inside]
      exact whole.space.unmapped b (by omega) below
  · rw [clears.kept b bound (by omega)]
    exact whole.traps b from_ bound
  · rw [clears.nodes] at mem
    have fine := whole.real x mem
    exact ⟨fine.aligned, clears.image ▸ fine.kend, fine.phystop⟩
  · rw [mem_owns, clears.free, List.mem_append]
    rw [or_comm, or_comm (a := x ∈ (m.frames root j n).reverse)]
    exact or_left_comm
  · exact clears.others x (fun there => off (.inl there)) fun there => off ((mem_owns x).mpr (.inr there))

end Xv6Labs.Vm
