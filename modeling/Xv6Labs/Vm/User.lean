import Xv6Labs.Vm.Alloc

/-!
# `copyout` and `copyin`

A range of user addresses is copied in pieces, one for each page. `Put` says what has been written so far: it is
about single bytes, so that two pieces compose.
-/

namespace Xv6Labs.Vm

open Faults

variable {m m' m'' : Memory} {root va b n k fuel len : ℕ} {xs ys src : List UInt8}

/-- The page of `va` is mapped with `PTE_V` and `PTE_U`. -/
structure Memory.User (m : Memory) (root va : ℕ) : Prop where
  below : va < maxva
  valid : m.pte root va &&& pteV ≠ 0
  user : m.pte root va &&& pteU ≠ 0

instance : Decidable (m.User root va) :=
  decidable_of_iff (va < maxva ∧ m.pte root va &&& pteV ≠ 0 ∧ m.pte root va &&& pteU ≠ 0)
    ⟨fun h => ⟨h.1, h.2.1, h.2.2⟩, fun h => ⟨h.1, h.2, h.3⟩⟩

/-- The byte at a user address. -/
def Memory.at (m : Memory) (root va : ℕ) : UInt8 := byte (m.page (m.frame root va)) (va % pgsize)

/-- User pages have frames of their own, which are no tables. -/
structure Users (m : Memory) (root : ℕ) : Prop where
  nonzero : ∀ b, m.User root b → m.frame root b ≠ 0
  distinct : ∀ a b, m.User root a → m.User root b → m.frame root a = m.frame root b → a / pgsize = b / pgsize
  apart : ∀ b, m.User root b → m.frame root b ∉ m.nodes root

/-! ### One page -/

theorem down_page : pgrounddown va / pgsize = va / pgsize := Nat.mul_div_cancel _ (by decide)

theorem down_sub : va - pgrounddown va = va % pgsize := by
  rw [pgrounddown]
  have := Nat.div_add_mod' va pgsize
  omega

theorem maxva_page (same : va / pgsize = b / pgsize) : va < maxva ↔ b < maxva := by
  have whole : maxva = 2 ^ 26 * pgsize := by decide
  rw [whole, ← Nat.div_lt_iff_lt_mul (by decide), ← Nat.div_lt_iff_lt_mul (by decide), same]

theorem user_congr (same : va / pgsize = b / pgsize) : m.User root va ↔ m.User root b :=
  ⟨fun h => ⟨(maxva_page same).mp h.below, pte_congr same ▸ h.valid, pte_congr same ▸ h.user⟩,
    fun h => ⟨(maxva_page same).mpr h.below, pte_congr same ▸ h.valid, pte_congr same ▸ h.user⟩⟩

theorem frame_page (same : va / pgsize = b / pgsize) : m.frame root va = m.frame root b := by
  rw [Memory.frame, pte_congr same]
  rfl

/-- `walkaddr` returns 0 exactly where no user page is mapped. -/
theorem userPa_down (va : ℕ) (nonzero : ∀ b, m.User root b → m.frame root b ≠ 0) :
    (m.User root va ∧ m.userPa root (pgrounddown va) = m.frame root va ∧ m.frame root va ≠ 0) ∨
      ¬ m.User root va ∧ m.userPa root (pgrounddown va) = 0 := by
  rw [Memory.userPa]
  by_cases user : m.User root va
  · have there := (user_congr down_page).mpr user
    rw [if_neg (by rintro (h | h | h); exacts [absurd there.below (Nat.not_lt.mpr h), there.valid h, there.user h])]
    exact .inl ⟨user, frame_page down_page, nonzero va user⟩
  · rw [if_pos]
    · exact .inr ⟨user, rfl⟩
    · by_contra all
      simp only [not_or, Nat.not_le] at all
      exact user ((user_congr down_page).mp ⟨all.1, all.2.1, all.2.2⟩)

/-- The next page, which the loops go on with. -/
theorem next_page (below : va < maxva) : wrap (pgrounddown va + pgsize) = va + (pgsize - va % pgsize) := by
  have down := Nat.div_add_mod' va pgsize
  have rest : va % pgsize < pgsize := Nat.mod_lt _ (by decide)
  have limit : maxva + pgsize < 2 ^ 64 := by decide
  rw [pgrounddown, wrap, Nat.mod_eq_of_lt (by omega)]
  omega

theorem same_page (va i : ℕ) (within : va % pgsize + i < pgsize) :
    (va + i) / pgsize = va / pgsize ∧ (va + i) % pgsize = va % pgsize + i := by
  rw [pgsize] at *
  omega

/-! ### Bytes that have been written -/

/-- From `m` to `m'`, `bytes` has been written to the user pages from `va` on. -/
structure Put (m m' : Memory) (root va : ℕ) (bytes : List UInt8) : Prop where
  image : m'.image = m.image
  free : m'.free = m.free
  refuse : m'.refuse = m.refuse
  user : ∀ i, i < bytes.length → m.User root (va + i)
  there : ∀ i (h : i < bytes.length), byte (m'.page (m.frame root (va + i))) ((va + i) % pgsize) = bytes[i]
  kept : ∀ p k, k < pgsize → (∀ i, i < bytes.length → ¬ (p = m.frame root (va + i) ∧ k = (va + i) % pgsize)) →
    byte (m'.page p) k = byte (m.page p) k
  others : ∀ p, (∀ i, i < bytes.length → p ≠ m.frame root (va + i)) → m'.page p = m.page p

theorem put_nil : Put m m root va [] :=
  ⟨rfl, rfl, rfl, fun _ h => (nomatch h), fun _ h => (nomatch h), fun _ _ _ _ => rfl, fun _ _ => rfl⟩

/-- A piece that lies within one page. -/
theorem put_page (xs : List UInt8) (user : m.User root va) (within : va % pgsize + xs.length ≤ pgsize) :
    Put m (m.setPage (m.frame root va) (setBytes (m.page (m.frame root va)) (va % pgsize) xs)) root va xs where
  image := rfl
  free := rfl
  refuse := rfl
  user i less := (user_congr (same_page va i (by omega)).1).mpr user
  there i less := by
    obtain ⟨page, off⟩ := same_page va i (by omega)
    rw [frame_page page, setPage_self, off, byte_setBytes xs within (by omega), dif_pos (by omega)]
    simp only [Nat.add_sub_cancel_left]
  kept p k bound off := by
    by_cases here : p = m.frame root va
    · subst here
      rw [setPage_self, byte_setBytes xs within bound, dif_neg]
      rintro ⟨from_, to_⟩
      obtain ⟨page, at_⟩ := same_page va (k - va % pgsize) (by omega)
      exact off (k - va % pgsize) to_ ⟨(frame_page page).symm, by omega⟩
    · rw [setPage_of_ne here]
  others p off := by
    cases xs with
    | nil =>
      by_cases here : p = m.frame root va
      · rw [here, setPage_self]
        rfl
      · rw [setPage_of_ne here]
    | cons x xs => exact setPage_of_ne (off 0 (Nat.succ_pos _))

/-- The tables are not written. -/
theorem Put.pte (put : Put m m' root va xs) (users : Users m root) : m'.pte root b = m.pte root b := by
  apply pte_agree
  intro x mem
  apply put.others
  rintro i less rfl
  exact users.apart _ (put.user i less) mem

theorem Put.nodes (put : Put m m' root va xs) (users : Users m root) : m'.nodes root = m.nodes root := by
  apply nodes_agree
  intro x mem
  apply put.others
  rintro i less rfl
  exact users.apart _ (put.user i less) mem

theorem Put.frame (put : Put m m' root va xs) (users : Users m root) : m'.frame root b = m.frame root b := by
  rw [Memory.frame, put.pte users]
  rfl

theorem Put.isUser (put : Put m m' root va xs) (users : Users m root) : m'.User root b ↔ m.User root b :=
  ⟨fun h => ⟨h.below, put.pte users ▸ h.valid, put.pte users ▸ h.user⟩,
    fun h => ⟨h.below, (put.pte users).symm ▸ h.valid, (put.pte users).symm ▸ h.user⟩⟩

theorem Users.put (users : Users m root) (put : Put m m' root va xs) : Users m' root := by
  refine ⟨fun b user => ?_, fun a b user user' same => ?_, fun b user => ?_⟩
  · rw [put.frame users]
    exact users.nonzero b ((put.isUser users).mp user)
  · rw [put.frame users, put.frame users] at same
    exact users.distinct a b ((put.isUser users).mp user) ((put.isUser users).mp user') same
  · rw [put.frame users, put.nodes users]
    exact users.apart b ((put.isUser users).mp user)

/-- Different user addresses are different bytes of memory. -/
theorem Users.byte_of_ne {a : ℕ} (users : Users m root) (user : m.User root a) (user' : m.User root b) (other : a ≠ b) :
    ¬ (m.frame root a = m.frame root b ∧ a % pgsize = b % pgsize) := by
  rintro ⟨frame, off⟩
  have page := users.distinct a b user user' frame
  have := Nat.div_add_mod' a pgsize
  have := Nat.div_add_mod' b pgsize
  rw [page, off] at *
  omega

theorem Put.trans (users : Users m root) (put : Put m m' root va xs) (put' : Put m' m'' root (va + xs.length) ys) :
    Put m m'' root va (xs ++ ys) := by
  have later {i : ℕ} (less : i < ys.length) : m.User root (va + xs.length + i) :=
    (put.isUser users).mp (put'.user i less)
  have user (i : ℕ) (less : i < (xs ++ ys).length) : m.User root (va + i) := by
    rw [List.length_append] at less
    by_cases first : i < xs.length
    · exact put.user i first
    · have := later (i := i - xs.length) (by omega)
      rwa [show va + xs.length + (i - xs.length) = va + i by omega] at this
  refine ⟨put'.image.trans put.image, put'.free.trans put.free, put'.refuse.trans put.refuse, user, fun i less => ?_,
    fun p k bound off => ?_, fun p off => ?_⟩
  · have here := user i less
    rw [List.length_append] at less
    by_cases first : i < xs.length
    · rw [put'.kept _ _ (Nat.mod_lt _ (by decide)), put.there i first, List.getElem_append_left first]
      intro l few
      rw [put.frame users]
      exact users.byte_of_ne here (later few) (by omega)
    · have second := put'.there (i - xs.length) (by omega)
      rw [put.frame users, show va + xs.length + (i - xs.length) = va + i by omega] at second
      rw [second, List.getElem_append_right (Nat.le_of_not_lt first)]
  · rw [put'.kept p k bound, put.kept p k bound]
    · exact fun i less => off i (by rw [List.length_append]; omega)
    · intro i less
      have := off (xs.length + i) (by rw [List.length_append]; omega)
      rwa [put.frame users, Nat.add_assoc]
  · rw [put'.others p, put.others p]
    · exact fun i less => off i (by rw [List.length_append]; omega)
    · intro i less
      have := off (xs.length + i) (by rw [List.length_append]; omega)
      rwa [put.frame users, Nat.add_assoc]

/-! ### copyout -/

/-- How many bytes a round copies. -/
theorem round_bounds (va : ℕ) (some : 0 < len) :
    0 < min (pgsize - va % pgsize) len ∧ min (pgsize - va % pgsize) len ≤ len ∧
    va % pgsize + min (pgsize - va % pgsize) len ≤ pgsize := by
  have rest : va % pgsize < pgsize := Nat.mod_lt _ (by decide)
  omega

theorem next_fuel (below : va < maxva) (enough : 2 ^ 26 - va / pgsize < fuel + 1) :
    2 ^ 26 - (va + (pgsize - va % pgsize)) / pgsize < fuel := by
  have whole : maxva = 2 ^ 26 * pgsize := by decide
  rw [whole, ← Nat.div_lt_iff_lt_mul (by decide)] at below
  have down := Nat.div_add_mod' va pgsize
  have rest : va % pgsize < pgsize := Nat.mod_lt _ (by decide)
  have next : va + (pgsize - va % pgsize) = (va / pgsize + 1) * pgsize := by
    rw [Nat.succ_mul]
    omega
  rw [next, Nat.mul_div_cancel _ (by decide)]
  omega

theorem copyoutFrom_nil : Returns (copyoutFrom root (fuel + 1) va []) m fun r m' => m' = m ∧ r = 0 := by
  unfold copyoutFrom
  rw [if_neg (by simp)]
  exact .pure ⟨rfl, rfl⟩

theorem copyoutFrom_spec (users : Users m root) (enough : 2 ^ 26 - va / pgsize < fuel) :
    Returns (copyoutFrom root fuel va src) m fun r m' => ∃ n, n ≤ src.length ∧ Put m m' root va (src.take n) ∧
      (r = 0 ∧ n = src.length ∨ r = -1 ∧ n < src.length ∧ ¬ m.User root (va + n)) := by
  induction fuel generalizing m va src with
  | zero => exact absurd enough (Nat.not_lt_zero _)
  | succ fuel ih =>
    unfold copyoutFrom
    by_cases some : 0 < src.length
    · rw [if_pos some]
      refine .bind (walkaddr_eq.mono ?_)
      rintro r m₁ ⟨rfl, rfl⟩
      rcases userPa_down va users.nonzero with ⟨user, address, nonzero⟩ | ⟨gone, address⟩
      · obtain ⟨positive, most, within⟩ := round_bounds va some
        rw [if_neg (by rwa [address]), address, down_sub]
        generalize size : min (pgsize - va % pgsize) src.length = n at *
        refine .bind (.writes ?_)
        have length : (src.take n).length = n := by rw [List.length_take, min_eq_left most]
        have first := put_page (src.take n) user (by rwa [length])
        rw [next_page user.below]
        by_cases more : n < src.length
        · have next : va + (pgsize - va % pgsize) = va + n := by omega
          have fuel' := next_fuel user.below enough
          rw [next] at fuel' ⊢
          refine (@ih _ _ (src.drop n) (users.put first) fuel').mono ?_
          rintro r m₂ ⟨l, le, rest, ending⟩
          rw [List.length_drop] at le ending
          have both := first.trans users (by rwa [length])
          refine ⟨n + l, by omega, ?_, ending.imp (fun h => ⟨h.1, by omega⟩) fun h => ⟨h.1, by omega, ?_⟩⟩
          · rwa [List.take_add]
          · rw [← Nat.add_assoc]
            exact mt (first.isUser users).mpr h.2.2
        · have all : n = src.length := by omega
          rw [all, List.drop_length]
          cases fuel with
          | zero => exact absurd (next_fuel user.below enough) (Nat.not_lt_zero _)
          | succ fuel =>
            refine copyoutFrom_nil.mono ?_
            rintro r m₂ ⟨rfl, rfl⟩
            rw [all] at first
            exact ⟨src.length, le_rfl, first, .inl ⟨rfl, rfl⟩⟩
      · rw [if_pos address]
        refine .pure ⟨0, Nat.zero_le _, ?_, .inr ⟨rfl, some, gone⟩⟩
        rw [List.take_zero]
        exact put_nil
    · rw [if_neg some]
      have none : src = [] := List.eq_nil_of_length_eq_zero (by omega)
      subst none
      exact .pure ⟨0, le_rfl, put_nil, .inl ⟨rfl, rfl⟩⟩

theorem user_rounds : 2 ^ 26 - va / pgsize < rounds := lt_of_le_of_lt (Nat.sub_le _ _) (by decide)

/-- A prefix that ends at the first address that is no user address. -/
theorem ended_iff {r : ℤ} {n : ℕ} {P : ℕ → Prop} (le : n ≤ len) (before : ∀ i, i < n → P (va + i))
    (ending : r = 0 ∧ n = len ∨ r = -1 ∧ n < len ∧ ¬ P (va + n)) : r = 0 ↔ ∀ b, va ≤ b → b < va + len → P b := by
  rcases ending with ⟨rfl, rfl⟩ | ⟨rfl, less, gone⟩
  · refine iff_of_true rfl fun b from_ to_ => ?_
    have := before (b - va) (by omega)
    rwa [Nat.add_sub_cancel' from_] at this
  · refine iff_of_false (by decide) fun all => gone (all (va + n) (by omega) (by omega))

theorem copyout_spec (users : Users m root) :
    Returns (copyout root va src) m fun r m' => ∃ n, n ≤ src.length ∧ Put m m' root va (src.take n) ∧
      (r = 0 ∧ n = src.length ∨ r = -1 ∧ n < src.length ∧ ¬ m.User root (va + n)) :=
  copyoutFrom_spec users user_rounds

/-! ### copyin -/

/-- The bytes of a range of user addresses. -/
def Memory.bytes (m : Memory) (root va n : ℕ) : List UInt8 := (List.range n).map fun i => m.at root (va + i)

theorem bytes_add {l : ℕ} : m.bytes root va (n + l) = m.bytes root va n ++ m.bytes root (va + n) l := by
  rw [Memory.bytes, List.range_add, List.map_append, List.map_map]
  simp only [Memory.bytes, Function.comp_def, Nat.add_assoc]

/-- The bytes that a round reads. -/
theorem bytes_page (within : va % pgsize + n ≤ pgsize) :
    (List.range n).map (fun k => byte (m.page (m.frame root va)) (va % pgsize + k)) = m.bytes root va n := by
  apply List.map_congr_left
  intro i mem
  obtain ⟨page, off⟩ := same_page va i (by have := List.mem_range.mp mem; omega)
  rw [Memory.at, frame_page page, off]

theorem copyinFrom_spec (nonzero : ∀ b, m.User root b → m.frame root b ≠ 0) (enough : 2 ^ 26 - va / pgsize < fuel)
    (dst : List UInt8) :
    Returns (copyinFrom root fuel va len dst) m fun r m' => m' = m ∧ ∃ n, n ≤ len ∧ r.2 = dst ++ m.bytes root va n ∧
      (∀ i, i < n → m.User root (va + i)) ∧ (r.1 = 0 ∧ n = len ∨ r.1 = -1 ∧ n < len ∧ ¬ m.User root (va + n)) := by
  induction fuel generalizing va len dst with
  | zero => exact absurd enough (Nat.not_lt_zero _)
  | succ fuel ih =>
    unfold copyinFrom
    by_cases some : 0 < len
    · rw [if_pos some]
      refine .bind (walkaddr_eq.mono ?_)
      rintro r m₁ ⟨rfl, rfl⟩
      rcases userPa_down va nonzero with ⟨user, address, frame⟩ | ⟨gone, address⟩
      · obtain ⟨positive, most, within⟩ := round_bounds va some
        rw [if_neg (by rwa [address]), address, down_sub]
        generalize size : min (pgsize - va % pgsize) len = n at *
        refine .bind (.reads ?_)
        rw [bytes_page within, next_page user.below]
        have page (i : ℕ) (less : i < n) : m₁.User root (va + i) := (user_congr (same_page va i (by omega)).1).mpr user
        by_cases more : n < len
        · have next : va + (pgsize - va % pgsize) = va + n := by omega
          have fuel' := next_fuel user.below enough
          rw [next] at fuel' ⊢
          refine (@ih _ (len - n) fuel' _).mono ?_
          rintro r m₂ ⟨rfl, l, le, read, rest, ending⟩
          refine ⟨rfl, n + l, by omega, ?_, fun i less => ?_, ending.imp (fun h => ⟨h.1, by omega⟩) fun h => ⟨h.1, by omega, ?_⟩⟩
          · rw [read, bytes_add, List.append_assoc]
          · by_cases first : i < n
            · exact page i first
            · have := rest (i - n) (by omega)
              rwa [show va + n + (i - n) = va + i by omega] at this
          · rw [← Nat.add_assoc]
            exact h.2.2
        · have all : n = len := by omega
          rw [all, Nat.sub_self]
          cases fuel with
          | zero => exact absurd (next_fuel user.below enough) (Nat.not_lt_zero _)
          | succ fuel =>
            unfold copyinFrom
            rw [if_neg (lt_irrefl 0)]
            exact .pure ⟨rfl, len, le_rfl, rfl, by rwa [all] at page, .inl ⟨rfl, rfl⟩⟩
      · rw [if_pos address]
        exact .pure ⟨rfl, 0, Nat.zero_le _, (List.append_nil _).symm, fun _ h => (nomatch h), .inr ⟨rfl, some, gone⟩⟩
    · rw [if_neg some]
      exact .pure ⟨rfl, 0, Nat.zero_le _, (List.append_nil _).symm, fun _ h => (nomatch h), .inl ⟨rfl, by omega⟩⟩

theorem copyin_spec (nonzero : ∀ b, m.User root b → m.frame root b ≠ 0) :
    Returns (copyin root va len) m fun r m' => m' = m ∧ ∃ n, n ≤ len ∧ r.2 = m.bytes root va n ∧
      (∀ i, i < n → m.User root (va + i)) ∧ (r.1 = 0 ∧ n = len ∨ r.1 = -1 ∧ n < len ∧ ¬ m.User root (va + n)) :=
  copyinFrom_spec nonzero user_rounds []

/-! ### Both -/

theorem Put.bytes (put : Put m m' root va xs) (users : Users m root) : m'.bytes root va xs.length = xs := by
  apply List.ext_getElem
  · rw [Memory.bytes, List.length_map, List.length_range]
  · intro i less less'
    simp only [Memory.bytes, List.getElem_map, List.getElem_range, Memory.at, put.frame users]
    exact put.there i less'

/-- `copyout`, then `copyin` of the same range; and `copyin` by itself. -/
theorem copyout_copyin (users : Users m root) (va : ℕ) (src : List UInt8) :
    Returns (copyout root va src) m (fun r m' =>
      (r = 0 ∨ r = -1) ∧ (r = 0 ↔ ∀ b, va ≤ b → b < va + src.length → m.User root b) ∧
      (∀ b, m'.translate root b = m.translate root b) ∧ m'.free = m.free ∧
      (∀ p, (∀ b, va ≤ b → b < va + src.length → m.User root b → p ≠ m.frame root b) → m'.page p = m.page p) ∧
      (∀ p k, k < pgsize →
        (∀ b, va ≤ b → b < va + src.length → m.User root b → ¬ (p = m.frame root b ∧ k = b % pgsize)) →
        byte (m'.page p) k = byte (m.page p) k) ∧
      (r = 0 → (∀ i (h : i < src.length), m'.at root (va + i) = src[i]) ∧
        Returns (copyin root va src.length) m' fun r' m'' => m'' = m' ∧ r' = (0, src))) ∧
    ∀ len, Returns (copyin root va len) m fun r m' => m' = m ∧
      (r.1 = 0 ∨ r.1 = -1) ∧ (r.1 = 0 ↔ ∀ b, va ≤ b → b < va + len → m.User root b) ∧
      (∃ n, n ≤ len ∧ (∀ i, i < n → m.User root (va + i)) ∧ r.2 = m.bytes root va n) ∧
      (r.1 = 0 → r.2 = m.bytes root va len) := by
  constructor
  · refine (copyout_spec users).mono ?_
    rintro r m' ⟨n, le, put, ending⟩
    have length : (src.take n).length = n := by rw [List.length_take, min_eq_left le]
    have before (i : ℕ) (less : i < n) : m.User root (va + i) := put.user i (by rwa [length])
    refine ⟨ending.imp And.left And.left, ended_iff le before ending,
      fun b => translate_congr (put.pte users), put.free,
      fun p off => put.others p fun i less => ?_, fun p k bound off => put.kept p k bound fun i less => ?_,
      fun done => ?_⟩
    · rw [length] at less
      exact off (va + i) (by omega) (by omega) (before i less)
    · rw [length] at less
      exact off (va + i) (by omega) (by omega) (before i less)
    · rcases ending with ⟨-, rfl⟩ | ⟨rfl, -⟩
      · rw [List.take_length] at put
        have all := put.bytes users
        refine ⟨fun i less => ?_, ?_⟩
        · rw [Memory.at, put.frame users]
          exact put.there i less
        · refine (copyin_spec (users.put put).nonzero).mono ?_
          rintro ⟨r', dst⟩ m'' ⟨rfl, n, -, read, -, ⟨zero, rfl⟩ | ⟨-, less, gone⟩⟩
          · refine ⟨rfl, Prod.ext zero ?_⟩
            rw [read, all]
          · exact absurd ((put.isUser users).mpr (put.user n less)) gone
      · exact absurd done (by decide)
  · intro len
    refine (copyin_spec users.nonzero).mono ?_
    rintro ⟨r, dst⟩ m' ⟨rfl, n, le, read, before, ending⟩
    refine ⟨rfl, ending.imp And.left And.left, ended_iff le before ending, ⟨n, le, before, read⟩, fun done => ?_⟩
    rcases ending with ⟨-, rfl⟩ | ⟨failed, -⟩
    · exact read
    · exact absurd (done.symm.trans failed) (by decide)

theorem userMemory_user {c : ℕ} : (userMemory c).User 0x87fff000 b ↔ b < 1024 * pgsize := by
  have high : 1024 * pgsize ≤ maxva := by decide
  have user : entry (0x80100000 + pgrounddown b) userPerm &&& pteU ≠ 0 := by
    rw [entry, Nat.and_or_distrib_right, Nat.and_or_distrib_right]
    intro zero
    rw [Nat.or_eq_zero_iff, Nat.or_eq_zero_iff] at zero
    exact absurd zero.1.2 (by decide)
  constructor
  · intro there
    by_contra more
    have valid := there.valid
    rw [userMemory_pte there.below, if_neg more] at valid
    exact valid (Nat.zero_and _)
  · intro low
    have ent := userMemory_pte (c := c) (by omega : b < maxva)
    rw [if_pos low] at ent
    exact ⟨by omega, userMemory_owned.mapped b (by omega) (by omega), by rwa [ent]⟩

theorem userMemory_users {c : ℕ} : Users (userMemory c) 0x87fff000 := by
  have owned := userMemory_owned (c := c)
  refine ⟨fun b user => ?_, fun a b user user' => ?_, fun b user => ?_⟩
  · rw [userMemory_frame (userMemory_user.mp user)]
    omega
  · have low := userMemory_user.mp user
    have low' := userMemory_user.mp user'
    exact owned.distinct a b (by omega) (by omega) (by omega) (by omega)
  · have low := userMemory_user.mp user
    exact owned.apart b (by omega) (by omega)

/-- A range over two pages. -/
theorem copyout_copyin_pages :
    Returns (copyout 0x87fff000 4000 (List.replicate 200 7)) (userMemory 0) fun r m' =>
      r = 0 ∧ Returns (copyin 0x87fff000 4000 200) m' fun r' m'' => m'' = m' ∧ r' = (0, List.replicate 200 7) := by
  refine (copyout_copyin userMemory_users 4000 (List.replicate 200 7)).1.mono ?_
  rintro r m' ⟨-, zero, -, -, -, -, same⟩
  have done : r = 0 := by
    refine zero.mpr fun b _ to_ => userMemory_user.mpr ?_
    rw [List.length_replicate] at to_
    rw [pgsize]
    omega
  have back := (same done).2
  rw [List.length_replicate] at back
  exact ⟨done, back⟩

end Xv6Labs.Vm
