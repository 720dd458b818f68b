import Xv6Labs.Vm.User

/-!
# `copyinstr` and `fetchstr`

The inner loop looks for a null byte in the part of a page; the outer one goes on where there is none. A page is read
only if there is no null byte before it.
-/

namespace Xv6Labs.Vm

open Faults

variable {m m' : Memory} {root va n k l fuel max off : ℕ} {pg : Page} {dst xs : List UInt8} {pages : List ℕ}

/-! ### The inner loop -/

/-- `n` bytes of a page. -/
def span (pg : Page) (off n : ℕ) : List UInt8 := (List.range n).map fun k => byte pg (off + k)

theorem span_succ : span pg off (n + 1) = byte pg off :: span pg (off + 1) n := by
  rw [span, List.range_succ_eq_map, List.map_cons, List.map_map, Nat.add_zero]
  congr 1
  apply List.map_congr_left
  intro i _
  simp only [Function.comp_apply]
  congr 1
  omega

theorem scan_spec (pg : Page) (n off max : ℕ) (dst : List UInt8) :
    (∃ l, l < n ∧ byte pg (off + l) = 0 ∧ (∀ i, i < l → byte pg (off + i) ≠ 0) ∧
      scan pg n off max dst = (true, max - l, dst ++ span pg off (l + 1))) ∨
    (∀ i, i < n → byte pg (off + i) ≠ 0) ∧ scan pg n off max dst = (false, max - n, dst ++ span pg off n) := by
  induction n generalizing off max dst with
  | zero => exact .inr ⟨fun _ h => (nomatch h), by simp [scan, span]⟩
  | succ n ih =>
    by_cases zero : byte pg off = 0
    · refine .inl ⟨0, Nat.succ_pos n, zero, fun _ h => (nomatch h), ?_⟩
      rw [scan, if_pos zero]
      simp [span, zero]
    · have shift (i : ℕ) (before : ∀ k, k < i → byte pg (off + 1 + k) ≠ 0) (k : ℕ) (less : k < i + 1) :
          byte pg (off + k) ≠ 0 := by
        cases k with
        | zero => exact zero
        | succ k =>
          have := before k (by omega)
          rwa [Nat.add_assoc, Nat.add_comm 1] at this
      rcases ih (off + 1) (max - 1) (dst ++ [byte pg off]) with ⟨l, less, null, before, ran⟩ | ⟨before, ran⟩
      · refine .inl ⟨l + 1, by omega, ?_, shift l before, ?_⟩
        · rwa [Nat.add_assoc, Nat.add_comm 1] at null
        · rw [scan, if_neg zero, ran, span_succ (n := l + 1), List.append_assoc, Nat.sub_sub, Nat.add_comm 1]
          rfl
      · refine .inr ⟨shift n before, ?_⟩
        rw [scan, if_neg zero, ran, span_succ, List.append_assoc, Nat.sub_sub, Nat.add_comm 1]
        rfl

/-! ### The outer loop -/

/-- The pages that have been read: each is a user page, and reached without a null byte. -/
def Reached (m : Memory) (root va : ℕ) (pages : List ℕ) : Prop :=
  ∀ p ∈ pages, m.User root p ∧ ∃ i, p = pgrounddown (va + i) ∧ ∀ j, j < i → m.at root (va + j) ≠ 0

theorem span_page (within : va % pgsize + n ≤ pgsize) :
    span (m.page (m.frame root va)) (va % pgsize) n = m.bytes root va n :=
  bytes_page within

theorem byte_page {i : ℕ} (within : va % pgsize + i < pgsize) :
    byte (m.page (m.frame root va)) (va % pgsize + i) = m.at root (va + i) := by
  obtain ⟨page, off'⟩ := same_page va _ within
  rw [Memory.at, frame_page page, off']

theorem copyinstrFrom_spec (nonzero : ∀ b, m.User root b → m.frame root b ≠ 0) (enough : 2 ^ 26 - va / pgsize < fuel)
    (dst : List UInt8) (pages : List ℕ) :
    Returns (copyinstrFrom root fuel va max dst pages) m fun c m' => m' = m ∧
      ∃ n more, n ≤ max ∧ c.dst = dst ++ m.bytes root va n ∧ c.pages = pages ++ more ∧ Reached m root va more ∧
        (∀ i, i < n → m.User root (va + i)) ∧
        ((∃ l, n = l + 1 ∧ c.result = 0 ∧ m.at root (va + l) = 0 ∧ ∀ i, i < l → m.at root (va + i) ≠ 0) ∨
          c.result = -1 ∧ (∀ i, i < n → m.at root (va + i) ≠ 0) ∧ (n < max → ¬ m.User root (va + n))) := by
  induction fuel generalizing va max dst pages with
  | zero => exact absurd enough (Nat.not_lt_zero _)
  | succ fuel ih =>
    have nothing (text : max = 0 ∨ ¬ m.User root va) (pages : List ℕ) :
      ∃ n more, n ≤ max ∧ dst = dst ++ m.bytes root va n ∧
        pages = pages ++ more ∧ Reached m root va more ∧ (∀ i, i < n → m.User root (va + i)) ∧
        ((∃ l, n = l + 1 ∧ (-1 : ℤ) = 0 ∧ m.at root (va + l) = 0 ∧ ∀ i, i < l → m.at root (va + i) ≠ 0) ∨
          (-1 : ℤ) = -1 ∧ (∀ i, i < n → m.at root (va + i) ≠ 0) ∧ (n < max → ¬ m.User root (va + n))) := by
      refine ⟨0, [], Nat.zero_le _, (List.append_nil _).symm, (List.append_nil _).symm, fun _ h => (nomatch h),
        fun _ h => (nomatch h), .inr ⟨rfl, fun _ h => (nomatch h), fun less => text.resolve_left (by omega)⟩⟩
    unfold copyinstrFrom
    by_cases some : 0 < max
    · rw [if_pos some]
      refine .bind (walkaddr_eq.mono ?_)
      rintro r m₁ ⟨rfl, rfl⟩
      rcases userPa_down va nonzero with ⟨user, address, frame⟩ | ⟨gone, address⟩
      · obtain ⟨positive, most, within⟩ := round_bounds va some
        rw [if_neg (by rwa [address]), address, down_sub]
        generalize size : min (pgsize - va % pgsize) max = n at *
        have page (i : ℕ) (less : i < n) : m₁.User root (va + i) := (user_congr (same_page va i (by omega)).1).mpr user
        have here : Reached m₁ root va [pgrounddown va] := by
          intro p mem
          rw [List.mem_singleton.mp mem]
          exact ⟨(user_congr down_page).mpr user, 0, rfl, fun _ h => (nomatch h)⟩
        refine .bind (.reads ?_)
        rcases scan_spec (m₁.page (m₁.frame root va)) n (va % pgsize) max dst with
          ⟨l, less, null, before, ran⟩ | ⟨before, ran⟩
        · rw [ran, span_page (by omega)]
          rw [byte_page (by omega)] at null
          dsimp only
          rw [if_pos rfl]
          refine .pure ⟨rfl, l + 1, [pgrounddown va], by omega, rfl, rfl, here, fun i le => page i (by omega),
            .inl ⟨l, rfl, rfl, null, fun i le => ?_⟩⟩
          have := before i le
          rwa [byte_page (by omega)] at this
        · rw [ran, span_page within, next_page user.below]
          dsimp only
          rw [if_neg Bool.false_ne_true]
          have clear (i : ℕ) (le : i < n) : m₁.at root (va + i) ≠ 0 := by
            have := before i le
            rwa [byte_page (by omega)] at this
          have fuel' := next_fuel user.below enough
          by_cases more : n < max
          · have next : va + (pgsize - va % pgsize) = va + n := by omega
            rw [next] at fuel' ⊢
            refine (ih fuel' _ _).mono ?_
            rintro c m₂ ⟨rfl, l, reads, le, copied, read, reached, rest, ending⟩
            refine ⟨rfl, n + l, pgrounddown va :: reads, by omega, ?_, ?_, ?_, fun i few => ?_, ?_⟩
            · rw [copied, bytes_add, List.append_assoc]
            · rw [read, List.append_assoc]
              rfl
            · intro p mem
              rcases List.mem_cons.mp mem with rfl | mem
              · exact here _ List.mem_cons_self
              · obtain ⟨there, i, eq, none⟩ := reached p mem
                refine ⟨there, n + i, by rw [eq, Nat.add_assoc], fun j few => ?_⟩
                by_cases first : j < n
                · exact clear j first
                · have := none (j - n) (by omega)
                  rwa [show va + n + (j - n) = va + j by omega] at this
            · by_cases first : i < n
              · exact page i first
              · have := rest (i - n) (by omega)
                rwa [show va + n + (i - n) = va + i by omega] at this
            · have join (l : ℕ) (none : ∀ i, i < l → m₂.at root (va + n + i) ≠ 0) (i : ℕ) (few : i < n + l) :
                  m₂.at root (va + i) ≠ 0 := by
                by_cases first : i < n
                · exact clear i first
                · have := none (i - n) (by omega)
                  rwa [show va + n + (i - n) = va + i by omega] at this
              rcases ending with ⟨k, rfl, zero, null, none⟩ | ⟨failed, none, stop⟩
              · refine .inl ⟨n + k, by omega, zero, ?_, join k none⟩
                rwa [← Nat.add_assoc]
              · refine .inr ⟨failed, join l none, fun few => ?_⟩
                rw [← Nat.add_assoc]
                exact stop (by omega)
          · have all : n = max := by omega
            cases fuel with
            | zero => exact absurd fuel' (Nat.not_lt_zero _)
            | succ fuel =>
              unfold copyinstrFrom
              rw [if_neg (by omega)]
              exact .pure ⟨rfl, n,
                [pgrounddown va], by omega, rfl, rfl, here, page, .inr ⟨rfl, clear, fun few => absurd few more⟩⟩
      · rw [if_pos address]
        exact .pure ⟨rfl, nothing (.inr gone) pages⟩
    · rw [if_neg some]
      exact .pure ⟨rfl, nothing (.inl (by omega)) pages⟩

/-! ### copyinstr -/

/-- A string at `va` whose null byte is the one at `n`, in user pages. -/
structure Memory.Str (m : Memory) (root va n : ℕ) : Prop where
  null : m.at root (va + n) = 0
  before : ∀ i, i < n → m.at root (va + i) ≠ 0
  user : ∀ i, i ≤ n → m.User root (va + i)

theorem Memory.Str.unique (str : m.Str root va n) (str' : m.Str root va k) : n = k := by
  rcases Nat.lt_trichotomy n k with less | same | more
  · exact absurd str.null (str'.before n less)
  · exact same
  · exact absurd str'.null (str.before k more)

/-- The first null byte of a range. -/
theorem str_of_null (null : m.at root (va + n) = 0) (user : ∀ i, i ≤ n → m.User root (va + i)) :
    ∃ l, l ≤ n ∧ m.Str root va l := by
  classical
  have some : ∃ l, m.at root (va + l) = 0 := ⟨n, null⟩
  have le : Nat.find some ≤ n := Nat.find_min' some null
  exact ⟨Nat.find some, le, Nat.find_spec some, fun i less => Nat.find_min some less,
    fun i less => user i (le_trans less le)⟩

theorem copyinstr_spec (nonzero : ∀ b, m.User root b → m.frame root b ≠ 0) :
    Returns (copyinstr root va max) m fun c m' => m' = m ∧ Reached m root va c.pages ∧ c.dst.length ≤ max ∧
      ((∃ l, l < max ∧ m.Str root va l ∧ c.result = 0 ∧ c.dst = m.bytes root va (l + 1)) ∨
        c.result = -1 ∧ ∀ l, l < max → ¬ m.Str root va l) := by
  refine (copyinstrFrom_spec nonzero user_rounds [] []).mono ?_
  rintro c m' ⟨rfl, n, more, le, copied, read, reached, user, ending⟩
  rw [List.nil_append] at copied read
  have length : c.dst.length = n := by rw [copied, Memory.bytes, List.length_map, List.length_range]
  refine ⟨rfl, by rwa [read], by omega, ?_⟩
  rcases ending with ⟨l, rfl, zero, null, before⟩ | ⟨failed, before, stop⟩
  · exact .inl ⟨l, by omega, ⟨null, before, fun i less => user i (by omega)⟩, zero, copied⟩
  · refine .inr ⟨failed, fun l less str => ?_⟩
    by_cases short : l < n
    · exact before l short str.null
    · exact stop (by omega) (str.user n (by omega))

theorem strlen_bytes (null : m.at root (va + n) = 0) (before : ∀ i, i < n → m.at root (va + i) ≠ 0) :
    strlen (m.bytes root va (n + 1)) = some n := by
  induction n generalizing va with
  | zero =>
    have first : m.bytes root va 1 = [m.at root va] := rfl
    have here : m.at root va = 0 := null
    rw [first, strlen, if_pos here]
  | succ n ih =>
    have first : m.bytes root va (n + 1 + 1) = m.at root va :: m.bytes root (va + 1) (n + 1) := by
      rw [Nat.add_comm (n + 1), bytes_add]
      rfl
    have rest := @ih (va + 1) (by rwa [Nat.add_assoc, Nat.add_comm 1]) fun i less => by
      rw [Nat.add_assoc, Nat.add_comm 1]
      exact before (i + 1) (by omega)
    have here : m.at root va ≠ 0 := before 0 (Nat.succ_pos n)
    rw [first, strlen, if_neg here, rest]
    rfl

/-- `copyinstr`, and what `fetchstr` makes of it. -/
theorem copyinstr_fetchstr (nonzero : ∀ b, m.User root b → m.frame root b ≠ 0) (va max : ℕ) :
    Returns (copyinstr root va max) m (fun c m' => m' = m ∧
      (c.result = 0 ↔ ∃ n, n < max ∧ m.at root (va + n) = 0 ∧ ∀ i, i ≤ n → m.User root (va + i)) ∧
      (c.result = 0 ∨ c.result = -1) ∧
      (c.result = 0 → ∃ n, n < max ∧ m.Str root va n ∧ c.dst = m.bytes root va (n + 1)) ∧
      c.dst.length ≤ max ∧
      (∀ p ∈ c.pages, m.User root p) ∧
      ∀ n, m.at root (va + n) = 0 → ∀ p ∈ c.pages, p ≤ pgrounddown (va + n)) ∧
    Returns (fetchstr root va max) m fun r m' => m' = m ∧
      ((∃ n, n < max ∧ m.Str root va n ∧ r = ((n : ℤ), m.bytes root va (n + 1))) ∨
        r.1 = -1 ∧ ∀ n, n < max → ¬ m.Str root va n) := by
  constructor
  · refine (copyinstr_spec nonzero).mono ?_
    rintro c m' ⟨rfl, reached, length, ending⟩
    refine ⟨rfl, ?_, ending.imp (fun ⟨_, _, _, zero, _⟩ => zero) And.left, fun zero => ?_, length,
      fun p mem => (reached p mem).1, fun n null p mem => ?_⟩
    · rcases ending with ⟨l, less, str, zero, -⟩ | ⟨failed, none⟩
      · exact iff_of_true zero ⟨l, less, str.null, str.user⟩
      · refine iff_of_false (by rw [failed]; decide) ?_
        rintro ⟨n, less, null, user⟩
        obtain ⟨l, le, str⟩ := str_of_null null user
        exact none l (by omega) str
    · rcases ending with ⟨l, less, str, -, copied⟩ | ⟨failed, -⟩
      · exact ⟨l, less, str, copied⟩
      · exact absurd (zero.symm.trans failed) (by decide)
    · obtain ⟨-, i, rfl, none⟩ := reached p mem
      have le : i ≤ n := by
        by_contra more
        exact none n (by omega) null
      exact Nat.mul_le_mul_right _ (Nat.div_le_div_right (by omega))
  · unfold fetchstr
    refine .bind ((copyinstr_spec nonzero).mono ?_)
    rintro c m' ⟨rfl, -, -, ⟨l, less, str, zero, copied⟩ | ⟨failed, none⟩⟩
    · rw [if_neg (by rw [zero]; decide), copied, strlen_bytes str.null str.before]
      exact .pure ⟨rfl, .inl ⟨l, less, str, rfl⟩⟩
    · rw [if_pos (by rw [failed]; decide)]
      exact .pure ⟨rfl, .inr ⟨failed, none⟩⟩

def hiText : List UInt8 := [104, 105, 33, 0]

/-- A string that `copyout` has put across the end of a page. -/
theorem str_of_put (put : Put (userMemory 0) m 0x87fff000 4094 hiText) : m.Str 0x87fff000 4094 3 := by
  have found (i : ℕ) (less : i < hiText.length) : m.at 0x87fff000 (4094 + i) = hiText[i] := by
    rw [Memory.at, put.frame userMemory_users]
    exact put.there i less
  refine ⟨found 3 (by decide), fun i less => ?_, fun i le => (put.isUser userMemory_users).mpr (userMemory_user.mpr ?_)⟩
  · have nonzero : ∀ k : Fin 3, hiText.get ⟨k, k.isLt.trans (by decide)⟩ ≠ 0 := by decide
    rw [found i (less.trans (by decide))]
    exact nonzero ⟨i, less⟩
  · rw [pgsize]
    omega

theorem copyinstr_fetchstr_crossing : Returns (copyout 0x87fff000 4094 hiText) (userMemory 0) fun r m => r = 0 ∧
    Returns (copyinstr 0x87fff000 4094 10) m (fun c m' => m' = m ∧ c.result = 0 ∧ c.dst = hiText) ∧
    Returns (fetchstr 0x87fff000 4094 10) m fun r m' => m' = m ∧ r = (3, hiText) := by
  refine (copyout_spec userMemory_users).mono ?_
  rintro r m ⟨n, le, put, ⟨rfl, rfl⟩ | ⟨-, less, gone⟩⟩
  · rw [List.take_length] at put
    have str := str_of_put put
    have bytes : m.bytes 0x87fff000 4094 (3 + 1) = hiText := put.bytes userMemory_users
    obtain ⟨copied, fetched⟩ := copyinstr_fetchstr (userMemory_users.put put).nonzero 4094 10
    refine ⟨rfl, copied.mono ?_, fetched.mono ?_⟩
    · rintro c m' ⟨same, found, -, read, -⟩
      have zero : c.result = 0 := found.mpr ⟨3, by decide, str.null, str.user⟩
      obtain ⟨k, -, str', all⟩ := read zero
      rw [str'.unique str, bytes] at all
      exact ⟨same, zero, all⟩
    · rintro r m' ⟨same, ⟨k, -, str', read⟩ | ⟨-, none⟩⟩
      · rw [str'.unique str, bytes] at read
        exact ⟨same, read⟩
      · exact absurd str (none 3 (by decide))
  · refine absurd (userMemory_user.mpr ?_) gone
    have short : hiText.length = 4 := rfl
    rw [pgsize]
    omega

end Xv6Labs.Vm
