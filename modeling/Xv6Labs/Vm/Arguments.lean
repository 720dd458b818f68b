import Xv6Labs.Vm.Loading

/-!
# The arguments of a program

`exec` puts the strings of `argv` on the stack page from its top down, each below the one before it, and the array of
their addresses below them.
-/

namespace Xv6Labs.Vm

open Faults

variable {m₀ m m' : Memory} {root n sp argc low top q : ℕ} {f g : ℕ → UInt8} {xs ys : List UInt8}
  {argv : List (List UInt8)} {ptrs ustack : List ℕ}

/-! ### Where things are put -/

def round16 (n : ℕ) : ℕ := (n + 15) / 16 * 16

/-- What strings take on the stack. -/
def strings (argv : List (List UInt8)) : ℕ := (argv.map fun arg => round16 (arg.length + 1)).sum

/-- What `argv` takes on the stack. -/
def need (argv : List (List UInt8)) : ℕ := strings argv + round16 ((argv.length + 1) * 8)

theorem push_eq (aligned : sp % 16 = 0) (le : n ≤ sp) (small : sp < 2 ^ 64) :
    push sp n = sp - round16 n ∧ round16 n ≤ sp := by
  have wrapped : wrap (sp + 2 ^ 64 - n) = sp - n := by
    have split : sp + 2 ^ 64 - n = sp - n + 2 ^ 64 := by omega
    rw [wrap, split, Nat.add_mod_right]
    exact Nat.mod_eq_of_lt (by omega)
  rw [push, wrapped, round16]
  omega

theorem round16_mod : round16 n % 16 = 0 := Nat.mul_mod_left ..

theorem le_round16 : n ≤ round16 n := by
  unfold round16
  omega

/-! ### What is at an address -/

/-- `xs` is at `va`. -/
def Text (f : ℕ → UInt8) (va : ℕ) (xs : List UInt8) : Prop := ∀ i (h : i < xs.length), f (va + i) = xs[i]

theorem text_overlay : Text (overlay n xs f) n xs := by
  intro i less
  rw [overlay, if_pos ⟨Nat.le_add_right .., by omega⟩, Nat.add_sub_cancel_left, List.getD_eq_getElem _ _ less]

theorem Text.congr (text : Text f n xs) (same : ∀ b, n ≤ b → b < n + xs.length → g b = f b) : Text g n xs :=
  fun i less => (same (n + i) (Nat.le_add_right ..) (by omega)).trans (text i less)

theorem Text.append (text : Text f n (xs ++ ys)) : Text f n xs ∧ Text f (n + xs.length) ys := by
  refine ⟨fun i less => ?_, fun i less => ?_⟩
  · have := text i (by rw [List.length_append]; omega)
    rwa [List.getElem_append_left less] at this
  · have := text (xs.length + i) (by rw [List.length_append]; omega)
    rwa [List.getElem_append_right (by omega), ← Nat.add_assoc, getElem_congr_idx (Nat.add_sub_cancel_left ..)] at this

/-- From `top` down to `low`, the strings are at their addresses. -/
def Placed (f : ℕ → UInt8) (low : ℕ) : (top : ℕ) → List (List UInt8) → List ℕ → Prop
  | top, [], [] => low ≤ top
  | top, arg :: argv, ptr :: ptrs => ptr + (arg.length + 1) ≤ top ∧ Text f ptr (arg ++ [0]) ∧ Placed f low ptr argv ptrs
  | _, [], _ :: _ => False
  | _, _ :: _, [] => False

theorem stack_user (holding : Holding m₀ m root (n + 2) (guarded n) f) {b : ℕ} (from_ : (n + 1) * pgsize ≤ b)
    (to_ : b < (n + 2) * pgsize) : m.User root b := by
  refine holding.isUser to_ ?_
  have page : b / pgsize ≠ n := by
    have := (Nat.le_div_iff_mul_le (by decide : 0 < pgsize)).mpr from_
    omega
  rw [guarded, if_neg page]
  decide

/-- `copyout` to the stack page. -/
theorem copyout_stack (holding : Holding m₀ m root (n + 2) (guarded n) f) (from_ : (n + 1) * pgsize ≤ q)
    (to_ : q + xs.length ≤ (n + 2) * pgsize) :
    Returns (copyout root q xs) m fun r m' => r = 0 ∧ Holding m₀ m' root (n + 2) (guarded n) (overlay q xs f) := by
  refine (copyout_spec holding.users).mono ?_
  rintro r m' ⟨l, le, put, ⟨rfl, rfl⟩ | ⟨rfl, less, gone⟩⟩
  · rw [List.take_length] at put
    exact ⟨rfl, holding.put put⟩
  · exact absurd (stack_user holding (by omega) (by omega)) gone

theorem word_length {x : ℕ} : (word x).length = 8 := by
  rw [word, List.length_map, List.length_range]

theorem words_length {xs : List ℕ} : (xs.flatMap word).length = xs.length * 8 := by
  induction xs with
  | nil => rfl
  | cons x xs ih =>
    rw [List.flatMap_cons, List.length_append, ih, word_length, List.length_cons]
    omega

/-- `copyout` of a string that does not end below `MAXVA`. -/
theorem copyout_wrapped (holding : Holding m₀ m root (n + 2) (guarded n) f) (some : 0 < xs.length)
    (long : maxva < q + xs.length) :
    Returns (copyout root q xs) m fun r m' => r = -1 ∧ ∃ g, Holding m₀ m' root (n + 2) (guarded n) g := by
  refine (copyout_spec holding.users).mono ?_
  rintro r m' ⟨l, le, put, ⟨rfl, rfl⟩ | ⟨rfl, -, -⟩⟩
  · have last := (put.user (xs.length - 1) (by rw [List.take_length]; omega)).below
    omega
  · exact ⟨rfl, _, holding.put put⟩

theorem pushArgs_spec (aligned : sp % 16 = 0) (from_ : (n + 1) * pgsize ≤ sp) (to_ : sp ≤ (n + 2) * pgsize)
    (few : argc ≤ maxarg) (count : ustack.length = argc) (holding : Holding m₀ m root (n + 2) (guarded n) f) :
    Returns (pushArgs root ((n + 1) * pgsize) argv argc sp ustack) m fun r m' =>
      ∃ g, Holding m₀ m' root (n + 2) (guarded n) g ∧
        (r = none ∧ (maxarg < argc + argv.length ∨ (∃ arg ∈ argv, pgsize ≤ arg.length) ∨
            sp < (n + 1) * pgsize + (strings argv + round16 ((argc + argv.length + 1) * 8))) ∨
          (∀ b, b < (n + 1) * pgsize ∨ sp ≤ b → g b = f b) ∧
          (n + 1) * pgsize + (strings argv + round16 ((argc + argv.length + 1) * 8)) ≤ sp ∧
          ∃ q ptrs, r = some (argc + argv.length, q) ∧ q % 16 = 0 ∧ (n + 1) * pgsize ≤ q ∧
            Placed g (q + (argc + argv.length + 1) * 8) sp argv ptrs ∧
            Text g q ((ustack ++ ptrs ++ [0]).flatMap word)) := by
  have pg : pgsize = 4096 := rfl
  have most : maxarg = 32 := rfl
  have top := holding.space.bound
  have limit : trapframe < maxva := by decide
  have high : maxva = 2 ^ 38 := rfl
  induction argv generalizing m f sp argc ustack with
  | nil =>
    unfold pushArgs
    have size : (argc + 1) * 8 ≤ sp := by
      have : (n + 1) * pgsize = n * pgsize + pgsize := Nat.succ_mul ..
      omega
    obtain ⟨pushed, le⟩ := push_eq aligned size (by omega)
    rw [pushed, strings, List.map_nil, List.sum_nil, Nat.zero_add, List.length_nil, Nat.add_zero]
    have upto := @le_round16 ((argc + 1) * 8)
    dsimp only
    split
    · exact .pure ⟨f, holding, .inl ⟨rfl, .inr (.inr (by omega))⟩⟩
    · have length : ((ustack ++ [0]).flatMap word).length = (argc + 1) * 8 := by
        rw [words_length, List.length_append, count]
        rfl
      refine .bind ((copyout_stack holding (by omega) (by rw [length]; omega)).mono ?_)
      rintro r m' ⟨rfl, after⟩
      rw [if_neg (by decide)]
      refine .pure ⟨_, after, .inr ⟨fun b out => ?_, by omega, _, [], rfl, ?_, by omega, ?_, ?_⟩⟩
      · rw [overlay, if_neg]
        rw [length]
        omega
      · have := @round16_mod ((argc + 1) * 8)
        omega
      · change _ ≤ sp
        omega
      · rw [List.append_nil]
        exact text_overlay
  | cons arg argv ih =>
    unfold pushArgs
    have next : argc + (arg :: argv).length = argc + 1 + argv.length := by
      rw [List.length_cons]
      omega
    rw [next]
    by_cases many : maxarg ≤ argc
    · rw [if_pos many]
      exact .pure ⟨f, holding, .inl ⟨rfl, .inl (by omega)⟩⟩
    rw [if_neg many]
    have length : (arg ++ [0]).length = arg.length + 1 := List.length_append
    have whole : (n + 1) * pgsize = n * pgsize + pgsize := Nat.succ_mul ..
    have page : (n + 2) * pgsize = (n + 1) * pgsize + pgsize := Nat.succ_mul ..
    by_cases size : arg.length + 1 ≤ sp
    · obtain ⟨pushed, le⟩ := push_eq aligned size (by omega)
      have upto := @le_round16 (arg.length + 1)
      have rounded := @round16_mod (arg.length + 1)
      have cost : strings (arg :: argv) = round16 (arg.length + 1) + strings argv := by
        rw [strings, List.map_cons, List.sum_cons]
        rfl
      rw [pushed, cost]
      dsimp only
      split
      · exact .pure ⟨f, holding, .inl ⟨rfl, .inr (.inr (by omega))⟩⟩
      · refine .bind ((copyout_stack holding (by omega) (by omega)).mono ?_)
        rintro r m₁ ⟨rfl, after⟩
        rw [if_neg (by decide)]
        refine (ih (by omega) (by omega) (by omega) (by omega) (by rw [List.length_append, count]; rfl) after).mono ?_
        rintro r m' ⟨g, holding', ⟨rfl, reason⟩ | ⟨same, fits, q, ptrs, rfl, mod, inside, placed, array⟩⟩
        · refine ⟨g, holding', .inl ⟨rfl, ?_⟩⟩
          rcases reason with many | ⟨arg', mem, long⟩ | more
          · exact .inl many
          · exact .inr (.inl ⟨arg', List.mem_cons_of_mem _ mem, long⟩)
          · exact .inr (.inr (by omega))
        · refine ⟨g, holding',
            .inr ⟨fun b out => ?_, by omega, q, (sp - round16 (arg.length + 1)) :: ptrs, rfl, mod, inside,
            ⟨by omega, ?_, placed⟩, ?_⟩⟩
          · rw [same b (by omega), overlay, if_neg (by omega)]
          · exact text_overlay.congr fun b above _ => same b (.inr above)
          · rwa [List.append_cons ustack]
    · -- `sp` wraps around: the string does not end below `MAXVA`
      have long : ∃ arg' ∈ arg :: argv, pgsize ≤ arg'.length := ⟨arg, List.mem_cons_self, by omega⟩
      dsimp only
      split
      · exact .pure ⟨f, holding, .inl ⟨rfl, .inr (.inl long)⟩⟩
      · rename_i above
        have wrapped : maxva < push sp (arg.length + 1) + (arg ++ [0]).length := by
          rw [length]
          rw [push, wrap] at above ⊢
          omega
        refine .bind ((copyout_wrapped holding (by omega) wrapped).mono ?_)
        rintro r m₁ ⟨rfl, g, after⟩
        rw [if_pos (by decide)]
        exact .pure ⟨g, after, .inl ⟨rfl, .inr (.inl long)⟩⟩

/-! ### What the program finds -/

theorem number_word {x : ℕ} (small : x < 2 ^ 64) : number (word x) = x := by
  have digit (k : ℕ) : (UInt8.ofNat (x / 256 ^ k)).toNat = x / 256 ^ k % 256 := UInt8.toNat_ofNat'
  have list : List.range 8 = [0, 1, 2, 3, 4, 5, 6, 7] := rfl
  simp only [number, word, list, List.map_cons, List.map_nil, digit, Nat.ofDigits_cons, Nat.ofDigits_nil]
  norm_num
  omega

theorem Text.word {words : List ℕ} (text : Text f q (words.flatMap Vm.word)) (i : ℕ) (less : i < words.length) :
    Text f (q + i * 8) (Vm.word words[i]) := by
  induction words generalizing q i with
  | nil => exact absurd less (Nat.not_lt_zero _)
  | cons x words ih =>
    rw [List.flatMap_cons] at text
    obtain ⟨first, rest⟩ := text.append
    cases i with
    | zero => exact first
    | succ i =>
      rw [word_length] at rest
      have := ih rest i (Nat.lt_of_succ_lt_succ less)
      rwa [Nat.add_assoc, show 8 + i * 8 = (i + 1) * 8 by omega] at this

theorem Placed.length (placed : Placed f low top argv ptrs) : ptrs.length = argv.length := by
  induction argv generalizing top ptrs with
  | nil =>
    cases ptrs with
    | nil => rfl
    | cons => exact placed.elim
  | cons arg argv ih =>
    cases ptrs with
    | nil => exact placed.elim
    | cons ptr ptrs => exact congrArg (· + 1) (ih placed.2.2)

theorem Placed.low_le (placed : Placed f low top argv ptrs) : low ≤ top := by
  induction argv generalizing top ptrs with
  | nil =>
    cases ptrs with
    | nil => exact placed
    | cons => exact placed.elim
  | cons arg argv ih =>
    cases ptrs with
    | nil => exact placed.elim
    | cons ptr ptrs =>
      have := placed.1
      have := ih placed.2.2
      omega

/-- A string is between `low` and `top`. -/
theorem Placed.string (placed : Placed f low top argv ptrs) (i : ℕ) (h : i < argv.length) (h' : i < ptrs.length) :
    low ≤ ptrs[i] ∧ ptrs[i] + (argv[i].length + 1) ≤ top ∧ Text f ptrs[i] (argv[i] ++ [0]) := by
  induction argv generalizing top ptrs i with
  | nil => exact absurd h (Nat.not_lt_zero _)
  | cons arg argv ih =>
    cases ptrs with
    | nil => exact placed.elim
    | cons ptr ptrs =>
      obtain ⟨upto, text, rest⟩ := placed
      cases i with
      | zero => exact ⟨rest.low_le, upto, text⟩
      | succ i =>
        obtain ⟨above, below, text'⟩ := ih rest i (Nat.lt_of_succ_lt_succ h) (Nat.lt_of_succ_lt_succ h')
        exact ⟨above, by simp only [List.getElem_cons_succ]; omega, text'⟩

theorem Placed.apart (placed : Placed f low top argv ptrs) {i j : ℕ} (less : i < j) (h : j < argv.length)
    (h' : j < ptrs.length) :
    ptrs[j] + (argv[j].length + 1) ≤ ptrs[i] := by
  induction argv generalizing top ptrs i j with
  | nil => exact absurd h (Nat.not_lt_zero _)
  | cons arg argv ih =>
    cases ptrs with
    | nil => exact placed.elim
    | cons ptr ptrs =>
      obtain ⟨-, -, rest⟩ := placed
      cases j with
      | zero => exact absurd less (Nat.not_lt_zero _)
      | succ j =>
        cases i with
        | zero => exact (rest.string j (Nat.lt_of_succ_lt_succ h) (Nat.lt_of_succ_lt_succ h')).2.1
        | succ i => exact ih rest (Nat.lt_of_succ_lt_succ less) (Nat.lt_of_succ_lt_succ h) (Nat.lt_of_succ_lt_succ h')

end Xv6Labs.Vm
