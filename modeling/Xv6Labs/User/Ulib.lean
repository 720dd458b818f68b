import Mathlib

/-!
# `ulib.c`

The memory of a user program is a function from addresses to bytes, and a string there ends at its first NUL. A loop
that looks for a NUL has no result if it runs out of `fuel`. What `read` returns is up to the system: any nonempty
piece of the input.
-/

namespace Xv6Labs.User

abbrev Memory : Type := ℕ → UInt8

def strchr (mem : Memory) (c : UInt8) : ℕ → ℕ → Option (Option ℕ)
  | 0, _ => none
  | fuel + 1, s => if mem s = 0 then some none else if mem s = c then some (some s) else strchr mem c fuel (s + 1)

/-- The string at `s`. -/
def cstring (mem : Memory) : ℕ → ℕ → Option (List UInt8)
  | 0, _ => none
  | fuel + 1, s => if mem s = 0 then some [] else (cstring mem fuel (s + 1)).map (mem s :: ·)

/-- `while(n-- > 0) *dst++ = *src++;` -/
def copyUp (mem : Memory) (dst src : ℕ) : ℕ → Memory
  | 0 => mem
  | n + 1 => copyUp (Function.update mem dst (mem src)) (dst + 1) (src + 1) n

/-- `dst += n; src += n; while(n-- > 0) *--dst = *--src;` -/
def copyDown (mem : Memory) (dst src : ℕ) : ℕ → Memory
  | 0 => mem
  | n + 1 => copyDown (Function.update mem (dst + n) (mem (src + n))) dst src n

def memmove (mem : Memory) (dst src n : ℕ) : Memory :=
  if src > dst then copyUp mem dst src n else copyDown mem dst src n

def store (mem : Memory) (p : ℕ) (bs : List UInt8) : Memory := fun x =>
  if p ≤ x then (bs[x - p]?).getD (mem x) else mem x

def bytes (mem : Memory) (p n : ℕ) : List UInt8 := (List.range n).map fun k => mem (p + k)

/-- What is left of the input, and the sizes of the pieces that it comes in. -/
structure Input where
  rest : List UInt8
  size : ℕ → ℕ

/-- At most `n` bytes, and at least one if there is any and `n` is not 0. -/
def Input.piece (input : Input) (n : ℕ) : List UInt8 := input.rest.take (min n (max 1 (input.size 0)))

def Input.next (input : Input) (n : ℕ) : Input :=
  ⟨input.rest.drop (min n (max 1 (input.size 0))), fun k => input.size (k + 1)⟩

variable {mem : Memory} {p x n src dst fuel : ℕ} {c : UInt8} {bs u : List UInt8} {input : Input}

theorem Input.piece_append : input.piece n ++ (input.next n).rest = input.rest := List.take_append_drop ..

theorem Input.length_piece_le : (input.piece n).length ≤ n := by
  unfold Input.piece
  rw [List.length_take]
  omega

theorem Input.piece_eq_nil (room : 0 < n) : input.piece n = [] ↔ input.rest = [] := by
  unfold Input.piece
  rw [List.take_eq_nil_iff]
  exact or_iff_right (by omega)

/-! ### `memmove` -/

theorem copyUp_apply (order : dst < src) :
    copyUp mem dst src n x = if dst ≤ x ∧ x < dst + n then mem (src + (x - dst)) else mem x := by
  induction n generalizing mem dst src with
  | zero =>
    rw [if_neg (by omega)]
    rfl
  | succ n ih =>
    rw [copyUp, ih (by omega)]
    by_cases first : x = dst
    · subst first
      rw [if_neg (by omega), if_pos (by omega), Function.update_self, Nat.sub_self, Nat.add_zero]
    · rw [Function.update_of_ne first]
      by_cases inside : dst + 1 ≤ x ∧ x < dst + 1 + n
      · have place : src + 1 + (x - (dst + 1)) = src + (x - dst) := by omega
        rw [if_pos inside, if_pos (by omega), place, Function.update_of_ne (by omega)]
      · rw [if_neg inside, if_neg (by omega)]

theorem copyDown_apply (order : src ≤ dst) :
    copyDown mem dst src n x = if dst ≤ x ∧ x < dst + n then mem (src + (x - dst)) else mem x := by
  induction n generalizing mem with
  | zero =>
    rw [if_neg (by omega)]
    rfl
  | succ n ih =>
    rw [copyDown, ih]
    by_cases last : x = dst + n
    · subst last
      rw [if_neg (by omega), if_pos (by omega), Function.update_self, Nat.add_sub_cancel_left]
    · rw [Function.update_of_ne last]
      by_cases inside : dst ≤ x ∧ x < dst + n
      · rw [if_pos inside, if_pos (by omega), Function.update_of_ne (by omega)]
      · rw [if_neg inside, if_neg (by omega)]

/-- The ranges may overlap. -/
theorem memmove_apply : memmove mem dst src n x = if dst ≤ x ∧ x < dst + n then mem (src + (x - dst)) else mem x := by
  unfold memmove
  by_cases order : src > dst
  · rw [if_pos order, copyUp_apply order]
  · rw [if_neg order, copyDown_apply (Nat.le_of_not_lt order)]

/-! ### Strings in memory -/

/-- The bytes from `p` on are `bs`. -/
def Holds (mem : Memory) (p : ℕ) (bs : List UInt8) : Prop := ∀ k (h : k < bs.length), mem (p + k) = bs[k]

theorem holds_nil : Holds mem p [] := fun _ h => absurd h (Nat.not_lt_zero _)

theorem holds_cons : Holds mem p (c :: bs) ↔ mem p = c ∧ Holds mem (p + 1) bs := by
  constructor
  · intro holds
    refine ⟨holds 0 (Nat.succ_pos _), fun k h => ?_⟩
    rw [Nat.add_assoc, Nat.add_comm 1]
    exact holds (k + 1) (Nat.succ_lt_succ h)
  · rintro ⟨first, rest⟩ k h
    cases k with
    | zero => exact first
    | succ k =>
      rw [← Nat.add_assoc, Nat.add_right_comm]
      exact rest k (Nat.lt_of_succ_lt_succ h)

theorem holds_append : Holds mem p (u ++ bs) ↔ Holds mem p u ∧ Holds mem (p + u.length) bs := by
  induction u generalizing p with
  | nil => simp [holds_nil]
  | cons c u ih =>
    have place : p + 1 + u.length = p + (c :: u).length := by
      rw [List.length_cons]
      omega
    rw [List.cons_append, holds_cons, holds_cons, ih, and_assoc, place]

theorem Holds.congr {mem' : Memory} (holds : Holds mem p bs) (same : ∀ x, p ≤ x → x < p + bs.length → mem' x = mem x) :
    Holds mem' p bs := fun k h => (same _ (Nat.le_add_right ..) (Nat.add_lt_add_left h p)).trans (holds k h)

theorem Holds.update (holds : Holds mem p bs) (outside : x < p ∨ p + bs.length ≤ x) :
    Holds (Function.update mem x c) p bs :=
  holds.congr fun y low high => Function.update_of_ne (by omega) c mem

theorem holds_store : Holds (store mem p bs) p bs := by
  intro k h
  unfold store
  rw [if_pos (Nat.le_add_right p k), Nat.add_sub_cancel_left, List.getElem?_eq_getElem h]
  rfl

theorem store_below (below : x < p) : store mem p bs x = mem x := if_neg (Nat.not_le_of_lt below)

theorem Holds.bytes (holds : Holds mem p bs) : bytes mem p bs.length = bs := by
  refine List.ext_getElem (by simp [User.bytes]) fun k _ h => ?_
  rw [← holds k h]
  simp [User.bytes]

theorem strchr_found (holds : Holds mem p (u ++ [c])) (nonzero : 0 ∉ u) (other : c ∉ u) (visible : c ≠ 0)
    (enough : u.length < fuel) :
    strchr mem c fuel p = some (some (p + u.length)) := by
  induction u generalizing p fuel with
  | nil =>
    obtain ⟨fuel, rfl⟩ := Nat.exists_eq_add_of_lt enough
    have here := (holds_cons.mp holds).1
    rw [strchr, here, if_neg visible, if_pos rfl]
    rfl
  | cons d u ih =>
    rcases fuel with _ | fuel
    · exact absurd enough (Nat.not_lt_zero _)
    · have here := holds_cons.mp holds
      rw [List.mem_cons, not_or] at nonzero other
      rw [strchr, here.1, if_neg (Ne.symm nonzero.1), if_neg (Ne.symm other.1),
        ih here.2 nonzero.2 other.2 (Nat.lt_of_succ_lt_succ enough), List.length_cons, Nat.add_assoc, Nat.add_comm 1]

theorem strchr_absent (holds : Holds mem p (u ++ [0])) (nonzero : 0 ∉ u) (other : c ∉ u) (enough : u.length < fuel) :
    strchr mem c fuel p = some none := by
  induction u generalizing p fuel with
  | nil =>
    obtain ⟨fuel, rfl⟩ := Nat.exists_eq_add_of_lt enough
    rw [strchr, (holds_cons.mp holds).1, if_pos rfl]
  | cons d u ih =>
    rcases fuel with _ | fuel
    · exact absurd enough (Nat.not_lt_zero _)
    · have here := holds_cons.mp holds
      rw [List.mem_cons, not_or] at nonzero other
      rw [strchr, here.1, if_neg (Ne.symm nonzero.1), if_neg (Ne.symm other.1),
        ih here.2 nonzero.2 other.2 (Nat.lt_of_succ_lt_succ enough)]

theorem cstring_eq (holds : Holds mem p (u ++ [0])) (nonzero : 0 ∉ u) (enough : u.length < fuel) :
    cstring mem fuel p = some u := by
  induction u generalizing p fuel with
  | nil =>
    obtain ⟨fuel, rfl⟩ := Nat.exists_eq_add_of_lt enough
    rw [cstring, (holds_cons.mp holds).1, if_pos rfl]
  | cons d u ih =>
    rcases fuel with _ | fuel
    · exact absurd enough (Nat.not_lt_zero _)
    · have here := holds_cons.mp holds
      rw [List.mem_cons, not_or] at nonzero
      rw [cstring, here.1, if_neg (Ne.symm nonzero.1), ih here.2 nonzero.2 (Nat.lt_of_succ_lt_succ enough)]
      rfl

end Xv6Labs.User
