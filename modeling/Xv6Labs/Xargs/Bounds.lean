import Xv6Labs.Xargs.Code

/-!
# The arrays of `xargs`

No write to a parameter leaves its buffer. The writes to `params` stay inside as long as the fixed arguments and one
parameter for each separator leave room for the 0 behind them.
-/

namespace Xv6Labs.Xargs

variable {params argv : List (List UInt8)} {line : List UInt8} {c : Child} {system : System} {pieces : List Piece}
  {w : Write} {n : ℕ}

/-- The separators of the first `n` pieces. -/
def separators (pieces : List Piece) (n : ℕ) : ℕ := ((pieces.take n).flatMap Piece.bytes).countP separates

/-- A child handles the piece number `n`: it was forked, and nothing was executed before. -/
def Reaches (system : System) (fixed : ℕ) (pieces : List Piece) (n : ℕ) : Prop :=
  (∀ k ≤ n, system.forks k = true) ∧ ∀ k < n, system.execs k = true → maxarg ≤ fixed + separators pieces (k + 1)

theorem writes_put : ∀ w ∈ (line.foldl Child.put c).writes, w ∈ c.writes ∨
    (∃ k < c.param.length + line.length, w = .param k) ∨
    ∃ k < c.params.length + line.countP separates, w = .params k := by
  induction line generalizing c with
  | nil => exact fun w mem => .inl mem
  | cons b line ih =>
    intro w mem
    rw [List.length_cons, List.countP_cons]
    rcases ih w mem with mem | ⟨k, less, rfl⟩ | ⟨k, less, rfl⟩
    · by_cases ends : separates b = true
      · rw [Child.put, if_pos ends, List.mem_append, List.mem_cons, List.mem_singleton] at mem
        rw [if_pos ends]
        rcases mem with old | rfl | rfl
        · exact .inl old
        · exact .inr (.inl ⟨_, by omega, rfl⟩)
        · exact .inr (.inr ⟨_, by omega, rfl⟩)
      · rw [Child.put, if_neg ends, List.mem_append, List.mem_singleton] at mem
        rcases mem with old | rfl
        · exact .inl old
        · exact .inr (.inl ⟨_, by omega, rfl⟩)
    · refine .inr (.inl ⟨k, ?_, rfl⟩)
      by_cases ends : separates b = true
      · rw [Child.put, if_pos ends, List.length_nil] at less
        omega
      · rw [Child.put, if_neg ends, List.length_append, List.length_singleton] at less
        omega
    · refine .inr (.inr ⟨k, ?_, rfl⟩)
      by_cases ends : separates b = true
      · rw [Child.put, if_pos ends, List.length_append, List.length_singleton] at less
        rw [if_pos ends]
        omega
      · rw [Child.put, if_neg ends] at less
        exact less.trans_le (Nat.add_le_add_left (Nat.le_add_right _ _) _)

/-- The writes of one child, with the 0 after its parameters. -/
theorem child_in_bounds {piece : Piece} :
    (∀ w ∈ (Child.fill params piece.bytes).writes ++ [.params (Child.fill params piece.bytes).params.length],
      w.InBounds) ↔
      params.length + piece.bytes.countP separates < MAX := by
  have count : (Child.fill params piece.bytes).params.length = params.length + piece.bytes.countP separates :=
    length_params
  rw [count]
  constructor
  · intro all
    exact all _ (List.mem_append_right _ (List.mem_singleton_self _))
  · intro room w mem
    rcases List.mem_append.mp mem with mem | mem
    · rcases writes_put w mem with no | ⟨k, less, rfl⟩ | ⟨k, less, rfl⟩
      · exact absurd no List.not_mem_nil
      · have short := piece.short
        rw [List.length_nil, Nat.zero_add] at less
        exact less.trans_le short
      · exact less.trans room
    · rw [List.mem_singleton.mp mem]
      exact room

theorem separators_succ {piece : Piece} : separators (piece :: pieces)
    (n + 1) = piece.bytes.countP separates + separators pieces n := by
  rw [separators, List.take_succ_cons, List.flatMap_cons, List.countP_append]
  rfl

theorem separators_one {piece : Piece} : separators (piece :: pieces) 1 = piece.bytes.countP separates :=
  separators_succ

theorem reaches_zero (forked : system.forks 0 = true) : Reaches system n pieces 0 := by
  refine ⟨fun k none => ?_, fun k none => absurd none (Nat.not_lt_zero _)⟩
  rw [Nat.le_zero.mp none]
  exact forked

/-- The first child goes on as the parent of the second. -/
theorem reaches_succ {piece : Piece} {fixed : ℕ} (forked : system.forks 0 = true)
    (goes : system.execs 0 = true → maxarg ≤ fixed + piece.bytes.countP separates) :
    Reaches system fixed (piece :: pieces) (n + 1) ↔
      Reaches system.next (fixed + piece.bytes.countP separates) pieces n := by
  constructor
  · rintro ⟨forks, execs⟩
    refine ⟨fun j less => forks (j + 1) (Nat.succ_le_succ less), fun j less ran => ?_⟩
    have full := execs (j + 1) (Nat.succ_lt_succ less) ran
    rwa [separators_succ, ← Nat.add_assoc] at full
  · rintro ⟨forks, execs⟩
    refine ⟨fun j less => ?_, fun j less ran => ?_⟩
    · cases j with
      | zero => exact forked
      | succ j => exact forks j (Nat.le_of_succ_le_succ less)
    · cases j with
      | zero =>
        rw [separators_one]
        exact goes ran
      | succ j =>
        rw [separators_succ, ← Nat.add_assoc]
        exact execs j (Nat.lt_of_succ_lt_succ less) ran

theorem loop_in_bounds : (∀ w ∈ (loop system params pieces).writes, w.InBounds) ↔
    ∀ k < pieces.length, Reaches system params.length pieces k → params.length + separators pieces (k + 1) < MAX := by
  induction pieces generalizing system params with
  | nil => simp [loop]
  | cons piece pieces ih =>
    have count : (Child.fill params piece.bytes).params.length = params.length + piece.bytes.countP separates :=
      length_params
    by_cases forked : system.forks 0 = true
    · by_cases done : system.execs 0 = true ∧ (Child.fill params piece.bytes).params.length < maxarg
      · rw [loop, if_pos forked, if_pos done]
        dsimp only
        rw [child_in_bounds]
        constructor
        · intro room k less reaches
          cases k with
          | zero =>
            rw [separators_one]
            exact room
          | succ k =>
            have full := reaches.2 0 (Nat.succ_pos k) done.1
            rw [separators_one, ← count] at full
            exact absurd done.2 (Nat.not_lt.mpr full)
        · intro all
          rw [← separators_one]
          exact all 0 (Nat.succ_pos _) (reaches_zero forked)
      · have goes : system.execs 0 = true → maxarg ≤ params.length + piece.bytes.countP separates := by
          intro ran
          rw [← count]
          exact Nat.le_of_not_lt fun few => done ⟨ran, few⟩
        rw [loop, if_pos forked, if_neg done]
        dsimp only
        rw [List.forall_mem_append, child_in_bounds, ih, count]
        constructor
        · rintro ⟨room, rest⟩ k less reaches
          cases k with
          | zero =>
            rw [separators_one]
            exact room
          | succ k =>
            have more := rest k (Nat.lt_of_succ_lt_succ less) ((reaches_succ forked goes).mp reaches)
            rwa [separators_succ, ← Nat.add_assoc]
        · intro all
          refine ⟨?_, fun k less reaches => ?_⟩
          · rw [← separators_one]
            exact all 0 (Nat.succ_pos _) (reaches_zero forked)
          · have more := all (k + 1) (Nat.succ_lt_succ less) ((reaches_succ forked goes).mpr reaches)
            rwa [separators_succ, ← Nat.add_assoc] at more
    · rw [loop, if_neg forked]
      refine ⟨fun _ k less reaches => ?_, fun _ w mem => absurd mem List.not_mem_nil⟩
      exact absurd (reaches.1 0 (Nat.zero_le k)) forked

/-- `main` stays in its arrays as long as every child has room for the fixed arguments, one parameter for each
separator up to the end of its piece, and the 0. -/
theorem main_in_bounds_iff (few : argv.length < maxarg) : (∀ w ∈ (main system argv pieces).writes, w.InBounds) ↔
    ∀ n < pieces.length, Reaches system argv.tail.length pieces n →
      argv.tail.length + separators pieces (n + 1) < MAX := by
  unfold main
  dsimp only
  rw [List.forall_mem_append, loop_in_bounds]
  refine and_iff_right fun w mem => ?_
  obtain ⟨k, inside, rfl⟩ := List.mem_map.mp mem
  have less := List.mem_range.mp inside
  rw [List.length_tail] at less
  change k < 100
  unfold maxarg at few
  omega

def blanks : Piece := ⟨List.replicate 99 blank, by decide, by decide⟩

/-- `xargs echo` with a piece of 99 blanks. -/
theorem main_in_bounds_iff_blanks : ¬∀ w ∈ (main ⟨fun _ => true, fun _ => true⟩ [[120], [101]] [blanks]).writes,
    w.InBounds := by
  rw [main_in_bounds_iff (by decide)]
  intro all
  have room := all 0 (by decide) (reaches_zero rfl)
  revert room
  decide +kernel

/-- The 0 after 100 parameters is written to `params[100]`. -/
theorem main_overflows : Write.params 100 ∈ (main ⟨fun _ => true, fun _ => true⟩ [[120], [101]] [blanks]).writes ∧
    ¬(Write.params 100).InBounds := by
  refine ⟨?_, Nat.lt_irrefl 100⟩
  decide +kernel

end Xv6Labs.Xargs
