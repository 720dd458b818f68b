import Xv6Labs.Grep.Match
import Xv6Labs.User.Ulib

/-!
# The lines of `grep`

The loops of `grep` over its buffer, and what they write. Pointers into `buf` are offsets.
-/

namespace Xv6Labs.Grep

open User

abbrev bufsize : ℕ := 1024

def newline : UInt8 := 10

/-- `while((q = strchr(p, '\n')) != 0){...}`; the memory, `p` and what was written. -/
def matchLines (pattern : List UInt8) : ℕ → Memory → ℕ → List (List UInt8) → Option (Memory × ℕ × List (List UInt8))
  | 0, _, _, _ => none
  | fuel + 1, mem, p, out => do
    match ← strchr mem newline fuel p with
    | none => return (mem, p, out)
    | some q =>
      let mem := Function.update mem q 0
      let text ← cstring mem fuel p
      if match_ pattern text then
        let mem := Function.update mem q newline
        matchLines pattern fuel mem (q + 1) (out ++ [bytes mem p (q + 1 - p)])
      else
        matchLines pattern fuel mem (q + 1) out

/-- The list has one entry for each `write`. -/
def grepLoop (pattern : List UInt8) : ℕ → Memory → ℕ → Input → List (List UInt8) → Option (List (List UInt8))
  | 0, _, _, _, _ => none
  | fuel + 1, mem, m, input, out =>
    let piece := input.piece (bufsize - m - 1)
    if piece = [] then some out
    else do
      let m := m + piece.length
      let (mem, p, out) ← matchLines pattern fuel (Function.update (store mem (m - piece.length) piece) m 0) 0 out
      if 0 < m then
        grepLoop pattern fuel (memmove mem 0 p (m - p)) (m - p) (input.next (bufsize - (m - piece.length) - 1)) out
      else
        grepLoop pattern fuel mem m (input.next (bufsize - (m - piece.length) - 1)) out

def grep (pattern : List UInt8) (fuel : ℕ) (mem : Memory) (input : Input) : Option (List (List UInt8)) :=
  grepLoop pattern fuel mem 0 input []

/-! ### Lines -/

/-- A line fits in the buffer, with its newline and the NUL. -/
structure Line where
  text : List UInt8
  nonzero : 0 ∉ text
  whole : newline ∉ text
  short : text.length ≤ bufsize - 2

def Line.written (l : Line) : List UInt8 := l.text ++ [newline]

def join (ls : List Line) : List UInt8 := (ls.map Line.written).flatten

variable {pattern pre rest tail content : List UInt8} {l : Line} {ls : List Line} {mem : Memory} {p fuel m : ℕ}
  {input : Input} {out : List (List UInt8)}

theorem join_cons : join (l :: ls) = l.text ++ (newline :: join ls) := by
  simp [join, Line.written]

theorem join_nonzero : 0 ∉ join ls := by
  induction ls with
  | nil => simp [join]
  | cons l ls ih =>
    rw [join_cons, List.mem_append, List.mem_cons]
    rintro (zero | zero | zero)
    · exact l.nonzero zero
    · exact absurd zero (by decide)
    · exact ih zero

/-- What comes before the first newline. -/
theorem prefix_of_whole (whole : newline ∉ pre) (split : pre ++ rest = l.text ++ (newline :: content)) :
    ∃ more, l.text = pre ++ more ∧ rest = more ++ (newline :: content) := by
  rcases List.append_eq_append_iff.mp split with ⟨more, first, second⟩ | ⟨more, first, second⟩
  · exact ⟨more, first, second⟩
  · cases more with
    | nil =>
      rw [List.append_nil] at first
      exact ⟨[], by rw [first, List.append_nil], second.symm⟩
    | cons c more =>
      rw [(List.cons.inj second).1, first] at whole
      exact absurd (List.mem_append_right _ (List.mem_cons_self ..)) whole

theorem length_of_whole (whole : newline ∉ pre) (split : pre ++ rest = join ls) : pre.length ≤ bufsize - 2 := by
  cases ls with
  | nil =>
    rw [(List.append_eq_nil_iff.mp split).1]
    exact Nat.zero_le _
  | cons l ls =>
    rw [join_cons] at split
    obtain ⟨more, first, -⟩ := prefix_of_whole whole split
    have short := l.short
    rw [first, List.length_append] at short
    omega

/-- The complete lines of a part of the input. -/
theorem complete_lines (split : content ++ rest = join ls) :
    ∃ ls₁ ls₂ tail, ls = ls₁ ++ ls₂ ∧ content = join ls₁ ++ tail ∧ newline ∉ tail ∧ tail ++ rest = join ls₂ := by
  induction ls generalizing content with
  | nil =>
    obtain ⟨rfl, rfl⟩ := List.append_eq_nil_iff.mp split
    exact ⟨[], [], [], rfl, rfl, by simp, rfl⟩
  | cons l ls ih =>
    by_cases whole : newline ∈ content
    · rw [join_cons] at split
      rcases List.append_eq_append_iff.mp split with ⟨more, first, second⟩ | ⟨more, first, second⟩
      · exact absurd (first ▸ List.mem_append_left _ whole) l.whole
      · cases more with
        | nil =>
          rw [List.append_nil] at first
          exact absurd (first ▸ whole) l.whole
        | cons c more =>
          obtain ⟨rfl, later⟩ := List.cons.inj second
          obtain ⟨ls₁, ls₂, tail, rfl, rfl, free, left⟩ := ih later.symm
          refine ⟨l :: ls₁, ls₂, tail, rfl, ?_, free, left⟩
          rw [first, join_cons, List.append_assoc, List.cons_append]
    · exact ⟨[], l :: ls, content, rfl, rfl, whole, split⟩

/-! ### The loops -/

theorem matchLines_eq (out : List (List UInt8)) (holds : Holds mem p (join ls ++ tail ++ [0])) (nonzero : 0 ∉ tail)
    (whole : newline ∉ tail) (enough : (join ls ++ tail).length + 1 < fuel) :
    ∃ mem', matchLines pattern fuel mem p out =
        some (mem', p + (join ls).length, out ++ (ls.filter fun l => match_ pattern l.text).map Line.written) ∧
      Holds mem' (p + (join ls).length) tail := by
  induction ls generalizing fuel mem p out with
  | nil =>
    rcases fuel with _ | fuel
    · exact absurd enough (Nat.not_lt_zero _)
    · refine ⟨mem, ?_, (holds_append.mp holds).1⟩
      rw [join, List.map_nil, List.flatten_nil, List.nil_append] at holds enough
      have absent : strchr mem newline fuel p = some none := strchr_absent holds nonzero whole (by omega)
      simp [matchLines, absent, join]
  | cons l ls ih =>
    rcases fuel with _ | fuel
    · exact absurd enough (Nat.not_lt_zero _)
    · rw [join_cons, List.append_assoc, List.append_assoc, List.cons_append] at holds
      have size : (join (l :: ls) ++ tail).length = l.text.length + 1 + (join ls ++ tail).length := by
        rw [join_cons]
        simp only [List.length_append, List.length_cons]
        omega
      have enough' : (join ls ++ tail).length + 1 < fuel := by omega
      obtain ⟨text, later⟩ := holds_append.mp holds
      obtain ⟨break_, later⟩ := holds_cons.mp later
      have found : strchr mem newline fuel p = some (some (p + l.text.length)) :=
        strchr_found (holds_append.mpr ⟨text, holds_cons.mpr ⟨break_, holds_nil⟩⟩) l.nonzero l.whole
          (by decide) (by omega)
      have string : cstring (Function.update mem (p + l.text.length) 0) fuel p = some l.text := by
        refine cstring_eq (holds_append.mpr ⟨text.update (.inr le_rfl),
          holds_cons.mpr ⟨Function.update_self .., holds_nil⟩⟩)
          l.nonzero (by omega)
      have line : bytes (Function.update (Function.update mem (p + l.text.length) 0) (p + l.text.length) newline) p
          (p + l.text.length + 1 - p) = l.written := by
        have there : Holds (Function.update (Function.update mem (p + l.text.length) 0) (p + l.text.length) newline)
          p l.written :=
          holds_append.mpr ⟨(text.update (.inr le_rfl)).update (.inr le_rfl),
            holds_cons.mpr ⟨Function.update_self .., holds_nil⟩⟩
        have count : p + l.text.length + 1 - p = l.written.length := by
          rw [Line.written, List.length_append, List.length_singleton]
          omega
        rw [count, there.bytes]
      have place : p + l.text.length + 1 + (join ls).length = p + (join (l :: ls)).length := by
        rw [join_cons, List.length_append, List.length_cons]
        omega
      rw [← List.append_assoc] at later
      by_cases matches_ : match_ pattern l.text = true
      · obtain ⟨mem', ran, left⟩ := ih (out ++ [l.written]) ((later.update (.inl (Nat.lt_succ_self _))).update
          (.inl (Nat.lt_succ_self _))) enough'
        refine ⟨mem', ?_, place ▸ left⟩
        rw [matchLines, found]
        simp only [Option.bind_eq_bind, Option.bind_some, string, matches_, if_true, line, List.filter_cons,
          List.map_cons]
        rw [ran, place, List.append_assoc, List.singleton_append]
      · obtain ⟨mem', ran, left⟩ := ih out (later.update (.inl (Nat.lt_succ_self _))) enough'
        refine ⟨mem', ?_, place ▸ left⟩
        rw [matchLines, found]
        simp only [Option.bind_eq_bind, Option.bind_some, string, matches_, List.filter_cons]
        rw [if_neg Bool.false_ne_true, ran, place]
        rfl

theorem grepLoop_eq (pre : List UInt8) (input : Input) (holds : Holds mem 0 pre) (whole : newline ∉ pre)
    (split : pre ++ input.rest = join ls) (enough : input.rest.length + bufsize + 1 < fuel) :
    grepLoop pattern fuel mem pre.length input out =
      some (out ++ (ls.filter fun l => match_ pattern l.text).map Line.written) := by
  induction fuel generalizing mem pre input out ls with
  | zero => exact absurd enough (Nat.not_lt_zero _)
  | succ fuel ih =>
    have short := length_of_whole whole split
    have big : bufsize = 1024 := rfl
    have room : 0 < bufsize - pre.length - 1 := by omega
    rw [grepLoop]
    by_cases ended : input.piece (bufsize - pre.length - 1) = []
    · -- The input is over, so nothing is left in the buffer.
      rw [if_pos ended]
      rw [Input.piece_eq_nil room] at ended
      rw [ended, List.append_nil] at split
      cases ls with
      | nil => simp
      | cons l ls =>
        rw [join_cons] at split
        rw [split] at whole
        exact absurd (List.mem_append_right _ (List.mem_cons_self ..)) whole
    · set piece := input.piece (bufsize - pre.length - 1) with read
      have size : piece.length ≤ bufsize - pre.length - 1 := Input.length_piece_le
      have whole' : piece ++ (input.next (bufsize - pre.length - 1)).rest = input.rest := Input.piece_append
      have some_ : 0 < piece.length := List.length_pos_iff.mpr ended
      rw [← whole', ← List.append_assoc] at split
      obtain ⟨ls₁, ls₂, tail, rfl, content, free, left⟩ := complete_lines split
      have nonzero : 0 ∉ tail := fun mem => join_nonzero (left ▸ List.mem_append_left _ mem)
      have length : pre.length + piece.length = (join ls₁ ++ tail).length := by rw [← content, List.length_append]
      have there : Holds (Function.update (store mem pre.length piece) (pre.length + piece.length) 0) 0
          (join ls₁ ++ tail ++ [0]) := by
        rw [← content, List.append_assoc]
        refine holds_append.mpr ⟨?_, holds_append.mpr ⟨?_, holds_cons.mpr ⟨?_, holds_nil⟩⟩⟩
        · refine Holds.update (holds.congr fun x low high => store_below (by omega)) (.inr (by omega))
        · rw [Nat.zero_add]
          exact holds_store.update (.inr le_rfl)
        · rw [Nat.zero_add]
          exact Function.update_self ..
      have rest : (join ls₁ ++ tail).length + 1 < fuel := by omega
      obtain ⟨mem', ran, kept⟩ := matchLines_eq out there nonzero free rest
      have moved : Holds (memmove mem' 0 (0 + (join ls₁).length) tail.length) 0 tail := by
        intro k inside
        rw [memmove_apply, if_pos ⟨Nat.zero_le _, by omega⟩]
        have same := kept k inside
        rw [← same]
        congr 1
        omega
      have shift : pre.length + piece.length - (0 + (join ls₁).length) = tail.length := by
        rw [length, List.length_append]
        omega
      have less : (input.next (bufsize - pre.length - 1)).rest.length + piece.length = input.rest.length := by
        rw [← whole', List.length_append, Nat.add_comm]
      rw [if_neg ended]
      simp only [Nat.add_sub_cancel, Option.bind_eq_bind]
      rw [ran, Option.bind_some, if_pos (by omega), shift, ih tail _ moved free left (by omega), List.filter_append,
        List.map_append, List.append_assoc]

/-- Whatever pieces the input comes in, the lines that match are written, in order. -/
theorem grep_lines (pattern : List UInt8) (ls : List Line) (size : ℕ → ℕ) (mem : Memory) :
    ∃ N, ∀ fuel, N ≤ fuel → grep pattern fuel mem ⟨join ls, size⟩ =
      some ((ls.filter fun l => match_ pattern l.text).map Line.written) := by
  refine ⟨(join ls).length + bufsize + 2, fun fuel enough => ?_⟩
  exact grepLoop_eq [] ⟨join ls, size⟩ holds_nil (by simp) rfl (by
    change (join ls).length + bufsize + 1 < fuel
    omega)

end Xv6Labs.Grep
