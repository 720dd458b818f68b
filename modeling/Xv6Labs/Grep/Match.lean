import Mathlib

/-!
# The matcher of `grep`

`match` of `grep.c`, and the language of its patterns. A string is the list of the bytes before its NUL.
-/

namespace Xv6Labs.Grep

def star : UInt8 := 42

def dollar : UInt8 := 36

def dot : UInt8 := 46

def caret : UInt8 := 94

/-! ### `grep.c` -/

mutual

def matchhere (re text : List UInt8) : Bool :=
  match re with
  | [] => true
  | c :: re =>
    if re.head? = some star then matchstar c re.tail text
    else if c = dollar ∧ re = [] then text.isEmpty
    else
      match text with
      | [] => false
      | t :: text => if c = dot ∨ c = t then matchhere re text else false
termination_by (re.length, text.length, 0)
decreasing_by all_goals simp [Prod.lex_def]; try omega

/-- `c*` and then `re`. -/
def matchstar (c : UInt8) (re text : List UInt8) : Bool :=
  if matchhere re text then true
  else
    match text with
    | [] => false
    | t :: text => if t = c ∨ c = dot then matchstar c re text else false
termination_by (re.length, text.length, 1)
decreasing_by all_goals simp [Prod.lex_def]

end

/-- The loop of `match`. -/
def matchFrom (re : List UInt8) : List UInt8 → Bool
  | [] => matchhere re []
  | t :: text => if matchhere re (t :: text) then true else matchFrom re text

def match_ (re text : List UInt8) : Bool :=
  match re with
  | [] => matchFrom [] text
  | c :: re => if c = caret then matchhere re text else matchFrom (c :: re) text

/-! ### Patterns -/

/-- The bytes that the pattern character `c` stands for. -/
def Accepts (c t : UInt8) : Prop := c = dot ∨ c = t

inductive Piece where
  | one (c : UInt8)
  | many (c : UInt8)

def letter (c : UInt8) : Language UInt8 := {v | ∃ t, Accepts c t ∧ v = [t]}

def Piece.language : Piece → Language UInt8
  | .one c => letter c
  | .many c => KStar.kstar (letter c)

structure Pattern where
  atStart : Bool
  pieces : List Piece
  atEnd : Bool

def Pattern.language (p : Pattern) : Language UInt8 := (p.pieces.map Piece.language).prod

/-- Some substring is in the language, at the anchors. -/
def Pattern.Matches (p : Pattern) (text : List UInt8) : Prop :=
  ∃ u v w, text = u ++ (v ++ w) ∧ v ∈ p.language ∧ (p.atStart = true → u = []) ∧ (p.atEnd = true → w = [])

/-- The pieces from left to right, and whether a final `$` anchors them. -/
def readPieces : List UInt8 → List Piece × Bool
  | [] => ([], false)
  | [c] => if c = dollar then ([], true) else ([.one c], false)
  | c :: d :: re =>
    if d = star then (.many c :: (readPieces re).1, (readPieces re).2)
    else (.one c :: (readPieces (d :: re)).1, (readPieces (d :: re)).2)

def Pattern.parse (re : List UInt8) : Pattern :=
  if re.head? = some caret then ⟨true, (readPieces re.tail).1, (readPieces re.tail).2⟩
    else ⟨false, (readPieces re).1, (readPieces re).2⟩

variable {c t : UInt8} {re text v : List UInt8}

theorem mem_many : v ∈ (Piece.many c).language ↔ ∀ t ∈ v, Accepts c t := by
  change v ∈ KStar.kstar (letter c) ↔ _
  rw [Language.mem_kstar]
  constructor
  · rintro ⟨L, rfl, letters⟩ t mem
    obtain ⟨y, inside, mem⟩ := List.mem_flatten.mp mem
    obtain ⟨s, accepts, rfl⟩ := letters y inside
    rw [List.mem_singleton.mp mem]
    exact accepts
  · intro all
    refine ⟨v.map fun t => [t], ?_, fun y inside => ?_⟩
    · exact (List.flatMap_singleton' v).symm
    · obtain ⟨t, mem, rfl⟩ := List.mem_map.mp inside
      exact ⟨t, all t mem, rfl⟩

/-! ### The matcher -/

theorem matchhere_cons : matchhere (c :: re) text =
    if re.head? = some star then matchstar c re.tail text
    else if c = dollar ∧ re = [] then text.isEmpty
    else
      match text with
      | [] => false
      | t :: text => if c = dot ∨ c = t then matchhere re text else false := by
  rw [matchhere.eq_def]

theorem matchstar_iff : matchstar c re text = true ↔
    ∃ u w, text = u ++ w ∧ (∀ t ∈ u, Accepts c t) ∧ matchhere re w = true := by
  induction text with
  | nil =>
    rw [matchstar]
    constructor
    · intro here
      refine ⟨[], [], rfl, by simp, ?_⟩
      by_contra no
      rw [if_neg no] at here
      exact Bool.false_ne_true here
    · rintro ⟨u, w, split, -, here⟩
      obtain ⟨rfl, rfl⟩ := List.append_eq_nil_iff.mp split.symm
      exact if_pos here
  | cons t text ih =>
    rw [matchstar]
    by_cases here : matchhere re (t :: text) = true
    · rw [if_pos here]
      exact ⟨fun _ => ⟨[], t :: text, rfl, by simp, here⟩, fun _ => rfl⟩
    · rw [if_neg here]
      have first : (t = c ∨ c = dot) ↔ Accepts c t :=
        ⟨fun h => h.symm.imp_right Eq.symm, fun h => h.symm.imp_left Eq.symm⟩
      by_cases accepts : t = c ∨ c = dot
      · simp only [if_pos accepts, ih]
        constructor
        · rintro ⟨u, w, rfl, all, rest⟩
          exact ⟨t :: u, w, rfl, List.forall_mem_cons.mpr ⟨first.mp accepts, all⟩, rest⟩
        · rintro ⟨u, w, split, all, rest⟩
          rcases u with _ | ⟨s, u⟩
          · rw [← List.nil_append w, ← split] at rest
            exact absurd rest here
          · obtain ⟨rfl, rfl⟩ := List.cons.inj split
            exact ⟨u, w, rfl, (List.forall_mem_cons.mp all).2, rest⟩
      · simp only [if_neg accepts]
        refine ⟨fun no => absurd no Bool.false_ne_true, ?_⟩
        rintro ⟨u, w, split, all, rest⟩
        rcases u with _ | ⟨s, u⟩
        · rw [← List.nil_append w, ← split] at rest
          exact absurd rest here
        · obtain ⟨rfl, rfl⟩ := List.cons.inj split
          exact absurd (first.mpr (all t (List.mem_cons_self ..))) accepts

/-- The part of `Pattern.Matches` that `matchhere` decides. -/
def Begins (ps : List Piece × Bool) (text : List UInt8) : Prop :=
  ∃ v w, text = v ++ w ∧ v ∈ (ps.1.map Piece.language).prod ∧ (ps.2 = true → w = [])

theorem begins_cons {p : Piece} {ps : List Piece} {ends : Bool} : Begins (p :: ps, ends) text ↔
    ∃ u w, text = u ++ w ∧ u ∈ p.language ∧ Begins (ps, ends) w := by
  unfold Begins
  simp only [List.map_cons, List.prod_cons, Language.mem_mul]
  constructor
  · rintro ⟨v, w, rfl, ⟨a, first, b, rest, rfl⟩, anchor⟩
    exact ⟨a, b ++ w, List.append_assoc .., first, b, w, rfl, rest, anchor⟩
  · rintro ⟨u, _, rfl, first, v, w, rfl, rest, anchor⟩
    exact ⟨u ++ v, w, (List.append_assoc ..).symm, ⟨u, first, v, rest, rfl⟩, anchor⟩

theorem begins_one {ps : List Piece} {ends : Bool} : Begins (.one c :: ps, ends) text ↔
    ∃ t rest, text = t :: rest ∧ Accepts c t ∧ Begins (ps, ends) rest := by
  rw [begins_cons]
  constructor
  · rintro ⟨_, w, rfl, ⟨t, accepts, rfl⟩, rest⟩
    exact ⟨t, w, rfl, accepts, rest⟩
  · rintro ⟨t, w, rfl, accepts, rest⟩
    exact ⟨[t], w, rfl, ⟨t, accepts, rfl⟩, rest⟩

theorem matchhere_one (plain : re.head? ≠ some star) (inner : ¬(c = dollar ∧ re = [])) :
    matchhere (c :: re) text = true ↔
    ∃ t rest, text = t :: rest ∧ Accepts c t ∧ matchhere re rest = true := by
  rw [matchhere_cons, if_neg plain, if_neg inner]
  cases text with
  | nil => simp
  | cons t text =>
    by_cases accepts : c = dot ∨ c = t
    · simp only [if_pos accepts]
      exact ⟨fun here => ⟨t, text, rfl, accepts, here⟩, fun ⟨_, _, same, _, here⟩ => by cases same; exact here⟩
    · simp only [if_neg accepts]
      exact ⟨fun no => absurd no Bool.false_ne_true,
        fun ⟨_, _, same, accepts', _⟩ => by cases same; exact absurd accepts' accepts⟩

theorem begins_nil : Begins ([], false) text := ⟨[], text, rfl, rfl, fun no => absurd no Bool.false_ne_true⟩

theorem begins_end : Begins ([], true) text ↔ text = [] := by
  constructor
  · rintro ⟨v, w, rfl, empty, anchor⟩
    rw [anchor rfl, (Language.mem_one v).mp empty]
    rfl
  · rintro rfl
    exact ⟨[], [], rfl, rfl, fun _ => rfl⟩

theorem matchhere_iff : matchhere re text = true ↔ Begins (readPieces re) text := by
  induction re using readPieces.induct generalizing text with
  | case1 => simp [matchhere, readPieces, begins_nil]
  | case2 =>
    rw [readPieces, if_pos rfl, begins_end, matchhere_cons, if_neg (by simp), if_pos ⟨rfl, rfl⟩, List.isEmpty_iff]
  | case3 c inner =>
    rw [readPieces, if_neg inner, begins_one, matchhere_one (by simp) fun h => inner h.1]
    simp only [matchhere, begins_nil]
  | case4 c re ih =>
    rw [readPieces, if_pos rfl, begins_cons, matchhere_cons, List.head?_cons, if_pos rfl]
    simp only [List.tail_cons, matchstar_iff, mem_many, ih]
  | case5 c d re plain ih =>
    rw [readPieces, if_neg plain, begins_one, matchhere_one (by simpa using plain) (by simp)]
    simp only [ih]

theorem matchFrom_iff : matchFrom re text = true ↔ ∃ u w, text = u ++ w ∧ matchhere re w = true := by
  induction text with
  | nil =>
    rw [matchFrom]
    constructor
    · exact fun here => ⟨[], [], rfl, here⟩
    · rintro ⟨u, w, split, here⟩
      obtain ⟨rfl, rfl⟩ := List.append_eq_nil_iff.mp split.symm
      exact here
  | cons t text ih =>
    rw [matchFrom]
    by_cases here : matchhere re (t :: text) = true
    · rw [if_pos here]
      exact ⟨fun _ => ⟨[], t :: text, rfl, here⟩, fun _ => rfl⟩
    · rw [if_neg here, ih]
      constructor
      · rintro ⟨u, w, rfl, rest⟩
        exact ⟨t :: u, w, rfl, rest⟩
      · rintro ⟨u, w, split, rest⟩
        rcases u with _ | ⟨s, u⟩
        · rw [← List.nil_append w, ← split] at rest
          exact absurd rest here
        · obtain ⟨-, rfl⟩ := List.cons.inj split
          exact ⟨u, w, rfl, rest⟩

/-- `match` finds the texts that have a substring in the language of the pattern. -/
theorem match_iff (re text : List UInt8) : match_ re text = true ↔ (Pattern.parse re).Matches text := by
  have anywhere : matchFrom re text = true ↔ Pattern.Matches ⟨false, (readPieces re).1, (readPieces re).2⟩ text := by
    rw [matchFrom_iff]
    constructor
    · rintro ⟨u, _, rfl, here⟩
      obtain ⟨v, w, rfl, language, anchor⟩ := matchhere_iff.mp here
      exact ⟨u, v, w, rfl, language, fun no => absurd no Bool.false_ne_true, anchor⟩
    · rintro ⟨u, v, w, rfl, language, -, anchor⟩
      exact ⟨u, v ++ w, rfl, matchhere_iff.mpr ⟨v, w, rfl, language, anchor⟩⟩
  cases re with
  | nil => exact anywhere
  | cons c re =>
    by_cases start : c = caret
    · have here : match_ (c :: re) text = matchhere re text := if_pos start
      have parsed : Pattern.parse (c :: re) = ⟨true, (readPieces re).1, (readPieces re).2⟩ :=
        if_pos (congrArg some start)
      rw [here, parsed, matchhere_iff]
      constructor
      · rintro ⟨v, w, rfl, language, anchor⟩
        exact ⟨[], v, w, rfl, language, fun _ => rfl, anchor⟩
      · rintro ⟨u, v, w, rfl, language, first, anchor⟩
        rw [first rfl]
        exact ⟨v, w, rfl, language, anchor⟩
    · have loop : match_ (c :: re) text = matchFrom (c :: re) text := if_neg start
      have parsed : Pattern.parse (c :: re) = ⟨false, (readPieces (c :: re)).1, (readPieces (c :: re)).2⟩ :=
        if_neg fun same => start (Option.some.inj same)
      rw [loop, parsed, anywhere]

end Xv6Labs.Grep
