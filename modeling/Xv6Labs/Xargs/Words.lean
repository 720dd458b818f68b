import Xv6Labs.Xargs.Bounds

/-!
# The words that `xargs` passes

A parent does not read on after its child, and a child drops the word that its piece ends in.
-/

namespace Xv6Labs.Xargs

structure Word where
  bytes : List UInt8
  nonempty : bytes ≠ []
  plain : ∀ b ∈ bytes, separates b = false ∧ b ≠ 0

inductive Separator where
  | blank
  | newline

def Separator.byte : Separator → UInt8
  | .blank => Xargs.blank
  | .newline => Xargs.newline

/-- An input whose last word may be without a separator. -/
structure Text where
  ended : List (Word × Separator)
  last : Option Word

def Text.words (text : Text) : List Word := text.ended.map Prod.fst ++ text.last.toList

def Text.bytes (text : Text) : List UInt8 :=
  text.ended.flatMap (fun x => x.1.bytes ++ [x.2.byte]) ++ text.last.toList.flatMap Word.bytes

/-- After the fixed arguments, the invocations have the words. -/
def Run.Passes (run : Run) (fixed words : List (List UInt8)) : Prop :=
  (∀ args ∈ run.invocations, fixed <+: args) ∧ run.invocations.flatMap (fun args => args.drop fixed.length) = words

def Piece.Ends (piece : Piece) : Prop := ∃ line c, piece.bytes = line ++ [c] ∧ separates c = true

/-- The child of piece number `n` is replaced. -/
def Executes (system : System) (fixed : ℕ) (pieces : List Piece) (n : ℕ) : Prop :=
  Reaches system fixed pieces n ∧ system.execs n = true ∧ fixed + separators pieces (n + 1) < maxarg

variable {params argv : List (List UInt8)} {line : List UInt8} {c : Child} {system : System} {pieces : List Piece}
  {piece : Piece} {n fixed : ℕ} {text : Text}

/-- The parameters after the children of the pieces. -/
def after (params : List (List UInt8)) : List Piece → List (List UInt8)
  | [] => params
  | piece :: pieces => after (Child.fill params piece.bytes).params pieces

theorem executes_succ (forked : system.forks 0 = true)
    (goes : system.execs 0 = true → maxarg ≤ fixed + piece.bytes.countP separates) :
    Executes system fixed (piece :: pieces) (n + 1) ↔
      Executes system.next (fixed + piece.bytes.countP separates) pieces n := by
  unfold Executes
  rw [reaches_succ forked goes, separators_succ, ← Nat.add_assoc]
  exact Iff.rfl

theorem invocations_of_executes (inside : n < pieces.length) (executes : Executes system params.length pieces n) :
    (loop system params pieces).invocations = [(after params (pieces.take (n + 1))).map string] := by
  induction pieces generalizing system params n with
  | nil => exact absurd inside (Nat.not_lt_zero n)
  | cons piece pieces ih =>
    have forked : system.forks 0 = true := executes.1.1 0 (Nat.zero_le n)
    have count : (Child.fill params piece.bytes).params.length = params.length + piece.bytes.countP separates :=
      length_params
    cases n with
    | zero =>
      have few := executes.2.2
      rw [separators_one, ← count] at few
      rw [loop, if_pos forked, if_pos ⟨executes.2.1, few⟩]
      rfl
    | succ n =>
      have goes : system.execs 0 = true → maxarg ≤ params.length + piece.bytes.countP separates := by
        intro ran
        have full := executes.1.2 0 (Nat.succ_pos n) ran
        rwa [separators_one] at full
      have stays : ¬(system.execs 0 = true ∧ (Child.fill params piece.bytes).params.length < maxarg) := by
        rintro ⟨ran, few⟩
        have full := goes ran
        omega
      rw [loop, if_pos forked, if_neg stays]
      refine ih (Nat.lt_of_succ_lt_succ inside) ?_
      rw [count]
      exact (executes_succ forked goes).mp executes

theorem invocations_of_none (none : ∀ n < pieces.length, ¬Executes system params.length pieces n) :
    (loop system params pieces).invocations = [] := by
  induction pieces generalizing system params with
  | nil => rfl
  | cons piece pieces ih =>
    have count : (Child.fill params piece.bytes).params.length = params.length + piece.bytes.countP separates :=
      length_params
    by_cases forked : system.forks 0 = true
    · have stays : ¬(system.execs 0 = true ∧ (Child.fill params piece.bytes).params.length < maxarg) := by
        rintro ⟨ran, few⟩
        have room : params.length + separators (piece :: pieces) 1 < maxarg := by rwa [separators_one, ← count]
        exact none 0 (Nat.succ_pos _) ⟨reaches_zero forked, ran, room⟩
      have goes : system.execs 0 = true → maxarg ≤ params.length + piece.bytes.countP separates := by
        intro ran
        rw [← count]
        exact Nat.le_of_not_lt fun few => stays ⟨ran, few⟩
      rw [loop, if_pos forked, if_neg stays]
      refine ih fun n inside executes => none (n + 1) (Nat.succ_lt_succ inside) ?_
      rw [count] at executes
      exact (executes_succ forked goes).mpr executes
    · rw [loop, if_neg forked]

/-! ### What is dropped -/

/-- The bytes of strings with one separator each. -/
def weight (ws : List (List UInt8)) : ℕ := (ws.map fun w => w.length + 1).sum

theorem weight_append {ws ws' : List (List UInt8)} : weight (ws ++ ws') = weight ws + weight ws' := by
  simp [weight]

theorem weight_string (ws : List (List UInt8)) : weight (ws.map string) ≤ weight ws := by
  induction ws with
  | nil => exact le_rfl
  | cons w ws ih =>
    have less : (string w).length ≤ w.length := (List.takeWhile_prefix _).length_le
    simp only [weight, List.map_cons, List.sum_cons] at ih ⊢
    omega

theorem weight_fill : weight (line.foldl Child.put c).params + (line.foldl Child.put c).param.length =
    weight c.params + c.param.length + line.length := by
  induction line generalizing c with
  | nil => rfl
  | cons b line ih =>
    rw [List.foldl_cons, ih, List.length_cons]
    by_cases ends : separates b = true
    · rw [Child.put, if_pos ends]
      simp [weight]
      omega
    · rw [Child.put, if_neg ends, List.length_append, List.length_singleton]
      dsimp only
      omega

/-- The word at the end of a piece is lost, unless the piece ends in a separator. -/
theorem fill_ends : (Child.fill params piece.bytes).param = [] ↔ piece.Ends := by
  obtain ⟨line, c, split⟩ : ∃ line c, piece.bytes = line ++ [c] := by
    have some_ : piece.bytes ≠ [] := List.length_pos_iff.mp piece.nonempty
    exact ⟨_, _, (List.dropLast_append_getLast some_).symm⟩
  have last : (Child.fill params piece.bytes).param = [] ↔ separates c = true := by
    rw [Child.fill, split, List.foldl_append, List.foldl_cons, List.foldl_nil, Child.put]
    by_cases ends : separates c = true
    · simp [ends]
    · simp [ends]
  rw [last]
  constructor
  · exact fun ends => ⟨line, c, split, ends⟩
  · rintro ⟨line', c', split', ends⟩
    rw [split] at split'
    obtain ⟨-, same⟩ := List.append_inj' split' rfl
    rwa [(List.cons.inj same).1]

theorem fill_prefix : c.params <+: (line.foldl Child.put c).params := by
  induction line generalizing c with
  | nil => exact List.prefix_rfl
  | cons b line ih =>
    refine List.IsPrefix.trans ?_ (ih (c := c.put b))
    by_cases ends : separates b = true
    · rw [Child.put, if_pos ends]
      exact List.prefix_append ..
    · rw [Child.put, if_neg ends]

theorem after_prefix : params <+: after params pieces := by
  induction pieces generalizing params with
  | nil => exact List.prefix_rfl
  | cons piece pieces ih =>
    have first : params <+: (Child.fill params piece.bytes).params := fill_prefix (c := ⟨params, [], []⟩)
    exact first.trans ih

theorem weight_after (params : List (List UInt8)) (pieces : List Piece) :
    weight (after params pieces) ≤ weight params + (pieces.flatMap Piece.bytes).length ∧
    (weight params + (pieces.flatMap Piece.bytes).length ≤ weight (after params pieces) →
      ∀ piece ∈ pieces, piece.Ends) := by
  induction pieces generalizing params with
  | nil => exact ⟨le_rfl, fun _ piece mem => absurd mem List.not_mem_nil⟩
  | cons piece pieces ih =>
    have step : weight (Child.fill params piece.bytes).params + (Child.fill params piece.bytes).param.length =
      weight params + 0 + piece.bytes.length := weight_fill
    obtain ⟨most, all⟩ := ih (Child.fill params piece.bytes).params
    rw [List.flatMap_cons, List.length_append, after]
    refine ⟨by omega, fun least => List.forall_mem_cons.mpr ⟨?_, all (by omega)⟩⟩
    have kept : (Child.fill params piece.bytes).param = [] := List.length_eq_zero_iff.mp (by omega)
    exact fill_ends.mp kept

/-! ### What is passed -/

theorem put_congr {c' : Child} (params : c.params = c'.params) (param : c.param = c'.param) :
    (line.foldl Child.put c).params = (line.foldl Child.put c').params ∧
      (line.foldl Child.put c).param = (line.foldl Child.put c').param := by
  induction line generalizing c c' with
  | nil => exact ⟨params, param⟩
  | cons b line ih =>
    refine ih ?_ ?_
    all_goals
      unfold Child.put
      split
      all_goals simp [params, param]

/-- Pieces that end in separators are as good as one. -/
theorem after_ends (none : c.param = []) (ends : ∀ piece ∈ pieces, piece.Ends) :
    ((pieces.flatMap Piece.bytes).foldl Child.put c).params = after c.params pieces ∧
      ((pieces.flatMap Piece.bytes).foldl Child.put c).param = [] := by
  induction pieces generalizing c with
  | nil => exact ⟨rfl, none⟩
  | cons piece pieces ih =>
    obtain ⟨ends, rest⟩ := List.forall_mem_cons.mp ends
    have same : (piece.bytes.foldl Child.put c).params = (Child.fill c.params piece.bytes).params ∧
        (piece.bytes.foldl Child.put c).param = (Child.fill c.params piece.bytes).param := put_congr rfl none
    rw [List.flatMap_cons, List.foldl_append, after, ← same.1]
    exact ih (same.2.trans (fill_ends.mpr ends)) rest

theorem fold_plain (plain : ∀ b ∈ line, separates b = false) : (line.foldl Child.put c).params = c.params ∧
    (line.foldl Child.put c).param = c.param ++ line := by
  induction line generalizing c with
  | nil => exact ⟨rfl, (List.append_nil _).symm⟩
  | cons b line ih =>
    obtain ⟨first, rest⟩ := List.forall_mem_cons.mp plain
    have put : c.put b = ⟨c.params, c.param ++ [b], c.writes ++ [.param c.param.length]⟩ := by
      rw [Child.put, if_neg (by rw [first]; exact Bool.false_ne_true)]
    obtain ⟨params, param⟩ := @ih (c.put b) rest
    rw [List.foldl_cons, params, param, put, List.append_assoc]
    exact ⟨rfl, rfl⟩

theorem Word.separates (w : Word) : ∀ b ∈ w.bytes, Xargs.separates b = false := fun b mem => (w.plain b mem).1

theorem Separator.separates (s : Separator) : Xargs.separates s.byte = true := by
  cases s <;> rfl

theorem fill_ended (xs : List (Word × Separator)) (none : c.param = []) :
    ((xs.flatMap fun x => x.1.bytes ++ [x.2.byte]).foldl Child.put c).params = c.params ++ xs.map (fun x => x.1.bytes) ∧
      ((xs.flatMap fun x => x.1.bytes ++ [x.2.byte]).foldl Child.put c).param = [] := by
  induction xs generalizing c with
  | nil => exact ⟨(List.append_nil _).symm, none⟩
  | cons x xs ih =>
    obtain ⟨params, param⟩ := fold_plain (c := c) x.1.separates
    rw [List.flatMap_cons, List.foldl_append, List.foldl_append, List.foldl_cons, List.foldl_nil]
    have put : (x.1.bytes.foldl Child.put c).put x.2.byte = ⟨c.params ++ [x.1.bytes], [],
        (x.1.bytes.foldl Child.put c).writes ++ [.param x.1.bytes.length, .params c.params.length]⟩ := by
      rw [Child.put, if_pos x.2.separates, params, param, none, List.nil_append]
    obtain ⟨params', param'⟩ := @ih ((x.1.bytes.foldl Child.put c).put x.2.byte) (by rw [put])
    rw [params', param', put, List.map_cons, List.append_assoc]
    exact ⟨rfl, rfl⟩

theorem fill_text (params : List (List UInt8)) (text : Text) :
    (Child.fill params text.bytes).params = params ++ text.ended.map (fun x => x.1.bytes) ∧
    (Child.fill params text.bytes).param = text.last.toList.flatMap Word.bytes := by
  obtain ⟨first, none⟩ := fill_ended (c := ⟨params, [], []⟩) text.ended rfl
  have plain : ∀ b ∈ text.last.toList.flatMap Word.bytes, separates b = false := by
    intro b mem
    obtain ⟨w, -, mem⟩ := List.mem_flatMap.mp mem
    exact w.separates b mem
  obtain ⟨last, rest⟩ :=
    fold_plain (c := ((text.ended.flatMap fun x => x.1.bytes ++ [x.2.byte]).foldl Child.put ⟨params, [], []⟩)) plain
  rw [Child.fill, Text.bytes, List.foldl_append, last, rest, first, none]
  exact ⟨rfl, rfl⟩

theorem string_of_nonzero {bytes : List UInt8} (nonzero : 0 ∉ bytes) : string bytes = bytes := by
  refine List.takeWhile_eq_self_iff.mpr fun b mem => ?_
  exact decide_eq_true fun zero => nonzero (zero ▸ mem)

theorem Word.string (w : Word) : Xargs.string w.bytes = w.bytes :=
  string_of_nonzero fun mem => (w.plain 0 mem).2 rfl

theorem weight_words : text.bytes.length ≤ weight (text.words.map Word.bytes) := by
  have ended : (text.ended.flatMap fun x => x.1.bytes ++ [x.2.byte]).length =
      weight (text.ended.map fun x => x.1.bytes) := by
    induction text.ended with
    | nil => rfl
    | cons x xs ih =>
      rw [List.flatMap_cons, List.length_append, ih]
      simp [weight]
  rw [Text.bytes, Text.words, List.length_append, List.map_append, weight_append, ended, List.map_map]
  refine Nat.add_le_add le_rfl ?_
  cases text.last with
  | none => exact Nat.zero_le _
  | some w => simp [weight]

theorem words_of_empty (empty : text.bytes = []) : text.words = [] := by
  obtain ⟨ended, last⟩ := List.append_eq_nil_iff.mp empty
  have no_last : text.last = none := by
    cases word : text.last with
    | none => rfl
    | some w =>
      rw [word] at last
      exact absurd (List.append_eq_nil_iff.mp last).1 w.nonempty
  have no_ended : text.ended = [] := by
    cases words : text.ended with
    | nil => rfl
    | cons x xs =>
      rw [words] at ended
      exact absurd (List.append_eq_nil_iff.mp (List.append_eq_nil_iff.mp ended).1).1 x.1.nonempty
  rw [Text.words, no_last, no_ended]
  rfl

/-- The words are passed if the input is empty, or if it comes in pieces that end in separators, and the child of the
last one is the first that `exec` replaces. -/
theorem main_passes_iff (strings : ∀ arg ∈ argv, 0 ∉ arg) (input : pieces.flatMap Piece.bytes = text.bytes) :
    (main system argv pieces).Passes argv.tail (text.words.map Word.bytes) ↔
      pieces = [] ∨ (∀ piece ∈ pieces, piece.Ends) ∧ Executes system argv.tail.length pieces (pieces.length - 1) := by
  have fixed : argv.tail.map string = argv.tail :=
    List.map_congr_left (fun arg mem => string_of_nonzero (strings arg (List.mem_of_mem_tail mem))) |>.trans
      (List.map_id _)
  change ((∀ args ∈ (loop system argv.tail pieces).invocations, argv.tail <+: args) ∧
    (loop system argv.tail pieces).invocations.flatMap (fun args => args.drop argv.tail.length) =
      text.words.map Word.bytes) ↔ _
  constructor
  · rintro ⟨-, words⟩
    refine or_iff_not_imp_left.mpr fun some_ => ?_
    have least : (pieces.flatMap Piece.bytes).length ≤ weight (text.words.map Word.bytes) := by
      rw [input]
      exact weight_words
    by_cases replaced : ∃ n < pieces.length, Executes system argv.tail.length pieces n
    · obtain ⟨n, inside, executes⟩ := replaced
      obtain ⟨new, split⟩ : argv.tail <+: after argv.tail (pieces.take (n + 1)) := after_prefix
      rw [invocations_of_executes inside executes, ← split, List.map_append, fixed, List.flatMap_singleton,
        List.drop_left] at words
      obtain ⟨most, ends⟩ := weight_after argv.tail (pieces.take (n + 1))
      rw [← split, weight_append] at most ends
      rw [← words] at least
      have cut := weight_string new
      have parts : (pieces.flatMap Piece.bytes).length =
          ((pieces.take (n + 1)).flatMap Piece.bytes).length + ((pieces.drop (n + 1)).flatMap Piece.bytes).length := by
        rw [← List.length_append, ← List.flatMap_append, List.take_append_drop]
      have all : pieces.drop (n + 1) = [] := by
        cases rest : pieces.drop (n + 1) with
        | nil => rfl
        | cons piece rest' =>
          have positive := piece.nonempty
          rw [rest, List.flatMap_cons, List.length_append] at parts
          omega
      have last : pieces.length ≤ n + 1 := List.drop_eq_nil_iff.mp all
      have whole : pieces.take (n + 1) = pieces := List.take_of_length_le last
      rw [whole] at ends
      refine ⟨ends (by omega), ?_⟩
      have same : pieces.length - 1 = n := by omega
      rwa [same]
    · rw [invocations_of_none fun n inside executes => replaced ⟨n, inside, executes⟩] at words
      rw [← words] at least
      obtain ⟨piece, rest, rfl⟩ := List.exists_cons_of_ne_nil some_
      have positive := piece.nonempty
      rw [List.flatMap_cons, List.length_append] at least
      change _ ≤ 0 at least
      omega
  · intro condition
    by_cases none : pieces = []
    · rw [none] at input ⊢
      rw [words_of_empty input.symm]
      exact ⟨fun args mem => absurd mem List.not_mem_nil, rfl⟩
    · obtain ⟨ends, executes⟩ := condition.resolve_left none
      have inside : pieces.length - 1 < pieces.length := Nat.sub_lt (List.length_pos_iff.mpr none) Nat.one_pos
      obtain ⟨params, param⟩ := after_ends (c := ⟨argv.tail, [], []⟩) rfl ends
      rw [input] at params param
      obtain ⟨params', param'⟩ := fill_text argv.tail text
      have no_last : text.last.toList = [] := by
        cases word : text.last with
        | none => rfl
        | some w =>
          rw [Child.fill, param, word] at param'
          exact absurd (List.append_eq_nil_iff.mp param'.symm).1 w.nonempty
      have words : text.words.map Word.bytes = text.ended.map fun x => x.1.bytes := by
        rw [Text.words, no_last, List.append_nil, List.map_map]
        rfl
      have strings' : (text.ended.map fun x => x.1.bytes).map string = text.ended.map fun x => x.1.bytes := by
        rw [List.map_map]
        exact List.map_congr_left fun x _ => x.1.string
      have whole : pieces.take (pieces.length - 1 + 1) = pieces := List.take_of_length_le (by omega)
      rw [invocations_of_executes inside executes, whole, ← params]
      rw [Child.fill] at params'
      rw [params', List.map_append, fixed, strings', words]
      exact ⟨fun args mem => List.mem_singleton.mp mem ▸ List.prefix_append ..,
        by rw [List.flatMap_singleton, List.drop_left]⟩

def letterA : Word := ⟨[97], by decide, by decide +kernel⟩

def lineA : Piece := ⟨[97, 10], by decide, by decide⟩

theorem lineA_ends : lineA.Ends := ⟨[97], 10, rfl, rfl⟩

/-- `echo a | xargs e` -/
theorem main_passes_iff_one : (main ⟨fun _ => true, fun _ => true⟩ [[120], [101]] [lineA]).Passes [[101]] [[97]] := by
  have input : [lineA].flatMap Piece.bytes = Text.bytes ⟨[(letterA, .newline)], none⟩ := rfl
  refine (main_passes_iff (by decide) input).mpr (.inr ⟨fun piece mem => ?_, reaches_zero rfl, rfl, by decide⟩)
  rw [List.mem_singleton.mp mem]
  exact lineA_ends

/-- The parent exits after its first child: of two lines that come in two pieces, the second is not passed. -/
theorem main_loses_line : [lineA, lineA].flatMap Piece.bytes = Text.bytes
    ⟨[(letterA, .newline), (letterA, .newline)], none⟩ ∧
    ¬(main ⟨fun _ => true, fun _ => true⟩ [[120], [101]] [lineA, lineA]).Passes [[101]] [[97], [97]] :=
  ⟨rfl, fun passes => absurd passes.2 (by decide +kernel)⟩

end Xv6Labs.Xargs
