import Xv6Labs.Lib.Numerals
import Xv6Labs.Vm.Alloc

/-!
# `vmprint`

`printf.c` as far as the console sees it, and `vmprint`. Its output is one line for each valid entry, and what a
table maps can be recovered from the lines. A recursion that runs out of `fuel` has no result.
-/

namespace Xv6Labs.Vm

open Numerals

/-! ### `printf.c` -/

/-- `int xx` -/
def int32 (x : ℕ) : ℤ := if x % 2 ^ 32 < 2 ^ 31 then (x % 2 ^ 32 : ℕ) else (x % 2 ^ 32 : ℕ) - 2 ^ 32

def printint (xx : ℤ) (base : ℕ) (sign : Bool) : List Char :=
  if sign ∧ xx < 0 then (digits base ((-xx) % 2 ^ 32).toNat ++ ['-']).reverse
  else (digits base (xx % 2 ^ 32).toNat).reverse

def printptr (x : ℕ) : List Char := '0' :: 'x' :: hexFrom 16 x

inductive Arg where
  | word (x : ℕ)
  | string (s : Option (List Char))

def Arg.toWord : Arg → ℕ
  | .word x => x
  | .string _ => 0

def Arg.toString : Arg → List Char
  | .string (some s) => s
  | _ => "(null)".toList

/-- One conversion, and whether it took an argument. -/
def convert (c : Char) (arg : Arg) : List Char × Bool :=
  if c = 'd' then (printint (int32 arg.toWord) 10 true, true)
  else if c = 'x' then (printint (int32 arg.toWord) 16 true, true)
  else if c = 'p' then (printptr arg.toWord, true)
  else if c = 's' then (arg.toString, true)
  else if c = '%' then (['%'], false)
  else (['%', c], false)

def printf : List Char → List Arg → List Char
  | [], _ => []
  | [c], _ => if c = '%' then [] else [c]
  | c :: d :: fmt, args =>
    if c = '%' then
      let (text, took) := convert d (args.headD (.word 0))
      text ++ printf fmt (if took then args.tail else args)
    else
      c :: printf (d :: fmt) args

/-! ### `vm.c` -/

def interior (pte : ℕ) : Prop := pte &&& pteV ≠ 0 ∧ pte &&& (pteR ||| pteW ||| pteX) = 0

instance (pte : ℕ) : Decidable (interior pte) := inferInstanceAs (Decidable (_ ∧ _))

def entryFormat : List Char := "%d: pte %p pa %p\n".toList

def marks (deepth : ℕ) : List Char := if deepth = 1 then "||".toList else if deepth = 2 then "|| ||".toList else []

/-- The body of the loop; `below` prints a table one level down. -/
def printEntry (below : ℕ → Option (List Char)) (deepth : ℕ) (i : Fin 512) (pte : ℕ) : Option (List Char) :=
  if interior pte then do
    let child := pte2pa pte
    let rest ← below child
    return marks deepth ++ printf entryFormat [.word i, .word pte, .word child] ++ rest
  else if pte &&& pteV ≠ 0 then
    some ("|| || ||".toList ++ printf entryFormat [.word i, .word pte, .word (pte2pa pte)])
  else
    some []

/-- The loop over the entries from `i` on. -/
def printEach (entry : Fin 512 → Option (List Char)) : List (Fin 512) → Option (List Char)
  | [] => some []
  | i :: is => do
    let text ← entry i
    let rest ← printEach entry is
    return text ++ rest

def vmprintf (m : Memory) : ℕ → ℕ → ℕ → Option (List Char)
  | 0, _, _ => none
  | fuel + 1, pgtbl, deepth =>
    printEach (fun i => printEntry (fun child => vmprintf m fuel child (deepth + 1)) deepth i (m.page pgtbl i))
      (List.finRange 512)

def vmprint (m : Memory) (fuel pgtbl : ℕ) : Option (List Char) := do
  let text ← vmprintf m fuel pgtbl 1
  return printf "page table %p\n".toList [.word pgtbl] ++ text

/-! ### Lines -/

/-- The table under `root` has leaves at the last level only, and its entries are words. -/
structure Leaves (m : Memory) (root : ℕ) : Prop where
  address : root < 2 ^ 64
  inner : ∀ p n i, p.length < 2 → m.node root p = some n → m.page n i &&& pteV ≠ 0 → m.page n i &&& leafBits = 0
  leaf : ∀ p n i, p.length = 2 → m.node root p = some n → m.page n i &&& pteV ≠ 0 → m.page n i &&& leafBits ≠ 0
  word : ∀ p n i, p.length ≤ 2 → m.node root p = some n → m.page n i < 2 ^ 64

structure Line where
  level : ℕ
  index : Fin 512
  pte : ℕ

/-- Three marks at level 0, one at level 2. -/
def Line.marks (l : Line) : List Char :=
  match l.level with
  | 0 => "|| || ||".toList
  | 1 => "|| ||".toList
  | _ => "||".toList

def decimal (n : ℕ) : List Char := (digits 10 n).reverse

def Line.body (l : Line) : List Char :=
  l.marks ++ (decimal l.index ++ (": pte 0x".toList ++
    (hexFrom 16 l.pte ++ (" pa 0x".toList ++ hexFrom 16 (pte2pa l.pte)))))

def Line.text (l : Line) : List Char := l.body ++ ['\n']

/-! ### What the output says -/

def splitLines : List Char → List (List Char)
  | [] => []
  | c :: cs => if c = '\n' then [] :: splitLines cs else (c :: (splitLines cs).headD []) :: (splitLines cs).tail

def parseLine (cs : List Char) : Line where
  level := 3 - cs.count '|' / 2
  index := Fin.ofNat 512 (read 10 ((cs.dropWhile fun c => c = '|' ∨ c = ' ').takeWhile (· ≠ ':')))
  pte := read 16 (((cs.dropWhile (· ≠ 'x')).drop 1).take 16)

/-- The leaf at the indices `x`, `y` and `z`; `a` and `b` are those of the tables that the lines are about. -/
def findLeaf (x y z : Fin 512) : Fin 512 → Fin 512 → List Line → Option ℕ
  | _, _, [] => none
  | a, b, l :: ls =>
    match l.level with
    | 0 => if x = a ∧ y = b ∧ z = l.index then some l.pte else findLeaf x y z a b ls
    | 1 => findLeaf x y z a l.index ls
    | _ => findLeaf x y z l.index b ls

/-- The frame and the flags of the page at `va`, from the output of `vmprint` after its first line. -/
def recover (out : List Char) (va : ℕ) : Option (ℕ × ℕ) :=
  (findLeaf (px 2 va) (px 1 va) (px 0 va) 0 0 ((splitLines out).tail.map parseLine)).map fun pte =>
    (pte2pa pte, pteFlags pte)

/-- The frame and the flags of the page at `va`. -/
def mapped (m : Memory) (root va : ℕ) : Option (ℕ × ℕ) :=
  if m.pte root va &&& pteV ≠ 0 then some (pte2pa (m.pte root va), pteFlags (m.pte root va)) else none

/-- The valid entries of a table and of those under it, in depth-first order. -/
def lines (m : Memory) : ℕ → ℕ → List Line
  | 0, n => (List.finRange 512).flatMap fun i => if m.page n i &&& pteV ≠ 0 then [⟨0, i, m.page n i⟩] else []
  | level + 1, n => (List.finRange 512).flatMap fun i =>
    if m.page n i &&& pteV ≠ 0 then ⟨level + 1, i, m.page n i⟩ :: lines m level (pte2pa (m.page n i)) else []

variable {m : Memory} {root n level fuel : ℕ} {l l' : Line} {rest rest' : List Char} {i a b c : Fin 512}

theorem printf_entry {x : ℕ} : printf entryFormat [.word i, .word x, .word (pte2pa x)] =
    decimal i ++ (": pte 0x".toList ++ (hexFrom 16 x ++ (" pa 0x".toList ++ hexFrom 16 (pte2pa x)))) ++ ['\n'] := by
  have small : (int32 i.val : ℤ) = i.val := by
    have less : i.val % 2 ^ 32 = i.val := Nat.mod_eq_of_lt (i.isLt.trans (by decide))
    rw [int32, less, if_pos (i.isLt.trans (by decide))]
  have index : printint (int32 i.val) 10 true = decimal i := by
    have plain : ((i.val : ℤ) % 2 ^ 32).toNat = i.val := by
      have less := i.isLt
      omega
    rw [printint, small, if_neg (by omega), plain]
    rfl
  have expand : printf entryFormat [.word i, .word x, .word (pte2pa x)] = printint (int32 i.val) 10 true ++
      (": pte ".toList ++ (printptr x ++ (" pa ".toList ++ (printptr (pte2pa x) ++ ['\n'])))) := rfl
  rw [expand, index]
  simp [printptr]

/-! ### The lines that are printed -/

theorem printEach_eq {entry : Fin 512 → Option (List Char)} {f : Fin 512 → List Char} (each : ∀ i, entry i = some (f i))
    (is : List (Fin 512)) : printEach entry is = some (is.flatMap f) := by
  induction is with
  | nil => rfl
  | cons i is ih =>
    rw [printEach, each, ih]
    rfl

theorem node_snoc {p : List (Fin 512)} (there : m.node root p = some n) (valid : m.page n i &&& pteV ≠ 0) :
    m.node root (p ++ [i]) = some (pte2pa (m.page n i)) := by
  unfold Memory.node at *
  rw [Radix.node_snoc, there]
  exact if_pos valid

theorem vmprintf_eq (leaves : Leaves m root) {p : List (Fin 512)} (there : m.node root p = some n)
    (depth : p.length + level = 2)
    (enough : level < fuel) : vmprintf m fuel n (p.length + 1) = some ((lines m level n).flatMap Line.text) := by
  induction level generalizing p n fuel with
  | zero =>
    obtain ⟨fuel, rfl⟩ : ∃ k, fuel = k + 1 := ⟨fuel - 1, by omega⟩
    have each (i : Fin 512) :
      printEntry (fun child => vmprintf m fuel child (p.length + 1 + 1)) (p.length + 1) i (m.page n i) =
        some ((if m.page n i &&& pteV ≠ 0 then [(⟨0, i, m.page n i⟩ : Line)] else []).flatMap Line.text) := by
      unfold printEntry
      by_cases valid : m.page n i &&& pteV ≠ 0
      · have leaf := leaves.leaf p n i depth there valid
        rw [if_neg fun inner => leaf inner.2, if_pos valid, if_pos valid, printf_entry, List.flatMap_singleton]
        simp only [Line.text, Line.body, Line.marks, List.append_assoc]
      · rw [if_neg fun inner => valid inner.1, if_neg valid, if_neg valid]
        rfl
    rw [vmprintf, printEach_eq each, lines, List.flatMap_assoc]
  | succ level ih =>
    obtain ⟨fuel, rfl⟩ : ∃ k, fuel = k + 1 := ⟨fuel - 1, by omega⟩
    have each (i : Fin 512) :
      printEntry (fun child => vmprintf m fuel child (p.length + 1 + 1)) (p.length + 1) i (m.page n i) =
        some ((if m.page n i &&& pteV ≠ 0 then
          (⟨level + 1, i, m.page n i⟩ : Line) :: lines m level (pte2pa (m.page n i)) else []).flatMap Line.text) := by
      unfold printEntry
      by_cases valid : m.page n i &&& pteV ≠ 0
      · have inner := leaves.inner p n i (by omega) there valid
        have below := ih (p := p ++ [i]) (node_snoc there valid)
          (by rw [List.length_append, List.length_singleton]; omega)
          (Nat.lt_of_succ_lt_succ enough)
        rw [List.length_append, List.length_singleton] at below
        have same : marks (p.length + 1) = Line.marks ⟨level + 1, i, m.page n i⟩ := by
          obtain rfl | rfl : level = 0 ∨ level = 1 := by omega
          · have one : p.length = 1 := by omega
            rw [one]
            rfl
          · have zero : p.length = 0 := by omega
            rw [zero]
            rfl
        rw [if_pos ⟨valid, inner⟩, if_pos valid]
        dsimp only
        rw [below, printf_entry, same, List.flatMap_cons]
        simp [Line.text, Line.body]
      · rw [if_neg fun inner => valid inner.1, if_neg valid, if_neg valid]
        rfl
    rw [vmprintf, printEach_eq each, lines, List.flatMap_assoc]

/-! ### Reading the lines back -/

theorem splitLines_append {cs : List Char} (whole : '\n' ∉ cs) :
    splitLines (cs ++ '\n' :: rest) = cs :: splitLines rest := by
  induction cs with
  | nil => rfl
  | cons c cs ih =>
    rw [List.mem_cons, not_or] at whole
    rw [List.cons_append, splitLines, if_neg (Ne.symm whole.1), ih whole.2]
    rfl

theorem digit_ne {d : ℕ} (small : d < 16) {c : Char} (other : c ∉ digitChars) : digit d ≠ c := by
  rintro rfl
  have inside : digit d ∈ digitChars := by
    have all : ∀ d < 16, digit d ∈ digitChars := by decide +kernel
    exact all d small
  exact other inside

theorem notMem_decimal {k : ℕ} {c : Char} (other : c ∉ digitChars) : c ∉ decimal k := by
  intro mem
  obtain ⟨d, small, rfl⟩ := digits_subset (by decide) (by decide) c (List.mem_reverse.mp mem)
  exact digit_ne (small.trans (by decide)) other rfl

theorem notMem_hexFrom {k x : ℕ} {c : Char} (word : x < 2 ^ 64) (other : c ∉ digitChars) : c ∉ hexFrom k x := by
  induction k generalizing x with
  | zero => exact List.not_mem_nil
  | succ k ih =>
    rw [hexFrom, List.mem_cons, not_or]
    refine ⟨fun same => digit_ne ?_ other same.symm, ih (Nat.mod_lt _ (by positivity))⟩
    rw [Nat.shiftRight_eq_div_pow]
    exact Nat.div_lt_of_lt_mul (by omega)

theorem decimal_ne_nil {k : ℕ} : decimal k ≠ [] := by
  rw [decimal, digits_eq (by decide)]
  simp

theorem read_decimal {k : ℕ} : read 10 (decimal k) = k := read_digits (by decide) (by decide)

theorem pte2pa_word (x : ℕ) : pte2pa x < 2 ^ 64 := Nat.mod_lt _ (by positivity)

theorem whole_body (word : l.pte < 2 ^ 64) : '\n' ∉ l.body := by
  have marks : '\n' ∉ l.marks := by
    unfold Line.marks
    split <;> decide
  have other : '\n' ∉ digitChars := by decide
  simp only [Line.body, List.mem_append, not_or]
  exact ⟨marks, notMem_decimal other, by decide, notMem_hexFrom word other, by decide,
    notMem_hexFrom (pte2pa_word _) other⟩

theorem count_marks (level : l.level ≤ 2) : l.marks.count '|' = 2 * (3 - l.level) := by
  obtain ⟨level', i, x⟩ := l
  obtain rfl | rfl | rfl : level' = 0 ∨ level' = 1 ∨ level' = 2 := by
    dsimp only at level
    omega
  all_goals rfl

theorem mem_marks {c : Char} (mem : c ∈ l.marks) : c = '|' ∨ c = ' ' := by
  unfold Line.marks at mem
  split at mem
  all_goals
    simp at mem
    tauto

theorem parse_level (level : l.level ≤ 2) (word : l.pte < 2 ^ 64) : 3 - l.body.count '|' / 2 = l.level := by
  have other : '|' ∉ digitChars := by decide
  have count : l.body.count '|' = 2 * (3 - l.level) := by
    simp only [Line.body, List.count_append, count_marks level, List.count_eq_zero_of_not_mem (notMem_decimal other),
      List.count_eq_zero_of_not_mem (notMem_hexFrom word other),
      List.count_eq_zero_of_not_mem (notMem_hexFrom (pte2pa_word _) other)]
    have first : ": pte 0x".toList.count '|' = 0 := by decide
    have second : " pa 0x".toList.count '|' = 0 := by decide
    rw [first, second]
    omega
  omega

theorem parse_index : ((l.body.dropWhile fun c => c = '|' ∨ c = ' ').takeWhile (· ≠ ':')) = decimal l.index := by
  obtain ⟨c, cs, split⟩ : ∃ c cs, decimal l.index = c :: cs := List.exists_cons_of_ne_nil decimal_ne_nil
  have start : ¬(decide (c = '|' ∨ c = ' ') = true) := by
    have bar : '|' ∉ decimal l.index := notMem_decimal (by decide)
    have blank : ' ' ∉ decimal l.index := notMem_decimal (by decide)
    rw [split, List.mem_cons, not_or] at bar blank
    rw [decide_eq_true_iff]
    rintro (same | same)
    · exact bar.1 same.symm
    · exact blank.1 same.symm
  have colon : ':' ∉ decimal l.index := notMem_decimal (by decide)
  rw [Line.body, List.dropWhile_append_of_pos fun c mem => decide_eq_true (mem_marks mem), split, List.cons_append,
    List.dropWhile_cons_of_neg (p := fun c => decide (c = '|' ∨ c = ' ')) start, ← List.cons_append, ← split,
    List.takeWhile_append_of_pos]
  · exact List.append_nil _
  · intro c mem
    exact decide_eq_true fun same => colon (same ▸ mem)

theorem parse_pte : ((l.body.dropWhile (· ≠ 'x')).drop 1).take 16 = hexFrom 16 l.pte := by
  have mark : 'x' ∉ l.marks := fun mem => absurd (mem_marks mem) (by decide)
  have index : 'x' ∉ decimal l.index := notMem_decimal (by decide)
  have skip (cs : List Char) (free : 'x' ∉ cs) : ∀ c ∈ cs, decide (c ≠ 'x') = true :=
    fun c mem => decide_eq_true fun same => free (same ▸ mem)
  have between : ": pte 0x".toList = ": pte 0".toList ++ ['x'] := rfl
  rw [Line.body, List.dropWhile_append_of_pos (skip _ mark), List.dropWhile_append_of_pos (skip _ index), between,
    List.append_assoc,
    List.dropWhile_append_of_pos (skip _ (by decide)), List.singleton_append, List.dropWhile_cons_of_neg (by decide),
    List.drop_one, List.tail_cons]
  exact List.take_left' length_hexFrom

theorem parseLine_body (level : l.level ≤ 2) (word : l.pte < 2 ^ 64) : parseLine l.body = l := by
  have index : Fin.ofNat 512 (read 10 (decimal l.index)) = l.index := by
    rw [read_decimal]
    exact Fin.ext (Nat.mod_eq_of_lt l.index.isLt)
  unfold parseLine
  rw [parse_level level word, parse_index, parse_pte, index, read_hexFrom word]

/-- The lines are read back from what they print. -/
theorem parse_lines {ls : List Line} (levels : ∀ l ∈ ls, l.level ≤ 2) (words : ∀ l ∈ ls, l.pte < 2 ^ 64) :
    (splitLines (ls.flatMap Line.text)).map parseLine = ls := by
  induction ls with
  | nil => rfl
  | cons l ls ih =>
    obtain ⟨level, levels⟩ := List.forall_mem_cons.mp levels
    obtain ⟨word, words⟩ := List.forall_mem_cons.mp words
    rw [List.flatMap_cons, Line.text, List.append_assoc, List.singleton_append, splitLines_append (whole_body word),
      List.map_cons, parseLine_body level word, ih levels words]

/-- The entries of the tables at one level and below. -/
theorem mem_lines (leaves : Leaves m root) {p : List (Fin 512)} (there : m.node root p = some n)
    (depth : p.length + level = 2) :
    ∀ l ∈ lines m level n, l.level ≤ level ∧ l.pte < 2 ^ 64 := by
  induction level generalizing p n with
  | zero =>
    intro l mem
    obtain ⟨i, -, mem⟩ := List.mem_flatMap.mp mem
    by_cases valid : m.page n i &&& pteV ≠ 0
    · rw [if_pos valid] at mem
      rw [List.mem_singleton.mp mem]
      exact ⟨le_rfl, leaves.word p n i (by omega) there⟩
    · rw [if_neg valid] at mem
      exact absurd mem List.not_mem_nil
  | succ level ih =>
    intro l mem
    obtain ⟨i, -, mem⟩ := List.mem_flatMap.mp mem
    by_cases valid : m.page n i &&& pteV ≠ 0
    · rw [if_pos valid] at mem
      rcases List.mem_cons.mp mem with rfl | mem
      · exact ⟨le_rfl, leaves.word p n i (by omega) there⟩
      · obtain ⟨low, word⟩ := ih (p := p ++ [i]) (node_snoc there valid) (by
          rw [List.length_append, List.length_singleton]
          omega) l mem
        exact ⟨low.trans (Nat.le_succ level), word⟩
    · rw [if_neg valid] at mem
      exact absurd mem List.not_mem_nil

/-! ### The table from its lines -/

variable {x y z : Fin 512} {ls ls' : List Line} {is : List (Fin 512)}

/-- The tables that the lines after `ls` are about. -/
def tables (a b : Fin 512) : List Line → Fin 512 × Fin 512
  | [] => (a, b)
  | l :: ls =>
    match l.level with
    | 0 => tables a b ls
    | 1 => tables a l.index ls
    | _ => tables l.index b ls

theorem findLeaf_one {w : ℕ} : findLeaf x y z a b (⟨1, i, w⟩ :: ls) = findLeaf x y z a i ls := rfl

theorem findLeaf_two {w : ℕ} : findLeaf x y z a b (⟨2, i, w⟩ :: ls) = findLeaf x y z i b ls := rfl

theorem tables_one {w : ℕ} : tables a b (⟨1, i, w⟩ :: ls) = tables a i ls := rfl

theorem findLeaf_append : findLeaf x y z a b (ls ++ ls') =
    (findLeaf x y z a b ls).or (findLeaf x y z (tables a b ls).1 (tables a b ls).2 ls') := by
  induction ls generalizing a b with
  | nil => rfl
  | cons l ls ih =>
    obtain ⟨level, i, w⟩ := l
    rcases level with _ | _ | level
    · by_cases here : x = a ∧ y = b ∧ z = i
      · simp [findLeaf, here]
      · simp [findLeaf, tables, here, ih]
    · exact ih
    · exact ih

theorem findLeaf_last :
    findLeaf x y z a b (is.flatMap fun i => if m.page n i &&& pteV ≠ 0 then [⟨0, i, m.page n i⟩] else []) =
      (if x = a ∧ y = b ∧ z ∈ is ∧ m.page n z &&& pteV ≠ 0 then some (m.page n z) else none) ∧
    tables a b (is.flatMap fun i => if m.page n i &&& pteV ≠ 0 then [⟨0, i, m.page n i⟩] else []) = (a, b) := by
  induction is with
  | nil => simp [findLeaf, tables]
  | cons i is ih =>
    rw [List.flatMap_cons]
    by_cases valid : m.page n i &&& pteV ≠ 0
    · rw [if_pos valid, List.singleton_append]
      refine ⟨?_, ih.2⟩
      unfold findLeaf
      dsimp only
      by_cases here : x = a ∧ y = b ∧ z = i
      · obtain ⟨rfl, rfl, rfl⟩ := here
        simp [valid]
      · rw [if_neg here, ih.1]
        refine if_congr ?_ rfl rfl
        rw [List.mem_cons]
        tauto
    · rw [if_neg valid, List.nil_append]
      refine ⟨?_, ih.2⟩
      rw [ih.1]
      refine if_congr ?_ rfl rfl
      rw [List.mem_cons]
      constructor
      · exact fun ⟨first, second, mem, leaf⟩ => ⟨first, second, .inr mem, leaf⟩
      · rintro ⟨first, second, rfl | mem, leaf⟩
        · exact absurd leaf valid
        · exact ⟨first, second, mem, leaf⟩

theorem tables_append : tables a b (ls ++ ls') = tables (tables a b ls).1 (tables a b ls).2 ls' := by
  induction ls generalizing a b with
  | nil => rfl
  | cons l ls ih =>
    obtain ⟨level, i, w⟩ := l
    rcases level with _ | _ | level
    all_goals exact ih

def someValid (pte : ℕ) : Option ℕ := if pte &&& pteV ≠ 0 then some pte else none

/-- What the lines of the tables from `n` on say about the last indices. -/
def under (m : Memory) (n : ℕ) (y z : Fin 512) : Option ℕ :=
  if m.page n y &&& pteV ≠ 0 then someValid (m.page (pte2pa (m.page n y)) z) else none

theorem findLeaf_lines_zero :
    findLeaf x y z a b (lines m 0 n) = (if x = a ∧ y = b then someValid (m.page n z) else none) ∧
    tables a b (lines m 0 n) = (a, b) := by
  rw [lines]
  obtain ⟨found, stays⟩ := @findLeaf_last m n a b x y z (List.finRange 512)
  refine ⟨?_, stays⟩
  rw [found]
  by_cases here : x = a ∧ y = b
  · simp [here, someValid]
  · rw [if_neg here, if_neg fun all => here ⟨all.1, all.2.1⟩]

theorem some_or_same {c : Prop} [Decidable c] {o : Option ℕ} : o.or (if c then o else none) = o := by
  cases o <;> split <;> rfl

theorem findLeaf_middle : findLeaf x y z a b (is.flatMap fun i =>
        if m.page n i &&& pteV ≠ 0 then ⟨1, i, m.page n i⟩ :: lines m 0 (pte2pa (m.page n i)) else []) =
      (if x = a ∧ y ∈ is then under m n y z else none) ∧
    (tables a b (is.flatMap fun i =>
      if m.page n i &&& pteV ≠ 0 then ⟨1, i, m.page n i⟩ :: lines m 0 (pte2pa (m.page n i)) else [])).1 = a := by
  induction is generalizing b with
  | nil => simp [findLeaf, tables]
  | cons i is ih =>
    rw [List.flatMap_cons]
    by_cases valid : m.page n i &&& pteV ≠ 0
    · rw [if_pos valid, List.cons_append]
      obtain ⟨inside, stays⟩ := @findLeaf_lines_zero m (pte2pa (m.page n i)) a i x y z
      constructor
      · rw [findLeaf_one, findLeaf_append, inside, stays, ih.1]
        by_cases same : y = i
        · subst same
          have entry : under m n y z = someValid (m.page (pte2pa (m.page n y)) z) := if_pos valid
          by_cases first : x = a
          · rw [if_pos (c := x = a ∧ y = y) ⟨first, rfl⟩,
              if_pos (c := x = a ∧ y ∈ y :: is) ⟨first, List.mem_cons_self ..⟩, entry, some_or_same]
          · rw [if_neg fun h => first h.1, if_neg fun h => first h.1, if_neg fun h => first h.1]
            rfl
        · rw [if_neg fun h => same h.2, Option.none_or]
          refine if_congr ?_ rfl rfl
          rw [List.mem_cons, or_iff_right same]
      · rw [tables_one, tables_append, stays]
        exact ih.2
    · rw [if_neg valid, List.nil_append, ih.1]
      refine ⟨?_, ih.2⟩
      by_cases same : y = i
      · have none : under m n y z = none := if_neg (same ▸ valid)
        rw [none, ite_self, ite_self]
      · refine if_congr ?_ rfl rfl
        rw [List.mem_cons, or_iff_right same]

/-- What the lines of a whole table say. -/
def leafUnder (m : Memory) (root : ℕ) (x y z : Fin 512) : Option ℕ :=
  if m.page root x &&& pteV ≠ 0 then under m (pte2pa (m.page root x)) y z else none

theorem findLeaf_root : findLeaf x y z a b (is.flatMap fun i =>
    if m.page n i &&& pteV ≠ 0 then ⟨2, i, m.page n i⟩ :: lines m 1 (pte2pa (m.page n i)) else []) =
      if x ∈ is then leafUnder m n x y z else none := by
  induction is generalizing a b with
  | nil => rfl
  | cons i is ih =>
    rw [List.flatMap_cons]
    by_cases valid : m.page n i &&& pteV ≠ 0
    · rw [if_pos valid, List.cons_append]
      rw [findLeaf_two, findLeaf_append, lines, findLeaf_middle.1, ih]
      by_cases same : x = i
      · subst same
        have entry : leafUnder m n x y z = under m (pte2pa (m.page n x)) y z := if_pos valid
        rw [if_pos (c := x = x ∧ y ∈ List.finRange 512) ⟨rfl, List.mem_finRange y⟩,
          if_pos (c := x ∈ x :: is) (List.mem_cons_self ..), entry, some_or_same]
      · rw [if_neg fun h => same h.1, Option.none_or]
        refine if_congr ?_ rfl rfl
        rw [List.mem_cons, or_iff_right same]
    · rw [if_neg valid, List.nil_append, ih]
      by_cases same : x = i
      · have none : leafUnder m n x y z = none := if_neg (same ▸ valid)
        rw [none, ite_self, ite_self]
      · refine if_congr ?_ rfl rfl
        rw [List.mem_cons, or_iff_right same]

/-- The lines say what is mapped. -/
theorem map_leafUnder {va : ℕ} :
    (leafUnder m root (px 2 va) (px 1 va) (px 0 va)).map (fun pte => (pte2pa pte, pteFlags pte)) =
      mapped m root va := by
  have zero : ¬((0 : ℕ) &&& pteV ≠ 0) := by decide
  unfold leafUnder under someValid mapped Memory.pte Radix.look Radix.node child
  by_cases first : m.page root (px 2 va) &&& pteV ≠ 0
  · rw [if_pos first, if_pos first, Option.bind_some, Radix.node]
    by_cases second : m.page (pte2pa (m.page root (px 2 va))) (px 1 va) &&& pteV ≠ 0
    · rw [if_pos second, if_pos second, Option.bind_some, Radix.node]
      dsimp only
      split <;> rfl
    · rw [if_neg second, if_neg second, Option.bind_none]
      exact (if_neg zero).symm
  · rw [if_neg first, if_neg first, Option.bind_none]
    exact (if_neg zero).symm

/-- `vmprint` prints the lines of a table, and what the table maps can be recovered from them. -/
theorem vmprint_recovers (leaves : Leaves m root) (fuel : ℕ) (enough : 2 < fuel) :
    vmprint m fuel root = some ("page table ".toList ++ printptr root ++ ['\n'] ++ (lines m 2 root).flatMap Line.text) ∧
    ∀ out, vmprint m fuel root = some out → recover out = mapped m root := by
  have there : m.node root [] = some root := rfl
  have printed : vmprint m fuel root = some ("page table ".toList ++ printptr root ++ ['\n'] ++
      (lines m 2 root).flatMap Line.text) := by
    have text : vmprintf m fuel root 1 = some ((lines m 2 root).flatMap Line.text) :=
      vmprintf_eq leaves there rfl enough
    rw [vmprint, text]
    have header : printf "page table %p\n".toList [.word root] = "page table ".toList ++ (printptr root ++ ['\n']) :=
      rfl
    rw [header, ← List.append_assoc]
    rfl
  refine ⟨printed, fun out same => ?_⟩
  rw [printed] at same
  obtain rfl := Option.some.inj same
  have header : '\n' ∉ "page table ".toList ++ printptr root := by
    have hex : '\n' ∉ hexFrom 16 root := notMem_hexFrom leaves.address (by decide)
    rw [List.mem_append, not_or, printptr, List.mem_cons, List.mem_cons, not_or, not_or]
    exact ⟨by decide, by decide, by decide, hex⟩
  funext va
  have depth : ([] : List (Fin 512)).length + 2 = 2 := rfl
  have levels := mem_lines leaves there depth
  rw [recover, List.append_assoc, List.singleton_append, splitLines_append header, List.tail_cons,
    parse_lines (fun l mem => (levels l mem).1) fun l mem => (levels l mem).2, lines, findLeaf_root,
    if_pos (List.mem_finRange _)]
  exact map_leafUnder

/-- A table at 0x1000 that maps page 0 to 0x4000. -/
def onePage (n : ℕ) (i : Fin 512) : ℕ :=
  if i = 0 then
    if n = 0x1000 then pa2pte 0x2000 ||| pteV
    else if n = 0x2000 then pa2pte 0x3000 ||| pteV
    else if n = 0x3000 then pa2pte 0x4000 ||| pteV ||| pteR
    else 0
  else 0

theorem leaves_onePage (image : Image) : Leaves ⟨image, onePage, [], fun _ => false⟩ 0x1000 := by
  set m : Memory := ⟨image, onePage, [], fun _ => false⟩ with memory
  have zero (n : ℕ) (i : Fin 512) (other : i ≠ 0) : ¬(onePage n i &&& pteV ≠ 0) := by
    rw [onePage, if_neg other]
    decide
  have first (i : Fin 512) (n : ℕ) (there : m.node 0x1000 [i] = some n) : n = 0x2000 := by
    have step : m.node 0x1000 [i] = (child (onePage 0x1000 i)).bind some := rfl
    rw [step, Option.bind_fun_some] at there
    by_cases start : i = 0
    · subst start
      exact (Option.some.inj (there.symm.trans (by decide : child (onePage 0x1000 0) = some 0x2000)))
    · rw [child, if_neg (zero _ i start)] at there
      cases there
  have second (i j : Fin 512) (n : ℕ) (there : m.node 0x1000 [i, j] = some n) : n = 0x3000 := by
    have step : m.node 0x1000 [i, j] = (m.node 0x1000 [i]).bind fun k => child (onePage k j) :=
      Radix.node_snoc (p := [i])
    rw [step] at there
    obtain ⟨k, found, there⟩ := Option.bind_eq_some_iff.mp there
    rw [first i k found] at there
    by_cases start : j = 0
    · subst start
      exact (Option.some.inj (there.symm.trans (by decide : child (onePage 0x2000 0) = some 0x3000)))
    · rw [child, if_neg (zero _ j start)] at there
      cases there
  have small (n : ℕ) (i : Fin 512) : onePage n i < 2 ^ 64 := by
    unfold onePage
    split_ifs <;> decide
  refine ⟨by decide, fun p n i short there valid => ?_, fun p n i long there valid => ?_, fun p n i _ _ => small n i⟩
  · change onePage n i &&& leafBits = 0
    have start : i = 0 := by
      by_contra other
      exact zero n i other valid
    subst start
    rcases p with _ | ⟨i, _ | ⟨j, p⟩⟩
    · obtain rfl := Option.some.inj there
      decide
    · obtain rfl := first i n there
      decide
    · simp only [List.length_cons] at short
      omega
  · change onePage n i &&& leafBits ≠ 0
    have start : i = 0 := by
      by_contra other
      exact zero n i other valid
    subst start
    rcases p with _ | ⟨i, _ | ⟨j, _ | ⟨k, p⟩⟩⟩
    · cases long
    · cases long
    · obtain rfl := second i j n there
      decide
    · cases long

/-- The page and its flags, from the output. -/
theorem vmprint_recovers_one : ∃ out, vmprint ⟨blankMemory.image, onePage, [], fun _ => false⟩ 3 0x1000 = some out ∧
    recover out 0 = some (0x4000, 3) ∧ recover out 0x1000 = none := by
  obtain ⟨printed, recovers⟩ := vmprint_recovers (leaves_onePage blankMemory.image) 3 (by decide)
  refine ⟨_, printed, ?_, ?_⟩
  · rw [recovers _ printed]
    decide +kernel
  · rw [recovers _ printed]
    decide +kernel

end Xv6Labs.Vm
