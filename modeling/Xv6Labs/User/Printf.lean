import Xv6Labs.Lib.Numerals

/-!
# `user/printf.c`

`ap k` is the 8-byte slot that the argument number `k` is fetched from, and `text` the string that a pointer points
to. `vprintf` is a sequence of rounds of its loop, each of which writes a piece of the output.
-/

namespace Xv6Labs.Printf

/-! ### Numbers -/

def digits : List Char := "0123456789ABCDEF".toList

/-- The size of `buf`. -/
def bufsize : ℕ := 16

/-- `do{ buf[i++] = digits[x % base]; }while((x /= base) != 0);` -/
def digitLoop (base : BitVec 32) : ℕ → BitVec 32 → List Char
  | 0, _ => []
  | fuel + 1, x => digits.getD (x % base).toNat '?' :: if x / base ≠ 0 then digitLoop base fuel (x / base) else []

/-- What `printint` stores in `buf`, from `buf[0]` on. -/
def stored (xx base : BitVec 32) (sgn : Bool) : List Char :=
  let neg := sgn && decide (xx.toInt < 0)
  digitLoop base 32 (if neg then -xx else xx) ++ if neg then ['-'] else []

def printint (xx base : BitVec 32) (sgn : Bool) : List Char := (stored xx base sgn).reverse

/-- `for (i = 0; i < (sizeof(uint64) * 2); i++, x <<= 4) putc(fd, digits[x >> (sizeof(uint64) * 8 - 4)]);` -/
def hexLoop : ℕ → BitVec 64 → List Char
  | 0, _ => []
  | n + 1, x => digits.getD (x >>> 60).toNat '?' :: hexLoop n (x <<< 4)

def printptr (x : BitVec 64) : List Char := '0' :: 'x' :: hexLoop 16 x

/-! ### `vprintf` -/

/-- `va_arg(ap, int)`; `va_arg(ap, uint64)`, passed on as an `int`, is cut to the same bits. -/
def int (slot : BitVec 64) : BitVec 32 := slot.setWidth 32

def string (text : BitVec 64 → List Char) (s : BitVec 64) : List Char := if s = 0 then "(null)".toList else text s

/-- The body of the loop after a `%`. -/
def convert (text : BitVec 64 → List Char) (slot : BitVec 64) (c : Char) : List Char :=
  if c = 'd' then printint (int slot) 10 true
  else if c = 'l' then printint (int slot) 10 false
  else if c = 'x' then printint (int slot) 16 false
  else if c = 'p' then printptr slot
  else if c = 's' then string text slot
  else if c = 'c' then [Char.ofNat (slot.toNat % 2 ^ 8)]
  else if c = '%' then [c]
  else ['%', c]

/-- How many bytes of `buf` it fills. -/
def used (slot : BitVec 64) (c : Char) : ℕ :=
  if c = 'd' then (stored (int slot) 10 true).length
  else if c = 'l' then (stored (int slot) 10 false).length
  else if c = 'x' then (stored (int slot) 16 false).length
  else 0

/-- The letters after which `va_arg` is called. -/
def fetching : List Char := ['d', 'l', 'x', 'p', 's', 'c']

/-- One round of the loop: `state == '%'`, the number of arguments fetched before, `fmt[i]`, what it writes, and what
it uses of `buf`. -/
structure Round where
  percent : Bool
  arg : ℕ
  c : Char
  out : List Char
  used : ℕ
deriving DecidableEq

def rounds (text : BitVec 64 → List Char) (ap : ℕ → BitVec 64) : Bool → ℕ → List Char → List Round
  | _, _, [] => []
  | false, k, c :: fmt =>
    if c = '%' then ⟨false, k, c, [], 0⟩ :: rounds text ap true k fmt
      else ⟨false, k, c, [c], 0⟩ :: rounds text ap false k fmt
  | true, k, c :: fmt =>
    ⟨true, k, c, convert text (ap k) c, used (ap k) c⟩ :: rounds text ap false (if c ∈ fetching then k + 1 else k) fmt

def vprintf (text : BitVec 64 → List Char) (fmt : List Char) (ap : ℕ → BitVec 64) : List Char :=
  (rounds text ap false 0 fmt).flatMap Round.out

/-! ### Reading back -/

/-- A nonempty text of digits of the base, as a number. -/
def parse (base : ℕ) (cs : List Char) : Option ℕ :=
  if cs ≠ [] ∧ ∀ c ∈ cs, Numerals.digitValue c.toLower < base then some (Numerals.read base (cs.map Char.toLower))
    else none

def parseSigned (base : ℕ) (cs : List Char) : Option ℤ :=
  if cs.head? = some '-' then (parse base cs.tail).map fun x : ℕ => -(x : ℤ)
    else (parse base cs).map fun x : ℕ => (x : ℤ)

structure Round.Faithful (ap : ℕ → BitVec 64) (r : Round) : Prop where
  plain : r.percent = false → r.c ≠ '%' → r.out = [r.c]
  d : r.percent = true → r.c = 'd' → parseSigned 10 r.out = some (int (ap r.arg)).toInt
  x : r.percent = true → r.c = 'x' → parse 16 r.out = some (int (ap r.arg)).toNat
  l : r.percent = true → r.c = 'l' → parse 10 r.out = some (ap r.arg).toNat
  p : r.percent = true → r.c = 'p' → r.out.take 2 = ['0', 'x'] ∧ parse 16 (r.out.drop 2) = some (ap r.arg).toNat
  room : r.used ≤ bufsize

/-- Every conversion of a number can be read back, and the rest of the format is copied. -/
def Faithful (text : BitVec 64 → List Char) (fmt : List Char) (ap : ℕ → BitVec 64) : Prop :=
  ∀ r ∈ rounds text ap false 0 fmt, r.Faithful ap

/-- The letters that follow a `%`, each with the number of arguments that those before it fetch. -/
def conversions : ℕ → List Char → List (Char × ℕ)
  | k, c :: d :: fmt => if c = '%' then (d, k) :: conversions (if d ∈ fetching then k + 1 else k) fmt
      else conversions k (d :: fmt)
  | _, _ => []

variable {text : BitVec 64 → List Char} {ap : ℕ → BitVec 64} {xx base : BitVec 32} {x slot : BitVec 64} {c : Char}
  {cs fmt : List Char} {d k n fuel : ℕ} {r : Round}

/-! ### Digits -/

theorem toLower_digit (small : d < 16) : (digits.getD d '?').toLower = Numerals.digit d := by
  have all : ∀ d < 16, (digits.getD d '?').toLower = Numerals.digit d := by decide +kernel
  exact all d small

theorem digitLoop_lower {x : BitVec 32} (large : 2 ≤ base.toNat) (small : base.toNat ≤ 16)
    (enough : x.toNat < 2 ^ fuel) (fueled : 0 < fuel) :
    (digitLoop base fuel x).map Char.toLower = Numerals.digits base.toNat x.toNat := by
  induction fuel generalizing x with
  | zero => exact absurd fueled (Nat.lt_irrefl 0)
  | succ fuel ih =>
    have low : x.toNat % base.toNat < 16 := (Nat.mod_lt _ (by omega)).trans_le small
    have ends : x / base = 0 ↔ x.toNat / base.toNat = 0 := by
      rw [← BitVec.toNat_inj, BitVec.toNat_udiv]
      rfl
    rw [digitLoop, List.map_cons, BitVec.toNat_umod, toLower_digit low, Numerals.digits_eq large]
    congr 1
    by_cases last : x / base = 0
    · rw [if_neg (not_not.mpr last), if_pos (ends.mp last)]
      rfl
    · have half : x.toNat / base.toNat ≤ x.toNat / 2 := Nat.div_le_div_left large (by decide)
      have quotient : (x / base).toNat = x.toNat / base.toNat := BitVec.toNat_udiv
      have positive : x.toNat / base.toNat ≠ 0 := fun zero => last (ends.mpr zero)
      have more : 0 < fuel := by
        rw [Nat.pos_iff_ne_zero]
        rintro rfl
        omega
      rw [if_pos last, if_neg positive, ih ?_ more, quotient]
      rw [quotient, Nat.pow_succ] at *
      omega

theorem parse_of_lower (large : 2 ≤ n) (small : n ≤ 16)
    (lower : cs.reverse.map Char.toLower = (Numerals.digits n d).reverse) :
    parse n cs.reverse = some d := by
  have nonempty : cs.reverse ≠ [] := by
    intro empty
    rw [empty, Numerals.digits_eq large] at lower
    simp at lower
  have valid : ∀ c ∈ cs.reverse, Numerals.digitValue c.toLower < n := by
    intro c mem
    have lowered := List.mem_map_of_mem (f := Char.toLower) mem
    rw [lower, List.mem_reverse] at lowered
    obtain ⟨e, below, eq⟩ := Numerals.digits_subset large small _ lowered
    rw [eq, Numerals.digitValue_digit (below.trans_le small)]
    exact below
  rw [parse, if_pos ⟨nonempty, valid⟩, lower, Numerals.read_digits large small]

theorem parse_digitLoop {x : BitVec 32} (large : 2 ≤ base.toNat) (small : base.toNat ≤ 16) :
    parse base.toNat (digitLoop base 32 x).reverse = some x.toNat := by
  refine parse_of_lower large small ?_
  rw [List.map_reverse, digitLoop_lower large small x.isLt (by decide)]

theorem length_digitLoop_le {x : BitVec 32} (large : 10 ≤ base.toNat) (small : base.toNat ≤ 16) :
    (digitLoop base 32 x).length ≤ 10 := by
  have few : x.toNat < base.toNat ^ (9 + 1) :=
    x.isLt.trans_le ((by decide : 2 ^ 32 ≤ 10 ^ 10).trans (Nat.pow_le_pow_left large 10))
  rw [← List.length_map Char.toLower, digitLoop_lower (by omega) small x.isLt (by decide)]
  exact Numerals.length_digits_le (by omega) few

theorem hexLoop_lower : (hexLoop n x).map Char.toLower = Numerals.hexFrom n x.toNat := by
  induction n generalizing x with
  | zero => rfl
  | succ n ih =>
    have top : (x >>> 60).toNat = x.toNat >>> 60 := BitVec.toNat_ushiftRight x 60
    have high : x.toNat >>> 60 < 16 := by
      rw [Nat.shiftRight_eq_div_pow]
      exact Nat.div_lt_of_lt_mul x.isLt
    rw [hexLoop, List.map_cons, ih, top, toLower_digit high, BitVec.toNat_shiftLeft, Numerals.hexFrom]

/-! ### Conversions -/

theorem used_le : used slot c ≤ bufsize := by
  have signed : (stored (int slot) 10 true).length ≤ 10 + 1 := by
    rw [stored, List.length_append]
    refine Nat.add_le_add (length_digitLoop_le (by decide) (by decide)) ?_
    split
    · exact le_rfl
    · exact Nat.zero_le _
  have unsigned : ∀ base : BitVec 32, 10 ≤ base.toNat → base.toNat ≤ 16 →
      (stored (int slot) base false).length ≤ 10 := by
    intro base large small
    rw [stored, List.length_append]
    exact length_digitLoop_le large small
  have dec := unsigned 10 (by decide) (by decide)
  have hex := unsigned 16 (by decide) (by decide)
  change used slot c ≤ 16
  unfold used
  split_ifs
  · exact signed.trans (by decide)
  · exact dec.trans (by decide)
  · exact hex.trans (by decide)
  · exact Nat.zero_le _

theorem head_of_parse {y : ℕ} (small : n ≤ 16) (parsed : parse n cs = some y) : cs.head? ≠ some '-' := by
  intro minus
  obtain ⟨rest, rfl⟩ := List.head?_eq_some_iff.mp minus
  rw [parse] at parsed
  split_ifs at parsed with valid
  have value : Numerals.digitValue '-'.toLower = 16 := by decide +kernel
  have below := valid.2 '-' List.mem_cons_self
  omega

theorem parse_unsigned (large : 2 ≤ base.toNat) (small : base.toNat ≤ 16) :
    parse base.toNat (printint xx base false) = some xx.toNat := by
  have text : printint xx base false = (digitLoop base 32 xx).reverse := by
    rw [printint, stored]
    simp
  rw [text, parse_digitLoop large small]

theorem parse_signed (large : 2 ≤ base.toNat) (small : base.toNat ≤ 16) :
    parseSigned base.toNat (printint xx base true) = some xx.toInt := by
  by_cases negative : xx.toInt < 0
  · -- For the most negative `int` this is `x = -xx = xx` again, which is right for a `uint`.
    have text : printint xx base true = '-' :: (digitLoop base 32 (-xx)).reverse := by
      rw [printint, stored]
      simp [negative]
    have value : -((-xx).toNat : ℤ) = xx.toInt := by
      have := xx.isLt
      rw [BitVec.toInt_eq_toNat_cond] at negative ⊢
      rw [BitVec.toNat_neg]
      split_ifs at negative ⊢ <;> omega
    rw [text, parseSigned, List.head?_cons, if_pos rfl, List.tail_cons, parse_digitLoop large small,
      Option.map_some, value]
  · have text : printint xx base true = (digitLoop base 32 xx).reverse := by
      rw [printint, stored]
      simp [negative]
    have parsed : parse base.toNat (digitLoop base 32 xx).reverse = some xx.toNat := parse_digitLoop large small
    have value : (xx.toNat : ℤ) = xx.toInt := by
      have := xx.isLt
      rw [BitVec.toInt_eq_toNat_cond] at negative ⊢
      split_ifs at negative ⊢ <;> omega
    rw [text, parseSigned, if_neg (head_of_parse small parsed), parsed, Option.map_some, value]

theorem parse_printptr : parse 16 ((printptr x).drop 2) = some x.toNat := by
  have text : (printptr x).drop 2 = hexLoop 16 x := rfl
  have nonempty : hexLoop 16 x ≠ [] := by
    rw [hexLoop]
    exact List.cons_ne_nil _ _
  have valid : ∀ c ∈ hexLoop 16 x, Numerals.digitValue c.toLower < 16 := by
    intro c mem
    have lowered := List.mem_map_of_mem (f := Char.toLower) mem
    rw [hexLoop_lower] at lowered
    obtain ⟨e, below, eq⟩ := Numerals.hexFrom_subset x.isLt _ lowered
    rw [eq, Numerals.digitValue_digit below]
    exact below
  rw [text, parse, if_pos ⟨nonempty, valid⟩, hexLoop_lower, Numerals.read_hexFrom x.isLt]

/-! ### Rounds -/

theorem out_of_mem {b : Bool} (mem : r ∈ rounds text ap b k fmt) :
    r.used ≤ bufsize ∧ (r.percent = false → r.c ≠ '%' → r.out = [r.c]) ∧
      (r.percent = true → r.out = convert text (ap r.arg) r.c) := by
  induction fmt generalizing b k with
  | nil =>
    rw [rounds] at mem
    exact absurd mem List.not_mem_nil
  | cons c fmt ih =>
    cases b with
    | false =>
      rw [rounds] at mem
      by_cases percent : c = '%'
      · rw [if_pos percent] at mem
        rcases List.mem_cons.mp mem with rfl | mem
        · exact ⟨Nat.zero_le _, fun _ other => absurd percent other, fun true => Bool.noConfusion true⟩
        · exact ih mem
      · rw [if_neg percent] at mem
        rcases List.mem_cons.mp mem with rfl | mem
        · exact ⟨Nat.zero_le _, fun _ _ => rfl, fun true => Bool.noConfusion true⟩
        · exact ih mem
    | true =>
      rw [rounds] at mem
      rcases List.mem_cons.mp mem with rfl | mem
      · exact ⟨used_le, fun false => Bool.noConfusion false, fun _ => rfl⟩
      · exact ih mem

/-- The rounds after a `%` are the conversions of the format. -/
theorem exists_round_iff {j : ℕ} :
    (∃ r ∈ rounds text ap false k fmt, r.percent = true ∧ r.c = c ∧ r.arg = j) ↔ (c, j) ∈ conversions k fmt := by
  induction fmt using List.twoStepInduction generalizing k with
  | nil => simp [rounds, conversions]
  | singleton d => by_cases percent : d = '%' <;> simp [rounds, conversions, percent]
  | cons_cons d e fmt ih ih' =>
    by_cases percent : d = '%'
    · rw [rounds, if_pos percent, rounds, conversions, if_pos percent, List.mem_cons, ← ih]
      simp only [List.mem_cons, exists_eq_or_imp, Bool.false_eq_true, false_and, false_or, true_and, Prod.mk.injEq]
      tauto
    · rw [rounds, if_neg percent, conversions, if_neg percent, ← ih']
      simp only [List.mem_cons, exists_eq_or_imp, Bool.false_eq_true, false_and, false_or]

theorem parse_long : parse 10 (convert text slot 'l') = some (slot.toNat % 2 ^ 32) := by
  have parsed : parse 10 (printint (int slot) 10 false) = some (int slot).toNat :=
    parse_unsigned (by decide) (by decide)
  rw [int, BitVec.toNat_setWidth] at parsed
  exact parsed

/-- `%l` takes a 64-bit argument and prints the lower half of it. -/
theorem vprintf_faithful_iff : Faithful text fmt ap ↔ ∀ k, ('l', k) ∈ conversions 0 fmt → (ap k).toNat < 2 ^ 32 := by
  constructor
  · intro faithful k mem
    obtain ⟨r, round, percent, letter, rfl⟩ := exists_round_iff.mpr mem
    have read := (faithful r round).l percent letter
    rw [(out_of_mem round).2.2 percent, letter, parse_long] at read
    rw [← Option.some_inj.mp read]
    exact Nat.mod_lt _ (by positivity)
  · intro small r round
    obtain ⟨room, plain, out⟩ := out_of_mem round
    refine ⟨plain, fun percent letter => ?_, fun percent letter => ?_, fun percent letter => ?_,
      fun percent letter => ?_, room⟩
    · rw [out percent, letter]
      exact parse_signed (by decide) (by decide)
    · rw [out percent, letter]
      exact parse_unsigned (by decide) (by decide)
    · have below := small r.arg (exists_round_iff.mp ⟨r, round, percent, letter, rfl⟩)
      rw [out percent, letter, parse_long, Nat.mod_eq_of_lt below]
    · rw [out percent, letter]
      exact ⟨rfl, parse_printptr⟩

/-- `printf("%l", 4294967296)` writes `0`. -/
theorem vprintf_long : ¬ Faithful (fun _ => []) ['%', 'l'] (fun _ => 0x100000000) ∧ vprintf (fun _ => []) ['%', 'l']
    (fun _ => 0x100000000) = ['0'] := by
  refine ⟨fun faithful => ?_, by decide +kernel⟩
  have read := (faithful ⟨true, 0, 'l', ['0'], 1⟩ (by decide +kernel)).l rfl rfl
  have lower : parse (10#32).toNat (printint 0 10 false) = some 0 := parse_unsigned (by decide) (by decide)
  exact absurd (Option.some_inj.mp (lower.symm.trans read)) (by decide)

end Xv6Labs.Printf
