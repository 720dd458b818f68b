import Xv6Labs.Sh.Grammar

/-!
# `gettoken` and `peek` see the maximal tokens

A position in the line stands for the tokens from there on: `peek` looks at the first of them, and `gettoken` takes it.
-/

namespace Xv6Labs.Sh

variable {text : List Char} {s e : ℕ} {c : Char} {ts : List Token} {p : Char → Bool} {toks : List Char}

/-! ### Loops over characters -/

theorem skip_stop (h : ∀ c, text[s]? = some c → p c = false) : skip text p s = s := by
  unfold skip
  cases found : text[s]? with
  | none =>
    rw [List.getElem?_eq_none_iff] at found
    simp [List.drop_eq_nil_of_le found]
  | some c =>
    obtain ⟨bound, rfl⟩ := List.getElem?_eq_some_iff.mp found
    rw [List.drop_eq_getElem_cons bound, List.takeWhile_cons, h _ found]
    simp

theorem skip_next (here : text[s]? = some c) (holds : p c = true) : skip text p s = skip text p (s + 1) := by
  unfold skip
  obtain ⟨bound, rfl⟩ := List.getElem?_eq_some_iff.mp here
  rw [List.drop_eq_getElem_cons bound, List.takeWhile_cons, holds]
  simp
  omega

theorem skip_run (le : s ≤ e) (run : ∀ i, s ≤ i → i < e → ∃ c, text[i]? = some c ∧ p c = true)
    (stop : ∀ c, text[e]? = some c → p c = false) : skip text p s = e := by
  induction h : e - s generalizing s with
  | zero =>
    have same : s = e := by omega
    rw [same]
    exact skip_stop stop
  | succ n ih =>
    obtain ⟨c, here, holds⟩ := run s le_rfl (by omega)
    rw [skip_next here holds]
    exact ih (by omega) (fun i after before => run i (by omega) before) (by omega)

@[simp] theorem isSpace_iff : isSpace c = true ↔ c ∈ whitespace := by simp [isSpace]

@[simp] theorem isLetter_iff : isLetter c = true ↔ Letter c := by simp [isLetter, Letter]

theorem not_space_of_symbol (h : c ∈ symbols) : isSpace c = false := by
  simp only [symbols, List.mem_cons, List.not_mem_nil, or_false] at h
  rcases h with rfl | rfl | rfl | rfl | rfl | rfl | rfl <;> rfl

theorem not_space_of_letter (h : Letter c) : isSpace c = false := by
  simpa [isSpace] using h.1

theorem deref_of_some (h : text[s]? = some c) : deref text s = c := by
  rw [deref, List.getD_eq_getElem?_getD, h]
  rfl

theorem deref_length : deref text text.length = '\x00' := by simp [deref]

theorem deref_eq_iff (h : c ≠ '\x00') : deref text s = c ↔ text[s]? = some c := by
  rw [deref, List.getD_eq_getElem?_getD]
  cases text[s]? with
  | none => simp [h.symm]
  | some d => simp

/-! ### The first token -/

/-- What stands at the first character that is not white space. -/
inductive Starts (text : List Char) : ℕ → List Token → Prop where
  | done : Starts text text.length []
  | symbol {s : ℕ} {c : Char} {ts : List Token} (here : text[s]? = some c) (listed : c ∈ symbols)
      (single : c = '>' → text[s + 1]? ≠ some '>') (rest : Tokens text (s + 1) ts) : Starts text s (.symbol c :: ts)
  | append {s : ℕ} {ts : List Token} (here : text[s]? = some '>') (again : text[s + 1]? = some '>')
      (rest : Tokens text (s + 2) ts) : Starts text s (.append :: ts)
  | word {s e : ℕ} {ts : List Token} (nonempty : s < e)
      (letters : ∀ i, s ≤ i → i < e → ∃ c, text[i]? = some c ∧ Letter c) (ends : ∀ c, text[e]? = some c → ¬Letter c)
      (rest : Tokens text e ts) : Starts text s (.word ⟨s, e⟩ :: ts)

theorem Tokens.starts (h : Tokens text s ts) : Starts text (skip text isSpace s) ts := by
  induction h with
  | done =>
    rw [skip_stop (by simp)]
    exact .done
  | blank here space _ ih =>
    rw [skip_next here (isSpace_iff.mpr space)]
    exact ih
  | symbol here listed single rest =>
    rw [skip_stop (by simpa [here] using not_space_of_symbol listed)]
    exact .symbol here listed single rest
  | append here again rest =>
    rw [skip_stop (by simpa [here] using not_space_of_symbol (c := '>') (by decide))]
    exact .append here again rest
  | word nonempty letters ends rest =>
    obtain ⟨c, here, letter⟩ := letters _ le_rfl nonempty
    rw [skip_stop (by simpa [here] using not_space_of_letter letter)]
    exact .word nonempty letters ends rest

theorem Starts.tokens (h : Starts text s ts) : Tokens text s ts := by
  cases h with
  | done => exact .done
  | symbol here listed single rest => exact .symbol here listed single rest
  | append here again rest => exact .append here again rest
  | word nonempty letters ends rest => exact .word nonempty letters ends rest

theorem Tokens.skip (h : Tokens text s ts) : Tokens text (skip text isSpace s) ts := h.starts.tokens

/-- The character that `peek` sees. -/
def Token.first : Token → Option Char
  | symbol c => some c
  | append => some '>'
  | word _ => none

/-- Whether the first token starts with one of the symbols `toks`. -/
def heads (toks : List Char) : List Token → Bool
  | [] => false
  | t :: _ => t.first.any toks.contains

theorem ne_nul (listed : c ∈ symbols) : c ≠ '\x00' := by
  rintro rfl
  exact absurd listed (by simp [symbols])

theorem peek_eq (toks : List Char) (h : Tokens text s ts) (sub : toks ⊆ symbols) :
    peek text s toks = (heads toks ts, skip text isSpace s) := by
  have starts := h.starts
  unfold peek
  generalize skip text isSpace s = q at starts
  cases starts with
  | done => simp [deref, heads]
  | symbol here listed single rest => simp [deref_of_some here, heads, Token.first, ne_nul listed]
  | append here again rest => simp [deref_of_some here, heads, Token.first]
  | word nonempty letters ends rest =>
    obtain ⟨c, here, letter⟩ := letters _ le_rfl nonempty
    have other : c ∉ toks := fun mem => letter.2 (sub mem)
    simp [deref_of_some here, heads, Token.first, other]

/-- What `gettoken` returns for a token. -/
def Token.ret : Token → Char
  | symbol c => c
  | append => '+'
  | word _ => 'a'

theorem gettoken_nil (h : Tokens text s []) : (gettoken text s).ret = '\x00' ∧ Tokens text (gettoken text s).s [] := by
  have starts := h.starts
  have here : Sh.skip text isSpace s = text.length := by
    generalize Sh.skip text isSpace s = q at starts
    cases starts
    rfl
  simp only [gettoken, here, deref_length, if_true]
  exact ⟨trivial, Tokens.done.skip⟩

theorem gettoken_cons {t : Token} (nonul : '\x00' ∉ text) (h : Tokens text s (t :: ts)) :
    (gettoken text s).ret = t.ret ∧ (∀ w, t = .word w → (gettoken text s).place = w) ∧
      Tokens text (gettoken text s).s ts := by
  have starts := h.starts
  unfold gettoken
  generalize Sh.skip text isSpace s = q at starts
  cases starts with
  | symbol here listed single rest =>
    rename_i c
    simp only [deref_of_some here, if_neg (ne_nul listed)]
    by_cases greater : c = '>'
    · subst greater
      have other : deref text (q + 1) ≠ '>' := fun same => single rfl ((deref_eq_iff (by decide)).mp same)
      simp [other, Token.ret, rest.skip]
    · have one : ['|', '(', ')', ';', '&', '<'].contains c = true := by
        simp only [symbols, List.mem_cons, List.not_mem_nil, or_false, greater, false_or] at listed
        rcases listed with rfl | rfl | rfl | rfl | rfl | rfl <;> rfl
      simp only [one, if_true]
      exact ⟨rfl, by simp, rest.skip⟩
  | append here again rest =>
    simp [deref_of_some here, deref_of_some again, Token.ret, rest.skip]
  | word nonempty letters ends rest =>
    rename_i e
    obtain ⟨c, here, letter⟩ := letters q le_rfl nonempty
    have nul : c ≠ '\x00' := by
      rintro rfl
      exact nonul (List.mem_of_getElem? here)
    have one : ['|', '(', ')', ';', '&', '<'].contains c = false := by
      have other := letter.2
      simp only [symbols, List.mem_cons, List.not_mem_nil, not_or] at other
      simp [other]
    have greater : c ≠ '>' := by
      rintro rfl
      exact letter.2 (by simp [symbols])
    have run : Sh.skip text isLetter q = e := by
      refine skip_run nonempty.le (fun i after before => ?_) fun d there => ?_
      · obtain ⟨d, there, letter'⟩ := letters i after before
        exact ⟨d, there, isLetter_iff.mpr letter'⟩
      · have other := ends d there
        rwa [← isLetter_iff, Bool.not_eq_true] at other
    simp only [deref_of_some here, nul, one, greater, if_false, Bool.false_eq_true, run]
    exact ⟨rfl, by simp, rest.skip⟩

/-! ### Lines have one list of tokens -/

theorem Token.eq_of_ret {t u : Token} (ret : t.ret = u.ret) (symbol : ∀ c, t = .symbol c ∨ u = .symbol c → c ∈ symbols)
    (word : ∀ w v, t = .word w → u = .word v → w = v) : t = u := by
  have letter {c : Char} (mem : c ∈ symbols) : c ≠ 'a' ∧ c ≠ '+' := by
    simp only [symbols, List.mem_cons, List.not_mem_nil, or_false] at mem
    rcases mem with rfl | rfl | rfl | rfl | rfl | rfl | rfl <;> decide
  cases t with
  | symbol c =>
    obtain ⟨ne, ne'⟩ := letter (symbol c (.inl rfl))
    cases u with
    | symbol d =>
      change c = d at ret
      rw [ret]
    | append => exact absurd ret ne'
    | word v => exact absurd ret ne
  | append =>
    cases u with
    | symbol d => exact absurd ret.symm (letter (symbol d (.inr rfl))).2
    | append => rfl
    | word v => exact absurd ret (by simp [Token.ret])
  | word w =>
    cases u with
    | symbol d => exact absurd ret.symm (letter (symbol d (.inr rfl))).1
    | append => exact absurd ret (by simp [Token.ret])
    | word v => rw [word w v rfl rfl]

theorem Tokens.symbol_mem (h : Tokens text s ts) : ∀ c, .symbol c ∈ ts → c ∈ symbols := by
  induction h with
  | done => simp
  | blank _ _ _ ih => exact ih
  | symbol _ listed _ _ ih =>
    intro d mem
    simp only [List.mem_cons, Token.symbol.injEq] at mem
    rcases mem with rfl | mem
    · exact listed
    · exact ih d mem
  | append _ _ _ ih => simpa using ih
  | word _ _ _ _ ih => simpa using ih

theorem Tokens.ret_ne_nul {t : Token} (h : Tokens text s (t :: ts)) : t.ret ≠ '\x00' := by
  cases t with
  | symbol c => exact ne_nul (h.symbol_mem c (by simp))
  | append => simp [Token.ret]
  | word w => simp [Token.ret]

theorem Tokens.unique (nonul : '\x00' ∉ text) {us : List Token} (h : Tokens text s ts) (h' : Tokens text s us) :
    ts = us := by
  induction ts generalizing s us with
  | nil =>
    cases us with
    | nil => rfl
    | cons u us => exact absurd ((gettoken_cons nonul h').1.symm.trans (gettoken_nil h).1) h'.ret_ne_nul
  | cons t ts ih =>
    cases us with
    | nil => exact absurd ((gettoken_cons nonul h).1.symm.trans (gettoken_nil h').1) h.ret_ne_nul
    | cons u us =>
      obtain ⟨ret, word, rest⟩ := gettoken_cons nonul h
      obtain ⟨ret', word', rest'⟩ := gettoken_cons nonul h'
      have same : t = u := by
        refine Token.eq_of_ret (ret.symm.trans ret') ?_ fun w v here there => ?_
        · rintro c (rfl | rfl)
          · exact h.symbol_mem c (by simp)
          · exact h'.symbol_mem c (by simp)
        · rw [← word w here, ← word' v there]
      rw [same, ih rest rest']

theorem skip_spec (p : Char → Bool) (le : s ≤ text.length) :
    s ≤ skip text p s ∧ skip text p s ≤ text.length ∧
      (∀ i, s ≤ i → i < skip text p s → ∃ c, text[i]? = some c ∧ p c = true) ∧
      ∀ c, text[skip text p s]? = some c → p c = false := by
  induction left : text.length - s generalizing s with
  | zero =>
    have stop : ∀ c, text[s]? = some c → p c = false := by
      intro c here
      obtain ⟨bound, -⟩ := List.getElem?_eq_some_iff.mp here
      omega
    rw [skip_stop stop]
    exact ⟨le_rfl, le, fun i _ _ => by omega, stop⟩
  | succ n ih =>
    have here : text[s]? = some (text[s]) := List.getElem?_eq_getElem (by omega)
    cases holds : p text[s] with
    | false =>
      have stop : ∀ c, text[s]? = some c → p c = false := by
        intro c found
        rw [here, Option.some.injEq] at found
        rw [← found, holds]
      rw [skip_stop stop]
      exact ⟨le_rfl, le, fun i _ _ => by omega, stop⟩
    | true =>
      rw [skip_next here holds]
      obtain ⟨after, bound, run, stop⟩ := ih (s := s + 1) (by omega) (by omega)
      refine ⟨by omega, bound, fun i from' before => ?_, stop⟩
      rcases from'.eq_or_lt with rfl | later
      · exact ⟨_, here, holds⟩
      · exact run i later before

theorem Tokens.exists (le : s ≤ text.length) : ∃ ts, Tokens text s ts := by
  induction left : text.length - s using Nat.strong_induction_on generalizing s with
  | _ n ih =>
    rcases le.eq_or_lt with rfl | lt
    · exact ⟨[], .done⟩
    have here : text[s]? = some text[s] := List.getElem?_eq_getElem lt
    by_cases space : text[s] ∈ whitespace
    · obtain ⟨ts, rest⟩ := ih _ (by omega) (s := s + 1) lt rfl
      exact ⟨ts, .blank here space rest⟩
    by_cases listed : text[s] ∈ symbols
    · by_cases double : text[s] = '>' ∧ text[s + 1]? = some '>'
      · obtain ⟨bound, -⟩ := List.getElem?_eq_some_iff.mp double.2
        obtain ⟨ts, rest⟩ := ih _ (by omega) (s := s + 2) bound rfl
        exact ⟨_, .append (here.trans (congrArg some double.1)) double.2 rest⟩
      · obtain ⟨ts, rest⟩ := ih _ (by omega) (s := s + 1) lt rfl
        exact ⟨_, .symbol here listed (fun greater again => double ⟨greater, again⟩) rest⟩
    · have letter : isLetter text[s] = true := isLetter_iff.mpr ⟨space, listed⟩
      obtain ⟨after, bound, run, stop⟩ := skip_spec isLetter le
      have progress : s < Sh.skip text isLetter s := by
        rw [skip_next here letter]
        exact (skip_spec isLetter lt).1
      obtain ⟨ts, rest⟩ := ih _ (by omega) bound rfl
      refine ⟨_, .word progress (fun i from' before => ?_) (fun c there => ?_) rest⟩
      · obtain ⟨c, there, letter⟩ := run i from' before
        exact ⟨c, there, isLetter_iff.mp letter⟩
      · rw [← isLetter_iff, stop c there]
        exact Bool.false_ne_true

theorem Tokens.length_le (h : Tokens text s ts) : s + ts.length ≤ text.length := by
  induction h with
  | done => simp
  | blank _ _ _ ih => omega
  | symbol _ _ _ _ ih =>
    rw [List.length_cons]
    omega
  | append _ _ _ ih =>
    rw [List.length_cons]
    omega
  | word nonempty _ _ _ ih =>
    rw [List.length_cons]
    omega

/-- Where the words stand. -/
theorem Tokens.word_place (h : Tokens text s ts) (w : Place) (mem : .word w ∈ ts) :
    w.q < w.eq ∧ (∀ i, w.q ≤ i → i < w.eq → ∃ c, text[i]? = some c ∧ Letter c) ∧ ∀ c, text[w.eq]? = some c →
      ¬Letter c := by
  induction h with
  | done => simp at mem
  | blank _ _ _ ih => exact ih mem
  | symbol _ _ _ _ ih => exact ih (by simpa using mem)
  | append _ _ _ ih => exact ih (by simpa using mem)
  | word nonempty letters ends rest ih =>
    simp only [List.mem_cons, Token.word.injEq] at mem
    rcases mem with rfl | mem
    · exact ⟨nonempty, letters, ends⟩
    · exact ih mem

end Xv6Labs.Sh
