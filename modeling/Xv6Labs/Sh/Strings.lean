import Xv6Labs.Sh.Correct

/-!
# Commands and their strings

`parsecmd` as a whole: it succeeds on the lines of the grammar, and the strings of the command are the words of the
line, since no word has the end of another inside.
-/

namespace Xv6Labs.Sh

variable {text : List Char} {s fuel : ℕ} {ts rest : List Token} {cmd : Cmd} {N : Nonterminal} {w : Place}

theorem words_wrap (rs : List Redir) : (wrap rs cmd).words = cmd.words ++ rs.map Redir.file := by
  induction rs generalizing cmd with
  | nil => simp [wrap]
  | cons r rs ih =>
    change (wrap rs (r.apply cmd)).words = _
    rw [ih]
    obtain ⟨d, file⟩ := r
    cases d <;> simp [Redir.apply, Cmd.words]

theorem words_back (n : ℕ) : (Cmd.back^[n] cmd).words = cmd.words := by
  induction n generalizing cmd with
  | zero => rfl
  | succ n ih =>
    rw [Function.iterate_succ_apply, ih]
    rfl

theorem mem_redirTokens {rs : List Redir} (h : w ∈ rs.map Redir.file) : .word w ∈ redirTokens rs := by
  obtain ⟨r, mem, rfl⟩ := List.mem_map.mp h
  exact List.mem_flatMap.mpr ⟨r, mem, by simp [Redir.tokens]⟩

/-- The strings of a command are words of the line. -/
theorem Derives.word_mem (h : Derives N ts cmd) : ∀ w ∈ cmd.words, .word w ∈ ts := by
  induction h with
  | line n pipe ih =>
    intro w mem
    rw [words_back] at mem
    exact List.mem_append_left _ (ih w mem)
  | sequence n pipe line ih ih' =>
    intro w mem
    simp only [Cmd.words, words_back, List.mem_append] at mem
    rcases mem with mem | mem
    · exact List.mem_append_left _ (List.mem_append_left _ (ih w mem))
    · exact List.mem_append_right _ (List.mem_cons_of_mem _ (ih' w mem))
  | pipe first ih => exact ih
  | pipeline first pipe ih ih' =>
    intro w mem
    simp only [Cmd.words, List.mem_append] at mem
    rcases mem with mem | mem
    · exact List.mem_append_left _ (ih w mem)
    · exact List.mem_append_right _ (List.mem_cons_of_mem _ (ih' w mem))
  | block line rs ih =>
    intro w mem
    rw [words_wrap, List.mem_append] at mem
    rcases mem with mem | mem
    · exact List.mem_append_left _ (List.mem_cons_of_mem _ (ih w mem))
    · exact List.mem_append_right _ (List.mem_cons_of_mem _ (mem_redirTokens mem))
  | simple rs args =>
    intro w mem
    simp only [Sh.simple, words_wrap, Cmd.words, List.map_append, List.mem_append] at mem
    rcases mem with mem | mem | mem
    · obtain ⟨a, there, rfl⟩ := List.mem_map.mp mem
      exact List.mem_append_right _ (List.mem_flatMap.mpr ⟨a, there, by simp⟩)
    · exact List.mem_append_left _ (mem_redirTokens mem)
    · obtain ⟨r, there, rfl⟩ := List.mem_map.mp mem
      obtain ⟨a, there', inside⟩ := List.mem_flatMap.mp there
      refine List.mem_append_right _ (List.mem_flatMap.mpr ⟨a, there', List.mem_cons_of_mem _ ?_⟩)
      exact mem_redirTokens (List.mem_map_of_mem inside)

/-! ### `nulterminate` -/

theorem nulterminate_eq (cmd : Cmd) (buf : List Char) :
    nulterminate cmd buf = cmd.words.foldl (fun buf w => buf.set w.eq '\x00') buf := by
  induction cmd generalizing buf with
  | exec argv => rfl
  | redir cmd file mode fd ih => simp only [nulterminate, Cmd.words, List.foldl_append, ih, List.foldl_cons,
      List.foldl_nil]
  | pipe left right ih ih' => simp only [nulterminate, Cmd.words, List.foldl_append, ih, ih']
  | list left right ih ih' => simp only [nulterminate, Cmd.words, List.foldl_append, ih, ih']
  | back cmd ih => exact ih buf

theorem getElem?_foldl_set (ws : List Place) (buf : List Char) (i : ℕ) :
    (ws.foldl (fun buf w => buf.set w.eq '\x00') buf)[i]? =
      if ∃ w ∈ ws, w.eq = i then buf[i]?.map fun _ => '\x00' else buf[i]? := by
  induction ws generalizing buf with
  | nil => simp
  | cons w ws ih =>
    rw [List.foldl_cons, ih]
    by_cases here : w.eq = i
    · subst here
      simp [List.getElem?_set_self', Function.const_def]
    · simp [List.getElem?_set_ne here, here]

/-- Each string ends where its word does: no other word's end is inside it. -/
theorem cstring_nulterminate (nonul : '\x00' ∉ text) (h : Tokens text s ts) (words : ∀ w ∈ cmd.words, .word w ∈ ts)
    (mem : w ∈ cmd.words) :
    cstring (nulterminate cmd (text ++ ['\x00'])) w.q = (text.drop w.q).take (w.eq - w.q) := by
  obtain ⟨nonempty, letters, -⟩ := h.word_place w (words w mem)
  have bound : w.eq ≤ text.length := by
    obtain ⟨c, here, -⟩ := letters (w.eq - 1) (by omega) (by omega)
    obtain ⟨less, -⟩ := List.getElem?_eq_some_iff.mp here
    omega
  have inside (i : ℕ) (after : w.q ≤ i) (before : i < w.eq) :
      (nulterminate cmd (text ++ ['\x00']))[i]? = text[i]? := by
    obtain ⟨c, here, letter⟩ := letters i after before
    have other : ¬∃ v ∈ cmd.words, v.eq = i := by
      rintro ⟨v, mem', rfl⟩
      exact (h.word_place v (words v mem')).2.2 c here letter
    rw [nulterminate_eq, getElem?_foldl_set, if_neg other, List.getElem?_append_left (by omega)]
  have ends : (nulterminate cmd (text ++ ['\x00']))[w.eq]? = some '\x00' := by
    have less : w.eq < (text ++ ['\x00']).length := by
      rw [List.length_append, List.length_singleton]
      omega
    rw [nulterminate_eq, getElem?_foldl_set, if_pos ⟨w, mem, rfl⟩, List.getElem?_eq_getElem less]
    rfl
  have run : skip (nulterminate cmd (text ++ ['\x00'])) (· ≠ '\x00') w.q = w.eq := by
    refine skip_run nonempty.le (fun i after before => ?_) (by simp [ends])
    obtain ⟨c, here, -⟩ := letters i after before
    refine ⟨c, (inside i after before).trans here, ?_⟩
    rw [decide_eq_true_eq]
    rintro rfl
    exact nonul (List.mem_of_getElem? here)
  have length : (cstring (nulterminate cmd (text ++ ['\x00'])) w.q).length = w.eq - w.q := by
    unfold skip at run
    unfold cstring
    omega
  have take : cstring (nulterminate cmd (text ++ ['\x00'])) w.q = ((nulterminate cmd (text ++ ['\x00'])).drop w.q).take
      (cstring (nulterminate cmd (text ++ ['\x00'])) w.q).length :=
    List.prefix_iff_eq_take.mp (List.takeWhile_prefix _)
  rw [take, length]
  ext i : 1
  by_cases before : i < w.eq - w.q
  · rw [List.getElem?_take_of_lt before, List.getElem?_take_of_lt before, List.getElem?_drop, List.getElem?_drop,
      inside (w.q + i) (by omega) (by omega)]
  · rw [List.getElem?_take_eq_none (by omega), List.getElem?_take_eq_none (by omega)]

/-! ### The whole parser -/

theorem Tokens.skip_nil (h : Tokens text s []) : Sh.skip text isSpace s = text.length := by
  have starts := h.starts
  generalize Sh.skip text isSpace s = q at starts
  cases starts
  rfl

theorem Tokens.nil_of_skip (h : Tokens text s ts) (here : Sh.skip text isSpace s = text.length) : ts = [] := by
  have starts := h.starts
  rw [here] at starts
  have none : text[text.length]? = none := List.getElem?_eq_none le_rfl
  generalize text.length = n at starts none
  cases starts with
  | done => rfl
  | symbol found => exact nomatch none.symm.trans found
  | append found => exact nomatch none.symm.trans found
  | word nonempty letters =>
    obtain ⟨c, found, -⟩ := letters n le_rfl nonempty
    exact nomatch none.symm.trans found

theorem parsecmd_of_line (h : parseline text fuel 0 = .ok cmd s) (after : Tokens text s rest) :
    (rest = [] → parsecmd fuel text = .ok (cmd, nulterminate cmd (text ++ ['\x00'])) text.length) ∧
      (rest ≠ [] → ∃ message, parsecmd fuel text = .exit message) := by
  simp only [parsecmd, h, Outcome.bind, peek_eq _ after (List.nil_subset _)]
  constructor
  · rintro rfl
    simp [after.skip_nil]
  · intro more
    rw [if_pos fun here => more (after.nil_of_skip here)]
    exact ⟨_, rfl⟩

/-- A line has one list of maximal tokens. With fuel for its length `parsecmd` ends, and it succeeds if and only if the
tokens are derived from the grammar, with few enough words; then the command is the only one that they derive, and its
strings are the words of the line. -/
theorem parsecmd_iff_derives (nonul : '\x00' ∉ text) : ∃ ts, Tokens text 0 ts ∧ (∀ us, Tokens text 0 us → us = ts) ∧
    ∀ fuel, 4 * text.length + 4 ≤ fuel → parsecmd fuel text ≠ .starved ∧
      (∀ cmd, (∃ buf s, parsecmd fuel text = .ok (cmd, buf) s) ↔ Derives .line ts cmd ∧ cmd.Fits) ∧
      ∀ cmd buf s, parsecmd fuel text = .ok (cmd, buf) s → (∀ other, Derives .line ts other → other = cmd) ∧
        ∀ w ∈ cmd.words, .word w ∈ ts ∧ cstring buf w.q = (text.drop w.q).take (w.eq - w.q) := by
  obtain ⟨ts, tokens⟩ := Tokens.exists (Nat.zero_le text.length)
  refine ⟨ts, tokens, fun us other => other.unique nonul tokens, fun fuel enough => ?_⟩
  have short := tokens.length_le
  have meets := parse_meets (N := .line) fuel nonul tokens (by simp only [Nonterminal.depth]; omega)
  have start : Tokens text 0 (ts ++ []) := by rwa [List.append_nil]
  simp only [parse] at meets
  have complete (cmd : Cmd) (derived : Derives .line ts cmd) := parse_yields nonul derived fuel 0 [] .nil start
  simp only [parse] at complete
  cases parsed : parseline text fuel 0 with
  | starved =>
    rw [parsed] at meets
    exact meets.elim
  | exit message =>
    have failed : parsecmd fuel text = .exit message := by simp only [parsecmd, parsed, Outcome.bind]
    rw [failed]
    refine ⟨by rintro ⟨⟩, fun cmd => ⟨by rintro ⟨_, _, ⟨⟩⟩, ?_⟩, by rintro _ _ _ ⟨⟩⟩
    rintro ⟨derived, fits⟩
    rcases complete cmd derived with starved | ⟨-, s', ok, -⟩ | ⟨many, -⟩
    · cases parsed.symm.trans starved
    · cases parsed.symm.trans ok
    · exact absurd fits many
  | ok found s =>
    rw [parsed] at meets
    obtain ⟨us, rest, rfl, derived, fits, after⟩ := meets
    have only (cmd : Cmd) (derived' : Derives .line (us ++ rest) cmd) : rest = [] ∧ cmd = found := by
      rcases complete cmd derived' with starved | ⟨-, s', ok, after'⟩ | ⟨-, many⟩
      · cases parsed.symm.trans starved
      · cases parsed.symm.trans ok
        exact ⟨after.unique nonul after', rfl⟩
      · cases parsed.symm.trans many
    obtain ⟨whole, partial'⟩ := parsecmd_of_line parsed after
    by_cases done : rest = []
    · subst done
      rw [List.append_nil] at only ⊢
      rw [whole rfl]
      refine ⟨by rintro ⟨⟩, fun cmd => ⟨?_, ?_⟩, ?_⟩
      · rintro ⟨buf, s', same⟩
        cases same
        exact ⟨derived, fits⟩
      · rintro ⟨derived', -⟩
        rw [(only cmd derived').2]
        exact ⟨_, _, rfl⟩
      · intro cmd buf s' same
        cases same
        rw [List.append_nil] at tokens
        exact ⟨fun other derived' => (only other derived').2, fun w mem =>
          ⟨derived.word_mem w mem, cstring_nulterminate nonul tokens derived.word_mem mem⟩⟩
    · obtain ⟨message, failed⟩ := partial' done
      rw [failed]
      refine ⟨by rintro ⟨⟩, fun cmd => ⟨by rintro ⟨_, _, ⟨⟩⟩, ?_⟩, by rintro _ _ _ ⟨⟩⟩
      rintro ⟨derived', -⟩
      exact absurd (only cmd derived').1 done

/-- `ls|(wc>>n;e)&` -/
def pipeLine : List Char := ['l', 's', '|', '(', 'w', 'c', '>', '>', 'n', ';', 'e', ')', '&']

theorem parsecmd_iff_derives_pipe : ∃ ts cmd buf, Tokens pipeLine 0 ts ∧ parsecmd 60 pipeLine = .ok (cmd, buf) 13 ∧
    Derives .line ts cmd ∧ cmd.words = [⟨0, 2⟩, ⟨4, 6⟩, ⟨8, 9⟩, ⟨10, 11⟩] ∧ cstring buf 4 = ['w', 'c'] := by
  have nonul : '\x00' ∉ pipeLine := by decide
  obtain ⟨ts, tokens, -, all⟩ := parsecmd_iff_derives nonul
  obtain ⟨-, iff, strings⟩ := all 60 (by decide)
  have ok : parsecmd 60 pipeLine = .ok (.back (.pipe (.exec [⟨0, 2⟩])
      (.list (.redir (.exec [⟨4, 6⟩]) ⟨8, 9⟩ (O_WRONLY ||| O_CREATE) 1) (.exec [⟨10, 11⟩]))),
      ['l', 's', '\x00', '(', 'w', 'c', '\x00', '>', 'n', '\x00', 'e', '\x00', '&', '\x00']) 13 := by decide +kernel
  exact ⟨ts, _, _, tokens, ok, ((iff _).mp ⟨_, _, ok⟩).1, rfl, ((strings _ _ _ ok).2 ⟨4, 6⟩ (by simp [Cmd.words])).2⟩

end Xv6Labs.Sh
