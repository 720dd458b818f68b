import Xv6Labs.Sh.Lex

/-!
# One step of the parser, in tokens

What the loops of the parser do with the next tokens. `Outcome.Meets` says that a parse ends, and what holds if it
succeeds.
-/

namespace Xv6Labs.Sh

variable {text : List Char} {s fuel argc : ℕ} {ts : List Token} {cmd : Cmd} {toks : List Char} {α β : Type}

namespace Outcome

def Meets (post : α → ℕ → Prop) : Outcome α → Prop
  | ok a s => post a s
  | exit _ => True
  | starved => False

theorem meets_bind {o : Outcome α} {f : α → ℕ → Outcome β} {post : β → ℕ → Prop}
    (h : o.Meets fun a s => (f a s).Meets post) : (o.bind f).Meets post := by
  cases o with
  | ok a s => exact h
  | exit message => trivial
  | starved => exact h

theorem Meets.mono {o : Outcome α} {post post' : α → ℕ → Prop} (h : o.Meets post)
    (weaker : ∀ a s, post a s → post' a s) :
    o.Meets post' := by
  cases o with
  | ok a s => exact weaker a s h
  | exit message => trivial
  | starved => exact h

end Outcome

theorem Tokens.take (nonul : '\x00' ∉ text) {t : Token} (h : Tokens text s (t :: ts)) :
    Tokens text (gettoken text (Sh.skip text isSpace s)).s ts :=
  (gettoken_cons nonul h.skip).2.2

/-- The first token, if there is one that `peek` finds. -/
theorem symbol_of_heads (single : '>' ∉ toks) (h : heads toks ts = true) :
    ∃ c ∈ toks, ∃ rest, ts = .symbol c :: rest := by
  cases ts with
  | nil => cases h
  | cons t rest =>
    cases t with
    | symbol c => exact ⟨c, by simpa [heads, Token.first] using h, rest, rfl⟩
    | append => exact absurd (by simpa [heads, Token.first] using h) single
    | word w => simp [heads, Token.first] at h

/-! ### Redirections -/

theorem direction_of_heads (h : heads ['<', '>'] ts = true) :
    ∃ (d : Direction) (rest : List Token), ts = d.token :: rest := by
  cases ts with
  | nil => cases h
  | cons t rest =>
    cases t with
    | symbol c =>
      simp only [heads, Token.first, Option.any_some, List.contains_cons, List.contains_nil, Bool.or_false,
        Bool.or_eq_true, beq_iff_eq] at h
      rcases h with rfl | rfl
      · exact ⟨.input, rest, rfl⟩
      · exact ⟨.output, rest, rfl⟩
    | append => exact ⟨.append, rest, rfl⟩
    | word w => simp [heads, Token.first] at h

theorem heads_direction (d : Direction) : heads ['<', '>'] (d.token :: ts) = true := by cases d <;> rfl

theorem redir_symbols : ['<', '>'] ⊆ symbols := by simp [symbols]

theorem parseredirs_stop (h : Tokens text s ts) (stop : heads ['<', '>'] ts = false) :
    parseredirs text (fuel + 1) cmd s = .ok cmd (skip text isSpace s) := by
  simp [parseredirs, peek_eq _ h redir_symbols, stop]

theorem parseredirs_word (fuel : ℕ) (cmd : Cmd) (nonul : '\x00' ∉ text) {d : Direction} {w : Place}
    (h : Tokens text s (d.token :: .word w :: ts)) : ∃ s', Tokens text s' ts ∧
      parseredirs text (fuel + 1) cmd s = parseredirs text fuel (Redir.apply cmd ⟨d, w⟩) s' := by
  obtain ⟨ret, -, next⟩ := gettoken_cons nonul h.skip
  obtain ⟨ret', place, rest⟩ := gettoken_cons nonul next
  refine ⟨_, rest, ?_⟩
  simp only [parseredirs, peek_eq _ h redir_symbols, heads_direction, if_true, ret, ret', place w rfl]
  cases d <;> simp [Direction.token, Token.ret, Redir.apply]

theorem parseredirs_missing (nonul : '\x00' ∉ text) {d : Direction} (h : Tokens text s (d.token :: ts))
    (missing : ∀ w rest, ts ≠ .word w :: rest) :
    parseredirs text (fuel + 1) cmd s = .panic "missing file for redirection" := by
  obtain ⟨-, -, next⟩ := gettoken_cons nonul h.skip
  have other : (gettoken text (gettoken text (skip text isSpace s)).s).ret ≠ 'a' := by
    cases ts with
    | nil => simp [gettoken_nil next]
    | cons t rest =>
      rw [(gettoken_cons nonul next).1]
      cases t with
      | symbol c =>
        rintro rfl
        have listed := next.symbol_mem 'a' (by simp)
        simp [symbols] at listed
      | append => simp [Token.ret]
      | word w => exact absurd rfl (missing w rest)
  simp [parseredirs, peek_eq _ h redir_symbols, heads_direction, other]

theorem parseredirs_meets (nonul : '\x00' ∉ text) (h : Tokens text s ts) (enough : ts.length < fuel) :
    (parseredirs text fuel cmd s).Meets fun cmd' s' =>
      ∃ rs rest, ts = redirTokens rs ++ rest ∧ cmd' = wrap rs cmd ∧ Tokens text s' rest := by
  induction fuel generalizing s ts cmd with
  | zero => omega
  | succ fuel ih =>
    cases found : heads ['<', '>'] ts with
    | false =>
      rw [parseredirs_stop h found]
      exact ⟨[], ts, rfl, rfl, h.skip⟩
    | true =>
      obtain ⟨d, rest, rfl⟩ := direction_of_heads found
      by_cases missing : ∀ w us, rest ≠ .word w :: us
      · rw [parseredirs_missing nonul h missing]
        trivial
      · push Not at missing
        obtain ⟨w, us, rfl⟩ := missing
        obtain ⟨s', next, same⟩ := parseredirs_word fuel cmd nonul h
        rw [same]
        refine (ih next (by simp at enough; omega)).mono fun cmd' t => ?_
        rintro ⟨rs, vs, rfl, rfl, after⟩
        exact ⟨⟨d, w⟩ :: rs, vs, rfl, rfl, after⟩

/-- A list of redirections is taken whole, if none follows. -/
theorem parseredirs_all (fuel : ℕ) (cmd : Cmd) (nonul : '\x00' ∉ text) (rs : List Redir)
    (h : Tokens text s (redirTokens rs ++ ts)) (stop : heads ['<', '>'] ts = false) :
    parseredirs text fuel cmd s = .starved ∨
      ∃ s', parseredirs text fuel cmd s = .ok (wrap rs cmd) s' ∧ Tokens text s' ts := by
  induction rs generalizing s fuel cmd with
  | nil =>
    cases fuel with
    | zero => exact .inl rfl
    | succ fuel => exact .inr ⟨_, parseredirs_stop h stop, h.skip⟩
  | cons r rs ih =>
    cases fuel with
    | zero => exact .inl rfl
    | succ fuel =>
      obtain ⟨s', next, same⟩ := parseredirs_word fuel cmd nonul h
      rw [same]
      exact ih _ _ next

/-! ### Arguments -/

theorem wrap_append (rs rs' : List Redir) : wrap rs' (wrap rs cmd) = wrap (rs ++ rs') cmd := by
  simp [wrap]

theorem push_wrap (rs : List Redir) (w : Place) : (wrap rs cmd).push w = wrap rs (cmd.push w) := by
  induction rs generalizing cmd with
  | nil => rfl
  | cons r rs ih =>
    change (wrap rs (r.apply cmd)).push w = wrap rs (r.apply (cmd.push w))
    rw [ih]
    obtain ⟨d, file⟩ := r
    cases d <;> rfl

theorem arg_symbols : ['|', ')', '&', ';'] ⊆ symbols := by simp [symbols]

theorem parseargs_stop (h : Tokens text s ts) (stop : heads ['|', ')', '&', ';'] ts = true) :
    parseargs text (fuel + 1) argc cmd s = .ok cmd (skip text isSpace s) := by
  simp [parseargs, peek_eq _ h arg_symbols, stop]

theorem parseargs_end (fuel argc : ℕ) (cmd : Cmd) (h : Tokens text s []) :
    ∃ s', Tokens text s' [] ∧ parseargs text (fuel + 1) argc cmd s = .ok cmd s' := by
  obtain ⟨ret, rest⟩ := gettoken_nil h.skip
  refine ⟨_, rest, ?_⟩
  simp [parseargs, peek_eq _ h arg_symbols, heads, ret]

theorem parseargs_word (fuel argc : ℕ) (cmd : Cmd) (nonul : '\x00' ∉ text) {w : Place}
    (h : Tokens text s (.word w :: ts)) :
    ∃ s', Tokens text s' ts ∧ parseargs text (fuel + 1) argc cmd s =
      if argc + 1 ≥ MAXARGS then .panic "too many args"
      else (parseredirs text fuel (cmd.push w) s').bind fun ret s => parseargs text fuel (argc + 1) ret s := by
  obtain ⟨ret, place, rest⟩ := gettoken_cons nonul h.skip
  refine ⟨_, rest, ?_⟩
  simp [parseargs, peek_eq _ h arg_symbols, heads, Token.first, ret, Token.ret, place w rfl]

theorem parseargs_other (nonul : '\x00' ∉ text) {t : Token} (h : Tokens text s (t :: ts))
    (other : heads ['|', ')', '&', ';'] (t :: ts) = false) (word : ∀ w, t ≠ .word w) :
    parseargs text (fuel + 1) argc cmd s = .panic "syntax" := by
  obtain ⟨ret, -, -⟩ := gettoken_cons nonul h.skip
  have letter : t.ret ≠ 'a' := by
    cases t with
    | symbol c =>
      rintro rfl
      have listed := h.symbol_mem 'a' (by simp)
      simp [symbols] at listed
    | append => simp [Token.ret]
    | word w => exact absurd rfl (word w)
  simp [parseargs, peek_eq _ h arg_symbols, other, ret, h.ret_ne_nul, letter]

theorem parseargs_meets (nonul : '\x00' ∉ text) (h : Tokens text s ts) (enough : ts.length < fuel)
    (few : argc < MAXARGS) (rs : List Redir) (ws : List Place) (count : ws.length = argc) :
    (parseargs text fuel argc (wrap rs (.exec ws)) s).Meets fun cmd s' =>
      ∃ args rest, ts = argTokens args ++ rest ∧ argc + args.length < MAXARGS ∧
        cmd = wrap (rs ++ args.flatMap Arg.redirs) (.exec (ws ++ args.map Arg.word)) ∧ Tokens text s' rest := by
  induction fuel generalizing s ts argc rs ws with
  | zero => omega
  | succ fuel ih =>
    cases found : heads ['|', ')', '&', ';'] ts with
    | true =>
      rw [parseargs_stop h found]
      exact ⟨[], ts, rfl, few, by simp, h.skip⟩
    | false =>
      cases ts with
      | nil =>
        obtain ⟨s', next, same⟩ := parseargs_end fuel argc (wrap rs (.exec ws)) h
        rw [same]
        exact ⟨[], [], rfl, few, by simp, next⟩
      | cons t ts =>
        by_cases word : ∀ w, t ≠ .word w
        · rw [parseargs_other nonul h found word]
          trivial
        · push Not at word
          obtain ⟨w, rfl⟩ := word
          obtain ⟨s', next, same⟩ := parseargs_word fuel argc (wrap rs (.exec ws)) nonul h
          rw [same]
          split
          case isTrue => trivial
          case isFalse more =>
            rw [List.length_cons] at enough
            apply Outcome.meets_bind
            refine (parseredirs_meets nonul next (by omega)).mono fun cmd' t' => ?_
            rintro ⟨rs', us, rfl, rfl, after⟩
            rw [push_wrap, wrap_append]
            have shorter : us.length < fuel := by
              rw [List.length_append] at enough
              omega
            refine (ih after shorter (by omega) (rs ++ rs') (ws ++ [w]) (by simp [count])).mono fun cmd'' t'' => ?_
            rintro ⟨args, rest, rfl, bound, rfl, final⟩
            refine ⟨⟨w, rs'⟩ :: args, rest, ?_, ?_, ?_, final⟩
            · simp [argTokens]
            · rw [List.length_cons]
              omega
            · simp

end Xv6Labs.Sh
