import Xv6Labs.Sh.Steps

/-!
# The parser implements the grammar

`parse_meets`: what the parser returns is derived from the tokens that it takes. `parse_yields`: it returns everything
that can be derived, where no simple command has too many words.
-/

namespace Xv6Labs.Sh

variable {text : List Char} {s fuel : ℕ} {ts us rest : List Token} {cmd : Cmd} {toks : List Char} {N : Nonterminal}

theorem fits_wrap (rs : List Redir) : (wrap rs cmd).Fits ↔ cmd.Fits := by
  induction rs generalizing cmd with
  | nil => rfl
  | cons r rs ih =>
    change (wrap rs (r.apply cmd)).Fits ↔ cmd.Fits
    rw [ih]
    obtain ⟨d, file⟩ := r
    cases d <;> rfl

theorem fits_back (n : ℕ) : (Cmd.back^[n] cmd).Fits ↔ cmd.Fits := by
  induction n generalizing cmd with
  | zero => rfl
  | succ n ih =>
    rw [Function.iterate_succ_apply, ih]
    rfl

/-! ### What the parser returns is right -/

theorem parseback_meets (nonul : '\x00' ∉ text) (h : Tokens text s ts) (enough : ts.length < fuel) :
    (parseback text fuel cmd s).Meets fun cmd' s' =>
      ∃ n rest, ts = List.replicate n (.symbol '&') ++ rest ∧ cmd' = Cmd.back^[n] cmd ∧ Tokens text s' rest := by
  induction fuel generalizing s ts cmd with
  | zero => omega
  | succ fuel ih =>
    simp only [parseback, peek_eq ['&'] h (by simp [symbols])]
    cases found : heads ['&'] ts with
    | false => exact ⟨0, ts, rfl, rfl, h.skip⟩
    | true =>
      obtain ⟨c, mem, us, rfl⟩ := symbol_of_heads (by simp) found
      obtain rfl := List.mem_singleton.mp mem
      rw [List.length_cons] at enough
      refine (ih (h.take nonul) (by omega)).mono fun cmd' t => ?_
      rintro ⟨n, rest, rfl, rfl, after⟩
      exact ⟨n + 1, rest, rfl, rfl, after⟩

/-- The function of the parser for each part of the grammar. -/
def parse (text : List Char) : Nonterminal → ℕ → ℕ → Outcome Cmd
  | .line => parseline text
  | .pipe => parsepipe text
  | .cmd => parseexec text

/-- How much more fuel a call takes than the calls that it makes for shorter input. -/
def Nonterminal.depth : Nonterminal → ℕ
  | .line => 4
  | .pipe => 3
  | .cmd => 2

/-- What a parse of the tokens `ts` returns. -/
def Parsed (text : List Char) (N : Nonterminal) (ts : List Token) (cmd : Cmd) (s : ℕ) : Prop :=
  ∃ us rest, ts = us ++ rest ∧ Derives N us cmd ∧ cmd.Fits ∧ Tokens text s rest

theorem parseblock_meets (nonul : '\x00' ∉ text) (h : Tokens text s (.symbol '(' :: ts))
    (enough : 4 * ts.length + 5 ≤ fuel)
    (inner : ∀ s' fuel', fuel' < fuel → Tokens text s' ts → 4 * ts.length + 4 ≤ fuel' →
      (parseline text fuel' s').Meets (Parsed text .line ts)) :
    (parseblock text fuel s).Meets (Parsed text .cmd (.symbol '(' :: ts)) := by
  cases fuel with
  | zero => omega
  | succ fuel =>
    have found : heads ['('] (.symbol '(' :: ts) = true := rfl
    simp only [parseblock, peek_eq ['('] h (by simp [symbols]), found, if_true]
    apply Outcome.meets_bind
    refine (inner _ fuel (by omega) (h.take nonul) (by omega)).mono fun cmd t => ?_
    rintro ⟨us, rest, rfl, line, fits, after⟩
    simp only [peek_eq [')'] after (by simp [symbols])]
    cases closed : heads [')'] rest with
    | false => trivial
    | true =>
      obtain ⟨c, mem, vs, rfl⟩ := symbol_of_heads (by simp) closed
      obtain rfl := List.mem_singleton.mp mem
      simp only [List.length_append, List.length_cons] at enough
      refine (parseredirs_meets nonul (after.take nonul) (by omega)).mono fun cmd' t' => ?_
      rintro ⟨rs, ws, rfl, rfl, final⟩
      exact ⟨_, ws, by simp, .block line rs, (fits_wrap rs).mpr fits, final⟩

theorem parse_meets (fuel : ℕ) (nonul : '\x00' ∉ text) (h : Tokens text s ts)
    (enough : 4 * ts.length + N.depth ≤ fuel) :
    (parse text N fuel s).Meets (Parsed text N ts) := by
  induction fuel using Nat.strong_induction_on generalizing s ts N with
  | _ fuel ih =>
    cases fuel with
    | zero => cases N <;> simp [Nonterminal.depth] at enough
    | succ fuel =>
      cases N with
      | line =>
        simp only [Nonterminal.depth] at enough
        simp only [parse, parseline]
        apply Outcome.meets_bind
        refine (ih fuel (by omega) (N := .pipe) h (by simp only [Nonterminal.depth]; omega)).mono fun cmd t => ?_
        rintro ⟨us, rest, rfl, pipe, fits, after⟩
        rw [List.length_append] at enough
        apply Outcome.meets_bind
        refine (parseback_meets nonul after (by omega)).mono fun cmd' t' => ?_
        rintro ⟨n, vs, rfl, rfl, after'⟩
        simp only [peek_eq [';'] after' (by simp [symbols])]
        cases found : heads [';'] vs with
        | false => exact ⟨_, vs, (List.append_assoc ..).symm, .line n pipe, (fits_back n).mpr fits, after'.skip⟩
        | true =>
          obtain ⟨c, mem, ws, rfl⟩ := symbol_of_heads (by simp) found
          obtain rfl := List.mem_singleton.mp mem
          simp only [List.length_append, List.length_cons] at enough
          apply Outcome.meets_bind
          refine (ih fuel (by omega) (N := .line) (after'.take nonul)
            (by simp only [Nonterminal.depth]; omega)).mono fun right t'' => ?_
          rintro ⟨xs, ys, rfl, line, fits', final⟩
          exact ⟨_, ys, by simp, .sequence n pipe line, ⟨(fits_back n).mpr fits, fits'⟩, final⟩
      | pipe =>
        simp only [Nonterminal.depth] at enough
        simp only [parse, parsepipe]
        apply Outcome.meets_bind
        refine (ih fuel (by omega) (N := .cmd) h (by simp only [Nonterminal.depth]; omega)).mono fun cmd t => ?_
        rintro ⟨us, rest, rfl, first, fits, after⟩
        simp only [peek_eq ['|'] after (by simp [symbols])]
        cases found : heads ['|'] rest with
        | false => exact ⟨us, rest, rfl, .pipe first, fits, after.skip⟩
        | true =>
          obtain ⟨c, mem, vs, rfl⟩ := symbol_of_heads (by simp) found
          obtain rfl := List.mem_singleton.mp mem
          simp only [List.length_append, List.length_cons] at enough
          apply Outcome.meets_bind
          refine (ih fuel (by omega) (N := .pipe) (after.take nonul)
            (by simp only [Nonterminal.depth]; omega)).mono fun right t' => ?_
          rintro ⟨ws, xs, rfl, pipe, fits', final⟩
          exact ⟨_, xs, by simp, .pipeline first pipe, ⟨fits, fits'⟩, final⟩
      | cmd =>
        simp only [Nonterminal.depth] at enough
        simp only [parse, parseexec, peek_eq ['('] h (by simp [symbols])]
        cases found : heads ['('] ts with
        | true =>
          obtain ⟨c, mem, us, rfl⟩ := symbol_of_heads (by simp) found
          obtain rfl := List.mem_singleton.mp mem
          rw [List.length_cons] at enough
          refine parseblock_meets nonul h.skip (by omega) fun s' fuel' less start enough' => ?_
          exact ih fuel' (by omega) (N := .line) start enough'
        | false =>
          apply Outcome.meets_bind
          refine (parseredirs_meets nonul h.skip (by omega)).mono fun cmd' t => ?_
          rintro ⟨rs, us, rfl, rfl, after⟩
          rw [List.length_append] at enough
          refine (parseargs_meets nonul after (by omega) (by decide) rs [] rfl).mono fun cmd'' t' => ?_
          rintro ⟨args, ws, rfl, bound, rfl, final⟩
          refine ⟨_, ws, (List.append_assoc ..).symm, .simple rs args, (fits_wrap _).mpr ?_, final⟩
          simp only [Cmd.Fits, List.nil_append, List.length_map]
          omega

/-! ### What can be derived is returned -/

/-- The symbols that may come after a part of the grammar. -/
def Nonterminal.follow : Nonterminal → List Char
  | .line => [')']
  | .pipe => [')', '&', ';']
  | .cmd => [')', '&', ';', '|']

def Follows (N : Nonterminal) (ts : List Token) : Prop := ∀ t, ts.head? = some t → ∃ c ∈ N.follow, t = .symbol c

theorem Follows.heads (toks : List Char) (h : Follows N ts) (disjoint : ∀ c ∈ N.follow, c ∉ toks) :
    heads toks ts = false := by
  cases ts with
  | nil => rfl
  | cons t ts =>
    obtain ⟨c, mem, rfl⟩ := h t rfl
    simpa [Sh.heads, Token.first] using disjoint c mem

theorem Follows.nil : Follows N [] := fun _ h => nomatch h

theorem Follows.cons {c : Char} (mem : c ∈ N.follow) : Follows N (.symbol c :: ts) := by
  intro t h
  cases h
  exact ⟨c, mem, rfl⟩

theorem Follows.mono {M : Nonterminal} (h : Follows N ts) (sub : N.follow ⊆ M.follow) : Follows M ts := by
  intro t first
  obtain ⟨c, mem, rfl⟩ := h t first
  exact ⟨c, sub mem, rfl⟩

/-- A parse that finds `cmd`, and leaves the tokens `rest`, unless it has too little fuel, or `cmd` too many words. -/
def Yields (text : List Char) (cmd : Cmd) (rest : List Token) (o : Outcome Cmd) : Prop :=
  o = .starved ∨ (cmd.Fits ∧ ∃ s', o = .ok cmd s' ∧ Tokens text s' rest) ∨
    (¬cmd.Fits ∧ o = .panic "too many args")

namespace Yields

variable {right : Cmd} {o : Outcome Cmd} {f : Cmd → ℕ → Outcome Cmd}

theorem of_ok (fits : cmd.Fits) (h : Tokens text s rest) : Yields text cmd rest (.ok cmd s) :=
  .inr (.inl ⟨fits, s, rfl, h⟩)

/-- The first command is parsed, and then the parser goes on. -/
theorem bind (h : Yields text cmd us o) (whole : right.Fits → cmd.Fits)
    (next : cmd.Fits → ∀ s', Tokens text s' us → Yields text right rest (f cmd s')) :
    Yields text right rest (o.bind f) := by
  rcases h with rfl | ⟨fits, s', rfl, after⟩ | ⟨many, rfl⟩
  · exact .inl rfl
  · exact next fits s' after
  · exact .inr (.inr ⟨fun fits => many (whole fits), rfl⟩)

end Yields

theorem parseback_yields (nonul : '\x00' ∉ text) (n : ℕ) (fits : cmd.Fits)
    (h : Tokens text s (List.replicate n (.symbol '&') ++ ts)) (stop : heads ['&'] ts = false) :
    Yields text (Cmd.back^[n] cmd) ts (parseback text fuel cmd s) := by
  induction n generalizing s fuel cmd with
  | zero =>
    cases fuel with
    | zero => exact .inl rfl
    | succ fuel =>
      change Tokens text s ts at h
      simp only [parseback, peek_eq ['&'] h (by simp [symbols]), stop]
      exact .of_ok fits h.skip
  | succ n ih =>
    cases fuel with
    | zero => exact .inl rfl
    | succ fuel =>
      change Tokens text s (.symbol '&' :: (List.replicate n (.symbol '&') ++ ts)) at h
      simp only [parseback, peek_eq ['&'] h (by simp [symbols])]
      have fits' : (Cmd.back cmd).Fits := fits
      exact ih fits' (h.take nonul)

theorem heads_args {args : List Arg} (follows : Follows .cmd rest) :
    heads ['<', '>'] (argTokens args ++ rest) = false := by
  cases args with
  | nil => exact follows.heads _ (by simp [Nonterminal.follow])
  | cons a args => rfl

theorem parseargs_yields (nonul : '\x00' ∉ text) (follows : Follows .cmd rest) (args : List Arg) (rs : List Redir)
    (ws : List Place) (few : ws.length < MAXARGS) (h : Tokens text s (argTokens args ++ rest)) :
    Yields text (wrap (rs ++ args.flatMap Arg.redirs) (.exec (ws ++ args.map Arg.word))) rest
      (parseargs text fuel ws.length (wrap rs (.exec ws)) s) := by
  induction args generalizing s fuel rs ws with
  | nil =>
    cases fuel with
    | zero => exact .inl rfl
    | succ fuel =>
      have fits : (wrap rs (.exec ws)).Fits := (fits_wrap rs).mpr (by simp only [Cmd.Fits]; omega)
      simp only [List.flatMap_nil, List.map_nil, List.append_nil]
      change Tokens text s rest at h
      cases rest with
      | nil =>
        obtain ⟨s', after, same⟩ := parseargs_end fuel ws.length (wrap rs (.exec ws)) h
        rw [same]
        exact .of_ok fits after
      | cons t us =>
        obtain ⟨c, mem, rfl⟩ := follows t rfl
        have stop : heads ['|', ')', '&', ';'] (.symbol c :: us) = true := by
          simp only [Nonterminal.follow, List.mem_cons, List.not_mem_nil, or_false] at mem
          rcases mem with rfl | rfl | rfl | rfl <;> rfl
        rw [parseargs_stop h stop]
        exact .of_ok fits h.skip
  | cons a args ih =>
    obtain ⟨w, rs'⟩ := a
    cases fuel with
    | zero => exact .inl rfl
    | succ fuel =>
      change Tokens text s (.word w :: (redirTokens rs' ++ argTokens args) ++ rest) at h
      rw [List.cons_append, List.append_assoc] at h
      obtain ⟨s', after, same⟩ := parseargs_word fuel ws.length (wrap rs (.exec ws)) nonul h
      rw [same]
      have all : rs ++ (⟨w, rs'⟩ :: args : List Arg).flatMap Arg.redirs = rs ++ rs' ++
        args.flatMap Arg.redirs := by simp
      have words : ws ++ (⟨w, rs'⟩ :: args : List Arg).map Arg.word = ws ++ [w] ++ args.map Arg.word := by simp
      rw [all, words]
      split
      case isTrue many =>
        refine .inr (.inr ⟨fun fits => ?_, rfl⟩)
        rw [fits_wrap] at fits
        simp only [Cmd.Fits, List.length_append, List.length_singleton] at fits
        have positive : 0 < MAXARGS := by decide
        omega
      case isFalse more =>
        rcases parseredirs_all fuel ((wrap rs (.exec ws)).push w) nonul rs' after (heads_args follows) with
          starved | ⟨t, ok, next⟩
        · rw [starved]
          exact .inl rfl
        · rw [ok, push_wrap, wrap_append]
          have yields := @ih t fuel (rs ++ rs') (ws ++ [w]) (by simp; omega) next
          rwa [List.length_append] at yields

theorem parseblock_yields (nonul : '\x00' ∉ text) (rs : List Redir) (follows : Follows .cmd rest)
    (h : Tokens text s (.symbol '(' :: us ++ .symbol ')' :: redirTokens rs ++ rest))
    (inner : ∀ fuel s' rest, Follows .line rest → Tokens text s' (us ++ rest) →
      Yields text cmd rest (parseline text fuel s')) :
    Yields text (wrap rs cmd) rest (parseblock text fuel s) := by
  cases fuel with
  | zero => exact .inl rfl
  | succ fuel =>
    have shape : .symbol '(' :: us ++ .symbol ')' :: redirTokens rs ++ rest =
      .symbol '(' :: (us ++ .symbol ')' :: (redirTokens rs ++ rest)) := by simp
    rw [shape] at h
    have found : heads ['('] (.symbol '(' :: (us ++ .symbol ')' :: (redirTokens rs ++ rest))) = true := rfl
    simp only [parseblock, peek_eq ['('] h (by simp [symbols]), found, if_true]
    refine (inner fuel _ _ (.cons (by simp [Nonterminal.follow])) (h.take nonul)).bind (fits_wrap rs).mp
      fun fits s' after => ?_
    have closed : heads [')'] (.symbol ')' :: (redirTokens rs ++ rest)) = true := rfl
    simp only [peek_eq [')'] after (by simp [symbols]), closed, if_true]
    rcases parseredirs_all fuel cmd nonul rs (after.take nonul) (follows.heads _ (by simp [Nonterminal.follow])) with
      starved | ⟨t, ok, next⟩
    · rw [starved]
      exact .inl rfl
    · rw [ok]
      exact .of_ok ((fits_wrap rs).mpr fits) next

theorem parse_yields (nonul : '\x00' ∉ text) (h : Derives N us cmd) :
    ∀ fuel s rest, Follows N rest → Tokens text s (us ++ rest) → Yields text cmd rest (parse text N fuel s) := by
  induction h with
  | line n pipe ih =>
    intro fuel s rest follows start
    cases fuel with
    | zero => exact .inl rfl
    | succ fuel =>
      rw [List.append_assoc] at start
      have next : Follows .pipe (List.replicate n (.symbol '&') ++ rest) := by
        cases n with
        | zero => exact follows.mono (by simp [Nonterminal.follow])
        | succ n => exact .cons (by simp [Nonterminal.follow])
      simp only [parse, parseline]
      refine (ih fuel s _ next start).bind (fits_back n).mp fun fits s' after => ?_
      refine (parseback_yields nonul n fits after (follows.heads _ (by simp [Nonterminal.follow]))).bind id
        fun fits' t after' => ?_
      simp only [peek_eq [';'] after' (by simp [symbols]), follows.heads [';'] (by simp [Nonterminal.follow])]
      exact .of_ok fits' after'.skip
  | @sequence ts us cmd right n pipe line ih ih' =>
    intro fuel s rest follows start
    cases fuel with
    | zero => exact .inl rfl
    | succ fuel =>
      rw [List.append_assoc, List.append_assoc] at start
      have next : Follows .pipe (List.replicate n (.symbol '&') ++ (.symbol ';' :: us ++ rest)) := by
        cases n with
        | zero => exact .cons (by simp [Nonterminal.follow])
        | succ n => exact .cons (by simp [Nonterminal.follow])
      simp only [parse, parseline]
      refine (ih fuel s _ next start).bind (fun fits => (fits_back n).mp fits.1) fun fits s' after => ?_
      refine (parseback_yields nonul n fits after rfl).bind And.left fun fits' t after' => ?_
      have found : heads [';'] (.symbol ';' :: us ++ rest) = true := rfl
      simp only [peek_eq [';'] after' (by simp [symbols]), found, if_true]
      refine (ih' fuel _ rest follows (after'.take nonul)).bind And.right fun fits'' t' after'' => ?_
      exact .of_ok ⟨fits', fits''⟩ after''
  | pipe first ih =>
    intro fuel s rest follows start
    cases fuel with
    | zero => exact .inl rfl
    | succ fuel =>
      simp only [parse, parsepipe]
      refine (ih fuel s rest (follows.mono (by simp [Nonterminal.follow])) start).bind id fun fits s' after => ?_
      simp only [peek_eq ['|'] after (by simp [symbols]), follows.heads ['|'] (by simp [Nonterminal.follow])]
      exact .of_ok fits after.skip
  | @pipeline ts us cmd right first pipe ih ih' =>
    intro fuel s rest follows start
    cases fuel with
    | zero => exact .inl rfl
    | succ fuel =>
      rw [List.append_assoc] at start
      simp only [parse, parsepipe]
      refine (ih fuel s _ (.cons (by simp [Nonterminal.follow])) start).bind And.left fun fits s' after => ?_
      simp only [peek_eq ['|'] after (by simp [symbols])]
      refine (ih' fuel _ rest follows (after.take nonul)).bind And.right fun fits' t after' => ?_
      exact .of_ok ⟨fits, fits'⟩ after'
  | @block ts cmd line rs ih =>
    intro fuel s rest follows start
    cases fuel with
    | zero => exact .inl rfl
    | succ fuel =>
      have found : heads ['('] (.symbol '(' :: ts ++ .symbol ')' :: redirTokens rs ++ rest) = true := rfl
      simp only [parse, parseexec, peek_eq ['('] start (by simp [symbols]), found, if_true]
      exact parseblock_yields nonul rs follows start.skip ih
  | simple rs args =>
    intro fuel s rest follows start
    cases fuel with
    | zero => exact .inl rfl
    | succ fuel =>
      rw [List.append_assoc] at start
      have other : heads ['('] (redirTokens rs ++ (argTokens args ++ rest)) = false := by
        cases rs with
        | nil =>
          cases args with
          | nil => exact follows.heads _ (by simp [Nonterminal.follow])
          | cons a args => rfl
        | cons r rs =>
          obtain ⟨d, file⟩ := r
          cases d <;> rfl
      simp only [parse, parseexec, peek_eq ['('] start (by simp [symbols]), other]
      rcases parseredirs_all fuel (.exec []) nonul rs start.skip (heads_args follows) with starved | ⟨t, ok, next⟩
      · rw [starved]
        exact .inl rfl
      · rw [ok]
        exact parseargs_yields nonul follows args rs [] (by decide) next

end Xv6Labs.Sh
