import Xv6Labs.Sh.Parse

/-!
# Command lines

What a command line means, without the parser: its maximal tokens, and the grammar

    line  ::= pipe '&'* [';' line]
    pipe  ::= cmd ['|' pipe]
    cmd   ::= '(' line ')' redir* | redir* (word redir*)*
    redir ::= ('<' | '>' | '>>') word
-/

namespace Xv6Labs.Sh

inductive Token where
  | symbol (c : Char)
  | append
  | word (place : Place)
deriving DecidableEq

def Letter (c : Char) : Prop := c ∉ whitespace ∧ c ∉ symbols

/-- The maximal tokens of the line from `s` on. -/
inductive Tokens (text : List Char) : ℕ → List Token → Prop where
  | done : Tokens text text.length []
  | blank {s : ℕ} {c : Char} {ts : List Token} (here : text[s]? = some c) (space : c ∈ whitespace)
      (rest : Tokens text (s + 1) ts) : Tokens text s ts
  | symbol {s : ℕ} {c : Char} {ts : List Token} (here : text[s]? = some c) (listed : c ∈ symbols)
      (single : c = '>' → text[s + 1]? ≠ some '>') (rest : Tokens text (s + 1) ts) : Tokens text s (.symbol c :: ts)
  | append {s : ℕ} {ts : List Token} (here : text[s]? = some '>') (again : text[s + 1]? = some '>')
      (rest : Tokens text (s + 2) ts) : Tokens text s (.append :: ts)
  | word {s e : ℕ} {ts : List Token} (nonempty : s < e)
      (letters : ∀ i, s ≤ i → i < e → ∃ c, text[i]? = some c ∧ Letter c) (ends : ∀ c, text[e]? = some c → ¬Letter c)
      (rest : Tokens text e ts) : Tokens text s (.word ⟨s, e⟩ :: ts)

inductive Direction where
  | input
  | output
  | append
deriving DecidableEq

def Direction.token : Direction → Token
  | input => .symbol '<'
  | output => .symbol '>'
  | append => .append

structure Redir where
  direction : Direction
  file : Place

namespace Redir

def tokens (r : Redir) : List Token := [r.direction.token, .word r.file]

def apply (cmd : Cmd) (r : Redir) : Cmd :=
  match r.direction with
  | .input => .redir cmd r.file O_RDONLY 0
  | .output => .redir cmd r.file (O_WRONLY ||| O_CREATE ||| O_TRUNC) 1
  | .append => .redir cmd r.file (O_WRONLY ||| O_CREATE) 1

end Redir

/-- The first redirection is the innermost. -/
def wrap (rs : List Redir) (cmd : Cmd) : Cmd := rs.foldl Redir.apply cmd

def redirTokens (rs : List Redir) : List Token := rs.flatMap Redir.tokens

/-- A word, and the redirections after it. -/
structure Arg where
  word : Place
  redirs : List Redir

def argTokens (args : List Arg) : List Token := args.flatMap fun a => .word a.word :: redirTokens a.redirs

def simple (rs : List Redir) (args : List Arg) : Cmd := wrap (rs ++ args.flatMap Arg.redirs) (.exec (args.map Arg.word))

inductive Nonterminal where
  | line
  | pipe
  | cmd

inductive Derives : Nonterminal → List Token → Cmd → Prop where
  | line {ts : List Token} {cmd : Cmd} (n : ℕ) (pipe : Derives .pipe ts cmd) :
      Derives .line (ts ++ List.replicate n (.symbol '&')) (Cmd.back^[n] cmd)
  | sequence {ts us : List Token} {cmd right : Cmd} (n : ℕ) (pipe : Derives .pipe ts cmd)
      (line : Derives .line us right) :
      Derives .line (ts ++ List.replicate n (.symbol '&') ++ .symbol ';' :: us) (.list (Cmd.back^[n] cmd) right)
  | pipe {ts : List Token} {cmd : Cmd} (first : Derives .cmd ts cmd) : Derives .pipe ts cmd
  | pipeline {ts us : List Token} {cmd right : Cmd} (first : Derives .cmd ts cmd) (pipe : Derives .pipe us right) :
      Derives .pipe (ts ++ .symbol '|' :: us) (.pipe cmd right)
  | block {ts : List Token} {cmd : Cmd} (line : Derives .line ts cmd) (rs : List Redir) :
      Derives .cmd (.symbol '(' :: ts ++ .symbol ')' :: redirTokens rs) (wrap rs cmd)
  | simple (rs : List Redir) (args : List Arg) : Derives .cmd (redirTokens rs ++ argTokens args) (simple rs args)

namespace Cmd

/-- No simple command has more than `MAXARGS - 1` words. -/
def Fits : Cmd → Prop
  | exec argv => argv.length ≤ MAXARGS - 1
  | redir cmd _ _ _ => cmd.Fits
  | pipe left right => left.Fits ∧ right.Fits
  | list left right => left.Fits ∧ right.Fits
  | back cmd => cmd.Fits

/-- All strings of a command. -/
def words : Cmd → List Place
  | exec argv => argv
  | redir cmd file _ _ => cmd.words ++ [file]
  | pipe left right => left.words ++ right.words
  | list left right => left.words ++ right.words
  | back cmd => cmd.words

end Cmd

end Xv6Labs.Sh
