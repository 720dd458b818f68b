import Mathlib

/-!
# The parser of the shell

`sh.c` parses a command line in place: `s` is a position in the line, `es` its end, and a command holds the places of
its words in the text. `nulterminate` then writes a NUL after each of them. A parse that runs out of `fuel` is
`starved`; all loops and all recursive calls take fuel.
-/

namespace Xv6Labs.Sh

def MAXARGS : ℕ := 10

def O_RDONLY : ℕ := 0x000
def O_WRONLY : ℕ := 0x001
def O_CREATE : ℕ := 0x200
def O_TRUNC : ℕ := 0x400

def whitespace : List Char := [' ', '\t', '\r', '\n', '\x0b']

def symbols : List Char := ['<', '|', '>', '&', ';', '(', ')']

/-- A string inside the line, from `q` up to `eq`. -/
structure Place where
  q : ℕ
  eq : ℕ
deriving DecidableEq, Repr

inductive Cmd where
  | exec (argv : List Place)
  | redir (cmd : Cmd) (file : Place) (mode fd : ℕ)
  | pipe (left right : Cmd)
  | list (left right : Cmd)
  | back (cmd : Cmd)
deriving DecidableEq, Repr

/-- Another argument for the `execcmd` below the redirections. -/
def Cmd.push (w : Place) : Cmd → Cmd
  | .exec argv => .exec (argv ++ [w])
  | .redir cmd file mode fd => .redir (cmd.push w) file mode fd
  | cmd => cmd

/-- `exit` has printed `message` on the standard error. -/
inductive Outcome (α : Type) where
  | ok (value : α) (s : ℕ)
  | exit (message : String)
  | starved
deriving DecidableEq, Repr

namespace Outcome

variable {α β : Type}

def bind : Outcome α → (α → ℕ → Outcome β) → Outcome β
  | ok a s, f => f a s
  | exit message, _ => exit message
  | starved, _ => starved

def panic (s : String) : Outcome α := exit (s ++ "\n")

end Outcome

section

variable (text : List Char)

def deref (s : ℕ) : Char := text.getD s '\x00'

/-- `while(s < es && p(*s)) s++` -/
def skip (p : Char → Bool) (s : ℕ) : ℕ := s + ((text.drop s).takeWhile p).length

def isSpace (c : Char) : Bool := whitespace.contains c

def isLetter (c : Char) : Bool := !whitespace.contains c && !symbols.contains c

structure Got where
  ret : Char
  place : Place
  s : ℕ

def gettoken (s : ℕ) : Got :=
  let q := skip text isSpace s
  let c := deref text q
  let (ret, eq) :=
    if c = '\x00' then (c, q)
    else if ['|', '(', ')', ';', '&', '<'].contains c then (c, q + 1)
    else if c = '>' then
      if deref text (q + 1) = '>' then ('+', q + 2) else (c, q + 1)
    else ('a', skip text isLetter q)
  { ret, place := { q, eq }, s := skip text isSpace eq }

def peek (s : ℕ) (toks : List Char) : Bool × ℕ :=
  let s := skip text isSpace s
  (deref text s != '\x00' && toks.contains (deref text s), s)

def parseredirs : ℕ → Cmd → ℕ → Outcome Cmd
  | 0, _, _ => .starved
  | fuel + 1, cmd, s =>
    let (found, s) := peek text s ['<', '>']
    if found then
      let tok := gettoken text s
      let file := gettoken text tok.s
      if file.ret ≠ 'a' then .panic "missing file for redirection"
      else if tok.ret = '<' then parseredirs fuel (.redir cmd file.place O_RDONLY 0) file.s
      else if tok.ret = '>' then parseredirs fuel (.redir cmd file.place (O_WRONLY ||| O_CREATE ||| O_TRUNC) 1) file.s
      else if tok.ret = '+' then parseredirs fuel (.redir cmd file.place (O_WRONLY ||| O_CREATE) 1) file.s
      else parseredirs fuel cmd file.s
    else .ok cmd s

/-- The loop of `parseexec`. -/
def parseargs : ℕ → ℕ → Cmd → ℕ → Outcome Cmd
  | 0, _, _, _ => .starved
  | fuel + 1, argc, ret, s =>
    let (found, s) := peek text s ['|', ')', '&', ';']
    if found then .ok ret s
    else
      let tok := gettoken text s
      if tok.ret = '\x00' then .ok ret tok.s
      else if tok.ret ≠ 'a' then .panic "syntax"
      else if argc + 1 ≥ MAXARGS then .panic "too many args"
      else (parseredirs text fuel (ret.push tok.place) tok.s).bind fun ret s => parseargs fuel (argc + 1) ret s

/-- The loop of `parseline`. -/
def parseback : ℕ → Cmd → ℕ → Outcome Cmd
  | 0, _, _ => .starved
  | fuel + 1, cmd, s =>
    let (found, s) := peek text s ['&']
    if found then parseback fuel (.back cmd) (gettoken text s).s else .ok cmd s

mutual

def parseline : ℕ → ℕ → Outcome Cmd
  | 0, _ => .starved
  | fuel + 1, s =>
    (parsepipe fuel s).bind fun cmd s =>
    (parseback text fuel cmd s).bind fun cmd s =>
      let (found, s) := peek text s [';']
      if found then (parseline fuel (gettoken text s).s).bind fun right s => .ok (.list cmd right) s
      else .ok cmd s
termination_by structural fuel => fuel

def parsepipe : ℕ → ℕ → Outcome Cmd
  | 0, _ => .starved
  | fuel + 1, s =>
    (parseexec fuel s).bind fun cmd s =>
      let (found, s) := peek text s ['|']
      if found then (parsepipe fuel (gettoken text s).s).bind fun right s => .ok (.pipe cmd right) s
      else .ok cmd s
termination_by structural fuel => fuel

def parseexec : ℕ → ℕ → Outcome Cmd
  | 0, _ => .starved
  | fuel + 1, s =>
    let (found, s) := peek text s ['(']
    if found then parseblock fuel s
    else (parseredirs text fuel (.exec []) s).bind fun ret s => parseargs text fuel 0 ret s
termination_by structural fuel => fuel

def parseblock : ℕ → ℕ → Outcome Cmd
  | 0, _ => .starved
  | fuel + 1, s =>
    let (found, s) := peek text s ['(']
    if found then
      (parseline fuel (gettoken text s).s).bind fun cmd s =>
        let (found, s) := peek text s [')']
        if found then parseredirs text fuel cmd (gettoken text s).s else .panic "syntax - missing )"
    else .panic "parseblock"
termination_by structural fuel => fuel

end

end

def nulterminate : Cmd → List Char → List Char
  | .exec argv, buf => argv.foldl (fun buf w => buf.set w.eq '\x00') buf
  | .redir cmd file _ _, buf => (nulterminate cmd buf).set file.eq '\x00'
  | .pipe left right, buf => nulterminate right (nulterminate left buf)
  | .list left right, buf => nulterminate right (nulterminate left buf)
  | .back cmd, buf => nulterminate cmd buf

/-- The command, and the line as it is afterwards. -/
def parsecmd (fuel : ℕ) (text : List Char) : Outcome (Cmd × List Char) :=
  (parseline text fuel 0).bind fun cmd s =>
    let (_, s) := peek text s []
    if s ≠ text.length then .exit ("leftovers: " ++ String.ofList (text.drop s) ++ "\n" ++ "syntax" ++ "\n")
    else .ok (cmd, nulterminate cmd (text ++ ['\x00'])) s

/-- The string at `q`. -/
def cstring (buf : List Char) (q : ℕ) : List Char := (buf.drop q).takeWhile (· ≠ '\x00')

end Xv6Labs.Sh
