import Xv6Labs.Param

/-!
# `xargs.c`

`main`, with what it writes to its arrays. `params[0..k-1]` are the strings in `params`, and a child that `exec` does
not replace goes on as the parent of the next one. `malloc` succeeds; whether a `fork` and an `exec` do is up to the
system. `sys_exec` also has no room for more than 31 strings.
-/

namespace Xv6Labs.Xargs

abbrev MAX : ℕ := 100

abbrev maxarg : ℕ := 32

def blank : UInt8 := 32

def newline : UInt8 := 10

def separates (c : UInt8) : Bool := c == blank || c == newline

/-- A write to `params[index]`, or to `param[index]`. -/
inductive Write where
  | params (index : ℕ)
  | param (index : ℕ)
  deriving DecidableEq

/-- `param` has the size of `line`. -/
def Write.InBounds : Write → Prop
  | .params index => index < MAX
  | .param index => index < MAX

/-- What `read` returns. -/
structure Piece where
  bytes : List UInt8
  nonempty : 0 < bytes.length
  short : bytes.length ≤ MAX

structure Child where
  params : List (List UInt8)
  param : List UInt8 := []
  writes : List Write := []

/-- The body of the loop over `line`. -/
def Child.put (c : Child) (b : UInt8) : Child :=
  if separates b then ⟨c.params ++ [c.param], [], c.writes ++ [.param c.param.length, .params c.params.length]⟩
  else ⟨c.params, c.param ++ [b], c.writes ++ [.param c.param.length]⟩

def Child.fill (params : List (List UInt8)) (line : List UInt8) : Child := line.foldl Child.put ⟨params, [], []⟩

/-- The string that starts with the bytes. -/
def string (bytes : List UInt8) : List UInt8 := bytes.takeWhile (· ≠ 0)

/-- Which calls succeed from here on. -/
structure System where
  forks : ℕ → Bool
  execs : ℕ → Bool

def System.next (system : System) : System := ⟨fun n => system.forks (n + 1), fun n => system.execs (n + 1)⟩

structure Run where
  invocations : List (List (List UInt8)) := []
  writes : List Write := []

/-- The loop around `read`, in the parent and in the children that go on. -/
def loop : System → List (List UInt8) → List Piece → Run
  | _, _, [] => {}
  | system, params, piece :: pieces =>
    if system.forks 0 then
      let c := Child.fill params piece.bytes
      let writes := c.writes ++ [.params c.params.length]
      if system.execs 0 ∧ c.params.length < maxarg then ⟨[c.params.map string], writes⟩
      else
        let rest := loop system.next c.params pieces
        ⟨rest.invocations, writes ++ rest.writes⟩
    else {}

/-- `argv[1..]` are the fixed arguments. -/
def main (system : System) (argv : List (List UInt8)) (pieces : List Piece) : Run :=
  let run := loop system argv.tail pieces
  ⟨run.invocations, (List.range argv.tail.length).map .params ++ run.writes⟩

/-! ### The loop over `line` -/

variable {line : List UInt8} {c : Child}

/-- One parameter for each separator. -/
theorem length_params : (line.foldl Child.put c).params.length = c.params.length + line.countP separates := by
  induction line generalizing c with
  | nil => rfl
  | cons b line ih =>
    rw [List.foldl_cons, ih, List.countP_cons]
    by_cases ends : separates b = true
    · rw [Child.put, if_pos ends, if_pos ends, List.length_append, List.length_singleton]
      omega
    · rw [Child.put, if_neg ends, if_neg ends]
      rfl

end Xv6Labs.Xargs
