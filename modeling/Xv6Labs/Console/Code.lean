import Xv6Labs.Console.Editor
import Xv6Labs.Monitor.Run

/-!
# Console input

`console.c`: the input ring with its three indices, `consoleread` of processes and `consoleintr` of the interrupt
handler over `cons.lock`. Whether `either_copyout` reaches the byte at `dst + i` is `dst i`. A loop that goes on for
longer than its `fuel` is cut off.
-/

namespace Xv6Labs.Console

open Threads Prog Monitor
open Proc (Slot)

/-- `&cons.r` -/
inductive Chan where
  | consR
deriving DecidableEq

/-- `cons`, and from `editor` on its history: the characters committed, taken and typed so far; the characters typed
and taken, in order; the callers of `consoleread`; every character that a call has consumed, ^D too; every character
copied out; what calls have returned; and every character echoed. -/
structure Cons where
  buf : Fin inputBuf → UInt8 := fun _ => 0
  r : ℕ := 0
  w : ℕ := 0
  e : ℕ := 0
  editor : Editor := {}
  events : List Event := []
  calls : List Thread := []
  served : List (ℕ × UInt8) := []
  delivered : List UInt8 := []
  returned : List (ℕ × ℤ) := []
  echoed : List ℕ := []

/-- `begins`, `eof`, `returns` and `typed` only write history. -/
inductive Op where
  | begins
  | idle
  | take
  | putBack
  | copyout (id : ℕ) (c : UInt8)
  | eof (id : ℕ)
  | returns (id : ℕ) (result : ℤ)
  | erasable
  | last
  | erase
  | room
  | full
  | store (c : UInt8)
  | commit
  | consputc (c : ℕ)
  | typed (c : UInt8)

def Op.Res : Op → Type
  | .begins => ℕ
  | .idle | .erasable | .room | .full => Bool
  | .take | .last => UInt8
  | _ => Unit

/-- The values of `uint`. -/
def wrap (n : ℕ) : ℕ := n % 2 ^ 32

/-- `a - b` of `uint`. -/
def minus (a b : ℕ) : ℕ := wrap (2 ^ 32 - b + a)

def cell (n : ℕ) : Fin inputBuf := ⟨n % inputBuf, Nat.mod_lt _ (by decide)⟩

namespace Cons

variable (cons : Cons)

/-- `cons.buf[cons.r++ % INPUT_BUF]` -/
def take : Cons := { cons with r := wrap (cons.r + 1), editor := cons.editor.take }

/-- `cons.r--` -/
def putBack : Cons := { cons with r := minus cons.r 1, editor := cons.editor.putBack }

def copyout (id : ℕ) (c : UInt8) : Cons :=
  { cons with served := cons.served ++ [(id, c)], delivered := cons.delivered ++ [c], events := cons.events ++ [.read] }

def eof (id : ℕ) : Cons := { cons with served := cons.served ++ [(id, endOfFile)], events := cons.events ++ [.read] }

def returns (id : ℕ) (result : ℤ) : Cons := { cons with returned := cons.returned ++ [(id, result)] }

/-- `cons.e--` -/
def erase : Cons := { cons with e := minus cons.e 1, editor := cons.editor.erase }

/-- `cons.buf[cons.e++ % INPUT_BUF] = c` -/
def store (c : UInt8) : Cons :=
  { cons with buf := Function.update cons.buf (cell cons.e) c, e := wrap (cons.e + 1), editor := cons.editor.type c }

/-- `cons.w = cons.e` -/
def commit : Cons := { cons with w := cons.e, editor := cons.editor.commit }

def typed (c : UInt8) : Cons := { cons with events := cons.events ++ [.key c] }

end Cons

def perform (t : Thread) : (x : Op) → Cons → Option (Op.Res x × Cons)
  | .begins, cons => some (cons.calls.length, { cons with calls := cons.calls ++ [t] })
  | .idle, cons => some (cons.r == cons.w, cons)
  | .take, cons => some (cons.buf (cell cons.r), cons.take)
  | .putBack, cons => some ((), cons.putBack)
  | .copyout id c, cons => some ((), cons.copyout id c)
  | .eof id, cons => some ((), cons.eof id)
  | .returns id result, cons => some ((), cons.returns id result)
  | .erasable, cons => some (cons.e != cons.w, cons)
  | .last, cons => some (cons.buf (cell (minus cons.e 1)), cons)
  | .erase, cons => some ((), cons.erase)
  | .room, cons => some (decide (minus cons.e cons.r < inputBuf), cons)
  | .full, cons => some (cons.e == wrap (cons.r + inputBuf), cons)
  | .store c, cons => some ((), cons.store c)
  | .commit, cons => some ((), cons.commit)
  | .consputc c, cons => some ((), { cons with echoed := cons.echoed ++ [c] })
  | .typed c, cons => some ((), cons.typed c)

abbrev console : Object where
  Data := Cons
  Chan := Chan
  decEq := inferInstance
  Op := Op
  Res := Op.Res
  perform t x cons _ := perform t x cons

def look (x : Op) : Code console (Op.Res x) := op (O := console) x

/-- The inner `while` of `consoleread`: whether there is input, or the caller is killed. -/
def awaitInput (p : Slot) : ℕ → Code console Bool
  | 0 => cut
  | fuel + 1 => do
    let idle : Bool ← look .idle
    if idle = true then
      let dead : Bool ← killed
      if dead = true then
        pure false
      else
        sleep (O := console) p Chan.consR
        awaitInput p fuel
    else
      pure true

/-- The outer `while` of `consoleread`, for the caller's `n`: the final `n`, or nothing if the caller is killed. -/
def readLine (p : Slot) (id : ℕ) (dst : ℕ → Bool) (target fuel : ℕ) : (n : ℕ) → Code console (Option ℕ)
  | 0 => pure (some 0)
  | n + 1 => do
    let ready ← awaitInput p fuel
    if ready = true then
      let c : UInt8 ← look .take
      if c = endOfFile then
        if n + 1 < target then look .putBack else look (.eof id)
        pure (some (n + 1))
      else if dst (target - (n + 1)) = true then
        look (.copyout id c)
        if c = newline then pure (some n) else readLine p id dst target fuel n
      else
        pure (some (n + 1))
    else
      pure none

def consoleread (p : Slot) (dst : ℕ → Bool) (n : ℤ) (fuel : ℕ) : Code console ℤ := do
  acquire .cond
  let id : ℕ ← look .begins
  let left ← readLine p id dst n.toNat fuel n.toNat
  match left with
  | none => do
    look (.returns id (-1))
    release .cond
    pure (-1)
  | some left => do
    look (.returns id (n.toNat - left : ℕ))
    release .cond
    pure (n.toNat - left : ℕ)

/-- `BACKSPACE` -/
def backspace : ℕ := 0x100

/-- The `while` for ^U. -/
def killLine : ℕ → Code console Unit
  | 0 => cut
  | fuel + 1 => do
    let erasable : Bool ← look .erasable
    if erasable = true then
      let last : UInt8 ← look .last
      if last ≠ newline then
        look .erase
        look (.consputc backspace)
        killLine fuel
      else
        pure ()
    else
      pure ()

def commitLine : Code console Unit := do
  look .commit
  wakeup (O := console) Chan.consR

/-- The default case. -/
def storeChar (c : UInt8) : Code console Unit := do
  let room : Bool ← look .room
  if room = true then
    let c := Editor.unreturned c
    look (.consputc c.toNat)
    look (.store c)
    if c = newline ∨ c = endOfFile then
      commitLine
    else
      let full : Bool ← look .full
      if full = true then commitLine else pure ()
  else
    pure ()

def eraseChar : Code console Unit := do
  let erasable : Bool ← look .erasable
  if erasable = true then
    look .erase
    look (.consputc backspace)
  else
    pure ()

/-- The `switch` of `consoleintr`; `procdump` does not touch the console's input. -/
def handleKey (c : UInt8) (fuel : ℕ) : Code console Unit :=
  if c = control 'P' then pure ()
  else if c = control 'U' then killLine fuel
  else if c = control 'H' ∨ c = delete then eraseChar
  else if c ≠ 0 then storeChar c
  else pure ()

def consoleintr (c : UInt8) (fuel : ℕ) : Code console Unit := do
  acquire .cond
  handleKey c fuel
  look (.typed c)
  release .cond

inductive Call where
  | consoleread (dst : ℕ → Bool) (n : ℤ) (fuel : ℕ)
  | consoleintr (c : UInt8) (fuel : ℕ)
  | kill (target : Option Slot)

/-- Processes read, for a positive `n` and into memory that they can write; interrupts bring characters. -/
def menu : Menu console where
  Call := Call
  body
    | .proc p, .consoleread dst n fuel => consoleread p dst n fuel >>= fun _ => pure ()
    | .intr _, .consoleread _ _ _ => pure ()
    | _, .consoleintr c fuel => consoleintr c fuel
    | _, .kill target => Monitor.kill target
  offers
    | .proc _, .consoleread dst n _, _ => decide (0 < n) && (List.range n.toNat).all dst
    | .intr _, .consoleread _ _ _, _ => false
    | _, _, _ => true

def boot : Conf Thread (Act console) Monitor.Res (Monitor.State console) := Menu.start {}

end Xv6Labs.Console
