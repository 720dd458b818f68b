import Xv6Labs.Monitor.Run

/-!
# Pipes

`pipe.c`: the ring of `struct pipe` with its two counters, and `pipewrite`, `piperead` and `pipeclose` over the lock of
the pipe. User memory is what a call may copy: `src i` is the byte at `addr + i` if `copyin` finds it, and `dst i` says
whether `copyout` reaches `addr + i`. A loop that goes on for longer than its `fuel` is cut off.
-/

namespace Xv6Labs.Pipes

open Threads Prog Monitor
open Proc (Slot)

def pipeSize : ℕ := 512

inductive Chan where
  | nread
  | nwrite
deriving DecidableEq

/-- A call of `pipewrite`. -/
structure Write where
  caller : Thread
  src : ℕ → Option UInt8
  n : ℤ

/-- What a `piperead` returns, the bytes that it copied out, and the pipe at that moment. -/
structure Read where
  n : ℤ
  result : ℤ
  bytes : List UInt8
  empty : Bool
  writeopen : Bool

/-- `struct pipe`, and from `writes` on its history: the calls of `pipewrite`, every byte stored and the call that
stored it, every byte taken from the ring, the calls of `piperead` that are over, and whether a `pipewrite` has
returned -1 while a process waited for bytes. -/
structure Pipe where
  data : Fin pipeSize → UInt8 := fun _ => 0
  nread : ℕ := 0
  nwrite : ℕ := 0
  readopen : Bool := true
  writeopen : Bool := true
  freed : Bool := false
  writes : List Write := []
  written : List (ℕ × UInt8) := []
  taken : List UInt8 := []
  reads : List Read := []
  missed : Bool := false

/-- `begins`, `leaves` and `returns` only write history. -/
inductive Op where
  | begins (src : ℕ → Option UInt8) (n : ℤ)
  | full
  | empty
  | readopen
  | writeopen
  | store (id : ℕ) (ch : UInt8)
  | take
  | close (writable : Bool)
  | closed
  | kfree
  | leaves
  | returns (n result : ℤ) (bytes : List UInt8)

def Op.Res : Op → Type
  | .begins _ _ => ℕ
  | .full | .empty | .readopen | .writeopen | .closed => Bool
  | .take => UInt8
  | _ => Unit

/-- The values of `uint`. -/
def wrap (n : ℕ) : ℕ := n % 2 ^ 32

def cell (n : ℕ) : Fin pipeSize := ⟨n % pipeSize, Nat.mod_lt _ (by decide)⟩

namespace Pipe

variable (pi : Pipe)

def full : Bool := pi.nwrite == wrap (pi.nread + pipeSize)

def empty : Bool := pi.nread == pi.nwrite

/-- `pi->data[pi->nwrite++ % PIPESIZE] = ch` -/
def store (id : ℕ) (ch : UInt8) : Pipe :=
  { pi with
    data := Function.update pi.data (cell pi.nwrite) ch
    nwrite := wrap (pi.nwrite + 1)
    written := pi.written ++ [(id, ch)] }

/-- `ch = pi->data[pi->nread++ % PIPESIZE]` -/
def take : Pipe := { pi with nread := wrap (pi.nread + 1), taken := pi.taken ++ [pi.data (cell pi.nread)] }

def close (writable : Bool) : Pipe := if writable then { pi with writeopen := false } else { pi with readopen := false }

def returns (n result : ℤ) (bytes : List UInt8) : Pipe :=
  { pi with reads := pi.reads ++ [⟨n, result, bytes, pi.empty, pi.writeopen⟩] }

end Pipe

def perform (t : Thread) : (x : Op) → Pipe → (Slot → Option Chan) → Option (Op.Res x × Pipe)
  | .begins src n, pi, _ => some (pi.writes.length, { pi with writes := pi.writes ++ [⟨t, src, n⟩] })
  | .full, pi, _ => some (pi.full, pi)
  | .empty, pi, _ => some (pi.empty, pi)
  | .readopen, pi, _ => some (pi.readopen, pi)
  | .writeopen, pi, _ => some (pi.writeopen, pi)
  | .store id ch, pi, _ => some ((), pi.store id ch)
  | .take, pi, _ => some (pi.data (cell pi.nread), pi.take)
  | .close writable, pi, _ => some ((), pi.close writable)
  | .closed, pi, _ => some (!pi.readopen && !pi.writeopen, pi)
  | .kfree, pi, _ => some ((), { pi with freed := true })
  | .leaves, pi, waits => some ((), { pi with missed := pi.missed || decide (∃ q, waits q = some .nread) })
  | .returns n result bytes, pi, _ => some ((), pi.returns n result bytes)

abbrev pipe : Object where
  Data := Pipe
  Chan := Chan
  decEq := inferInstance
  Op := Op
  Res := Op.Res
  perform := perform

def look (x : Op) : Code pipe (Op.Res x) := op (O := pipe) x

/-- The right side of `||`, and of `&&`, is read only where the left side does not decide. -/
def orElse (b : Bool) (p : Code pipe Bool) : Code pipe Bool := if b then pure true else p

def andThen (b : Bool) (p : Code pipe Bool) : Code pipe Bool := if b then p else pure false

/-- The `while` of `pipewrite`: whether there is room, or the call is over. -/
def awaitRoom (p : Slot) : ℕ → Code pipe Bool
  | 0 => cut
  | fuel + 1 => do
    let full : Bool ← look .full
    if full = true then
      let readopen : Bool ← look .readopen
      let gone ← orElse (!readopen) killed
      if gone = true then
        pure false
      else
        wakeup (O := pipe) Chan.nread
        sleep (O := pipe) p Chan.nwrite
        awaitRoom p fuel
    else
      pure true

/-- The `for` of `pipewrite`, with `left` rounds to go: the final `i`, or nothing if the call is over. -/
def storeAll (p : Slot) (id : ℕ) (src : ℕ → Option UInt8) (fuel : ℕ) : (left i : ℕ) → Code pipe (Option ℕ)
  | 0, i => pure (some i)
  | left + 1, i => do
    let room ← awaitRoom p fuel
    if room = true then
      match src i with
      | none => pure (some i)
      | some ch => do
        look (.store id ch)
        storeAll p id src fuel left (i + 1)
    else
      pure none

def pipewrite (p : Slot) (src : ℕ → Option UInt8) (n : ℤ) (fuel : ℕ) : Code pipe ℤ := do
  acquire .cond
  let id : ℕ ← look (.begins src n)
  let i ← storeAll p id src fuel n.toNat 0
  match i with
  | none => do
    look .leaves
    release .cond
    pure (-1)
  | some i => do
    wakeup (O := pipe) Chan.nread
    release .cond
    pure i

/-- The `while` of `piperead`: whether it is over, or the caller is killed. -/
def awaitData (p : Slot) : ℕ → Code pipe Bool
  | 0 => cut
  | fuel + 1 => do
    let empty : Bool ← look .empty
    let idle ← andThen empty (look .writeopen)
    if idle = true then
      let dead : Bool ← killed
      if dead = true then
        pure false
      else
        sleep (O := pipe) p Chan.nread
        awaitData p fuel
    else
      pure true

/-- The `for` of `piperead`, with `left` rounds to go and `bytes` copied out. -/
def takeAll (dst : ℕ → Bool) : (left : ℕ) → (bytes : List UInt8) → Code pipe (List UInt8)
  | 0, bytes => pure bytes
  | left + 1, bytes => do
    let empty : Bool ← look .empty
    if empty = true then
      pure bytes
    else
      let ch : UInt8 ← look .take
      if dst bytes.length = true then
        takeAll dst left (bytes ++ [ch])
      else
        pure bytes

def piperead (p : Slot) (dst : ℕ → Bool) (n : ℤ) (fuel : ℕ) : Code pipe ℤ := do
  acquire .cond
  let ready ← awaitData p fuel
  if ready = true then
    let bytes ← takeAll dst n.toNat []
    wakeup (O := pipe) Chan.nwrite
    look (.returns n bytes.length bytes)
    release .cond
    pure (bytes.length : ℤ)
  else
    look (.returns n (-1) [])
    release .cond
    pure (-1)

def pipeclose (writable : Bool) : Code pipe Unit := do
  acquire .cond
  look (.close writable)
  wakeup (O := pipe) (if writable then Chan.nread else Chan.nwrite)
  let closed : Bool ← look .closed
  release .cond
  if closed = true then look .kfree else pure ()

inductive Call where
  | pipewrite (src : ℕ → Option UInt8) (n : ℤ) (fuel : ℕ)
  | piperead (dst : ℕ → Bool) (n : ℤ) (fuel : ℕ)
  | pipeclose (writable : Bool)
  | kill (target : Option Slot)

/-- All user copies of the call succeed. -/
def Call.copies : Call → Bool
  | .pipewrite src n _ => (List.range n.toNat).all fun i => (src i).isSome
  | .piperead dst n _ => (List.range n.toNat).all dst
  | .pipeclose _ | .kill _ => true

def Call.body (p : Slot) : Call → Code pipe Unit
  | .pipewrite src n fuel => Pipes.pipewrite p src n fuel >>= fun _ => pure ()
  | .piperead dst n fuel => Pipes.piperead p dst n fuel >>= fun _ => pure ()
  | .pipeclose writable => Pipes.pipeclose writable
  | .kill target => Monitor.kill target

/-- Any process makes any of the calls, until the pipe is freed; with no `faults`, all user copies succeed. -/
def menu (faults : Bool) : Menu pipe where
  Call := Call
  body
    | .proc p, k => k.body p
    | .intr _, _ => pure ()
  offers
    | .proc _, k, pi => !pi.freed && (faults || k.copies)
    | .intr _, _, _ => false

def boot : Conf Thread (Act pipe) Monitor.Res (Monitor.State pipe) := Menu.start {}

end Xv6Labs.Pipes
