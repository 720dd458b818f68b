import Xv6Labs.Param

/-!
# `primes.c`

Each process goes through `primes`, the `wait` behind it and `exit`. A step of a process is one system call, with the
code up to the next one; only a `printf`, which writes its line byte by byte, is one step with the `pipe` before it or
the `return` behind it. A call that sleeps makes no step until what it sleeps for has come: data or the end of file for
`read`, room for `write`, the exit of a child for `wait`. `pipe` and `fork` succeed, and nobody is killed. The numbers
are `int`s that are not negative.
-/

namespace Xv6Labs.Primes

abbrev pipesize : ℕ := 512

/-- `printf("prime %d\n", temp)`, and `printf("prime %d", *num)` for the last one. -/
structure Line where
  number : ℕ
  newline : Bool
  deriving DecidableEq

inductive Pc where
  -- `primes(num, count)`
  | call (num : List ℕ) (count : ℕ)
  | fork (num : List ℕ) (count p : ℕ)
  -- `close(p[1])` of the child
  | closeWrite (num : List ℕ) (temp p : ℕ)
  -- `read(p[0], &buf, 4)`
  | read (num : List ℕ) (temp p counter : ℕ) (buf : List UInt8)
  -- The head of the loop over `i`
  | write (num : List ℕ) (count p i : ℕ)
  -- `write(p[1], &k, 4)`, with the bytes that are not in the pipe yet
  | send (num : List ℕ) (count p i : ℕ) (left : List UInt8)
  | wait
  | exit (status : ℕ)
  | zombie (status : ℕ)
  | reaped

def Pc.isReaped : Pc → Bool
  | .reaped => true
  | _ => false

def Pc.isZombie : Pc → Bool
  | .zombie _ => true
  | _ => false

/-- A descriptor is a pipe and whether it is its write end. -/
structure Proc where
  pc : Pc
  fds : List (ℕ × Bool) := []
  parent : Option ℕ := none

/-- There are `born` processes and `made` pipes so far. -/
structure State where
  procs : ℕ → Proc
  born : ℕ
  pipes : ℕ → List UInt8
  made : ℕ
  out : List Line

def intBytes (n : ℕ) : List UInt8 :=
  [UInt8.ofNat n, UInt8.ofNat (n / 256), UInt8.ofNat (n / 256 ^ 2), UInt8.ofNat (n / 256 ^ 3)]

def ofBytes : List UInt8 → ℕ
  | [] => 0
  | b :: bs => b.toNat + 256 * ofBytes bs

/-- Somebody has a descriptor for this end of pipe `p`. -/
def State.isOpen (s : State) (p : ℕ) (writable : Bool) : Bool :=
  (List.range s.born).any fun i => (s.procs i).fds.contains (p, writable)

/-- What `piperead` returns and what it leaves in the pipe; `none` if it sleeps. -/
def piperead (data : List UInt8) (writeopen : Bool) (n : ℕ) : Option (List UInt8 × List UInt8) :=
  if data = [] ∧ writeopen then none else some (data.take n, data.drop n)

/-- What `pipewrite` leaves in the pipe, and what it has still to write; `some none` if it fails, `none` if it
sleeps. -/
def pipewrite (data : List UInt8) (readopen : Bool) (left : List UInt8) : Option (Option (List UInt8 × List UInt8)) :=
  let room := pipesize - data.length
  if room = 0 then if readopen then none else some none
  else some (some (data ++ left.take room, left.drop room))

namespace State

def goto (s : State) (k : ℕ) (pc : Pc) : State :=
  { s with procs := Function.update s.procs k { s.procs k with pc := pc } }

def setFds (s : State) (k : ℕ) (fds : List (ℕ × Bool)) : State :=
  { s with procs := Function.update s.procs k { s.procs k with fds := fds } }

def setPipe (s : State) (p : ℕ) (data : List UInt8) : State := { s with pipes := Function.update s.pipes p data }

def print (s : State) (line : Line) : State := { s with out := s.out ++ [line] }

def close (s : State) (k : ℕ) (fd : ℕ × Bool) : State := s.setFds k ((s.procs k).fds.erase fd)

def makePipe (s : State) (k : ℕ) : State :=
  { (s.setFds k ((s.procs k).fds ++ [(s.made, false), (s.made, true)])).setPipe s.made [] with made := s.made + 1 }

def forkTo (s : State) (k : ℕ) (pc : Pc) : State :=
  { s with procs := Function.update s.procs s.born ⟨pc, (s.procs k).fds, some k⟩, born := s.born + 1 }

def isChild (s : State) (k i : ℕ) : Bool := (s.procs i).parent == some k && !(s.procs i).pc.isReaped

def isZombie (s : State) (k i : ℕ) : Bool := (s.procs i).parent == some k && (s.procs i).pc.isZombie

end State

/-- What the child does with an `int` that it has read. -/
def keep (num : List ℕ) (temp counter n : ℕ) : List ℕ × ℕ :=
  if n % temp ≠ 0 then (num.set counter n, counter + 1) else (num, counter)

/-- A step of process `k`; `none` if it sleeps or is not running. -/
def step (s : State) (k : ℕ) : Option State :=
  match (s.procs k).pc with
  | .call num count =>
    if count = 1 then some ((s.print ⟨num.headD 0, false⟩).goto k .wait)
    else some (((s.makePipe k).print ⟨num.headD 0, true⟩).goto k (.fork num count s.made))
  | .fork num count p => some ((s.forkTo k (.closeWrite num (num.headD 0) p)).goto k (.write num count p 1))
  | .closeWrite num temp p => some ((s.close k (p, true)).goto k (.read num temp p 0 [0, 0, 0, 0]))
  | .read num temp p counter buf =>
    match piperead (s.pipes p) (s.isOpen p true) 4 with
    | none => none
    | some (bytes, rest) =>
      if bytes = [] then some (s.goto k (.call num counter))
      else
        let buf := bytes ++ buf.drop bytes.length
        let kept := keep num temp counter (ofBytes buf)
        some ((s.setPipe p rest).goto k (.read kept.1 temp p kept.2 buf))
  | .write num count p i =>
    if i < count then some (s.goto k (.send num count p i (intBytes (num.getD i 0))))
    else some ((s.close k (p, true)).goto k .wait)
  | .send num count p i left =>
    match pipewrite (s.pipes p) (s.isOpen p false) left with
    | none => none
    -- `"write error from parent\n"`
    | some none => some (s.goto k (.exit 1))
    | some (some (data, left)) =>
      if left = [] then some ((s.setPipe p data).goto k (.write num count p (i + 1)))
      else some ((s.setPipe p data).goto k (.send num count p i left))
  | .wait =>
    if (List.range s.born).any (s.isChild k) then
      match (List.range s.born).find? (s.isZombie k) with
      | none => none
      | some i => some ((s.goto i .reaped).goto k (.exit 0))
    else some (s.goto k (.exit 0))
  | .exit status => some ((s.setFds k []).goto k (.zombie status))
  | .zombie _ => none
  | .reaped => none

/-- `primes(num, count)` in the first process. -/
def start (num : List ℕ) : State where
  procs := fun k => if k = 0 then { pc := .call num num.length } else { pc := .reaped }
  born := 1
  pipes := fun _ => []
  made := 0
  out := []

def Step (s s' : State) : Prop := ∃ k, step s k = some s'

end Xv6Labs.Primes
