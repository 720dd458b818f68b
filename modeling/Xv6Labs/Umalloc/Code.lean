import Xv6Labs.Lib.Tiles

/-!
# The heap of a user program

`umalloc.c` over the memory that holds its headers: an address is a number, and a header takes 16 bytes. The address
of `base` is a parameter, and so is `sbrk`, which returns an address or -1; the heap remembers what it returned.
A search that runs out of `fuel` has no result.
-/

namespace Xv6Labs.Umalloc

open Tiling

structure Header where
  ptr : ℕ
  size : ℕ
deriving DecidableEq, Repr

/-- `sizeof(Header)` -/
def unit : ℕ := 16

structure Heap where
  mem : ℕ → Header
  freep : ℕ
  got : List Region

namespace Heap

variable (s : Heap)

def ptr (p : ℕ) : ℕ := (s.mem p).ptr

def size (p : ℕ) : ℕ := (s.mem p).size

def setPtr (p q : ℕ) : Heap := { s with mem := Function.update s.mem p { s.mem p with ptr := q } }

def setSize (p n : ℕ) : Heap := { s with mem := Function.update s.mem p { s.mem p with size := n } }

/-- The loop of `free`: the block after which `bp` belongs. -/
def locate (bp : ℕ) : ℕ → ℕ → Option ℕ
  | 0, _ => none
  | fuel + 1, p =>
    if bp > p ∧ bp < s.ptr p then some p
    else if p ≥ s.ptr p ∧ (bp > p ∨ bp < s.ptr p) then some p
    else locate bp fuel (s.ptr p)

/-- Joins `bp` to the block after `p`, or links it to that block. -/
def joinUpper (bp p : ℕ) : Heap :=
  if bp + s.size bp * unit = s.ptr p then
    let s := s.setSize bp ((s.size bp + s.size (s.ptr p)) % 2 ^ 32)
    s.setPtr bp (s.ptr (s.ptr p))
  else s.setPtr bp (s.ptr p)

/-- Joins `p` to `bp`, or links it to `bp`. -/
def joinLower (bp p : ℕ) : Heap :=
  if p + s.size p * unit = bp then
    let s := s.setSize p ((s.size p + s.size bp) % 2 ^ 32)
    s.setPtr p (s.ptr bp)
  else s.setPtr p bp

/-- `free` after its loop. -/
def insert (bp p : ℕ) : Heap := { (s.joinUpper bp p).joinLower bp p with freep := p }

def free (fuel ap : ℕ) : Option Heap :=
  let bp := ap - unit
  (s.locate bp fuel s.freep).map (s.insert bp)

/-- The result is `freep`, or 0. -/
def morecore (sbrk : ℕ → Option ℕ) (fuel nu : ℕ) : Option (ℕ × Heap) :=
  let nu := if nu < 4096 then 4096 else nu
  match sbrk (nu * unit) with
  | none => some (0, s)
  | some p =>
    let s := { s with got := ⟨p, nu * unit⟩ :: s.got }
    let s := s.setSize p nu
    (s.free fuel (p + unit)).map fun s => (s.freep, s)

/-- Takes `nunits` of the block `p`, which comes after `prevp`. -/
def carve (nunits prevp p : ℕ) : ℕ × Heap :=
  if s.size p = nunits then (p + unit, { s.setPtr prevp (s.ptr p) with freep := prevp })
  else
    let s := s.setSize p (s.size p - nunits)
    let p := p + s.size p * unit
    let s := s.setSize p nunits
    (p + unit, { s with freep := prevp })

/-- The loop of `malloc`. -/
def search (sbrk : ℕ → Option ℕ) (nunits : ℕ) : ℕ → ℕ → ℕ → Heap → Option (ℕ × Heap)
  | 0, _, _, _ => none
  | fuel + 1, prevp, p, s =>
    if s.size p ≥ nunits then some (s.carve nunits prevp p)
    else if p = s.freep then
      match s.morecore sbrk fuel nunits with
      | none => none
      | some (p, s) => if p = 0 then some (0, s) else search sbrk nunits fuel p (s.ptr p) s
    else search sbrk nunits fuel p (s.ptr p) s

def init (base : ℕ) : Heap :=
  if s.freep = 0 then { s with freep := base }.setPtr base base |>.setSize base 0 else s

end Heap

def units (nbytes : ℕ) : ℕ := ((nbytes + unit - 1) / unit + 1) % 2 ^ 32

def Heap.malloc (s : Heap) (base : ℕ) (sbrk : ℕ → Option ℕ) (fuel nbytes : ℕ) : Option (ℕ × Heap) :=
  let s := s.init base
  Heap.search sbrk (units nbytes) fuel s.freep (s.ptr s.freep) s

end Xv6Labs.Umalloc
