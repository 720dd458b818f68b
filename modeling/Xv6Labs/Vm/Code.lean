import Xv6Labs.Vm.Memory

/-!
# `vm.c`

The page-table code of the fourth lab. A loop over pages has at most `rounds` rounds, which is more than the pages of a
64-bit address space; one that needs more does not end.
-/

namespace Xv6Labs.Vm

open Faults

def rounds : ℕ := 2 ^ 53

def endless {α : Type} : Code α := fails .endless

def onlyIf (c : Prop) [Decidable c] (p : Code Unit) : Code Unit := if c then p else pure ()

def panicIf (c : Prop) [Decidable c] (text : String) : Code Unit := onlyIf c (panic text)

/-! ### Walking and mapping -/

def walkFrom (va : ℕ) (alloc : Bool) : (level pagetable : ℕ) → Code (Option PteAddr)
  | 0, pagetable => pure (some (pagetable, px 0 va))
  | level + 1, pagetable => do
    let pte ← load (pagetable, px (level + 1) va)
    if pte &&& pteV ≠ 0 then
      walkFrom va alloc level (pte2pa pte)
    else if alloc = true then
      let page ← kalloc
      match page with
      | none => pure none
      | some page => do
        memset page 0
        store (pagetable, px (level + 1) va) (pa2pte page ||| pteV)
        walkFrom va alloc level page
    else
      pure none

def walk (pagetable va : ℕ) (alloc : Bool) : Code (Option PteAddr) :=
  if maxva ≤ va then panic "walk" else walkFrom va alloc 2 pagetable

def walkaddr (pagetable va : ℕ) : Code ℕ :=
  if maxva ≤ va then pure 0
  else do
    let pte ← walk pagetable va false
    match pte with
    | none => pure 0
    | some pte => do
      let e ← load pte
      if e &&& pteV = 0 then pure 0
      else if e &&& pteU = 0 then pure 0
      else pure (pte2pa e)

def mapFrom (pagetable last perm : ℕ) : (fuel a pa : ℕ) → Code ℤ
  | 0, _, _ => endless
  | fuel + 1, a, pa => do
    let pte ← walk pagetable a true
    match pte with
    | none => pure (-1)
    | some pte => do
      let e ← load pte
      panicIf (e &&& pteV ≠ 0) "remap"
      store pte (pa2pte pa ||| perm ||| pteV)
      if a = last then pure 0
      else mapFrom pagetable last perm fuel (wrap (a + pgsize)) (wrap (pa + pgsize))

def mappages (pagetable va size pa perm : ℕ) : Code ℤ :=
  mapFrom pagetable (pgrounddown (wrap (va + size + 2 ^ 64 - 1))) perm rounds (pgrounddown va) pa

def unmapFrom (pagetable bound : ℕ) (doFree : Bool) : (fuel a : ℕ) → Code Unit
  | 0, _ => endless
  | fuel + 1, a =>
    if a < bound then do
      let pte ← walk pagetable a false
      match pte with
      | none => panic "uvmunmap: walk"
      | some pte => do
        let e ← load pte
        panicIf (e &&& pteV = 0) "uvmunmap: not mapped"
        panicIf (pteFlags e = pteV) "uvmunmap: not a leaf"
        onlyIf (doFree = true) (kfree (pte2pa e))
        store pte 0
        unmapFrom pagetable bound doFree fuel (wrap (a + pgsize))
    else pure ()

def uvmunmap (pagetable va npages : ℕ) (doFree : Bool) : Code Unit := do
  panicIf (va % pgsize ≠ 0) "uvmunmap: not aligned"
  unmapFrom pagetable (wrap (va + npages * pgsize)) doFree rounds va

/-! ### Growing and shrinking -/

def uvmcreate : Code ℕ := do
  let pagetable ← kalloc
  match pagetable with
  | none => pure 0
  | some pagetable => do
    memset pagetable 0
    pure pagetable

/-- The conversion from `int` to `uint64`, after one from `uint64` to `int`. -/
def throughInt (n : ℕ) : ℕ := if n % 2 ^ 32 < 2 ^ 31 then n % 2 ^ 32 else 2 ^ 64 - 2 ^ 32 + n % 2 ^ 32

def uvmdealloc (pagetable oldsz newsz : ℕ) : Code ℕ :=
  if oldsz ≤ newsz then pure oldsz
  else do
    onlyIf (pgroundup newsz < pgroundup oldsz)
      (uvmunmap pagetable (pgroundup newsz) (throughInt ((pgroundup oldsz - pgroundup newsz) / pgsize)) true)
    pure newsz

def userPerm : ℕ := pteW ||| pteX ||| pteR ||| pteU

def allocFrom (pagetable oldsz newsz : ℕ) : (fuel a : ℕ) → Code ℕ
  | 0, _ => endless
  | fuel + 1, a =>
    if a < newsz then do
      let mem ← kalloc
      match mem with
      | none => do
        let _ ← uvmdealloc pagetable a oldsz
        pure 0
      | some mem => do
        memset mem 0
        let r ← mappages pagetable a pgsize mem userPerm
        if r ≠ 0 then
          kfree mem
          let _ ← uvmdealloc pagetable a oldsz
          pure 0
        else allocFrom pagetable oldsz newsz fuel (wrap (a + pgsize))
    else pure newsz

def uvmalloc (pagetable oldsz newsz : ℕ) : Code ℕ :=
  if newsz < oldsz then pure oldsz
  else allocFrom pagetable (pgroundup oldsz) newsz rounds (pgroundup oldsz)

/-! ### Freeing -/

def each {α : Type} (f : α → Code Unit) : List α → Code Unit
  | [] => pure ()
  | x :: rest => do
    f x
    each f rest

def leafBits : ℕ := pteR ||| pteW ||| pteX

/-- What `freewalk` and `Pfreewalk` share, `fuel` calls deep; `leaf` is what they do with an entry that is a leaf. -/
def freeTables (leaf : PteAddr → Code Unit) : (fuel pagetable : ℕ) → Code Unit
  | 0, _ => endless
  | fuel + 1, pagetable => do
    each (fun i => do
      let pte ← load (pagetable, i)
      if pte &&& pteV ≠ 0 ∧ pte &&& leafBits = 0 then do
        freeTables leaf fuel (pte2pa pte)
        store (pagetable, i) 0
      else onlyIf (pte &&& pteV ≠ 0) (leaf (pagetable, i))) (List.finRange 512)
    kfree pagetable

def freewalk (pagetable : ℕ) : Code Unit := freeTables (fun _ => panic "freewalk: leaf") rounds pagetable

def pfreewalk (pagetable : ℕ) : Code Unit := freeTables (fun pte => store pte 0) rounds pagetable

def uvmfree (pagetable sz : ℕ) : Code Unit := do
  onlyIf (0 < sz) (uvmunmap pagetable 0 (pgroundup sz / pgsize) true)
  freewalk pagetable

def procPagetable (frame : ℕ) : Code ℕ := do
  let pagetable ← uvmcreate
  if pagetable = 0 then pure 0
  else do
    let text ← reads fun m => m.image.trampoline
    let r ← mappages pagetable trampoline pgsize text (pteR ||| pteX)
    if r < 0 then do
      uvmfree pagetable 0
      pure 0
    else do
      let r ← mappages pagetable trapframe pgsize frame (pteR ||| pteW)
      if r < 0 then do
        uvmunmap pagetable trampoline 1 false
        uvmfree pagetable 0
        pure 0
      else pure pagetable

def procFreepagetable (pagetable sz : ℕ) : Code Unit := do
  uvmunmap pagetable trampoline 1 false
  uvmunmap pagetable trapframe 1 false
  uvmfree pagetable sz

/-! ### Copying an address space -/

/-- The loop of `Puvmcopy`: nothing if all is mapped, and else the `i` at the label `err`. -/
def pcopyFrom (old new sz : ℕ) : (fuel i : ℕ) → Code (Option ℕ)
  | 0, _ => endless
  | fuel + 1, i =>
    if i < sz then do
      let pte ← walk old i false
      match pte with
      | none => panic "uvmcopy: pte should exist"
      | some pte => do
        let e ← load pte
        panicIf (e &&& pteV = 0) "uvmcopy: page not present"
        let r ← mappages new i pgsize (pte2pa e) (pteFlags e &&& (2 ^ 32 - 1 - pteU))
        if r ≠ 0 then pure (some i)
        else pcopyFrom old new sz fuel (wrap (i + pgsize))
    else pure none

def puvmcopy (old new sz : ℕ) : Code ℤ := do
  let err ← pcopyFrom old new sz rounds 0
  match err with
  | none => pure 0
  | some i => do
    uvmunmap new 0 (i / pgsize) true
    pure (-1)

/-- The loop of `uvmcopy`, likewise. -/
def copyFrom (old new sz : ℕ) : (fuel i : ℕ) → Code (Option ℕ)
  | 0, _ => endless
  | fuel + 1, i =>
    if i < sz then do
      let pte ← walk old i false
      match pte with
      | none => panic "uvmcopy: pte should exist"
      | some pte => do
        let e ← load pte
        panicIf (e &&& pteV = 0) "uvmcopy: page not present"
        let mem ← kalloc
        match mem with
        | none => pure (some i)
        | some mem => do
          movePage mem (pte2pa e)
          let r ← mappages new i pgsize mem (pteFlags e)
          if r ≠ 0 then
            kfree mem
            pure (some i)
          else copyFrom old new sz fuel (wrap (i + pgsize))
    else pure none

def uvmcopy (old new sz : ℕ) : Code ℤ := do
  let err ← copyFrom old new sz rounds 0
  match err with
  | none => pure 0
  | some i => do
    uvmunmap new 0 (i / pgsize) true
    pure (-1)

def uvmclear (pagetable va : ℕ) : Code Unit := do
  let pte ← walk pagetable va false
  match pte with
  | none => panic "uvmclear"
  | some pte => do
    let e ← load pte
    store pte (e &&& (2 ^ 64 - 1 - pteU))

/-! ### Copying between kernel and user -/

/-- `memmove` of `bytes` to the address `pa + off`, within the page at `pa` -/
def writeBytes (pa off : ℕ) (bytes : List UInt8) : Code Unit :=
  writes fun m => m.setPage pa (setBytes (m.page pa) off bytes)

def readBytes (pa off n : ℕ) : Code (List UInt8) := reads fun m => (List.range n).map fun k => byte
    (m.page pa) (off + k)

/-- `src` is what is left to copy, so that `len` is its length. -/
def copyoutFrom (pagetable : ℕ) : (fuel dstva : ℕ) → (src : List UInt8) → Code ℤ
  | 0, _, _ => endless
  | fuel + 1, dstva, src =>
    if 0 < src.length then do
      let pa0 ← walkaddr pagetable (pgrounddown dstva)
      if pa0 = 0 then pure (-1)
      else
        writeBytes pa0 (dstva - pgrounddown dstva) (src.take (min (pgsize - (dstva - pgrounddown dstva)) src.length))
        copyoutFrom pagetable fuel (wrap (pgrounddown dstva + pgsize))
          (src.drop (min (pgsize - (dstva - pgrounddown dstva)) src.length))
    else pure 0

def copyout (pagetable dstva : ℕ) (src : List UInt8) : Code ℤ := copyoutFrom pagetable rounds dstva src

/-- The result, and the bytes that are at `dst` then. -/
def copyinFrom (pagetable : ℕ) : (fuel srcva len : ℕ) → (dst : List UInt8) → Code (ℤ × List UInt8)
  | 0, _, _, _ => endless
  | fuel + 1, srcva, len, dst =>
    if 0 < len then do
      let pa0 ← walkaddr pagetable (pgrounddown srcva)
      if pa0 = 0 then pure (-1, dst)
      else
        let bytes ← readBytes pa0 (srcva - pgrounddown srcva) (min (pgsize - (srcva - pgrounddown srcva)) len)
        copyinFrom pagetable fuel (wrap (pgrounddown srcva + pgsize))
          (len - min (pgsize - (srcva - pgrounddown srcva)) len) (dst ++ bytes)
    else pure (0, dst)

def copyin (pagetable srcva len : ℕ) : Code (ℤ × List UInt8) := copyinFrom pagetable rounds srcva len []

/-- The inner loop of `copyinstr`: `got_null`, `max` and `dst` after it. -/
def scan (pg : Page) : (n off max : ℕ) → (dst : List UInt8) → Bool × ℕ × List UInt8
  | 0, _, max, dst => (false, max, dst)
  | n + 1, off, max, dst =>
    if byte pg off = 0 then (true, max, dst ++ [0])
    else scan pg n (off + 1) (max - 1) (dst ++ [byte pg off])

/-- What `copyinstr` returns, the bytes at `dst`, and the pages that it has read. -/
structure Copied where
  result : ℤ
  dst : List UInt8
  pages : List ℕ

def copyinstrFrom (pagetable : ℕ) : (fuel srcva max : ℕ) → (dst : List UInt8) → (pages : List ℕ) → Code Copied
  | 0, _, _, _, _ => endless
  | fuel + 1, srcva, max, dst, pages =>
    if 0 < max then do
      let pa0 ← walkaddr pagetable (pgrounddown srcva)
      if pa0 = 0 then pure ⟨-1, dst, pages⟩
      else
        let pg ← reads fun m => m.page pa0
        let (gotNull, max, dst) :=
          scan pg (min (pgsize - (srcva - pgrounddown srcva)) max) (srcva - pgrounddown srcva) max dst
        if gotNull = true then pure ⟨0, dst, pages ++ [pgrounddown srcva]⟩
        else copyinstrFrom pagetable fuel (wrap (pgrounddown srcva + pgsize)) max dst (pages ++ [pgrounddown srcva])
    else pure ⟨-1, dst, pages⟩

def copyinstr (pagetable srcva max : ℕ) : Code Copied := copyinstrFrom pagetable rounds srcva max [] []

/-! ### The size of a process -/

/-- The fields of `struct proc` that `growproc` uses. -/
structure Proc where
  pagetable : ℕ
  sz : ℕ

/-- The conversion to `uint`. -/
def toUint (n : ℤ) : ℕ := (n % 2 ^ 32).toNat

def growproc (p : Proc) (n : ℤ) : Code (ℤ × Proc) :=
  if 0 < n then do
    let sz ← uvmalloc p.pagetable (toUint p.sz) (toUint (toUint p.sz + n))
    if toUint sz = 0 then pure (-1, p)
    else pure (0, { p with sz := toUint sz })
  else if n < 0 then do
    let sz ← uvmdealloc p.pagetable (toUint p.sz) (toUint (toUint p.sz + n))
    pure (0, { p with sz := toUint sz })
  else pure (0, { p with sz := toUint p.sz })

/-! ### Strings of system calls -/

/-- `strlen(s)` for the bytes at `s`; without a null byte among them it reads on. -/
def strlen : List UInt8 → Option ℕ
  | [] => none
  | b :: s => if b = 0 then some 0 else (strlen s).map (· + 1)

/-- The result, and the bytes at `buf`. -/
def fetchstr (pagetable addr max : ℕ) : Code (ℤ × List UInt8) := do
  let err ← copyinstr pagetable addr max
  if err.result < 0 then pure (err.result, err.dst)
  else
    match strlen err.dst with
    | none => endless
    | some n => pure (n, err.dst)

end Xv6Labs.Vm
