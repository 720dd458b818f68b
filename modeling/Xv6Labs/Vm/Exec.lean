import Xv6Labs.Vm.Build

/-!
# `exec.c`

`exec` of the fourth lab, from the inode on: a file is its bytes, fewer than 2^32 of them. What `vmprint` prints for
the first process is left out.
-/

namespace Xv6Labs.Vm

open Faults

def maxarg : ℕ := 32

def elfMagic : ℕ := 0x464C457F

def elfProgLoad : ℕ := 1

def uint (n : ℕ) : ℕ := n % 2 ^ 32

/-- The bytes that `readi` copies; it returns their number. -/
def readi (file : List UInt8) (off n : ℕ) : List UInt8 :=
  if file.length < off ∨ uint (off + n) < off then []
  else if file.length < off + n then (file.drop off).take (file.length - off)
  else (file.drop off).take n

/-- A number in memory, the lowest byte first. -/
def number (bytes : List UInt8) : ℕ := Nat.ofDigits 256 (bytes.map UInt8.toNat)

def field (bytes : List UInt8) (off len : ℕ) : ℕ := number ((bytes.drop off).take len)

/-- What `exec` uses of `struct elfhdr`. -/
structure Elfhdr where
  magic : ℕ
  entry : ℕ
  phoff : ℕ
  phnum : ℕ

def elfhdrSize : ℕ := 64

def elfhdr (bytes : List UInt8) : Elfhdr where
  magic := field bytes 0 4
  entry := field bytes 24 8
  phoff := field bytes 32 8
  phnum := field bytes 56 2

structure Proghdr where
  type : ℕ
  off : ℕ
  vaddr : ℕ
  filesz : ℕ
  memsz : ℕ
  deriving DecidableEq

def proghdrSize : ℕ := 56

def proghdr (bytes : List UInt8) : Proghdr where
  type := field bytes 0 4
  off := field bytes 8 8
  vaddr := field bytes 16 8
  filesz := field bytes 32 8
  memsz := field bytes 40 8

def loadsegFrom (pagetable va : ℕ) (file : List UInt8) (offset sz : ℕ) : (fuel i : ℕ) → Code ℤ
  | 0, _ => endless
  | fuel + 1, i =>
    if i < sz then do
      let pa ← walkaddr pagetable (wrap (va + i))
      panicIf (pa = 0) "loadseg: address should exist"
      let n := if sz - i < pgsize then sz - i else pgsize
      let bytes := readi file (uint (offset + i)) n
      writeBytes pa 0 bytes
      if bytes.length ≠ n then pure (-1) else loadsegFrom pagetable va file offset sz fuel (uint (i + pgsize))
    else pure 0

def loadseg (pagetable va : ℕ) (file : List UInt8) (offset sz : ℕ) : Code ℤ := do
  panicIf (va % pgsize ≠ 0) "loadseg: va must be page aligned"
  loadsegFrom pagetable va file offset sz rounds 0

/-- The loop over the program headers, and `sz` after it; `false` is `goto bad`. -/
def loadSegments (pagetable : ℕ) (file : List UInt8) : (todo off sz : ℕ) → Code (Bool × ℕ)
  | 0, _, sz => pure (true, sz)
  | todo + 1, off, sz =>
    let bytes := readi file off proghdrSize
    let ph := proghdr bytes
    if bytes.length ≠ proghdrSize then pure (false, sz)
    else if ph.type ≠ elfProgLoad then loadSegments pagetable file todo (uint (off + proghdrSize)) sz
    else if ph.memsz < ph.filesz then pure (false, sz)
    else if wrap (ph.vaddr + ph.memsz) < ph.vaddr then pure (false, sz)
    else do
      let sz1 ← uvmalloc pagetable sz (wrap (ph.vaddr + ph.memsz))
      if sz1 = 0 then pure (false, sz)
      else if ph.vaddr % pgsize ≠ 0 then pure (false, sz1)
      else do
        let r ← loadseg pagetable ph.vaddr file (uint ph.off) (uint ph.filesz)
        if r < 0 then pure (false, sz1) else loadSegments pagetable file todo (uint (off + proghdrSize)) sz1

/-- A program that has been loaded, with its stack. -/
structure Loaded where
  pagetable : ℕ
  sz : ℕ
  entry : ℕ

/-- `exec` as far as the stack; `none` is -1. `frame` is `p->trapframe`. -/
def loadImage (frame : ℕ) (file : List UInt8) : Code (Option Loaded) := do
  let bytes := readi file 0 elfhdrSize
  let elf := elfhdr bytes
  if bytes.length ≠ elfhdrSize then pure none
  else if elf.magic ≠ elfMagic then pure none
  else do
    let pagetable ← procPagetable frame
    if pagetable = 0 then pure none
    else do
      let (done, sz) ← loadSegments pagetable file elf.phnum (uint elf.phoff) 0
      if done = false then do
        procFreepagetable pagetable sz
        pure none
      else do
        let sz := pgroundup sz
        let sz1 ← uvmalloc pagetable sz (wrap (sz + 2 * pgsize))
        if sz1 = 0 then do
          procFreepagetable pagetable sz
          pure none
        else do
          uvmclear pagetable (sz1 - 2 * pgsize)
          pure (some ⟨pagetable, sz1, elf.entry⟩)

/-- `sp -= n; sp -= sp % 16;` -/
def push (sp n : ℕ) : ℕ := wrap (sp + 2 ^ 64 - n) - wrap (sp + 2 ^ 64 - n) % 16

def word (x : ℕ) : List UInt8 := (List.range 8).map fun k => UInt8.ofNat (x / 256 ^ k)

/-- `argv` without the null bytes of its strings; the result is `argc` and `sp`, and `none` is `goto bad`. -/
def pushArgs (pagetable stackbase : ℕ) : (argv : List (List UInt8)) → (argc sp : ℕ) → (ustack : List ℕ) →
    Code (Option (ℕ × ℕ))
  | [], argc, sp, ustack => do
    let sp := push sp ((argc + 1) * 8)
    if sp < stackbase then pure none
    else do
      let r ← copyout pagetable sp ((ustack ++ [0]).flatMap word)
      if r < 0 then pure none else pure (some (argc, sp))
  | arg :: argv, argc, sp, ustack => do
    if maxarg ≤ argc then pure none
    else
      let sp := push sp (arg.length + 1)
      if sp < stackbase then pure none
      else do
        let r ← copyout pagetable sp (arg ++ [0])
        if r < 0 then pure none else pushArgs pagetable stackbase argv (argc + 1) sp (ustack ++ [sp])

/-- What `exec` sets of a process, and of its trapframe. -/
structure Running where
  pagetable : ℕ
  sz : ℕ
  trapframe : ℕ
  a1 : ℕ
  epc : ℕ
  sp : ℕ
  name : List UInt8

/-- `last` after the loop over `path` -/
def lastElement (last : List UInt8) : List UInt8 → List UInt8
  | [] => last
  | c :: s => if c = '/'.toUInt8 then lastElement s s else lastElement last s

/-- `safestrcpy(p->name, last, sizeof(p->name))` -/
def safestrcpy (last : List UInt8) : List UInt8 := last.take 15

def exec (p : Running) (path file : List UInt8) (argv : List (List UInt8)) : Code (ℤ × Running) := do
  let loaded ← loadImage p.trapframe file
  match loaded with
  | none => pure (-1, p)
  | some img => do
    let pushed ← pushArgs img.pagetable (img.sz - pgsize) argv 0 img.sz []
    match pushed with
    | none => do
      procFreepagetable img.pagetable img.sz
      pure (-1, p)
    | some (argc, sp) => do
      procFreepagetable p.pagetable p.sz
      pure (argc, { p with
        pagetable := img.pagetable, sz := img.sz, a1 := sp, epc := img.entry, sp, name :=
          safestrcpy (lastElement path path) })

end Xv6Labs.Vm
