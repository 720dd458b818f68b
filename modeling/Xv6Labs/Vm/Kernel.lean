import Xv6Labs.Param
import Xv6Labs.Vm.Code

/-!
# Kernel page tables

In the fourth lab every process has a page table for the kernel too. From the pages that `kinit` has freed, `kvminit`
and `procinit` make the one that the kernel boots with, `Pvminit` and `allocproc` the one of a process, and
`freeproc` frees it. A slot of `proc[]` keeps its kernel stack for ever.
-/

namespace Xv6Labs.Vm

open Faults

def uart0 : ℕ := 0x10000000
def virtio0 : ℕ := 0x10001000
def clint : ℕ := 0x2000000
def plic : ℕ := 0x0c000000

/-- `KSTACK(p)` -/
def kstack (p : ℕ) : ℕ := trampoline - (p + 1) * 2 * pgsize

/-! ### The free list -/

/-- The loop of `freerange`. -/
def freerangeFrom (paEnd : ℕ) : (fuel p : ℕ) → Code Unit
  | 0, _ => fails .endless
  | fuel + 1, p =>
    if p + pgsize ≤ paEnd then do
      kfree p
      freerangeFrom paEnd fuel (p + pgsize)
    else pure ()

def freerange (paStart paEnd : ℕ) : Code Unit := freerangeFrom paEnd rounds (pgroundup paStart)

def kinit : Code Unit := do
  let image ← reads fun m => m.image
  freerange image.kend phystop

/-! ### The page table of the kernel -/

def kvmmap (kernelPagetable va pa sz perm : ℕ) : Code Unit := do
  let r ← mappages kernelPagetable va sz pa perm
  panicIf (r ≠ 0) "kvmmap"

/-- It returns `kernel_pagetable`. -/
def kvminit : Code ℕ := do
  let page ← kalloc
  let kernelPagetable := page.getD 0
  memset kernelPagetable 0
  let image ← reads fun m => m.image
  kvmmap kernelPagetable uart0 uart0 pgsize (pteR ||| pteW)
  kvmmap kernelPagetable virtio0 virtio0 pgsize (pteR ||| pteW)
  kvmmap kernelPagetable clint clint 0x10000 (pteR ||| pteW)
  kvmmap kernelPagetable plic plic 0x400000 (pteR ||| pteW)
  kvmmap kernelPagetable kernbase kernbase (image.etext - kernbase) (pteR ||| pteX)
  kvmmap kernelPagetable image.etext image.etext (phystop - image.etext) (pteR ||| pteW)
  kvmmap kernelPagetable trampoline image.trampoline pgsize (pteR ||| pteX)
  pure kernelPagetable

/-- The loop of `procinit`, and the `p->pa` it sets. -/
def procinitFrom (kernelPagetable : ℕ) : (n p : ℕ) → Code (List ℕ)
  | 0, _ => pure []
  | n + 1, p => do
    let pa ← kalloc
    match pa with
    | none => panic "kalloc"
    | some pa => do
      kvmmap kernelPagetable (kstack p) pa pgsize (pteR ||| pteW)
      let rest ← procinitFrom kernelPagetable n (p + 1)
      pure (pa :: rest)

def procinit (kernelPagetable : ℕ) : Code (List ℕ) := procinitFrom kernelPagetable nproc 0

def kvmpa (kernelPagetable va : ℕ) : Code ℕ := do
  let pte ← walk kernelPagetable va false
  match pte with
  | none => panic "kvmpa"
  | some pte => do
    let e ← load pte
    panicIf (e &&& pteV = 0) "kvmpa"
    pure (wrap (pte2pa e + va % pgsize))

/-! ### The page tables of a process -/

def pvmmap (va pa sz perm pgtbl : ℕ) : Code Unit := do
  let r ← mappages pgtbl va sz pa perm
  panicIf (r ≠ 0) "Pvmmap"

def pvminit : Code ℕ := do
  let page ← kalloc
  let pgtbl := page.getD 0
  memset pgtbl 0
  let image ← reads fun m => m.image
  pvmmap uart0 uart0 pgsize (pteR ||| pteW) pgtbl
  pvmmap virtio0 virtio0 pgsize (pteR ||| pteW) pgtbl
  pvmmap plic plic 0x400000 (pteR ||| pteW) pgtbl
  pvmmap kernbase kernbase (image.etext - kernbase) (pteR ||| pteX) pgtbl
  pvmmap image.etext image.etext (phystop - image.etext) (pteR ||| pteW) pgtbl
  pvmmap trampoline image.trampoline pgsize (pteR ||| pteX) pgtbl
  pure pgtbl

/-- The fields of `struct proc` that point to memory, and `sz`. -/
structure Held where
  trapframe : ℕ
  pagetable : ℕ
  kpgtbl : ℕ
  sz : ℕ
  pa : ℕ

def freeproc (p : Held) : Code Held := do
  onlyIf (p.trapframe ≠ 0) (kfree p.trapframe)
  onlyIf (p.pagetable ≠ 0) (procFreepagetable p.pagetable p.sz)
  onlyIf (p.kpgtbl ≠ 0) (pfreewalk p.kpgtbl)
  pure { p with trapframe := 0, pagetable := 0, kpgtbl := 0, sz := 0 }

/-- `allocproc`, once slot `i` has been found unused: whether it returns the slot, and the slot. -/
def allocproc (i : ℕ) (p : Held) : Code (Bool × Held) := do
  let page ← kalloc
  match page with
  | none => pure (false, { p with trapframe := 0 })
  | some page => do
    let kpgtbl ← pvminit
    if kpgtbl = 0 then do
      let p ← freeproc { p with trapframe := page, kpgtbl := kpgtbl }
      pure (false, p)
    else do
      pvmmap (kstack i) p.pa pgsize (pteR ||| pteW) kpgtbl
      let pagetable ← procPagetable page
      if pagetable = 0 then do
        let p ← freeproc { p with trapframe := page, kpgtbl := kpgtbl, pagetable := pagetable }
        pure (false, p)
      else pure (true, { p with trapframe := page, kpgtbl := kpgtbl, pagetable := pagetable })

namespace Trapframe

/-- The indices of fields of `struct trapframe`, which has 36 words. -/
def epc : Fin 512 := 3
def sp : Fin 512 := 6
def a0 : Fin 512 := 14
def a1 : Fin 512 := 15

end Trapframe

/-- `*(np->trapframe) = *(p->trapframe); np->trapframe->a0 = 0` -/
def copyTrapframe (dst src : ℕ) : Code Unit := do
  writes fun m => m.setPage dst fun i => if i.val < 36 then m.page src i else m.page dst i
  store (dst, Trapframe.a0) 0

/-- `fork` of a process `p` to slot `i`: the memory of the child. -/
def fork (p : Held) (i : ℕ) (np : Held) : Code (Bool × Held) := do
  let (found, np) ← allocproc i np
  if found = true then do
    let r ← uvmcopy p.pagetable np.pagetable p.sz
    if r < 0 then do
      let np ← freeproc np
      pure (false, np)
    else do
      copyTrapframe np.trapframe p.trapframe
      pure (true, { np with sz := p.sz })
  else pure (false, np)

/-! ### The first process -/

def uvminit (pagetable : ℕ) (src : List UInt8) : Code Unit := do
  panicIf (pgsize ≤ src.length) "inituvm: more than a page"
  let page ← kalloc
  let mem := page.getD 0
  memset mem 0
  let _ ← mappages pagetable 0 pgsize mem (pteW ||| pteR ||| pteX ||| pteU)
  writeBytes mem 0 src

def initcode : List UInt8 :=
  [0x17, 0x05, 0x00, 0x00, 0x13, 0x05, 0x45, 0x02, 0x97, 0x05, 0x00, 0x00, 0x93, 0x85, 0x35, 0x02,
   0x93, 0x08, 0x70, 0x00, 0x73, 0x00, 0x00, 0x00, 0x93, 0x08, 0x20, 0x00, 0x73, 0x00, 0x00, 0x00,
   0xef, 0xf0, 0x9f, 0xff, 0x2f, 0x69, 0x6e, 0x69, 0x74, 0x00, 0x00, 0x24, 0x00, 0x00, 0x00, 0x00,
   0x00, 0x00, 0x00, 0x00]

/-- `userinit` with slot `i`. It does not look whether `allocproc` has failed. -/
def userinit (i : ℕ) (p : Held) : Code Held := do
  let (found, p) ← allocproc i p
  if found = true then do
    uvminit p.pagetable initcode
    store (p.trapframe, Trapframe.epc) 0
    store (p.trapframe, Trapframe.sp) pgsize
    pure { p with sz := pgsize }
  else fails .null

end Xv6Labs.Vm
