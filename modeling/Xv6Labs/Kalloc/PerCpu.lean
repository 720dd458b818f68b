import Mathlib
import Xv6Labs.Param

/-!
# The Lab 3 page allocator

`kalloc.c` of Lab 3 keeps one free list for each CPU. A free page holds the link to the next one in its
first word. The machine below runs any number of threads through `kalloc` and `kfree`, with the reads and
writes of the free lists, the `memset`s and the lock operations as separate steps. A thread may be moved to
another CPU between any two steps, so the CPU it runs on is an argument of each step and matters only where
the code calls `cpuid()`.

`out` is history: the pages that were taken off a free list and not put back, each with the thread that has
it inside a call of `kalloc` or `kfree`, or with `none` while the kernel owns it. The owner of a page
writes to it as it likes.
-/

namespace Xv6Labs.Kalloc.PerCpu

abbrev Tid := ℕ

abbrev pgsize : ℕ := 4096

abbrev kernbase : ℕ := 0x80000000

abbrev phystop : ℕ := kernbase + 128 * 1024 * 1024

def pgroundup (sz : ℕ) : ℕ := (sz + pgsize - 1) / pgsize * pgsize

/-- The kernel image: `kernel.ld` places it at `KERNBASE` and defines `end` as the first address after it. -/
structure Image where
  last : ℕ
  loaded : kernbase ≤ last

/-! ### Free lists

The memory is a function from addresses to the words stored there. -/

structure Heap where
  mem : ℕ → ℕ
  freelist : Fin ncpu → ℕ

namespace Heap

/-- `memset(pa, c, PGSIZE)` for a word `w` that repeats the byte `c`. -/
def memset (h : Heap) (pa w : ℕ) : Heap :=
  { h with mem := fun a => if pa ≤ a ∧ a < pa + pgsize then w else h.mem a }

/-- `r->next = next` -/
def setNext (h : Heap) (r next : ℕ) : Heap := { h with mem := Function.update h.mem r next }

/-- `kmems[cpu].freelist = r` -/
def setFreelist (h : Heap) (cpu : Fin ncpu) (r : ℕ) : Heap :=
  { h with freelist := Function.update h.freelist cpu r }

end Heap

abbrev junkFree : ℕ := 0x0101010101010101

abbrev junkAlloc : ℕ := 0x0505050505050505

/-- The test at the head of `kfree`. -/
def BadPage (image : Image) (pa : ℕ) : Prop := pa % pgsize ≠ 0 ∨ pa < image.last ∨ phystop ≤ pa

instance (image : Image) (pa : ℕ) : Decidable (BadPage image pa) := inferInstanceAs (Decidable (_ ∨ _ ∨ _))

/-! ### Booting

`kinit` runs on CPU 0 before there are other threads: its `kfree` calls run one after the other. `none` is
`panic("kfree")`. -/

def kfree (image : Image) (h : Heap) (cpu : Fin ncpu) (pa : ℕ) : Option Heap :=
  if BadPage image pa then none
  else
    let h := h.memset pa junkFree
    some ((h.setNext pa (h.freelist cpu)).setFreelist cpu pa)

/-- `for(; p + PGSIZE <= (char*)pa_end; p += PGSIZE) kfree(p);` with a bound on the number of rounds. -/
def freerange (image : Image) : ℕ → ℕ → Heap → Option Heap
  | 0, _, h => some h
  | rounds + 1, p, h =>
    if p + pgsize ≤ phystop then (kfree image h 0 p).bind (freerange image rounds (p + pgsize)) else some h

def kinit (image : Image) (mem : ℕ → ℕ) : Option Heap :=
  freerange image (phystop / pgsize) (pgroundup image.last) ⟨mem, fun _ => 0⟩

/-! ### Program points

Where a thread is, by what it does next.
* `kalloc`: `alloc` reads `cpuid()`; `allocAcquire` takes the lock of that CPU's list; `allocRead` is
  `r = kmems[cpu].freelist`; `allocTake` is `if(r) kmems[cpu].freelist = r->next`; `allocRelease` gives the
  lock back; `scanAcquire`, `scanRead`, `scanTake` and `scanRelease` are the same for list `i` of the steal
  loop; `fill` is `memset((char*)r, 5, PGSIZE)`; `ret` is `return (void*)r`.
* `kfree(pa)`: `free` reads `cpuid()` and makes the test, with `panic` for `panic("kfree")`; `freeFill` is
  `memset(pa, 1, PGSIZE)`; `freeAcquire` takes the list's lock; `freeLink` is
  `r->next = kmems[cpu].freelist`; `freePush` is `kmems[cpu].freelist = r`; `freeRelease` gives the lock back.
-/

inductive Pc where
  | idle
  | alloc
  | allocAcquire (cpu : Fin ncpu)
  | allocRead (cpu : Fin ncpu)
  | allocTake (cpu : Fin ncpu) (r : ℕ)
  | allocRelease (cpu : Fin ncpu) (r : ℕ)
  | scanAcquire (i : Fin ncpu)
  | scanRead (i : Fin ncpu)
  | scanTake (i : Fin ncpu) (r : ℕ)
  | scanRelease (i : Fin ncpu) (r : ℕ)
  | fill (r : ℕ)
  | ret (r : ℕ)
  | free (pa : ℕ)
  | freeFill (cpu : Fin ncpu) (pa : ℕ)
  | freeAcquire (cpu : Fin ncpu) (pa : ℕ)
  | freeLink (cpu : Fin ncpu) (pa : ℕ)
  | freePush (cpu : Fin ncpu) (pa : ℕ)
  | freeRelease (cpu : Fin ncpu)
  | panic
  deriving DecidableEq

structure State where
  heap : Heap
  lock : Fin ncpu → Option Tid
  pc : Tid → Pc
  out : List (Option Tid × ℕ)

namespace State

def goto (s : State) (t : Tid) (pc : Pc) : State := { s with pc := Function.update s.pc t pc }

/-- A thread that finds the lock taken spins in `acquire` and makes no step. -/
def acquire (s : State) (t : Tid) (cpu : Fin ncpu) (pc : Pc) : Option State :=
  if s.lock cpu = none then some ({ s with lock := Function.update s.lock cpu (some t) }.goto t pc) else none

def release (s : State) (t : Tid) (cpu : Fin ncpu) (pc : Pc) : State :=
  { s with lock := Function.update s.lock cpu none }.goto t pc

/-- `if(r) kmems[cpu].freelist = r->next` -/
def take (s : State) (t : Tid) (cpu : Fin ncpu) (r : ℕ) (pc : Pc) : State :=
  if r = 0 then s.goto t pc
  else { s with heap := s.heap.setFreelist cpu (s.heap.mem r), out := (some t, r) :: s.out }.goto t pc

/-- A page changes hands. -/
def pass (s : State) (src dst : Option Tid) (pa : ℕ) (t : Tid) (pc : Pc) : State :=
  { s with out := (dst, pa) :: s.out.erase (src, pa) }.goto t pc

end State

/-- The steal loop after list `i` was found empty. -/
def scanNext (i : Fin ncpu) : Pc := if h : i.val + 1 < ncpu then .scanAcquire ⟨i + 1, h⟩ else .ret 0

/-- One step of thread `t`, which runs on CPU `here`; `none` if it is idle, has panicked or spins on a
lock. -/
def step (image : Image) (s : State) (t : Tid) (here : Fin ncpu) : Option State :=
  match s.pc t with
  | .idle | .panic => none
  | .alloc => some (s.goto t (.allocAcquire here))
  | .allocAcquire cpu => s.acquire t cpu (.allocRead cpu)
  | .allocRead cpu => some (s.goto t (.allocTake cpu (s.heap.freelist cpu)))
  | .allocTake cpu r => some (s.take t cpu r (.allocRelease cpu r))
  | .allocRelease cpu r => some (s.release t cpu (if r = 0 then .scanAcquire 0 else .fill r))
  | .scanAcquire i => s.acquire t i (.scanRead i)
  | .scanRead i => some (s.goto t (.scanTake i (s.heap.freelist i)))
  | .scanTake i r => some (s.take t i r (.scanRelease i r))
  | .scanRelease i r => some (s.release t i (if r = 0 then scanNext i else .fill r))
  | .fill r => some ({ s with heap := s.heap.memset r junkAlloc }.goto t (.ret r))
  | .ret r => some (if r = 0 then s.goto t .idle else s.pass (some t) none r t .idle)
  | .free pa => some (s.goto t (if BadPage image pa then .panic else .freeFill here pa))
  | .freeFill cpu pa => some ({ s with heap := s.heap.memset pa junkFree }.goto t (.freeAcquire cpu pa))
  | .freeAcquire cpu pa => s.acquire t cpu (.freeLink cpu pa)
  | .freeLink cpu pa =>
    some ({ s with heap := s.heap.setNext pa (s.heap.freelist cpu) }.goto t (.freePush cpu pa))
  | .freePush cpu pa =>
    some ({ s with heap := s.heap.setFreelist cpu pa, out := s.out.erase (some t, pa) }.goto t (.freeRelease cpu))
  | .freeRelease cpu => some (s.release t cpu .idle)

/-- A step of a thread, a call, or a write of the kernel to a page it owns. `kfree` is called only on pages
that are allocated. -/
inductive Step (image : Image) : State → State → Prop where
  | run {s s' : State} (t : Tid) (here : Fin ncpu) (h : step image s t here = some s') : Step image s s'
  | kalloc {s : State} (t : Tid) (idle : s.pc t = .idle) : Step image s (s.goto t .alloc)
  | kfree {s : State} (t : Tid) (pa : ℕ) (idle : s.pc t = .idle) (allocated : (none, pa) ∈ s.out) :
      Step image s (s.pass none (some t) pa t (.free pa))
  | write {s : State} (pa a w : ℕ) (allocated : (none, pa) ∈ s.out) (inside : pa ≤ a ∧ a < pa + pgsize) :
      Step image s { s with heap := { s.heap with mem := Function.update s.heap.mem a w } }

def initial (h : Heap) : State := ⟨h, fun _ => none, fun _ => .idle, []⟩

def Reachable (image : Image) (s : State) : Prop :=
  ∃ mem h, kinit image mem = some h ∧ Relation.ReflTransGen (Step image) (initial h) s

end Xv6Labs.Kalloc.PerCpu
