import Xv6Labs.Lib.Chain
import Xv6Labs.Lib.History

/-!
# The Lab 2 page allocator and `calsize`

The allocator of Lab 2 has one free list, under `kmem.lock`. `calsize`, which `sys_sysinfo` calls, walks the list
without the lock, with each load of a list pointer a step of its own. Any number of threads are in `kalloc`, `kfree`
and `calsize`.

`out` is history: the pages that are not on the free list, each with the thread that has it inside a call of `kalloc` or
`kfree`, or with `none` while the kernel owns it. The owner of a page writes to it as it likes.
-/

namespace Xv6Labs.Kalloc.Single

abbrev Tid := ℕ

abbrev pgsize : ℕ := 4096

abbrev kernbase : ℕ := 0x80000000

abbrev phystop : ℕ := kernbase + 128 * 1024 * 1024

/-- The kernel image; `last` is the symbol `end`. -/
structure Image where
  last : ℕ
  loaded : kernbase ≤ last

abbrev junkFree : ℕ := 0x0101010101010101

abbrev junkAlloc : ℕ := 0x0505050505050505

/-- The test at the head of `kfree`. -/
def BadPage (image : Image) (pa : ℕ) : Prop := pa % pgsize ≠ 0 ∨ pa < image.last ∨ phystop ≤ pa

instance (image : Image) (pa : ℕ) : Decidable (BadPage image pa) := inferInstanceAs (Decidable (_ ∨ _ ∨ _))

/-- Where a thread is, by what it does next.
* `kalloc`: `allocAcquire`; `allocRead` is `r = kmem.freelist`; `allocTake` is `if(r) kmem.freelist = r->next`;
  `allocRelease`; `fill` is `memset((char*)r, 5, PGSIZE)`; `ret`.
* `kfree(pa)`: `free` makes the test; `freeFill` is `memset(pa, 1, PGSIZE)`; `freeAcquire`; `freeLink` is
  `r->next = kmem.freelist`; `freePush` is `kmem.freelist = r`; `freeRelease`.
* `calsize`: `sizeRead` is `r = kmem.freelist`; `walk` is a round of the loop; `sized` holds `info->freemem`. -/
inductive Pc where
  | idle
  | allocAcquire
  | allocRead
  | allocTake (r : ℕ)
  | allocRelease (r : ℕ)
  | fill (r : ℕ)
  | ret (r : ℕ)
  | free (pa : ℕ)
  | freeFill (pa : ℕ)
  | freeAcquire (pa : ℕ)
  | freeLink (pa : ℕ)
  | freePush (pa : ℕ)
  | freeRelease
  | sizeRead
  | walk (r count : ℕ)
  | sized (freemem : ℕ)
  | panic
  deriving DecidableEq

/-- `mem` holds the words of the memory. -/
structure State where
  mem : ℕ → ℕ
  freelist : ℕ
  lock : Option Tid
  pc : Tid → Pc
  out : List (Option Tid × ℕ)

namespace State

def goto (s : State) (t : Tid) (pc : Pc) : State := { s with pc := Function.update s.pc t pc }

/-- `memset(pa, c, PGSIZE)` for a word `w` that repeats the byte `c`. -/
def memset (s : State) (pa w : ℕ) : State := { s with mem := fun a => if pa ≤ a ∧ a < pa + pgsize then w else s.mem a }

/-- A thread that finds the lock taken spins in `acquire` and makes no step. -/
def acquire (s : State) (t : Tid) (pc : Pc) : Option State :=
  if s.lock = none then some ({ s with lock := some t }.goto t pc) else none

def release (s : State) (t : Tid) (pc : Pc) : State := { s with lock := none }.goto t pc

/-- `if(r) kmem.freelist = r->next` -/
def take (s : State) (t : Tid) (r : ℕ) (pc : Pc) : State :=
  if r = 0 then s.goto t pc else { s with freelist := s.mem r, out := (some t, r) :: s.out }.goto t pc

/-- A page changes hands. -/
def pass (s : State) (src dst : Option Tid) (pa : ℕ) (t : Tid) (pc : Pc) : State :=
  { s with out := (dst, pa) :: s.out.erase (src, pa) }.goto t pc

/-- `while(r) { count++; r = r->next; }` and `info->freemem = count*PGSIZE`. Only memory is mapped there: a load
elsewhere is a trap of the kernel. -/
def round (s : State) (t : Tid) (r count : ℕ) : State :=
  if r = 0 then s.goto t (.sized (count * pgsize % 2 ^ 64))
  else if r < kernbase ∨ phystop ≤ r then s.goto t .panic
  else s.goto t (.walk (s.mem r) (count + 1))

end State

/-- One step of thread `t`; `none` if it is idle, has panicked or spins on the lock. -/
def step (image : Image) (s : State) (t : Tid) : Option State :=
  match s.pc t with
  | .idle | .panic => none
  | .allocAcquire => s.acquire t .allocRead
  | .allocRead => some (s.goto t (.allocTake s.freelist))
  | .allocTake r => some (s.take t r (.allocRelease r))
  | .allocRelease r => some (s.release t (if r = 0 then .ret 0 else .fill r))
  | .fill r => some ((s.memset r junkAlloc).goto t (.ret r))
  | .ret r => some (if r = 0 then s.goto t .idle else s.pass (some t) none r t .idle)
  | .free pa => some (s.goto t (if BadPage image pa then .panic else .freeFill pa))
  | .freeFill pa => some ((s.memset pa junkFree).goto t (.freeAcquire pa))
  | .freeAcquire pa => s.acquire t (.freeLink pa)
  | .freeLink pa => some ({ s with mem := Function.update s.mem pa s.freelist }.goto t (.freePush pa))
  | .freePush pa => some ({ s with freelist := pa, out := s.out.erase (some t, pa) }.goto t .freeRelease)
  | .freeRelease => some (s.release t .idle)
  | .sizeRead => some (s.goto t (.walk s.freelist 0))
  | .walk r count => some (s.round t r count)
  | .sized _ => some (s.goto t .idle)

/-- A step of a thread, a call, or a write of the kernel to a page it owns. `kfree` is called only on pages that are
allocated. -/
inductive Step (image : Image) : State → State → Prop where
  | run {s s' : State} (t : Tid) (h : step image s t = some s') : Step image s s'
  | kalloc {s : State} (t : Tid) (idle : s.pc t = .idle) : Step image s (s.goto t .allocAcquire)
  | kfree {s : State} (t : Tid) (pa : ℕ) (idle : s.pc t = .idle) (allocated : (none, pa) ∈ s.out) :
      Step image s (s.pass none (some t) pa t (.free pa))
  | calsize {s : State} (t : Tid) (idle : s.pc t = .idle) : Step image s (s.goto t .sizeRead)
  | write {s : State} (pa a w : ℕ) (allocated : (none, pa) ∈ s.out) (inside : pa ≤ a ∧ a < pa + pgsize) :
      Step image s { s with mem := Function.update s.mem a w }

open LinkedChain

/-- `n` pages are on the free list. -/
def State.FreePages (s : State) (n : ℕ) : Prop := ∃ l, Chain s.mem s.freelist l ∧ l.length = n

/-- A page of the range that `kinit` gives to the allocator. -/
def IsPage (image : Image) (p : ℕ) : Prop := p % pgsize = 0 ∧ image.last ≤ p ∧ p < phystop

instance (image : Image) (p : ℕ) : Decidable (IsPage image p) := inferInstanceAs (Decidable (_ ∧ _ ∧ _))

/-- Nobody is in a call. Each page that the allocator knows is free or the kernel owns it, and not both. -/
structure Start (image : Image) (s : State) : Prop where
  idle : ∀ t, s.pc t = .idle
  lock : s.lock = none
  owner : ∀ e ∈ s.out, e.1 = none
  pages : ∃ l, Chain s.mem s.freelist l ∧ (l ++ s.out.map Prod.snd).Nodup ∧
    ∀ p ∈ l ++ s.out.map Prod.snd, IsPage image p

def Reachable (image : Image) (s : State) : Prop := ∃ s₀, Start image s₀ ∧ Relation.ReflTransGen (Step image) s₀ s

end Xv6Labs.Kalloc.Single
