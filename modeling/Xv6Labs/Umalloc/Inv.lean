import Xv6Labs.Umalloc.Code
import Xv6Labs.Lib.Circle

/-!
# The free list

The free blocks are a circle in address order, from `base` on, and no block ends where the next begins. Together with
the live blocks they tile the memory from `sbrk`.
-/

namespace Xv6Labs.Umalloc

open Tiling Circular

/-- What `malloc` returned, for a request of `nbytes`. -/
structure Block where
  ap : ℕ
  nbytes : ℕ
deriving DecidableEq, Repr

structure World where
  heap : Heap
  live : List Block

def Block.header (b : Block) : ℕ := b.ap - unit

namespace Heap

variable (s : Heap)

def stop (p : ℕ) : ℕ := p + s.size p * unit

def region (p : ℕ) : Region := ⟨p, s.size p * unit⟩

section

variable (p q n x : ℕ)

@[simp] theorem ptr_setPtr_self : (s.setPtr p q).ptr p = q := by simp [ptr, setPtr]

@[simp] theorem size_setPtr : (s.setPtr p q).size x = s.size x := by
  by_cases same : x = p
  · subst same
    simp [size, setPtr]
  · simp [size, setPtr, Function.update_of_ne same]

@[simp] theorem size_setSize_self : (s.setSize p n).size p = n := by simp [size, setSize]

@[simp] theorem ptr_setSize : (s.setSize p n).ptr x = s.ptr x := by
  by_cases same : x = p
  · subst same
    simp [ptr, setSize]
  · simp [ptr, setSize, Function.update_of_ne same]

@[simp] theorem got_setPtr : (s.setPtr p q).got = s.got := rfl

@[simp] theorem got_setSize : (s.setSize p n).got = s.got := rfl

@[simp] theorem freep_setPtr : (s.setPtr p q).freep = s.freep := rfl

@[simp] theorem freep_setSize : (s.setSize p n).freep = s.freep := rfl

end

variable {s} {p q n x : ℕ}

@[simp] theorem ptr_setPtr_of_ne (other : x ≠ p) : (s.setPtr p q).ptr x = s.ptr x := by
  simp [ptr, setPtr, Function.update_of_ne other]

@[simp] theorem size_setSize_of_ne (other : x ≠ p) : (s.setSize p n).size x = s.size x := by
  simp [size, setSize, Function.update_of_ne other]

variable (s) in
/-- The free list, which starts with `base`. -/
structure Ring (base : ℕ) (xs : List ℕ) : Prop where
  path : Path s.ptr (xs ++ [base])
  lowest : xs.head? = some base
  sorted : xs.Pairwise fun a b => s.stop a < b
  empty : s.size base = 0
  full : ∀ x ∈ xs, x ≠ base → 0 < s.size x

namespace Ring

variable {base : ℕ} {xs : List ℕ} {l r : List ℕ}

theorem lt (ring : s.Ring base xs) : xs.Pairwise (· < ·) :=
  ring.sorted.imp fun h => lt_of_le_of_lt (Nat.le_add_right _ _) h

theorem nodup (ring : s.Ring base xs) : xs.Nodup := ring.lt.imp fun h => h.ne

theorem eq_cons (ring : s.Ring base xs) : ∃ bs, xs = base :: bs := by
  cases xs with
  | nil => exact nomatch ring.lowest
  | cons x bs =>
    obtain rfl := Option.some.inj ring.lowest
    exact ⟨bs, rfl⟩

theorem base_mem (ring : s.Ring base xs) : base ∈ xs := by
  obtain ⟨bs, rfl⟩ := ring.eq_cons
  exact List.mem_cons_self

theorem base_le (ring : s.Ring base xs) (mem : x ∈ xs) : base ≤ x := by
  have lt := ring.lt
  obtain ⟨bs, rfl⟩ := ring.eq_cons
  rcases List.mem_cons.mp mem with rfl | mem
  · exact le_rfl
  · exact (List.rel_of_pairwise_cons lt mem).le

end Ring

end Heap

/-- Headers and all, the blocks of the free list and the live ones tile the memory. -/
structure World.Inv (base : ℕ) (xs : List ℕ) (w : World) : Prop where
  ring : w.heap.Ring base xs
  freep : w.heap.freep ∈ xs
  room : ∀ b ∈ w.live, unit ≤ b.ap ∧ b.nbytes + unit ≤ w.heap.size b.header * unit
  tiles : Tiles (xs.map w.heap.region ++ w.live.map fun b => w.heap.region b.header) w.heap.got
  got : ∀ g ∈ w.heap.got, base + unit ≤ g.start ∧ g.stop ≤ 2 ^ 32

namespace World.Inv

variable {base x : ℕ} {xs : List ℕ} {w : World} {b : Block}

theorem live_pos (inv : w.Inv base xs) (mem : b ∈ w.live) : 0 < w.heap.size b.header := by
  have room := (inv.room b mem).2
  by_contra zero
  have none : w.heap.size b.header = 0 := by omega
  rw [none, unit] at room
  omega

theorem live_ge (inv : w.Inv base xs) (mem : b ∈ w.live) : base + unit ≤ b.header :=
  inv.tiles.ge (List.mem_append_right _ (List.mem_map.mpr ⟨b, mem, rfl⟩))
    (Nat.mul_pos (inv.live_pos mem) (by decide)) fun g inside => (inv.got g inside).1

/-- No header of a live block is one of a free block. -/
theorem header_notMem (inv : w.Inv base xs) (mem : b ∈ w.live) : b.header ∉ xs := by
  intro there
  have low := inv.live_ge mem
  have root : b.header ≠ base := by
    rw [unit] at low
    omega
  have pos : 0 < w.heap.size b.header * unit := Nat.mul_pos (inv.live_pos mem) (by decide)
  have apart := (List.pairwise_append.mp inv.tiles.apart).2.2 _ (List.mem_map_of_mem there) _
    (List.mem_map.mpr ⟨b, mem, rfl⟩)
  have one := apart.le_or_le pos pos
  simp only [Heap.region, Region.stop] at one
  omega

end World.Inv

end Xv6Labs.Umalloc
