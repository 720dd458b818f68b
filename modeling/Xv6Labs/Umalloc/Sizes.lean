import Xv6Labs.Umalloc.Runs
import Xv6Labs.Vm.Grow

/-!
# `malloc` for every size

`malloc` on top of `sys_sbrk` and `growproc`. `sbrk` takes an `int`, so that the bytes that `morecore` asks for are
taken modulo 2^32, and from 2^31 on as a negative number.
-/

namespace Xv6Labs.Umalloc

open Tiling Faults
open Vm (Proc Memory Space pagesOf growproc)

/-- The conversion to `int`. -/
def toInt (n : ℕ) : ℤ := if n % 2 ^ 32 < 2 ^ 31 then (n % 2 ^ 32 : ℕ) else (n % 2 ^ 32 : ℕ) - 2 ^ 32

def sys_sbrk (p : Proc) (n : ℤ) : Vm.Code (ℤ × Proc) := do
  let addr := toInt p.sz
  let (r, p) ← growproc p n
  if r < 0 then return (-1, p) else return (addr, p)

/-- What `sbrk(size)` returns, and the size of the process after it. -/
def sbrk (p : Proc) (m : Memory) (size : ℕ) : Option ℕ × ℕ :=
  match sys_sbrk p (toInt size) m with
  | .ok ((addr, p'), _) => (if addr = -1 then none else some (addr % 2 ^ 64).toNat, p'.sz)
  | .error _ => (none, p.sz)

structure Result where
  ap : ℕ
  heap : Heap
  sz : ℕ

/-- `malloc(nbytes)` in the process `p`, which calls `sbrk` once at most. -/
def Heap.mallocIn (s : Heap) (base : ℕ) (p : Proc) (m : Memory) (fuel nbytes : ℕ) : Option Result := do
  let (ap, s') ← s.malloc base (fun size => (sbrk p m size).1) fuel nbytes
  if s'.got.length = s.got.length then return ⟨ap, s', p.sz⟩
  else
    let asked := grain (units nbytes) * unit
    return ⟨ap, s', (sbrk p m asked).2⟩

/-- The heap of a process lies below its size. -/
structure Sized (base : ℕ) (w : World) (p : Proc) (m : Memory) : Prop where
  good : w.Good base
  root : 0 < base
  room : base + unit ≤ p.sz
  got : ∀ g ∈ w.heap.got, g.stop ≤ p.sz
  space : Space m p.pagetable (pagesOf p.sz)
  free : m.Free

/-- `malloc` returns 0, or a block of the size that was asked for below the size of the process. -/
def Safe (s : Heap) (base : ℕ) (p : Proc) (m : Memory) (n : ℕ) : Prop :=
  ∃ N, ∀ fuel, N ≤ fuel → ∃ r, s.mallocIn base p m fuel n = some r ∧
    (r.ap = 0 ∨ n + unit ≤ r.heap.size (r.ap - unit) * unit ∧ r.ap + n ≤ r.sz)

variable {base n size a : ℕ} {w : World} {s s' : Heap} {p : Proc} {m : Memory} {xs : List ℕ}

/-! ### `sbrk` -/

theorem toInt_of_lt (small : n < 2 ^ 31) : toInt n = n := by
  unfold toInt
  omega

theorem sbrk_eq {r : ℤ} {p' : Proc} {m' : Memory} (ran : growproc p (toInt size) m = .ok ((r, p'), m'))
    (small : p.sz < 2 ^ 31) :
    sbrk p m size = if r < 0 then (none, p'.sz) else (some p.sz, p'.sz) := by
  have addr : toInt p.sz = p.sz := toInt_of_lt small
  have returned : sys_sbrk p (toInt size) m = if r < 0 then .ok ((-1, p'), m') else .ok ((toInt p.sz, p'), m') := by
    change (growproc p (toInt size) m >>= fun x => (if x.1.1 < 0 then
      pure (-1, x.1.2) else pure (toInt p.sz, x.1.2) : Vm.Code _) x.2) = _
    rw [ran]
    by_cases failed : r < 0
    · rw [if_pos failed]
      change (if r < 0 then (pure (-1, p') : Vm.Code _) else pure (toInt p.sz, p')) m' = _
      rw [if_pos failed]
      rfl
    · rw [if_neg failed]
      change (if r < 0 then (pure (-1, p') : Vm.Code _) else pure (toInt p.sz, p')) m' = _
      rw [if_neg failed]
      rfl
  unfold sbrk
  rw [returned]
  by_cases failed : r < 0
  · rw [if_pos failed, if_pos failed]
    rfl
  · rw [if_neg failed, if_neg failed, addr]
    have nonneg : (p.sz : ℤ) ≠ -1 := by omega
    have word : ((p.sz : ℤ) % 2 ^ 64).toNat = p.sz := by omega
    simp only [nonneg, if_false, word]

/-- A size that is positive as an `int`. -/
theorem sbrk_grows (sized : Sized base w p m) (positive : 0 < size) (small : size < 2 ^ 31) :
    sbrk p m size = (some p.sz, p.sz + size) ∨ (sbrk p m size).1 = none := by
  have ram := sized.space.size_ram
  have bound : (size : ℤ) < 2 ^ 31 := by omega
  have arg := toInt_of_lt small
  rcases Vm.growproc_grows sized.space sized.free bound (by omega) with ⟨r, m', ran, ⟨done, sz, -⟩ | ⟨failed, -⟩⟩
  · rw [← arg] at ran sz
    rw [sbrk_eq ran (by omega), if_neg (by omega)]
    left
    rw [arg] at sz
    rw [show r.2.sz = p.sz + size by omega]
  · rw [← arg] at ran
    rw [sbrk_eq ran (by omega), if_pos (by omega)]
    exact .inr rfl

/-- A size that is 0 or negative as an `int`. -/
theorem sbrk_shrinks (sized : Sized base w p m) (large : 2 ^ 31 ≤ size) (small : size ≤ 2 ^ 32) :
    (sbrk p m size).1 = some p.sz ∧ (sbrk p m size).2 ≤ p.sz := by
  have ram := sized.space.size_ram
  have arg : toInt size = size - 2 ^ 32 := by
    unfold toInt
    omega
  have done : Returns (growproc p (toInt size)) m fun r _ => r.1 = 0 ∧ r.2.sz ≤ p.sz := by
    obtain negative | none : toInt size < 0 ∨ toInt size = 0 := by omega
    · rcases lt_or_ge (p.sz + toInt size) 0 with left | below
      · exact (Vm.growproc_wraps ram (by omega) left).mono fun r m' same => by
          rw [same.2]
          exact ⟨rfl, le_rfl⟩
      · have old := Vm.toUint_of_lt (a := p.sz) (by omega)
        obtain ⟨d, rest⟩ := Int.eq_ofNat_of_zero_le below
        have new := Vm.toUint_of_lt (a := d) (by omega)
        unfold growproc
        rw [if_neg (by omega), if_pos negative, old, rest, new]
        refine .bind ((Vm.uvmdealloc_grown sized.space (by omega)).mono ?_)
        rintro r m' ⟨rfl, -, -⟩
        rw [new]
        refine .pure ⟨rfl, ?_⟩
        change r ≤ p.sz
        omega
    · unfold growproc
      rw [if_neg (by omega), if_neg (by omega), Vm.toUint_of_lt (by omega)]
      exact .pure ⟨rfl, le_rfl⟩
  obtain ⟨r, m', ran, zero, less⟩ := done
  rw [sbrk_eq ran (by omega), if_neg (by omega)]
  exact ⟨rfl, less⟩

theorem sbrk_over (whole : size = 2 ^ 32 + 16) : sbrk p m size = sbrk p m 16 := by
  have same : toInt size = toInt 16 := by
    unfold toInt
    omega
  unfold sbrk
  rw [same]

/-! ### `malloc` -/

theorem units_eq (small : n < 2 ^ 32) : units n = (n + 15) / 16 + 1 := by
  unfold units unit
  omega

theorem World.Good.ready (good : w.Good base) (root : 0 < base) :
    ∃ xs, World.Inv base xs ⟨w.heap.init base, w.live⟩ := by
  rcases good with ⟨freep, got, live⟩ | ⟨xs, inv⟩
  · rw [live]
    exact ⟨_, World.Inv.init got freep⟩
  · rw [Heap.init, if_neg (inv.nonzero root)]
    exact ⟨xs, inv⟩

theorem got_init : (s.init base).got = s.got := by
  unfold Heap.init
  split <;> rfl

/-- `malloc` when nothing fits and `sbrk` fails. -/
theorem safe_of_none (answer : (sbrk p m (Heap.grain (units n) * unit)).1 = none)
    (inv : World.Inv base xs ⟨w.heap.init base, w.live⟩) (none_ : ∀ y ∈ xs, (w.heap.init base).size y < units n) :
    Safe w.heap base p m n := by
  obtain ⟨N, -, many⟩ := @Heap.Ring.search_fails _ _ _ _ (fun size => (sbrk p m size).1) inv.ring inv.freep none_ answer
  refine ⟨N, fun fuel enough => ⟨⟨0, w.heap.init base, p.sz⟩, ?_, .inl rfl⟩⟩
  have ran : w.heap.malloc base (fun size => (sbrk p m size).1) fuel n = some (0, w.heap.init base) := many fuel enough
  unfold Heap.mallocIn
  rw [ran]
  simp [got_init]

/-- What is left to check of a block that was carved. -/
theorem Heap.Carved.safe {nunits ap bound : ℕ} {others : List Region} (carved : s.Carved base nunits ap others xs)
    (small : n < 2 ^ 32) (same : nunits = units n) (all : ∀ g ∈ s.got, g.stop ≤ bound) :
    n + unit ≤ s.size (ap - unit) * unit ∧ ap + n ≤ bound := by
  have count := units_eq small
  have size := carved.size
  have after := carved.after
  have some_ : 0 < s.size (ap - unit) := by
    rw [size, same, count]
    exact Nat.succ_pos _
  have upto : ap - unit + s.size (ap - unit) * unit ≤ bound :=
    carved.tiles.le (List.mem_cons_self ..) (Heap.region_length_pos some_) all
  rw [size, same, count] at upto ⊢
  rw [unit] at after upto ⊢
  omega

theorem safe_of_fits (sized : Sized base w p m) (small : n < 2 ^ 32)
    (inv : World.Inv base xs ⟨w.heap.init base, w.live⟩)
    (fits : ∃ y ∈ xs, units n ≤ (w.heap.init base).size y) : Safe w.heap base p m n := by
  have positive : 0 < units n := by
    rw [units_eq small]
    exact Nat.succ_pos _
  obtain ⟨k, ap, s', found, ⟨xs', carved⟩, got, -⟩ :=
    inv.ring.search_carves (fun size => (sbrk p m size).1) inv.freep positive inv.headers_pos inv.tiles_headers fits
  refine ⟨k + 1, fun fuel enough => ⟨⟨ap, s', p.sz⟩, ?_, .inr (carved.safe small rfl fun g mem => ?_)⟩⟩
  · have ran : w.heap.malloc base (fun size => (sbrk p m size).1) fuel n = some (ap, s') :=
      (found fuel).trans (if_neg (by omega))
    unfold Heap.mallocIn
    rw [ran]
    have same : s'.got.length = w.heap.got.length := by rw [got, got_init]
    simp [same]
  · rw [got, got_init] at mem
    exact sized.got g mem

/-- A `malloc` that gets memory from `sbrk` returns a block at the end of it, whatever the size of the process is. -/
theorem mallocIn_grows (sized : Sized base w p m) (small : n < 2 ^ 32)
    (inv : World.Inv base xs ⟨w.heap.init base, w.live⟩) (none_ : ∀ y ∈ xs, (w.heap.init base).size y < units n)
    (answer : (sbrk p m (Heap.grain (units n) * unit)).1 = some p.sz) :
    ∃ N ap s', (∀ fuel, N ≤ fuel → w.heap.mallocIn base p m fuel n = some ⟨ap, s',
      (sbrk p m (Heap.grain (units n) * unit)).2⟩) ∧
      s'.got = ⟨p.sz, Heap.grain (units n) * unit⟩ :: w.heap.got ∧
      ∃ xs' others, s'.Carved base (units n) ap others xs' := by
  have positive : 0 < units n := by
    rw [units_eq small]
    exact Nat.succ_pos _
  have ram := sized.space.size_ram
  have most : p.sz + Heap.grain (units n) * unit ≤ 2 ^ 34 := by
    have count := units_eq small
    unfold Heap.grain
    split
    all_goals
      rw [unit]
      omega
  have above : ∀ g ∈ (w.heap.init base).got, g.stop ≤ p.sz := by
    rw [got_init]
    exact sized.got
  obtain ⟨N, ap, s', -, many, ⟨xs', carved⟩, -, got⟩ := @Heap.Ring.search_grows _ _ _ _
    (fun size => (sbrk p m size).1) _ inv.ring inv.freep sized.root positive inv.headers_pos inv.tiles_headers none_
      _ answer sized.room
    above most
  rw [got_init] at got
  refine ⟨N, ap, s', fun fuel enough => ?_, got, xs', _, carved⟩
  have ran : w.heap.malloc base (fun size => (sbrk p m size).1) fuel n = some (ap, s') := many fuel enough
  unfold Heap.mallocIn
  rw [ran]
  have longer : s'.got.length ≠ w.heap.got.length := by
    rw [got, List.length_cons]
    omega
  simp [longer]

/-- A block of more than 2^31 bytes is not below the size of the process. -/
theorem not_safe_of_large (sized : Sized base w p m) (small : n < 2 ^ 32) (large : 2 ^ 31 - 32 < n)
    (inv : World.Inv base xs ⟨w.heap.init base, w.live⟩) (none_ : ∀ y ∈ xs, (w.heap.init base).size y < units n)
    (answer : (sbrk p m (Heap.grain (units n) * unit)).1 = some p.sz)
    (size : (sbrk p m (Heap.grain (units n) * unit)).2 ≤ p.sz + 16) :
    ¬Safe w.heap base p m n := by
  rintro ⟨N, safe⟩
  obtain ⟨N', ap, s', ran, -, xs', others, carved⟩ := mallocIn_grows sized small inv none_ answer
  obtain ⟨r, ran', good⟩ := safe (max N N') (le_max_left ..)
  obtain rfl := Option.some.inj (ran'.symm.trans (ran (max N N') (le_max_right ..)))
  have after := carved.after
  have ram := sized.space.size_ram
  rcases good with zero | ⟨-, below⟩
  · rw [unit] at after
    dsimp only at zero
    omega
  · dsimp only at below
    omega

/-- `malloc` is safe for the sizes that `morecore` passes as a positive `int`; for the last 16 sizes it asks for 16
bytes, and is safe if there is no memory for them. -/
theorem malloc_safe_iff (sized : Sized base w p m) (small : n < 2 ^ 32) : Safe w.heap base p m n ↔
    n ≤ 2 ^ 31 - 32 ∨ 2 ^ 32 - 16 < n ∧ Returns (growproc p 16) m fun r _ => r.1 = -1 := by
  obtain ⟨xs, inv⟩ := sized.good.ready sized.root
  have count := units_eq small
  have ram := sized.space.size_ram
  by_cases fits : ∃ y ∈ xs, units n ≤ (w.heap.init base).size y
  · refine iff_of_true (safe_of_fits sized small inv fits) (.inl ?_)
    -- A free block lies below the size of the process.
    obtain ⟨y, mem, large⟩ := fits
    have positive : 0 < ((w.heap.init base).region y).length := Heap.region_length_pos (by omega)
    have upto := inv.tiles.le (List.mem_append_left _ (List.mem_map_of_mem mem)) positive (by
      rw [got_init]
      exact sized.got)
    change y + (w.heap.init base).size y * unit ≤ p.sz at upto
    rw [unit] at upto
    omega
  push Not at fits
  by_cases modest : n ≤ 2 ^ 31 - 32
  · refine iff_of_true ?_ (.inl modest)
    have asked : Heap.grain (units n) * unit < 2 ^ 31 := by
      unfold Heap.grain
      split
      all_goals
        rw [unit]
        omega
    have some_ : 0 < Heap.grain (units n) * unit := Nat.mul_pos Heap.grain_pos Heap.unit_pos
    rcases sbrk_grows sized some_ asked with grown | failed
    · obtain ⟨N, ap, s', ran, got, xs', others, carved⟩ := mallocIn_grows sized small inv fits (by rw [grown])
      refine ⟨N, fun fuel enough => ⟨_, ran fuel enough, .inr ?_⟩⟩
      rw [grown]
      refine carved.safe small rfl fun g mem => ?_
      rw [got] at mem
      rcases List.mem_cons.mp mem with rfl | mem
      · exact le_rfl
      · exact (sized.got g mem).trans le_self_add
    · exact safe_of_none failed inv fits
  · have asked : Heap.grain (units n) * unit = ((n + 15) / 16 + 1) * 16 := by
      unfold Heap.grain
      rw [if_neg (by omega), count, unit]
    by_cases last : 2 ^ 32 - 16 < n
    · have whole : Heap.grain (units n) * unit = 2 ^ 32 + 16 := by omega
      have same := sbrk_over (p := p) (m := m) whole
      have arg : toInt 16 = 16 := by decide
      obtain ⟨r, m', ran, outcome⟩ :=
        Vm.growproc_grows sized.space sized.free (by decide : (16 : ℤ) < 2 ^ 31) (by decide)
      have ran' : growproc p (toInt 16) m = .ok ((r.1, r.2), m') := by
        rw [arg]
        exact ran
      have result := sbrk_eq ran' (by omega)
      rcases outcome with ⟨done, sz, -⟩ | ⟨failed, -⟩
      · rw [if_neg (by omega)] at result
        refine iff_of_false (not_safe_of_large sized small (by omega) inv fits (by rw [same, result])
          (by rw [same, result]; dsimp only; omega))
          ?_
        rintro (less | ⟨-, fails⟩)
        · exact modest less
        · have minus := fails.det ran
          omega
      · rw [if_pos (by omega)] at result
        exact iff_of_true (safe_of_none (by rw [same, result]) inv fits) (.inr ⟨last, r, m', ran, failed⟩)
    · obtain ⟨answer, size⟩ := @sbrk_shrinks base (Heap.grain (units n) * unit) w p m sized (by omega) (by omega)
      refine iff_of_false (not_safe_of_large sized small (by omega) inv fits answer
        (size.trans (Nat.le_add_right ..))) ?_
      rintro (less | ⟨more, -⟩)
      · exact modest less
      · exact last more

/-- A program whose last page is the 1024th, and which has not called `malloc` yet. -/
theorem sized_start {sz : ℕ} (last : pagesOf sz = pagesOf (1024 * Vm.pgsize)) (room : 64 + unit ≤ sz) :
    Sized 64 (start fun _ => ⟨0, 0⟩) ⟨0x87fff000, sz⟩ (Vm.userMemory 0) :=
  ⟨.inl ⟨rfl, rfl, rfl⟩, by decide, room, fun _ mem => absurd mem List.not_mem_nil, last ▸ Vm.userMemory_proc, Vm.userMemory_free⟩

theorem malloc_safe_iff_hundred : Safe (start fun _ => ⟨0, 0⟩).heap 64 ⟨0x87fff000, 1024 * Vm.pgsize⟩
    (Vm.userMemory 0) 100 :=
  (malloc_safe_iff (sized_start rfl (by decide)) (by decide)).mpr (.inl (by decide))

/-- `malloc` of 2^31 bytes takes the old end of the process, in the middle of a page, for a block, though `sbrk`
added nothing. -/
theorem malloc_unsafe :
    ¬Safe (start fun _ => ⟨0, 0⟩).heap 64 ⟨0x87fff000, 1024 * Vm.pgsize - 2048⟩ (Vm.userMemory 0) (2 ^ 31) := by
  have sized := @sized_start (1024 * Vm.pgsize - 2048) (by decide) (by decide)
  obtain ⟨answer, size⟩ := @sbrk_shrinks 64 (Heap.grain (units (2 ^ 31)) * unit) _ _ _ sized (by decide) (by decide)
  refine not_safe_of_large sized (by decide) (by decide) (World.Inv.init rfl rfl) (fun y mem => ?_) answer
    (size.trans (Nat.le_add_right ..))
  rw [List.mem_singleton.mp mem]
  decide

end Xv6Labs.Umalloc
