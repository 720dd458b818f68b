import Xv6Labs.Lib.Faults

/-!
# Physical memory and page-table entries

Memory is a page for each physical page address, and a page is 512 words of 64 bits. `riscv.h` packs a physical
address and ten flags into an entry. `kalloc` takes the first page of the free list; `refuse` says which of the
coming calls find the list empty because other CPUs have taken its pages.
-/

namespace Xv6Labs.Vm

open Faults

def pgsize : ℕ := 4096

/-- `MAXVA` -/
def maxva : ℕ := 1 <<< (9 + 9 + 9 + 12 - 1)

def kernbase : ℕ := 0x80000000

def phystop : ℕ := kernbase + 128 * 1024 * 1024

def trampoline : ℕ := maxva - pgsize

def trapframe : ℕ := trampoline - pgsize

def pteV : ℕ := 1 <<< 0
def pteR : ℕ := 1 <<< 1
def pteW : ℕ := 1 <<< 2
def pteX : ℕ := 1 <<< 3
def pteU : ℕ := 1 <<< 4

def pa2pte (pa : ℕ) : ℕ := (pa >>> 12) <<< 10

def pte2pa (pte : ℕ) : ℕ := ((pte >>> 10) <<< 12) % 2 ^ 64

def pteFlags (pte : ℕ) : ℕ := pte &&& 0x3FF

/-- `PX(level, va)` -/
def px (level va : ℕ) : Fin 512 :=
  ⟨(va >>> (12 + 9 * level)) &&& 0x1FF, Nat.and_lt_two_pow _ (by decide : 0x1FF < 2 ^ 9)⟩

def wrap (n : ℕ) : ℕ := n % 2 ^ 64

def pgrounddown (a : ℕ) : ℕ := a / pgsize * pgsize

def pgroundup (sz : ℕ) : ℕ := wrap (sz + pgsize - 1) / pgsize * pgsize

instance entries_neZero : NeZero 512 := ⟨by decide⟩

abbrev Page : Type := Fin 512 → ℕ

/-- What `kernel.ld` decides: the symbols `end`, `etext` and `trampoline`. The code starts at `KERNBASE`, and its
last page is the trampoline. -/
structure Image where
  kend : ℕ
  etext : ℕ
  trampoline : ℕ
  base : kernbase ≤ trampoline
  aligned : trampoline % pgsize = 0
  text : etext = trampoline + pgsize
  data : etext ≤ kend

theorem Image.kernbase_lt (image : Image) : kernbase < image.kend := by
  have base := image.base
  have text := image.text
  have data := image.data
  have positive : 0 < pgsize := by decide
  omega

structure Memory where
  image : Image
  page : ℕ → Page
  free : List ℕ
  refuse : ℕ → Bool

/-- A panic of the kernel, an access through a null pointer, or a loop that does not end. -/
inductive Fault where
  | panic (text : String)
  | null
  | endless
deriving DecidableEq

abbrev Code (α : Type) : Type := Program Memory Fault α

def panic {α : Type} (text : String) : Code α := fails (.panic text)

def Memory.setPage (m : Memory) (pa : ℕ) (pg : Page) : Memory := { m with page := Function.update m.page pa pg }

theorem setPage_self {m : Memory} {pa : ℕ} {pg : Page} : (m.setPage pa pg).page pa = pg := Function.update_self ..

theorem setPage_of_ne {m : Memory} {p pa : ℕ} {pg : Page} (other : p ≠ pa) : (m.setPage pa pg).page p = m.page p :=
  Function.update_of_ne other _ _

/-- A page of bytes with the same value. -/
def filled (c : ℕ) : Page := fun _ => c * 0x0101010101010101

def memset (pa c : ℕ) : Code Unit := if pa = 0 then fails .null else writes fun m => m.setPage pa (filled c)

/-- `memmove(dst, src, PGSIZE)` for two pages -/
def movePage (dst src : ℕ) : Code Unit := writes fun m => m.setPage dst (m.page src)

/-- An entry of a table, in memory. -/
abbrev PteAddr : Type := ℕ × Fin 512

def load (pte : PteAddr) : Code ℕ := reads fun m => m.page pte.1 pte.2

def Memory.store (m : Memory) (pte : PteAddr) (v : ℕ) : Memory :=
  m.setPage pte.1 (Function.update (m.page pte.1) pte.2 v)

def store (pte : PteAddr) (v : ℕ) : Code Unit := writes fun m => m.store pte v

def Memory.kalloc (m : Memory) : Option ℕ × Memory :=
  if m.refuse 0 then (none, { m with refuse := fun k => m.refuse (k + 1) })
  else
    match m.free with
    | [] => (none, { m with refuse := fun k => m.refuse (k + 1) })
    | r :: rest => (some r, { m.setPage r (filled 5) with free := rest, refuse := fun k => m.refuse (k + 1) })

def kalloc : Code (Option ℕ) := fun m => .ok m.kalloc

/-- The first word of a free page is `r->next`. -/
def Memory.kfree (m : Memory) (pa : ℕ) : Memory :=
  { m.setPage pa (Function.update (filled 1) 0 (m.free.headD 0)) with free := pa :: m.free }

def kfree (pa : ℕ) : Code Unit := fun m =>
  if pa % pgsize ≠ 0 ∨ pa < m.image.kend ∨ phystop ≤ pa then .error (.panic "kfree") else .ok ((), m.kfree pa)

/-! ### Bytes of a page -/

def wordOf (k : ℕ) : Fin 512 := ⟨k / 8 % 512, Nat.mod_lt _ (by decide)⟩

def byte (pg : Page) (k : ℕ) : UInt8 := UInt8.ofNat (pg (wordOf k) / 256 ^ (k % 8) % 256)

def putByte (w j : ℕ) (b : UInt8) : ℕ := (w / 256 ^ (j + 1) * 256 + b.toNat) * 256 ^ j + w % 256 ^ j

def setByte (pg : Page) (k : ℕ) (b : UInt8) : Page := Function.update pg (wordOf k) (putByte (pg (wordOf k)) (k % 8) b)

def setBytes (pg : Page) (k : ℕ) : List UInt8 → Page
  | [] => pg
  | b :: bytes => setBytes (setByte pg k b) (k + 1) bytes

variable {w j k l : ℕ} {b : UInt8} {pg : Page} {pa perm pte : ℕ}

theorem put_div_self : putByte w j b / 256 ^ j % 256 = b.toNat := by
  have small : w % 256 ^ j < 256 ^ j := Nat.mod_lt _ (by positivity)
  have bound : b.toNat < 256 := b.toNat_lt
  rw [putByte, Nat.mul_comm _ (256 ^ j), Nat.mul_add_div (by positivity), Nat.div_eq_of_lt small]
  omega

theorem put_div_of_lt (h : j < l) : putByte w j b / 256 ^ l = w / 256 ^ l := by
  have small : w % 256 ^ j < 256 ^ j := Nat.mod_lt _ (by positivity)
  have bound : b.toNat < 256 := b.toNat_lt
  have high : putByte w j b / 256 ^ (j + 1) = w / 256 ^ (j + 1) := by
    rw [putByte, Nat.pow_succ, ← Nat.div_div_eq_div_mul, Nat.mul_comm _ (256 ^ j), Nat.mul_add_div (by positivity),
      Nat.div_eq_of_lt small]
    omega
  obtain ⟨d, rfl⟩ := Nat.exists_eq_add_of_lt h
  rw [show j + d + 1 = (j + 1) + d by omega, Nat.pow_add, ← Nat.div_div_eq_div_mul, ← Nat.div_div_eq_div_mul, high]

theorem put_mod : putByte w j b % 256 ^ j = w % 256 ^ j := by
  rw [putByte, Nat.mul_comm, Nat.mul_add_mod, Nat.mod_mod]

theorem put_digit_of_ne (h : l ≠ j) : putByte w j b / 256 ^ l % 256 = w / 256 ^ l % 256 := by
  rcases Nat.lt_or_gt_of_ne h with less | more
  · have digit (x : ℕ) : x / 256 ^ l % 256 = x % 256 ^ j % 256 ^ (l + 1) / 256 ^ l := by
      rw [Nat.mod_mod_of_dvd x (Nat.pow_dvd_pow 256 (Nat.succ_le_of_lt less)), Nat.pow_succ, Nat.mod_mul_right_div_self]
    rw [digit, digit, put_mod]
  · rw [put_div_of_lt more]

theorem byte_setByte_self : byte (setByte pg k b) k = b := by
  simp only [byte, setByte, Function.update_self, put_div_self, UInt8.ofNat_toNat]

theorem byte_setByte_of_ne (hk : k < pgsize) (hl : l < pgsize) (ne : l ≠ k) : byte (setByte pg k b) l = byte pg l := by
  by_cases same : wordOf l = wordOf k
  · have other : l % 8 ≠ k % 8 := by
      have := congrArg Fin.val same
      simp only [wordOf, pgsize] at this hk hl
      omega
    simp only [byte, setByte, same, Function.update_self, put_digit_of_ne other]
  · simp only [byte, setByte, Function.update_of_ne same]

theorem byte_setBytes (bytes : List UInt8) (within : k + bytes.length ≤ pgsize) (hl : l < pgsize) :
    byte (setBytes pg k bytes) l = if h : k ≤ l ∧ l - k < bytes.length then bytes[l - k] else byte pg l := by
  induction bytes generalizing pg k with
  | nil => simp [setBytes]
  | cons b bytes ih =>
    simp only [List.length_cons] at within
    rw [setBytes, ih (by omega)]
    by_cases first : l = k
    · subst first
      rw [dif_neg (by omega), byte_setByte_self, dif_pos ⟨le_rfl, by simp⟩]
      simp
    · by_cases after : k + 1 ≤ l ∧ l - (k + 1) < bytes.length
      · rw [dif_pos after, dif_pos ⟨by omega, by simp only [List.length_cons]; omega⟩]
        have next : l - k = l - (k + 1) + 1 := by omega
        simp only [next, List.getElem_cons_succ]
      · rw [dif_neg after, byte_setByte_of_ne (by omega) hl first, dif_neg]
        simp only [List.length_cons]
        omega

theorem byte_zero : byte (filled 0) k = 0 := by simp [byte, filled]

/-! ### Entries -/

theorem valid_iff : pte &&& pteV ≠ 0 ↔ pte % 2 = 1 := by
  rw [pteV, Nat.shiftLeft_zero, Nat.and_one_is_mod]
  omega

theorem flags_eq : pteFlags pte = pte % 1024 := Nat.and_two_pow_sub_one_eq_mod _ 10

theorem pa_eq : pte2pa pte = pte / 1024 % 2 ^ 52 * 4096 := by
  simp only [pte2pa, Nat.shiftRight_eq_div_pow, Nat.shiftLeft_eq]
  omega

theorem or_valid_lt (small : perm < 1024) : perm ||| pteV < 1024 := Nat.or_lt_two_pow small (by decide : pteV < 2 ^ 10)

theorem entry_eq (small : perm < 1024) : pa2pte pa ||| perm ||| pteV = pa / 4096 * 1024 + (perm ||| pteV) := by
  rw [Nat.or_assoc, pa2pte, ← Nat.shiftLeft_add_eq_or_of_lt (or_valid_lt small), Nat.shiftRight_eq_div_pow,
    Nat.shiftLeft_eq]

theorem or_valid_mod : (perm ||| pteV) % 2 = 1 := by
  have := Nat.or_mod_two_pow (a := perm) (b := pteV) (n := 1)
  rw [Nat.pow_one] at this
  rw [this]
  have : perm % 2 = 0 ∨ perm % 2 = 1 := by omega
  rcases this with h | h <;> rw [h] <;> rfl

theorem entry_valid (small : perm < 1024) : (pa2pte pa ||| perm ||| pteV) % 2 = 1 := by
  have low : (perm ||| pteV) % 2 = 1 := or_valid_mod
  rw [entry_eq small]
  omega

theorem entry_flags (small : perm < 1024) : pteFlags (pa2pte pa ||| perm ||| pteV) = perm ||| pteV := by
  have := or_valid_lt small
  rw [flags_eq, entry_eq small]
  omega

theorem entry_pa (small : perm < 1024) (aligned : pa % pgsize = 0) (bound : pa < 2 ^ 64) :
    pte2pa (pa2pte pa ||| perm ||| pteV) = pa := by
  have := or_valid_lt small
  rw [pgsize] at aligned
  rw [pa_eq, entry_eq small]
  omega

theorem pa_aligned : pte2pa pte % pgsize = 0 := by
  rw [pa_eq, pgsize]
  exact Nat.mul_mod_left ..

theorem pa_lt : pte2pa pte < 2 ^ 64 := Nat.mod_lt _ (by decide)

end Xv6Labs.Vm
