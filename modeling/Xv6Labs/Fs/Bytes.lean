import Xv6Labs.Param

/-!
# Bytes of blocks and of user memory

The words of a block are little-endian. User memory is what `walkaddr` finds for the address of a page: nothing, or
the bytes of the page.
-/

namespace Xv6Labs

namespace Block

def byte (d : Block) (j : ℕ) : UInt8 :=
  if h : j / 4 < bsize / 4 then UInt8.ofNat ((d ⟨j / 4, h⟩).toNat / 256 ^ (j % 4)) else 0

def ofBytes (f : ℕ → UInt8) : Block := fun i =>
  UInt32.ofNat ((f (4 * i)).toNat + 256 * (f (4 * i + 1)).toNat + 256 ^ 2 * (f (4 * i + 2)).toNat +
    256 ^ 3 * (f (4 * i + 3)).toNat)

/-- `memmove(data + off, src, n)` -/
def memmove (d : Block) (off : ℕ) (src : ℕ → UInt8) (n : ℕ) : Block :=
  ofBytes fun j => if off ≤ j ∧ j < off + n then src (j - off) else d.byte j

end Block

abbrev pgsize : ℕ := 4096

abbrev Pages : Type := UInt64 → Option (ℕ → UInt8)

def pgrounddown (va : UInt64) : UInt64 := va - va % 4096

/-- All bytes from `va` on are in pages that are mapped. -/
def Pages.Mapped (pages : Pages) (va : UInt64) (len : ℕ) : Prop :=
  ∀ k < len, pages (pgrounddown (va + UInt64.ofNat k)) ≠ none

theorem pgrounddown_toNat (va : UInt64) : (pgrounddown va).toNat = va.toNat - va.toNat % pgsize := by
  unfold pgrounddown
  rw [UInt64.toNat_sub_of_le, UInt64.toNat_mod]
  · rfl
  · rw [UInt64.le_iff_toNat_le, UInt64.toNat_mod]
    exact Nat.mod_le _ _

theorem page_offset (va : UInt64) : (va - pgrounddown va).toNat = va.toNat % pgsize := by
  have below := Nat.mod_le va.toNat pgsize
  rw [UInt64.toNat_sub_of_le, pgrounddown_toNat]
  · omega
  · rw [UInt64.le_iff_toNat_le, pgrounddown_toNat]
    exact Nat.sub_le _ _

/-- The address after the rest of a page. -/
theorem next_page {va : UInt64} {n : ℕ} (rest : n = pgsize - (va - pgrounddown va).toNat) :
    pgrounddown va + 4096 = va + UInt64.ofNat n := by
  have offset := page_offset va
  have base := pgrounddown_toNat va
  have small : va.toNat % pgsize < pgsize := Nat.mod_lt _ (by decide)
  have below := Nat.mod_le va.toNat pgsize
  have size := va.toNat_lt
  apply UInt64.toNat_inj.mp
  rw [UInt64.toNat_add, UInt64.toNat_add, base, UInt64.toNat_ofNat']
  change (va.toNat - va.toNat % pgsize + 4096) % 2 ^ 64 = _
  unfold pgsize at *
  omega

theorem Pages.Mapped.next {pages : Pages} {va : UInt64} {len n : ℕ} (mapped : pages.Mapped va len)
    (rest : n = pgsize - (va - pgrounddown va).toNat) (less : n ≤ len) :
    pages.Mapped (pgrounddown va + 4096) (len - n) := by
  intro k small
  rw [next_page rest, UInt64.add_assoc, ← UInt64.ofNat_add]
  exact mapped (n + k) (by omega)

end Xv6Labs
