import Xv6Labs.Bio.Calls
import Xv6Labs.Bio.HashedRun

/-!
# The two buffer caches as variants of one

Lab 2 keeps all buffers on one list. Both searches do the same job: they find the buffer of the block if it
is cached, else assign the block to some unreferenced buffer, else panic. `Variant.Sound` says so, and what
the two leave open, the choice of the buffer, is all that distinguishes them.
-/

namespace Xv6Labs.Bio

variable {H : ℕ} {D : Type}

namespace Single

abbrev heads : ℕ := 1

/-- All blocks are on the same list. -/
def listOf (_ : UInt32) : Fin heads := 0

def bget (c : Cache heads D) (dev blockno : UInt32) : Option (Option (Cache heads D × Node heads)) :=
  match c.lookup 0 dev blockno with
  | none => none
  | some (some b) => some (some (c.incRef b, b))
  | some none =>
    match c.unused 0 with
    | none => none
    | some (some b) => some (some (c.assign b dev blockno, b))
    | some none => some none

def binit (zero : D) : Cache heads D := (Cache.blank zero).linkAll 0 (List.finRange nbuf)

def variant : Variant heads D := ⟨listOf, bget⟩

end Single

def Hashed.variant : Variant Hashed.nbuckets D := ⟨Hashed.bucketOf, Hashed.bget⟩

/-- What a `bget` does to a cache whose lists are in order. -/
inductive Found (v : Variant H D) (c : Cache H D) (dev blockno : UInt32) :
    Option (Option (Cache H D × Node H)) → Prop where
  | hit (i : Fin nbuf) (dev_eq : (c.buf (.buf i)).dev = dev) (block_eq : (c.buf (.buf i)).blockno = blockno) :
      Found v c dev blockno (some (some (c.incRef (.buf i), .buf i)))
  | recycled (c' : Cache H D) (i : Fin nbuf) (miss : ¬c.Cached dev blockno)
      (unused : (c.buf (.buf i)).refcnt = 0) (bufs : c'.buf = (c.assign (.buf i) dev blockno).buf)
      (filed : ∃ l, c'.Filed v.hash l) : Found v c dev blockno (some (some (c', .buf i)))
  | full (miss : ¬c.Cached dev blockno) (busy : ∀ i, (c.buf (.buf i)).refcnt ≠ 0) :
      Found v c dev blockno (some none)

def Variant.Sound (v : Variant H D) : Prop :=
  ∀ c l dev blockno, c.Filed v.hash l → Found v c dev blockno (v.search c dev blockno)

theorem Single.sound : (variant (D := D)).Sound := by
  intro c l dev blockno filed
  show Found _ _ _ _ (bget c dev blockno)
  unfold bget
  rcases filed.lookup_spec dev blockno with ⟨i, found, devs, blocks⟩ | ⟨found, miss⟩
  · have found : c.lookup 0 dev blockno = some (some (.buf i)) := found
    rw [found]
    exact .hit i devs blocks
  · have found : c.lookup 0 dev blockno = some none := found
    rw [found]
    rcases filed.unused_spec 0 with ⟨i, found, unused, -⟩ | ⟨found, busy⟩
    · rw [found]
      exact .recycled _ i miss unused rfl ⟨l, filed.setBuf (Subsingleton.elim _ _)⟩
    · rw [found]
      exact .full miss fun i => busy i (Subsingleton.elim _ _)

open Hashed in
theorem Hashed.stealLoop_found {c : Cache nbuckets D} {l : Fin nbuckets → List (Fin nbuf)} {dev blockno : UInt32}
    (filed : c.Filed bucketOf l) (miss : ¬c.Cached dev blockno) (rest : List (Fin nbuckets))
    (searched : ∀ h, h ∉ rest → ∀ i, bucketOf (c.buf (.buf i)).blockno = h → (c.buf (.buf i)).refcnt ≠ 0)
    (own : ∀ i, bucketOf (c.buf (.buf i)).blockno = bucketOf blockno → (c.buf (.buf i)).refcnt ≠ 0) :
    Found variant c dev blockno (stealLoop c dev blockno rest) := by
  induction rest with
  | nil => exact .full miss fun i => searched _ (by simp) i rfl
  | cons h rest ih =>
    unfold stealLoop
    by_cases mine : h = bucketOf blockno
    · rw [if_pos mine]
      apply ih
      intro k absent i here
      by_cases same : k = h
      · exact own i (here.trans (same.trans mine))
      · exact searched k (by simp [same, absent]) i here
    · rw [if_neg mine]
      rcases filed.unused_spec h with ⟨i, found, unused, -⟩ | ⟨found, busy⟩
      · rw [found]
        have moved := filed.moveTo (i := i) (h := bucketOf blockno) (c.assign (.buf i) dev blockno) rfl
          (fun j ne => by rw [Cache.assign_other ne]) (by simp [Cache.assign])
        exact .recycled _ i miss unused rfl ⟨_, moved⟩
      · rw [found]
        apply ih
        intro k absent i here
        by_cases same : k = h
        · exact busy i (here.trans same)
        · exact searched k (by simp [same, absent]) i here

open Hashed in
theorem Hashed.sound : (Hashed.variant (D := D)).Sound := by
  intro c l dev blockno filed
  show Found _ _ _ _ (bget c dev blockno)
  unfold bget
  rcases filed.lookup_spec dev blockno with ⟨i, found, devs, blocks⟩ | ⟨found, miss⟩
  · rw [show c.lookup (bucketOf blockno) dev blockno = _ from found]
    exact .hit i devs blocks
  · rw [show c.lookup (bucketOf blockno) dev blockno = _ from found]
    rcases filed.unused_spec (bucketOf blockno) with ⟨i, found, unused, here⟩ | ⟨found, busy⟩
    · rw [found]
      exact .recycled _ i miss unused rfl ⟨l, filed.setBuf here.symm⟩
    · rw [found]
      exact stealLoop_found filed miss _ (fun h absent => (absent (List.mem_finRange h)).elim) busy

end Xv6Labs.Bio
