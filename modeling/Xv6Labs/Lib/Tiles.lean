import Mathlib

/-!
# Tilings

Regions of memory `rs` tile the regions `got` if no two of them overlap and together they take the same addresses. Two
neighbours may become one, a region may be cut in two, and a region above all others may be added to both.
-/

namespace Tiling

structure Region where
  start : ℕ
  length : ℕ
deriving DecidableEq, Repr

namespace Region

variable (r q : Region)

def stop : ℕ := r.start + r.length

def Has (x : ℕ) : Prop := r.start ≤ x ∧ x < r.stop

def Apart : Prop := ∀ x, r.Has x → ¬q.Has x

variable {r q}

theorem Apart.symm (h : r.Apart q) : q.Apart r := fun x there here => h x here there

theorem Apart.le_or_le (h : r.Apart q) (nonempty : 0 < r.length) (nonempty' : 0 < q.length) :
    r.stop ≤ q.start ∨ q.stop ≤ r.start := by
  by_contra overlap
  simp only [stop, not_or, not_le] at overlap
  apply h (max r.start q.start)
  all_goals
    simp only [Has, stop]
    omega

theorem has_add {a n m x : ℕ} : Has ⟨a, n + m⟩ x ↔ Has ⟨a, n⟩ x ∨ Has ⟨a + n, m⟩ x := by
  simp only [Has, stop]
  omega

end Region

structure Tiles (rs got : List Region) : Prop where
  apart : rs.Pairwise Region.Apart
  cover : ∀ x, (∃ r ∈ rs, r.Has x) ↔ ∃ g ∈ got, g.Has x

namespace Tiles

variable {rs rs' got : List Region} {r : Region} {a n m bound : ℕ}

theorem perm (tiles : Tiles rs got) (same : rs'.Perm rs) : Tiles rs' got := by
  constructor
  · exact (same.pairwise_iff fun h => h.symm).mpr tiles.apart
  · intro x
    simp only [same.mem_iff]
    exact tiles.cover x

theorem le (tiles : Tiles rs got) (mem : r ∈ rs) (nonempty : 0 < r.length) (all : ∀ g ∈ got, g.stop ≤ bound) :
    r.stop ≤ bound := by
  obtain ⟨g, member, -, less⟩ := (tiles.cover (r.stop - 1)).mp ⟨r, mem, by simp only [Region.Has, Region.stop]; omega⟩
  have upper := all g member
  omega

theorem ge (tiles : Tiles rs got) (mem : r ∈ rs) (nonempty : 0 < r.length) (all : ∀ g ∈ got, bound ≤ g.start) :
    bound ≤ r.start := by
  obtain ⟨g, member, le, -⟩ := (tiles.cover r.start).mp ⟨r, mem, by simp only [Region.Has, Region.stop]; omega⟩
  exact (all g member).trans le

theorem join (tiles : Tiles (⟨a, n⟩ :: ⟨a + n, m⟩ :: rs) got) : Tiles (⟨a, n + m⟩ :: rs) got := by
  have pairs := tiles.apart
  rw [List.pairwise_cons, List.pairwise_cons] at pairs
  obtain ⟨first, second, rest⟩ := pairs
  constructor
  · refine List.pairwise_cons.mpr ⟨fun r mem x here => ?_, rest⟩
    rcases Region.has_add.mp here with here | here
    · exact first r (List.mem_cons_of_mem _ mem) x here
    · exact second r mem x here
  · intro x
    rw [← tiles.cover x]
    simp only [List.mem_cons, exists_eq_or_imp, Region.has_add, or_assoc]

theorem cut (tiles : Tiles (⟨a, n + m⟩ :: rs) got) : Tiles (⟨a, n⟩ :: ⟨a + n, m⟩ :: rs) got := by
  have pairs := tiles.apart
  rw [List.pairwise_cons] at pairs
  obtain ⟨whole, rest⟩ := pairs
  constructor
  · refine List.pairwise_cons.mpr ⟨fun r mem x here => ?_, List.pairwise_cons.mpr ⟨fun r mem x here => ?_, rest⟩⟩
    · rcases List.mem_cons.mp mem with rfl | mem
      · simp only [Region.Has, Region.stop] at *
        omega
      · exact whole r mem x (Region.has_add.mpr (.inl here))
    · exact whole r mem x (Region.has_add.mpr (.inr here))
  · intro x
    rw [← tiles.cover x]
    simp only [List.mem_cons, exists_eq_or_imp, Region.has_add, or_assoc]

theorem grow (tiles : Tiles rs got) (above : ∀ q ∈ rs, q.stop ≤ r.start) : Tiles (r :: rs) (r :: got) := by
  constructor
  · refine List.pairwise_cons.mpr ⟨fun q mem x here there => ?_, tiles.apart⟩
    have le := above q mem
    simp only [Region.Has] at here there
    omega
  · intro x
    simp only [List.mem_cons, exists_eq_or_imp, tiles.cover x]

/-- An empty region does not count. -/
theorem tail (tiles : Tiles (⟨a, 0⟩ :: rs) got) : Tiles rs got := by
  refine ⟨tiles.apart.tail, fun x => ?_⟩
  have none : ¬Region.Has ⟨a, 0⟩ x := by
    simp only [Region.Has, Region.stop]
    omega
  rw [← tiles.cover x]
  simp [none]

end Tiles

end Tiling
