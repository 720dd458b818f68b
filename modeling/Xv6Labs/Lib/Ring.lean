import Mathlib

/-!
# Circular doubly linked lists

`Links` holds the `next` and `prev` fields of every node of a memory. `Ring h l` says that the
nodes of `l`, in this order, form the circular list through the head `h`. The two pointer updates
every such list uses, `unlink` and `pushFront`, are written as the four field writes they are in C;
their lemmas say what they do to the ring they touch and that they leave every other ring alone.
`scan` is the loop that follows `next` until it finds a node or is back at the head.
-/

namespace LinkedRing

universe u

variable {ν : Type u}

structure Links (ν : Type u) where
  next : ν → ν
  prev : ν → ν

namespace Links

def Adjacent (L : Links ν) (x y : ν) : Prop := L.next x = y ∧ L.prev y = x

def Linked (L : Links ν) (l : List ν) : Prop := l.IsChain L.Adjacent

/-- The circular list through the head `h` holds exactly the nodes of `l`, in this order. -/
def Ring (L : Links ν) (h : ν) (l : List ν) : Prop := (h :: l).Nodup ∧ L.Linked (h :: (l ++ [h]))

def flip (L : Links ν) : Links ν := ⟨L.prev, L.next⟩

@[simp] theorem flip_next (L : Links ν) : L.flip.next = L.prev := rfl

variable {L : Links ν} {h g b x y : ν} {l k : List ν}

theorem Ring.nodup (r : L.Ring h l) : l.Nodup := (List.nodup_cons.mp r.1).2

theorem Ring.head_notMem (r : L.Ring h l) : h ∉ l := (List.nodup_cons.mp r.1).1

theorem Ring.flip (r : L.Ring h l) : L.flip.Ring h l.reverse := by
  refine ⟨?_, ?_⟩
  · rw [List.nodup_cons, List.mem_reverse, List.nodup_reverse]
    exact ⟨r.head_notMem, r.nodup⟩
  · have shape : h :: (l.reverse ++ [h]) = (h :: (l ++ [h])).reverse := by simp
    rw [Linked, shape, List.isChain_reverse]
    exact r.2.imp fun _ _ adjacent => ⟨adjacent.2, adjacent.1⟩

theorem snoc_eq_cons (t : List ν) (h : ν) : ∃ c q, t ++ [h] = c :: q := by
  cases t <;> simp

theorem cons_eq_snoc (h : ν) (s : List ν) : ∃ p a, h :: s = p ++ [a] :=
  ⟨(h :: s).dropLast, (h :: s).getLast (by simp), (List.dropLast_append_getLast _).symm⟩

theorem Ring.neighbours {s t : List ν} (r : L.Ring h (s ++ b :: t)) :
    ∃ p a c q, h :: s = p ++ [a] ∧ t ++ [h] = c :: q ∧ L.Linked (p ++ [a]) ∧ L.Adjacent a b ∧
      L.Adjacent b c ∧ L.Linked (c :: q) := by
  obtain ⟨c, q, split⟩ := snoc_eq_cons t h
  obtain ⟨p, a, ends⟩ := cons_eq_snoc h s
  have chain := r.2
  have shape : h :: (s ++ b :: t ++ [h]) = p ++ a :: b :: c :: q := by
    rw [List.append_assoc, List.cons_append, split, ← List.cons_append, ends]; simp
  rw [Linked, shape, List.isChain_append_cons_cons, List.isChain_cons_cons] at chain
  exact ⟨p, a, c, q, ends, split, chain.1, chain.2.1, chain.2.2.1, chain.2.2.2⟩

theorem Ring.inverse (r : L.Ring h l) (member : x ∈ h :: l) :
    L.next (L.prev x) = x ∧ L.prev (L.next x) = x := by
  rcases List.mem_cons.mp member with rfl | member
  · have chain := r.2
    constructor
    · obtain ⟨p, a, ends⟩ := cons_eq_snoc x l
      rw [Linked, show x :: (l ++ [x]) = p ++ a :: x :: [] by rw [← List.cons_append, ends]; simp,
        List.isChain_append_cons_cons] at chain
      rw [chain.2.1.2, chain.2.1.1]
    · obtain ⟨c, q, split⟩ := snoc_eq_cons l x
      rw [Linked, split, List.isChain_cons_cons] at chain
      rw [chain.1.1, chain.1.2]
  · obtain ⟨s, t, rfl⟩ := List.append_of_mem member
    obtain ⟨p, a, c, q, -, -, -, before, after, -⟩ := r.neighbours
    exact ⟨by rw [before.2, before.1], by rw [after.1, after.2]⟩

theorem Ring.inner (r : L.Ring h l) (member : b ∈ l) : L.next b ≠ b := by
  intro loop
  obtain ⟨s, t, rfl⟩ := List.append_of_mem member
  obtain ⟨p, a, c, q, -, split, -, -, after, -⟩ := r.neighbours
  have same : b = c := loop.symm.trans after.1
  have here : b ∈ t ++ [h] := by rw [split, same]; exact List.mem_cons_self
  have distinct := r.1
  rw [List.nodup_cons, List.nodup_append] at distinct
  rcases List.mem_append.mp here with later | last
  · exact (List.nodup_cons.mp distinct.2.2.1).1 later
  · obtain rfl : b = h := by simpa using last
    exact distinct.1 (by simp)

theorem mem_of_mem_around {z : ν} (member : z ∈ g :: (k ++ [g])) : z ∈ g :: k := by
  simp only [List.mem_cons, List.mem_append, List.not_mem_nil, or_false] at member ⊢
  tauto

/-! ### Taking a node out -/

section Update
variable [DecidableEq ν]

/-- `b->next->prev = b->prev; b->prev->next = b->next` -/
def unlink (L : Links ν) (b : ν) : Links ν :=
  let L₁ : Links ν := { L with prev := Function.update L.prev (L.next b) (L.prev b) }
  { L₁ with next := Function.update L₁.next (L₁.prev b) (L₁.next b) }

/-- `b->next = h->next; b->prev = h; h->next->prev = b; h->next = b` -/
def pushFront (L : Links ν) (h b : ν) : Links ν :=
  let L₁ : Links ν := { L with next := Function.update L.next b (L.next h) }
  let L₂ : Links ν := { L₁ with prev := Function.update L₁.prev b h }
  let L₃ : Links ν := { L₂ with prev := Function.update L₂.prev (L₂.next h) b }
  { L₃ with next := Function.update L₃.next h b }

theorem unlink_next (inner : L.next b ≠ b) :
    (L.unlink b).next = Function.update L.next (L.prev b) (L.next b) := by
  simp [unlink, Function.update_of_ne inner.symm]

theorem unlink_prev : (L.unlink b).prev = Function.update L.prev (L.next b) (L.prev b) := rfl

theorem pushFront_next :
    (L.pushFront h b).next = Function.update (Function.update L.next b (L.next h)) h b := rfl

theorem pushFront_prev (fresh : b ≠ h) :
    (L.pushFront h b).prev = Function.update (Function.update L.prev b h) (L.next h) b := by
  simp [pushFront, Function.update_of_ne fresh.symm]

/-- Links between nodes other than `b` survive taking `b` out: a link that was overwritten would
have had `b` at one end. -/
theorem Adjacent.unlink (inner : L.next b ≠ b) (before : L.next (L.prev b) = b)
    (after : L.prev (L.next b) = b) (hx : x ≠ b) (hy : y ≠ b) (adjacent : L.Adjacent x y) :
    (L.unlink b).Adjacent x y := by
  refine ⟨?_, ?_⟩
  · rw [unlink_next inner, Function.update_of_ne, adjacent.1]
    rintro rfl
    exact hy (adjacent.1.symm.trans before)
  · rw [unlink_prev, Function.update_of_ne, adjacent.2]
    rintro rfl
    exact hx (adjacent.2.symm.trans after)

theorem Ring.unlink {s t : List ν} (r : L.Ring h (s ++ b :: t)) : (L.unlink b).Ring h (s ++ t) := by
  have member : b ∈ s ++ b :: t := by simp
  have inner := r.inner member
  obtain ⟨before, after⟩ := r.inverse (List.mem_cons_of_mem h member)
  have absent : b ∉ h :: (s ++ t) := by
    have distinct := r.1
    rw [← List.cons_append, List.nodup_middle] at distinct
    simpa using (List.nodup_cons.mp distinct).1
  have keep : ∀ m : List ν, (∀ z ∈ m, z ∈ h :: (s ++ t)) → L.Linked m → (L.unlink b).Linked m := by
    intro m sub
    refine List.IsChain.imp_of_mem_imp fun x y hx hy adjacent => ?_
    exact adjacent.unlink inner before after (fun e => absent (e ▸ sub x hx))
      (fun e => absent (e ▸ sub y hy))
  obtain ⟨p, a, c, q, ends, split, left, ab, bc, right⟩ := r.neighbours
  refine ⟨r.1.sublist (by simp), ?_⟩
  rw [Linked, show h :: (s ++ t ++ [h]) = p ++ a :: c :: q by
    rw [List.append_assoc, split, ← List.cons_append, ends]; simp, List.isChain_append_cons_cons]
  refine ⟨keep _ ?_ left, ⟨?_, ?_⟩, keep _ ?_ right⟩
  · intro z hz
    rw [← ends] at hz
    exact List.cons_subset_cons h (List.subset_append_left s t) hz
  · rw [unlink_next inner, ab.2, Function.update_self, bc.1]
  · rw [unlink_prev, bc.1, Function.update_self, ab.2]
  · intro z hz
    rw [← split] at hz
    exact mem_of_mem_around (by simp only [List.mem_cons, List.mem_append] at hz ⊢; tauto)

theorem Ring.unlink_other (r : L.Ring h l) (member : b ∈ l) (other : L.Ring g k)
    (absent : b ∉ g :: k) : (L.unlink b).Ring g k := by
  obtain ⟨before, after⟩ := r.inverse (List.mem_cons_of_mem h member)
  refine ⟨other.1, other.2.imp_of_mem_imp fun x y hx hy adjacent => ?_⟩
  exact adjacent.unlink (r.inner member) before after (fun e => absent (e ▸ mem_of_mem_around hx))
    (fun e => absent (e ▸ mem_of_mem_around hy))

/-! ### Putting a node at the front -/

theorem Adjacent.pushFront (fresh : b ≠ h) (after : L.prev (L.next h) = h) (hh : x ≠ h) (hx : x ≠ b)
    (hy : y ≠ b) (adjacent : L.Adjacent x y) : (L.pushFront h b).Adjacent x y := by
  refine ⟨?_, ?_⟩
  · rw [pushFront_next, Function.update_of_ne hh, Function.update_of_ne hx, adjacent.1]
  · rw [pushFront_prev fresh, Function.update_of_ne, Function.update_of_ne hy, adjacent.2]
    rintro rfl
    exact hh (adjacent.2.symm.trans after)

theorem Ring.pushFront (r : L.Ring h l) (fresh : b ∉ h :: l) : (L.pushFront h b).Ring h (b :: l) := by
  have ne : b ≠ h := fun e => fresh (by simp [e])
  have after := (r.inverse (x := h) List.mem_cons_self).2
  obtain ⟨c, q, split⟩ := snoc_eq_cons l h
  have chain := r.2
  rw [Linked, split, List.isChain_cons_cons] at chain
  obtain ⟨hc, tail⟩ := chain
  have distinct : (c :: q).Nodup := by
    rw [← split, List.nodup_append]
    refine ⟨r.nodup, by simp, ?_⟩
    rintro z hz w hw rfl
    simp only [List.mem_singleton] at hw
    exact r.head_notMem (hw ▸ hz)
  have absent : b ∉ c :: q := by
    rw [← split]
    simp only [List.mem_cons, not_or] at fresh
    simp [fresh.1, fresh.2]
  have bc : c ≠ b := fun e => absent (by simp [e])
  refine ⟨?_, ?_⟩
  · rw [List.nodup_cons, List.nodup_cons]
    simp only [List.mem_cons, not_or] at fresh
    refine ⟨?_, fresh.2, r.nodup⟩
    simp only [List.mem_cons, not_or]
    exact ⟨ne.symm, r.head_notMem⟩
  · rw [Linked, List.cons_append, split, List.isChain_cons_cons, List.isChain_cons_cons]
    refine ⟨⟨?_, ?_⟩, ⟨?_, ?_⟩, ?_⟩
    · rw [pushFront_next, Function.update_self]
    · rw [pushFront_prev ne, hc.1, Function.update_of_ne bc.symm, Function.update_self]
    · rw [pushFront_next, Function.update_of_ne ne, Function.update_self, hc.1]
    · rw [pushFront_prev ne, hc.1, Function.update_self]
    · -- A link out of the head would lead back to `c`, the first node of the rest.
      refine tail.imp_of_mem_tail_imp fun x y hx hy adjacent => ?_
      refine adjacent.pushFront ne after ?_ (fun e => absent (e ▸ hx)) ?_
      · rintro rfl
        have : y = c := adjacent.1.symm.trans hc.1
        exact (List.nodup_cons.mp distinct).1 (this ▸ hy)
      · exact fun e => absent (e ▸ List.mem_cons_of_mem c hy)

theorem Ring.pushFront_other (r : L.Ring h l) (fresh : b ≠ h) (other : L.Ring g k)
    (absent : b ∉ g :: k) (apart : h ∉ g :: k) : (L.pushFront h b).Ring g k := by
  have after := (r.inverse (x := h) List.mem_cons_self).2
  refine ⟨other.1, other.2.imp_of_mem_imp fun x y hx hy adjacent => ?_⟩
  exact adjacent.pushFront fresh after (fun e => apart (e ▸ mem_of_mem_around hx))
    (fun e => absent (e ▸ mem_of_mem_around hx))
    (fun e => absent (e ▸ mem_of_mem_around hy))

end Update

/-! ### Walking a ring -/

section Scan
variable [DecidableEq ν]

/-- `for(b = start; b != h; b = b->next) if(p(b)) return b;` with a bound on the number of nodes
visited: `none` when the bound is exhausted, else the node found, if any. -/
def scan (L : Links ν) (p : ν → Bool) (h : ν) : Nat → ν → Option (Option ν)
  | 0, _ => none
  | fuel + 1, b =>
    if b = h then some none
    else if p b then some (some b)
    else scan L p h fuel (L.next b)

theorem scan_linked (p : ν → Bool) (fuel : Nat) (chain : L.Linked (x :: (l ++ [h]))) (absent : h ∉ l)
    (enough : l.length < fuel) : L.scan p h fuel (L.next x) = some (l.find? p) := by
  induction l generalizing x fuel with
  | nil =>
    obtain ⟨fuel, rfl⟩ : ∃ n, fuel = n + 1 := ⟨fuel - 1, by simp at enough; omega⟩
    rw [Linked, List.nil_append, List.isChain_cons_cons] at chain
    simp [scan, chain.1.1]
  | cons a l ih =>
    obtain ⟨fuel, rfl⟩ : ∃ n, fuel = n + 1 := ⟨fuel - 1, by simp at enough; omega⟩
    rw [Linked, List.cons_append, List.isChain_cons_cons] at chain
    simp only [List.mem_cons, not_or] at absent
    rw [chain.1.1, scan, if_neg (Ne.symm absent.1), List.find?_cons]
    cases found : p a with
    | true => simp
    | false =>
      simp only [Bool.false_eq_true, if_false]
      exact ih fuel chain.2 absent.2 (by simp only [List.length_cons] at enough; omega)

theorem Ring.scan_next (r : L.Ring h l) (p : ν → Bool) {fuel : Nat} (enough : l.length < fuel) :
    L.scan p h fuel (L.next h) = some (l.find? p) :=
  scan_linked p fuel r.2 r.head_notMem enough

theorem Ring.scan_prev (r : L.Ring h l) (p : ν → Bool) {fuel : Nat} (enough : l.length < fuel) :
    L.flip.scan p h fuel (L.prev h) = some (l.reverse.find? p) :=
  r.flip.scan_next p (by simpa using enough)

end Scan

end Links

end LinkedRing
