import Mathlib

/-!
# Trees of tables

A heap of tables, each with an entry for every index; some entries lead to a further table. `node` follows a path of
indices from a root. Where no two paths of length at most `d` lead to the same table, writing an entry changes what is
found under that path and nothing else: `look` is a finite map over the paths of length `d` and their last index.
-/

namespace Radix

variable {ν ι ε : Type} {child : ε → Option ν} {m m' : ν → ι → ε} {root n f : ν} {p q : List ι} {i j : ι} {d : ℕ}
  {e zero : ε}

def node (child : ε → Option ν) (m : ν → ι → ε) (n : ν) : List ι → Option ν
  | [] => some n
  | i :: path => (child (m n i)).bind fun n => node child m n path

/-- Every table within depth `d` is reached by one path. -/
def Distinct (child : ε → Option ν) (m : ν → ι → ε) (root : ν) (d : ℕ) : Prop :=
  ∀ p q n, p.length ≤ d → q.length ≤ d → node child m root p = some n → node child m root q = some n → p = q

/-- The tables within depth `d`. -/
def Nodes (child : ε → Option ν) (m : ν → ι → ε) (root : ν) (d : ℕ) : Set ν :=
  {n | ∃ p, p.length ≤ d ∧ node child m root p = some n}

/-- The entry under a path and a last index; `zero` where the path ends early. -/
def look (child : ε → Option ν) (zero : ε) (m : ν → ι → ε) (root : ν) (p : List ι) (i : ι) : ε :=
  match node child m root p with
  | none => zero
  | some n => m n i

theorem node_append (p q : List ι) :
    node child m root (p ++ q) = (node child m root p).bind fun n => node child m n q := by
  induction p generalizing root with
  | nil => rfl
  | cons i p ih =>
    simp only [List.cons_append, node]
    cases child (m root i) with
    | none => rfl
    | some n => exact ih

theorem node_snoc : node child m root (p ++ [i]) = (node child m root p).bind fun n => child (m n i) := by
  rw [node_append]
  congr 1
  funext n
  simp only [node]
  cases child (m n i) <;> rfl

/-- What is found depends on the entries on the way only. -/
theorem node_congr (same : ∀ p i, p ++ [i] <+: q → ∀ n, node child m root p = some n → child (m' n i) = child (m n i)) :
    node child m' root q = node child m root q := by
  induction q using List.reverseRecOn with
  | nil => rfl
  | append_singleton q i ih =>
    have before : node child m' root q = node child m root q :=
      ih fun p j le n there => same p j (le.trans (List.prefix_append ..)) n there
    rw [node_snoc, node_snoc, before]
    cases found : node child m root q with
    | none => rfl
    | some n => exact same q i List.prefix_rfl n found

theorem node_gone (le : p <+: q) (gone : node child m root p = none) : node child m root q = none := by
  obtain ⟨r, rfl⟩ := le
  rw [node_append, gone]
  rfl

theorem root_mem_nodes : root ∈ Nodes child m root d := ⟨[], Nat.zero_le _, rfl⟩

section

variable [DecidableEq ν] [DecidableEq ι]

def set (m : ν → ι → ε) (n : ν) (i : ι) (e : ε) : ν → ι → ε := Function.update m n (Function.update (m n) i e)

theorem set_self : set m n i e n i = e := by simp [set]

theorem set_of_ne (other : f ≠ n ∨ j ≠ i) : set m n i e f j = m f j := by
  by_cases same : f = n
  · subst same
    rw [set, Function.update_self, Function.update_of_ne (other.resolve_left fun h => h rfl)]
  · rw [set, Function.update_of_ne same]

/-! ### An entry of a last table -/

theorem node_set_last (distinct : Distinct child m root d) (found : node child m root p = some n) (last : p.length = d)
    (le : q.length ≤ d) : node child (set m n i e) root q = node child m root q := by
  apply node_congr
  intro r j before x there
  have short : r.length < d := by
    have := before.length_le
    simp only [List.length_append, List.length_singleton] at this
    omega
  have other : x ≠ n := by
    rintro rfl
    have := distinct p r x last.le short.le found there
    subst this
    omega
  rw [set_of_ne (.inl other)]

theorem distinct_set_last (distinct : Distinct child m root d) (found : node child m root p = some n)
    (last : p.length = d) :
    Distinct child (set m n i e) root d := by
  intro q r x le le' there there'
  rw [node_set_last distinct found last le] at there
  rw [node_set_last distinct found last le'] at there'
  exact distinct q r x le le' there there'

theorem nodes_set_last (distinct : Distinct child m root d) (found : node child m root p = some n)
    (last : p.length = d) :
    Nodes child (set m n i e) root d = Nodes child m root d := by
  ext x
  constructor
  · rintro ⟨q, le, there⟩
    exact ⟨q, le, (node_set_last distinct found last le).symm.trans there⟩
  · rintro ⟨q, le, there⟩
    exact ⟨q, le, (node_set_last distinct found last le).trans there⟩

theorem look_set_self (distinct : Distinct child m root d) (found : node child m root p = some n)
    (last : p.length = d) :
    look child zero (set m n i e) root p i = e := by
  rw [look, node_set_last distinct found last last.le, found]
  exact set_self

theorem look_set_of_ne (distinct : Distinct child m root d) (found : node child m root p = some n) (last : p.length = d)
    (le : q.length = d) (other : q ≠ p ∨ j ≠ i) :
    look child zero (set m n i e) root q j = look child zero m root q j := by
  rw [look, look, node_set_last distinct found last le.le]
  cases there : node child m root q with
  | none => rfl
  | some x =>
    apply set_of_ne
    by_cases same : x = n
    · subst same
      have := distinct q p x le.le last.le there found
      exact .inr (other.resolve_left fun h => h this)
    · exact .inl same

end

/-! ### A new table -/

/-- `f` is a table of its own with no entry that leads anywhere, and the entry `i` of the table under `p`, which led
nowhere, leads to it. -/
structure Links (child : ε → Option ν) (zero : ε) (m m' : ν → ι → ε) (root : ν) (d : ℕ) (p : List ι) (i : ι)
    (n f : ν) : Prop where
  distinct : Distinct child m root d
  found : node child m root p = some n
  depth : p.length < d
  empty : child (m n i) = none
  fresh : f ∉ Nodes child m root d
  linked : child (m' n i) = some f
  zero_child : child zero = none
  blank : ∀ j, m' f j = zero
  rest : ∀ x, x ≠ f → ∀ j, (x ≠ n ∨ j ≠ i) → m' x j = m x j

theorem Links.node_new (links : Links child zero m m' root d p i n f) : node child m' root (p ++ [i]) = some f := by
  have before : node child m' root p = node child m root p := by
    apply node_congr
    intro r j le x there
    have short : r.length < p.length := by
      have := le.length_le
      simp only [List.length_append, List.length_singleton] at this
      omega
    have other : x ≠ n := by
      rintro rfl
      have := links.distinct p r x links.depth.le (by have := links.depth; omega) links.found there
      subst this
      omega
    have old : x ≠ f := by
      rintro rfl
      exact links.fresh ⟨r, by have := links.depth; omega, there⟩
    rw [links.rest x old j (.inl other)]
  rw [node_snoc, before, links.found]
  exact links.linked

theorem Links.node_eq (links : Links child zero m m' root d p i n f) (le : q.length ≤ d) (other : q ≠ p ++ [i]) :
    node child m' root q = node child m root q := by
  by_cases below : p ++ [i] <+: q
  · have gone : node child m root (p ++ [i]) = none := by
      rw [node_snoc, links.found]
      exact links.empty
    rw [node_gone below gone]
    obtain ⟨r, rfl⟩ := below
    rw [node_append, links.node_new]
    cases r with
    | nil => exact absurd (List.append_nil _) other
    | cons j r => simp only [Option.bind_some, node, links.blank, links.zero_child, Option.bind_none]
  · apply node_congr
    intro r j before x there
    have short : r.length < d := by
      have := before.length_le
      simp only [List.length_append, List.length_singleton] at this
      omega
    have old : x ≠ f := by
      rintro rfl
      exact links.fresh ⟨r, short.le, there⟩
    have off : x ≠ n ∨ j ≠ i := by
      by_contra both
      obtain ⟨rfl, rfl⟩ : x = n ∧ j = i := by
        simpa only [not_or, not_not] using both
      have := links.distinct p r x links.depth.le short.le links.found there
      subst this
      exact below before
    rw [links.rest x old j off]

theorem Links.nodes (links : Links child zero m m' root d p i n f) :
    Nodes child m' root d = insert f (Nodes child m root d) := by
  have deep : (p ++ [i]).length ≤ d := by
    have := links.depth
    simp only [List.length_append, List.length_singleton]
    omega
  ext x
  constructor
  · rintro ⟨q, le, there⟩
    by_cases same : q = p ++ [i]
    · subst same
      rw [links.node_new] at there
      exact .inl (Option.some.inj there).symm
    · exact .inr ⟨q, le, (links.node_eq le same).symm.trans there⟩
  · rintro (rfl | ⟨q, le, there⟩)
    · exact ⟨_, deep, links.node_new⟩
    · refine ⟨q, le, (links.node_eq le ?_).trans there⟩
      rintro rfl
      rw [node_snoc, links.found] at there
      exact nomatch links.empty.symm.trans there

theorem Links.distinct_new (links : Links child zero m m' root d p i n f) : Distinct child m' root d := by
  intro q r x le le' there there'
  by_cases same : q = p ++ [i]
  · subst same
    by_cases same' : r = p ++ [i]
    · exact same'.symm
    · rw [links.node_new] at there
      cases there
      rw [links.node_eq le' same'] at there'
      exact absurd ⟨r, le', there'⟩ links.fresh
  · rw [links.node_eq le same] at there
    by_cases same' : r = p ++ [i]
    · subst same'
      rw [links.node_new] at there'
      cases there'
      exact absurd ⟨q, le, there⟩ links.fresh
    · rw [links.node_eq le' same'] at there'
      exact links.distinct q r x le le' there there'

theorem Links.look_eq (links : Links child zero m m' root d p i n f) (le : q.length = d) :
    look child zero m' root q j = look child zero m root q j := by
  by_cases same : q = p ++ [i]
  · subst same
    have gone : node child m root (p ++ [i]) = none := by
      rw [node_snoc, links.found]
      exact links.empty
    rw [look, look, links.node_new, gone]
    exact links.blank j
  · rw [look, look, links.node_eq le.le same]
    cases there : node child m root q with
    | none => rfl
    | some x =>
      have old : x ≠ f := by
        rintro rfl
        exact links.fresh ⟨q, le.le, there⟩
      refine links.rest x old j (.inl ?_)
      rintro rfl
      have := links.distinct p q x links.depth.le le.le links.found there
      have := links.depth
      subst p
      omega

/-! ### Subtrees -/

theorem node_cons : node child m root (i :: q) = (child (m root i)).bind fun n => node child m n q := rfl

theorem node_agree (same : ∀ x ∈ Nodes child m root d, m' x = m x) (le : q.length ≤ d) :
    node child m' root q = node child m root q := by
  apply node_congr
  intro r i before x there
  have short : r.length ≤ d := by
    have := before.length_le
    simp only [List.length_append, List.length_singleton] at this
    omega
  rw [same x ⟨r, short, there⟩]

theorem nodes_agree (same : ∀ x ∈ Nodes child m root d, m' x = m x) : Nodes child m' root d = Nodes child m root d := by
  ext x
  constructor
  · rintro ⟨q, le, there⟩
    exact ⟨q, le, (node_agree same le).symm.trans there⟩
  · rintro ⟨q, le, there⟩
    exact ⟨q, le, (node_agree same le).trans there⟩

theorem nodes_zero : Nodes child m root 0 = {root} := by
  ext x
  constructor
  · rintro ⟨q, le, there⟩
    cases List.length_eq_zero_iff.mp (Nat.le_zero.mp le)
    exact (Option.some.inj there).symm
  · rintro rfl
    exact root_mem_nodes

theorem mem_nodes_succ : f ∈ Nodes child m root (d + 1) ↔
    f = root ∨ ∃ i n, child (m root i) = some n ∧ f ∈ Nodes child m n d := by
  constructor
  · rintro ⟨q, le, there⟩
    cases q with
    | nil => exact .inl (Option.some.inj there).symm
    | cons i q =>
      rw [node_cons] at there
      obtain ⟨n, linked, there⟩ := Option.bind_eq_some_iff.mp there
      exact .inr ⟨i, n, linked, q, Nat.le_of_succ_le_succ le, there⟩
  · rintro (rfl | ⟨i, n, linked, q, le, there⟩)
    · exact root_mem_nodes
    · refine ⟨i :: q, Nat.succ_le_succ le, ?_⟩
      rw [node_cons, linked]
      exact there

theorem Distinct.below (distinct : Distinct child m root (d + 1)) (linked : child (m root i) = some n) :
    Distinct child m n d := by
  intro p q x le le' there there'
  have both := distinct (i :: p) (i :: q) x (Nat.succ_le_succ le) (Nat.succ_le_succ le')
    (by rw [node_cons, linked]; exact there)
    (by rw [node_cons, linked]; exact there')
  exact (List.cons.inj both).2

theorem Distinct.root_not_mem (distinct : Distinct child m root (d + 1)) (linked : child (m root i) = some n) :
    root ∉ Nodes child m n d := by
  rintro ⟨q, le, there⟩
  have below : node child m root (i :: q) = some root := by
    rw [node_cons, linked]
    exact there
  exact absurd (distinct (i :: q) [] root (Nat.succ_le_succ le) (Nat.zero_le _) below rfl) (by simp)

theorem Distinct.subtrees {f' : ν} (distinct : Distinct child m root (d + 1)) (linked : child (m root i) = some n)
    (linked' : child (m root j) = some f') (there : f ∈ Nodes child m n d) (there' : f ∈ Nodes child m f' d) :
    i = j := by
  obtain ⟨q, le, found⟩ := there
  obtain ⟨r, le', found'⟩ := there'
  have left : node child m root (i :: q) = some f := by
    rw [node_cons, linked]
    exact found
  have right : node child m root (j :: r) = some f := by
    rw [node_cons, linked']
    exact found'
  exact (List.cons.inj (distinct _ _ f (Nat.succ_le_succ le) (Nat.succ_le_succ le') left right)).1

end Radix
