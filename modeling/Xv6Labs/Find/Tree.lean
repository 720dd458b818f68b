import Xv6Labs.Fs.Layout

/-!
# Directory trees and paths

What `open` and `read` see of a file system that nobody changes: the entries of each directory, and what a path names.
-/

namespace Xv6Labs.Find

open Fs (slash dirsiz cstring namecmp skipelem Dirent rootino ndev)

abbrev Path : Type := List UInt8

abbrev maxpath : ℕ := 128

inductive Kind where
  | file
  | device (major : ℕ)
  | dir (slots : List Dirent)

/-- `sys_unlink` leaves a slot of zeros, and `dirlink` takes no name twice. -/
structure Tree where
  inode : UInt32 → Kind
  cwd : UInt32
  root_dir : ∃ slots, inode rootino = .dir slots
  cwd_dir : ∃ slots, inode cwd = .dir slots
  removed : ∀ i slots, inode i = .dir slots → ∀ de ∈ slots, de.inum = 0 → cstring de.name = []
  named : ∀ i slots, inode i = .dir slots → ∀ de ∈ slots, de.inum ≠ 0 → cstring de.name ≠ [] ∧ slash ∉ cstring de.name
  unique : ∀ i slots, inode i = .dir slots →
    slots.Pairwise fun a b => a.inum ≠ 0 → b.inum ≠ 0 → cstring a.name ≠ cstring b.name

def dirlookup (slots : List Dirent) (name : Path) : Option UInt32 :=
  (slots.find? fun de => de.inum ≠ 0 && namecmp name de.name).map fun de => de.inum.toUInt32

/-- The names that `skipelem` takes from a path of at most `n` bytes. -/
def elementsUpTo : ℕ → Path → List Path
  | 0, _ => []
  | n + 1, path =>
    match skipelem path with
    | none => []
    | some (name, rest) => name :: elementsUpTo n rest

def elements (path : Path) : List Path := elementsUpTo path.length path

def follow (tree : Tree) : UInt32 → List Path → Option UInt32
  | i, [] => some i
  | i, name :: names =>
    match tree.inode i with
    | .dir slots =>
      match dirlookup slots name with
      | none => none
      | some j => follow tree j names
    | _ => none

def namei (tree : Tree) (path : Path) : Option UInt32 :=
  follow tree (if path.head? = some slash then rootino else tree.cwd) (elements path)

/-- What `open(path, 0)` opens while there is a free descriptor. `argstr` takes at most `MAXPATH` bytes, with the
NUL. -/
def sysOpen (tree : Tree) (path : Path) : Option Kind :=
  if path.length < maxpath then
    match namei tree path with
    | none => none
    | some i =>
      match tree.inode i with
      | .device major => if major < ndev then some (.device major) else none
      | kind => some kind
  else none

variable {tree : Tree} {path name rest : Path} {slots : List Dirent} {de : Dirent} {i j : UInt32} {n : ℕ}

/-! ### Elements -/

theorem skipelem_slash : skipelem (slash :: path) = skipelem path := by
  unfold skipelem
  rw [List.dropWhile_cons_of_pos (by simp)]

theorem skipelem_cons {c : UInt8} (other : c ≠ slash) :
    skipelem (c :: path) = some (((c :: path).takeWhile (· ≠ slash)).take dirsiz,
    ((c :: path).dropWhile (· ≠ slash)).dropWhile (· = slash)) := by
  unfold skipelem
  rw [List.dropWhile_cons_of_neg (by simpa using other)]

theorem skipelem_shorter (some_elem : skipelem path = some (name, rest)) : rest.length < path.length := by
  induction path with
  | nil => simp [skipelem] at some_elem
  | cons c path ih =>
    by_cases first : c = slash
    · subst first
      rw [skipelem_slash] at some_elem
      exact Nat.lt_succ_of_lt (ih some_elem)
    · rw [skipelem_cons first] at some_elem
      obtain ⟨-, rfl⟩ := Prod.mk.inj (Option.some.inj some_elem)
      rw [List.dropWhile_cons_of_pos (by simpa using first), List.length_cons]
      have once := (List.dropWhile_sublist (l := path) (· ≠ slash)).length_le
      have twice := (List.dropWhile_sublist (l := path.dropWhile (· ≠ slash)) (· = slash)).length_le
      omega

theorem splitOn_slash : (slash :: path).splitOn slash = [] :: path.splitOn slash := by
  have nothing : slash ∉ ([] : Path) := List.not_mem_nil
  exact List.splitOn_append_cons_self_of_not_mem nothing path

/-- What the slashes separate, cut to `DIRSIZ` bytes each. -/
def parts (path : Path) : List Path := ((path.splitOn slash).filter (· ≠ [])).map (·.take dirsiz)

theorem parts_slash : parts (slash :: path) = parts path := by
  unfold parts
  rw [splitOn_slash, List.filter_cons_of_neg (by simp)]

theorem parts_dropWhile : parts (path.dropWhile (· = slash)) = parts path := by
  induction path with
  | nil => rfl
  | cons c path ih =>
    by_cases first : c = slash
    · subst first
      rw [List.dropWhile_cons_of_pos (by simp), ih, parts_slash]
    · rw [List.dropWhile_cons_of_neg (by simpa using first)]

theorem parts_element (whole : slash ∉ name) (some_byte : name ≠ []) :
    parts (name ++ slash :: rest) = name.take dirsiz :: parts rest := by
  unfold parts
  rw [List.splitOn_append_cons_self_of_not_mem whole, List.filter_cons_of_pos (by simpa using some_byte), List.map_cons]

theorem parts_last (whole : slash ∉ name) (some_byte : name ≠ []) : parts name = [name.take dirsiz] := by
  unfold parts
  rw [List.splitOn_eq_singleton whole, List.filter_cons_of_pos (by simpa using some_byte), List.filter_nil,
    List.map_cons, List.map_nil]

theorem parts_append : parts (path ++ slash :: rest) = parts path ++ parts rest := by
  unfold parts
  rw [List.splitOn_append_cons_self, List.filter_append, List.map_append]

theorem parts_skipelem : parts path = (skipelem path).elim [] fun next => next.1 :: parts next.2 := by
  induction path with
  | nil => rfl
  | cons c path ih =>
    by_cases first : c = slash
    · subst first
      rw [parts_slash, skipelem_slash, ih]
    · rw [skipelem_cons first]
      have whole : slash ∉ (c :: path).takeWhile (· ≠ slash) := by
        intro mem
        simpa using List.mem_takeWhile_imp mem
      have some_byte : (c :: path).takeWhile (· ≠ slash) ≠ [] := by
        rw [List.takeWhile_cons_of_pos (by simpa using first)]
        simp
      have split := List.takeWhile_append_dropWhile (p := (· ≠ slash)) (l := c :: path)
      have stop := List.head?_dropWhile_not (· ≠ slash) (c :: path)
      generalize (c :: path).takeWhile (· ≠ slash) = elem at *
      generalize (c :: path).dropWhile (· ≠ slash) = after at *
      rw [Option.elim_some]
      rw [parts_dropWhile, ← split]
      cases after with
      | nil =>
        rw [List.append_nil, parts_last whole some_byte]
        rfl
      | cons d after =>
        have separator : d = slash := by simpa using stop
        rw [separator, parts_element whole some_byte, parts_slash]

theorem elementsUpTo_eq (enough : path.length ≤ n) : elementsUpTo n path = parts path := by
  induction n generalizing path with
  | zero =>
    rw [List.length_eq_zero_iff.mp (Nat.le_zero.mp enough)]
    rfl
  | succ n ih =>
    rw [elementsUpTo, parts_skipelem]
    cases next : skipelem path with
    | none => rfl
    | some elem =>
      obtain ⟨name, rest⟩ := elem
      have shorter := skipelem_shorter next
      dsimp only [Option.elim_some]
      rw [ih (by omega)]

theorem elements_eq : elements path = parts path := elementsUpTo_eq le_rfl

theorem elements_append : elements (path ++ slash :: rest) = elements path ++ elements rest := by
  rw [elements_eq, elements_eq, elements_eq, parts_append]

theorem elements_name (whole : slash ∉ name) (some_byte : name ≠ []) : elements name = [name.take dirsiz] := by
  rw [elements_eq, parts_last whole some_byte]

/-! ### Names -/

theorem length_cstring_le : (cstring name).length ≤ dirsiz :=
  ((List.takeWhile_sublist _).length_le).trans (List.length_take_le ..)

theorem cstring_eq (nonul : 0 ∉ name) : cstring name = name.take dirsiz := by
  unfold cstring
  rw [List.takeWhile_eq_self_iff]
  intro c mem
  have nonzero : c ≠ 0 := fun zero => nonul (zero ▸ List.mem_of_mem_take mem)
  simpa using nonzero

theorem namecmp_iff {s t : Path} : namecmp s t = true ↔ cstring s = cstring t := beq_iff_eq

/-- A name finds an entry with that name. -/
theorem mem_of_dirlookup (found : dirlookup slots name = some j) :
    ∃ de ∈ slots, de.inum ≠ 0 ∧ cstring name = cstring de.name ∧ de.inum.toUInt32 = j := by
  unfold dirlookup at found
  obtain ⟨de, first, rfl⟩ := Option.map_eq_some_iff.mp found
  have holds := List.find?_some first
  rw [Bool.and_eq_true, namecmp_iff] at holds
  exact ⟨de, List.mem_of_find?_eq_some first, by simpa using holds.1, holds.2, rfl⟩

/-! ### What paths name -/

theorem follow_append {xs ys : List Path} :
    follow tree i (xs ++ ys) = (follow tree i xs).bind fun j => follow tree j ys := by
  induction xs generalizing i with
  | nil => rfl
  | cons name xs ih =>
    rw [List.cons_append, follow, follow]
    cases tree.inode i with
    | file => rfl
    | device => rfl
    | dir slots =>
      dsimp only
      cases dirlookup slots name with
      | none => rfl
      | some j => exact ih

theorem namei_append (start : path ≠ []) :
    namei tree (path ++ slash :: rest) = (namei tree path).bind fun i => follow tree i (elements rest) := by
  unfold namei
  rw [List.head?_append_of_ne_nil _ start, elements_append, follow_append]

theorem namei_slash (start : path ≠ []) : namei tree (path ++ [slash]) = namei tree path := by
  rw [namei_append start]
  cases namei tree path with
  | none => rfl
  | some i => rfl

/-- Files in the root directory and nowhere else. -/
def Tree.ofRoot (slots : List Dirent) (removed : ∀ de ∈ slots, de.inum = 0 → cstring de.name = [])
    (named : ∀ de ∈ slots, de.inum ≠ 0 → cstring de.name ≠ [] ∧ slash ∉ cstring de.name)
    (unique : slots.Pairwise fun a b => a.inum ≠ 0 → b.inum ≠ 0 → cstring a.name ≠ cstring b.name) : Tree where
  inode := fun i => if i = rootino then .dir slots else .file
  cwd := rootino
  root_dir := ⟨slots, rfl⟩
  cwd_dir := ⟨slots, rfl⟩
  removed := by
    intro i others dir
    split at dir
    · cases dir
      exact removed
    · cases dir
  named := by
    intro i others dir
    split at dir
    · cases dir
      exact named
    · cases dir
  unique := by
    intro i others dir
    split at dir
    · cases dir
      exact unique
    · cases dir

end Xv6Labs.Find
