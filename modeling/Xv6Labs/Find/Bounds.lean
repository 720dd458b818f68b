import Xv6Labs.Find.Code

/-!
# Bounds of the arrays in `find.c`

A name of `DIRSIZ` bytes has no NUL in its field, and the last element of the path that `find` is called with may be
longer than `DIRSIZ` bytes: the kernel cuts it, and `fmtname` copies all of it.
-/

namespace Xv6Labs.Find

open Fs (slash dirsiz cstring Dirent)

def Event.Safe : Event → Prop
  | .name index => index < dirsiz
  | .buf index => index < bufsize
  | .static index => index < dirsiz + 1
  | .build path de new => new = path ++ slash :: cstring de.name
  | .print _ => True

/-- `find` comes from `path` to the second path, and holds that many descriptors there. -/
inductive Comes (tree : Tree) : Path → ℕ → Path → Prop
  | here {path : Path} : Comes tree path 0 path
  | slot {path q : Path} {slots : List Dirent} {de : Dirent} {d : ℕ} :
      sysOpen tree path = some (.dir slots) → de ∈ slots →
      cstring de.name ≠ dot → cstring de.name ≠ dotdot → Comes tree (path ++ slash :: cstring de.name) d q →
      Comes tree path (d + 1) q

/-- Where `find` comes to with a free descriptor, the names are shorter than `DIRSIZ`, and `path` does not end in a
longer name. -/
structure Fits (tree : Tree) (fds : ℕ) (path : Path) : Prop where
  entries : ∀ d q slots, Comes tree path d q → d < fds → sysOpen tree q = some (.dir slots) →
    ∀ de ∈ slots, (cstring de.name).length < dirsiz
  last : 0 < fds → sysOpen tree path = some .file → (fmtname path).length ≤ dirsiz

variable {tree : Tree} {behind : Path → Dirent → Path} {filename path q name rest : Path} {slots : List Dirent}
  {de : Dirent} {i : UInt32} {n fds d : ℕ} {next : Path → List Event} {e : Event}

theorem sysOpen_short {kind : Kind} (opened : sysOpen tree path = some kind) : path.length < maxpath := by
  unfold sysOpen at opened
  split at opened
  · assumption
  · cases opened

/-- What `open` opens is what the path names. -/
theorem sysOpen_namei {kind : Kind} (opened : sysOpen tree path = some kind) :
    ∃ i, namei tree path = some i ∧ tree.inode i = kind := by
  have short := sysOpen_short opened
  unfold sysOpen at opened
  rw [if_pos short] at opened
  cases place : namei tree path with
  | none =>
    rw [place] at opened
    cases opened
  | some i =>
    rw [place] at opened
    dsimp only at opened
    refine ⟨i, rfl, ?_⟩
    split at opened
    · split at opened
      · cases opened
        assumption
      · cases opened
    · cases opened
      rfl

theorem slash_not_mem (dir : tree.inode i = .dir slots) (mem : de ∈ slots) : slash ∉ cstring de.name := by
  by_cases used : de.inum = 0
  · rw [tree.removed i slots dir de mem used]
    exact List.not_mem_nil
  · exact (tree.named i slots dir de mem used).2

theorem fmtname_append (whole : slash ∉ name) : fmtname (path ++ slash :: name) = name := by
  unfold fmtname List.rtakeWhile
  have all : ∀ c ∈ name.reverse, decide (c ≠ slash) = true := by
    intro c mem
    have other : c ≠ slash := fun same => whole (same ▸ List.mem_reverse.mp mem)
    simpa using other
  rw [List.reverse_append, List.reverse_cons, List.append_assoc, List.takeWhile_append_of_pos all,
    List.singleton_append, List.takeWhile_cons_of_neg (by simp), List.append_nil, List.reverse_reverse]

theorem nameString_short {bytes : Path} (short : (cstring de.name).length < dirsiz) :
    nameString bytes de = cstring de.name := if_pos short

/-! ### The events of one call -/

theorem find_dir (opened : sysOpen tree path = some (.dir slots)) : find tree behind filename (fds + 1) path =
    copyPath path ++ slots.flatMap (visit (behind path) path (find tree behind filename fds)) := by
  have short := sysOpen_short opened
  unfold find
  rw [opened]
  exact if_neg (by change ¬ path.length + 1 + 14 + 1 > 512; change path.length < 128 at short; omega)

theorem find_file (opened : sysOpen tree path = some .file) :
    find tree behind filename (fds + 1) path = judge path filename := by
  unfold find
  rw [opened]

theorem find_device {major : ℕ} (opened : sysOpen tree path = some (.device major)) :
    find tree behind filename (fds + 1) path = [] := by
  unfold find
  rw [opened]

theorem find_none (closed : sysOpen tree path = none) :
    find tree behind filename fds path = [.print (.cannotOpen path)] := by
  cases fds with
  | zero => rfl
  | succ fds =>
    unfold find
    rw [closed]

/-! ### Safety of the parts -/

def AllSafe (es : List Event) : Prop := ∀ e ∈ es, e.Safe

theorem allSafe_append {xs ys : List Event} : AllSafe (xs ++ ys) ↔ AllSafe xs ∧ AllSafe ys := List.forall_mem_append

theorem allSafe_cons {es : List Event} : AllSafe (e :: es) ↔ e.Safe ∧ AllSafe es := List.forall_mem_cons

theorem allSafe_nil : AllSafe [] := List.forall_mem_nil _

theorem allSafe_map {event : ℕ → Event} {ks : List ℕ} : AllSafe (ks.map event) ↔ ∀ k ∈ ks, (event k).Safe :=
  List.forall_mem_map

theorem allSafe_flatMap {f : Dirent → List Event} : AllSafe (slots.flatMap f) ↔ ∀ de ∈ slots, AllSafe (f de) := by
  constructor
  · intro safe de mem e inside
    exact safe e (List.mem_flatMap.mpr ⟨de, mem, inside⟩)
  · intro safe e inside
    obtain ⟨de, mem, inside⟩ := List.mem_flatMap.mp inside
    exact safe de mem e inside

theorem allSafe_nameReads : AllSafe (nameReads n) ↔ n ≤ dirsiz := by
  unfold nameReads
  rw [allSafe_map]
  constructor
  · intro safe
    by_contra long
    exact absurd (safe dirsiz (List.mem_range.mpr (Nat.lt_of_not_le long))) (Nat.lt_irrefl dirsiz)
  · intro short k mem
    exact (List.mem_range.mp mem).trans_le short

theorem common_le {s t : Path} : common s t ≤ t.length := by
  induction s generalizing t with
  | nil => cases t <;> exact Nat.zero_le _
  | cons a s ih =>
    cases t with
    | nil => exact Nat.zero_le _
    | cons b t =>
      unfold common
      split
      · exact Nat.succ_le_succ ih
      · exact Nat.zero_le _

/-- The comparisons with `"."` and `".."` end in the field in any case. -/
theorem allSafe_dotReads : AllSafe (dotReads name) := by
  unfold dotReads
  have first : common name dot ≤ 1 := common_le
  have second : common name dotdot ≤ 2 := common_le
  rw [allSafe_append, allSafe_nameReads]
  refine ⟨by change _ ≤ 14; omega, ?_⟩
  split
  · exact allSafe_nil
  · rw [allSafe_nameReads]
    change _ ≤ 14
    omega

theorem allSafe_copyPath (within : path.length < maxpath) : AllSafe (copyPath path) := by
  change path.length < 128 at within
  unfold copyPath
  rw [allSafe_append, allSafe_map, allSafe_cons]
  refine ⟨fun k mem => ?_, ?_, allSafe_nil⟩
  · have inside := List.mem_range.mp mem
    change k < 512
    omega
  · change path.length < 512
    omega

theorem allSafe_copyName (within : path.length < maxpath) (short : name.length < dirsiz) :
    AllSafe (copyName path name) := by
  change path.length < 128 at within
  change name.length < 14 at short
  unfold copyName
  rw [allSafe_append, allSafe_append, allSafe_append, allSafe_append, allSafe_nameReads, allSafe_nameReads,
    allSafe_map, allSafe_cons]
  have whole : name.length ≤ dirsiz := Nat.le_of_lt short
  refine ⟨⟨⟨⟨short, whole⟩, fun k mem => ?_⟩, short⟩, ?_, allSafe_nil⟩
  · have inside := List.mem_range.mp mem
    change path.length + 1 + k < 512
    omega
  · change path.length + 1 + name.length < 512
    omega

theorem allSafe_judge : AllSafe (judge path filename) ↔ (fmtname path).length ≤ dirsiz := by
  unfold judge fmtnameWrites
  rw [allSafe_append, allSafe_map]
  constructor
  · rintro ⟨safe, -⟩
    exact Nat.lt_succ_iff.mp (safe (fmtname path).length (List.mem_range.mpr (Nat.lt_succ_self _)))
  · intro short
    refine ⟨fun k mem => (List.mem_range.mp mem).trans_le (Nat.succ_le_succ short), ?_⟩
    split
    · exact allSafe_cons.mpr ⟨trivial, allSafe_nil⟩
    · exact allSafe_nil

theorem allSafe_visit {bytes : Dirent → Path} (within : path.length < maxpath)
    (short : (cstring de.name).length < dirsiz)
    (safe : cstring de.name ≠ dot → cstring de.name ≠ dotdot → AllSafe (next (path ++ slash :: cstring de.name))) :
    AllSafe (visit bytes path next de) := by
  unfold visit
  rw [nameString_short short, allSafe_append]
  refine ⟨allSafe_dotReads, ?_⟩
  split
  · exact allSafe_nil
  · have other := not_or.mp ‹_›
    rw [allSafe_append, allSafe_cons]
    exact ⟨allSafe_copyName within short, rfl, safe other.1 other.2⟩

/-- A name without a NUL is read beyond its field. -/
theorem visit_short {bytes : Dirent → Path} (safe : AllSafe (visit bytes path next de)) :
    (cstring de.name).length < dirsiz := by
  by_contra long
  have grows : dirsiz ≤ (nameString (bytes de) de).length := by
    unfold nameString
    rw [if_neg long, List.length_append]
    omega
  unfold visit at safe
  dsimp only at safe
  rw [if_neg, allSafe_append, allSafe_append] at safe
  · have reads := safe.2.1
    unfold copyName at reads
    rw [allSafe_append, allSafe_append, allSafe_append, allSafe_append, allSafe_nameReads] at reads
    have inside := reads.1.1.1.1
    omega
  · rintro (same | same) <;> rw [same] at grows <;> revert grows <;> decide

/-- With short names the call for an entry is among the rest. -/
theorem visit_next {bytes : Dirent → Path} (safe : AllSafe (visit bytes path next de)) (first : cstring de.name ≠ dot)
    (second : cstring de.name ≠ dotdot) : AllSafe (next (path ++ slash :: cstring de.name)) := by
  have short := visit_short safe
  unfold visit at safe
  rw [nameString_short short] at safe
  dsimp only at safe
  rw [if_neg (not_or.mpr ⟨first, second⟩), allSafe_append, allSafe_append, allSafe_cons] at safe
  exact safe.2.2.2

/-! ### Whole runs -/

theorem Fits.inner (fits : Fits tree (fds + 1) path) (opened : sysOpen tree path = some (.dir slots)) (mem : de ∈ slots)
    (first : cstring de.name ≠ dot) (second : cstring de.name ≠ dotdot) :
    Fits tree fds (path ++ slash :: cstring de.name) where
  entries := fun _ _ _ comes free => fits.entries _ _ _ (.slot opened mem first second comes) (Nat.succ_lt_succ free)
  last := by
    intro _ _
    obtain ⟨i, -, dir⟩ := sysOpen_namei opened
    rw [fmtname_append (slash_not_mem dir mem)]
    exact length_cstring_le

theorem find_allSafe (fits : Fits tree fds path) : AllSafe (find tree behind filename fds path) := by
  induction fds generalizing path with
  | zero => exact allSafe_cons.mpr ⟨trivial, allSafe_nil⟩
  | succ fds ih =>
    cases opened : sysOpen tree path with
    | none =>
      rw [find_none opened]
      exact allSafe_cons.mpr ⟨trivial, allSafe_nil⟩
    | some kind =>
      cases kind with
      | file =>
        rw [find_file opened, allSafe_judge]
        exact fits.last (Nat.succ_pos fds) opened
      | device major =>
        rw [find_device opened]
        exact allSafe_nil
      | dir slots =>
        rw [find_dir opened, allSafe_append, allSafe_flatMap]
        have within := sysOpen_short opened
        exact ⟨allSafe_copyPath within, fun de mem =>
          allSafe_visit within (fits.entries 0 path slots .here (Nat.succ_pos fds) opened de mem)
          fun first second => ih (fits.inner opened mem first second)⟩

theorem find_next (safe : AllSafe (find tree behind filename (fds + 1) path))
    (opened : sysOpen tree path = some (.dir slots))
    (mem : de ∈ slots) (first : cstring de.name ≠ dot) (second : cstring de.name ≠ dotdot) :
    AllSafe (find tree behind filename fds (path ++ slash :: cstring de.name)) := by
  rw [find_dir opened, allSafe_append, allSafe_flatMap] at safe
  exact visit_next (safe.2 de mem) first second

/-- Each call in a safe run is safe. -/
theorem safe_comes (comes : Comes tree path d q) (safe : AllSafe (find tree behind filename fds path))
    (free : d < fds) :
    AllSafe (find tree behind filename (fds - d) q) := by
  induction comes generalizing fds with
  | here => exact safe
  | slot opened mem first second _ ih =>
    cases fds with
    | zero => exact absurd free (Nat.not_lt_zero _)
    | succ fds =>
      rw [Nat.add_sub_add_right]
      exact ih (find_next safe opened mem first second) (Nat.lt_of_succ_lt_succ free)

theorem fits_of_safe (safe : AllSafe (find tree behind filename fds path)) : Fits tree fds path where
  entries := by
    intro d q slots comes free opened de mem
    have here := safe_comes comes safe free
    obtain ⟨left, rest⟩ : ∃ left, fds - d = left + 1 := ⟨fds - d - 1, by omega⟩
    rw [rest, find_dir opened, allSafe_append, allSafe_flatMap] at here
    exact visit_short (here.2 de mem)
  last := by
    intro free opened
    obtain ⟨left, rfl⟩ : ∃ left, fds = left + 1 := ⟨fds - 1, by omega⟩
    rwa [find_file opened, allSafe_judge] at safe

/-- The reads and writes are in bounds and the paths are right exactly if everything fits. -/
theorem find_in_bounds_iff :
    (∀ e ∈ find tree behind filename fds path, e.Safe) ↔ Fits tree fds path := ⟨fits_of_safe, find_allSafe⟩

/-- The root directory has an entry `abcdefghijklmn`. -/
def longName : Tree := .ofRoot [⟨2, [97, 98, 99, 100, 101, 102, 103, 104, 105, 106, 107, 108, 109, 110]⟩]
    (by decide) (by decide) (by decide)

/-- `strlen` reads `de.name[14]`. -/
theorem find_out_of_bounds : ∃ e ∈ find longName (fun _ _ => []) [98] 13 [slash], ¬ e.Safe := by
  by_contra safe
  have fits : Fits longName 13 [slash] := fits_of_safe fun e mem => not_not.mp fun bad => safe ⟨e, mem, bad⟩
  have short := fits.entries 0 [slash] _ .here (by decide) rfl _ List.mem_cons_self
  revert short
  decide

end Xv6Labs.Find
