import Xv6Labs.Find.Bounds

/-!
# What `find.c` reports

A removed entry has an empty name, so `find` goes on to the same directory with one more slash, again and again until
`open` fails.
-/

namespace Xv6Labs.Find

open Fs (slash dirsiz cstring Dirent rootino)

/-- The files at or below a path, with the depth at which they are. -/
inductive Below (tree : Tree) : Path → ℕ → Path → Prop
  | here {path : Path} : Below tree path 0 path
  | under {path q : Path} {slots : List Dirent} {de : Dirent} {i : UInt32} {d : ℕ} : namei tree path = some i →
      tree.inode i = .dir slots → de ∈ slots → de.inum ≠ 0 → cstring de.name ≠ dot → cstring de.name ≠ dotdot →
      Below tree (path ++ slash :: cstring de.name) d q → Below tree path (d + 1) q

/-- A regular file, and `filename` is its last element. -/
def Matches (tree : Tree) (filename path : Path) : Prop :=
  (∃ i, namei tree path = some i ∧ tree.inode i = .file) ∧ (elements path).getLast? = some filename

def Event.message : Event → Option Message
  | .print message => some message
  | _ => none

def messages (es : List Event) : List Message := es.filterMap Event.message

/-- Each match once, and nothing else. -/
structure Reports (tree : Tree) (filename path : Path) (ms : List Message) : Prop where
  once : ms.Nodup
  lines : ∀ m, m ∈ ms ↔ ∃ d q, m = .line q ∧ Below tree path d q ∧ Matches tree filename q

def Tree.Short (tree : Tree) : Prop := ∀ i slots, tree.inode i = .dir slots →
    ∀ de ∈ slots, (cstring de.name).length < dirsiz

/-- Everything at or below `path` can be opened, and no directory there has a removed entry. -/
structure Open (tree : Tree) (fds : ℕ) (path : Path) : Prop where
  opened : ∀ d q, Below tree path d q → d < fds ∧ (sysOpen tree q).isSome
  full : ∀ d q slots, Below tree path d q → q ≠ [] → sysOpen tree q = some (.dir slots) → ∀ de ∈ slots, de.inum ≠ 0

/-- A path for a regular file does not end in a slash, or `filename` is neither what is before it nor empty. The
empty path is the current directory for `open`, and the paths that start with it are absolute. -/
structure Clean (tree : Tree) (fds : ℕ) (filename path : Path) : Prop extends Open tree fds path where
  trailing : path.getLast? = some slash → (∃ i, namei tree path = some i ∧ tree.inode i = .file) →
    filename ≠ [] ∧ (elements path).getLast? ≠ some filename
  empty : path = [] → ∀ slots, sysOpen tree path = some (.dir slots) → ∀ de ∈ slots, de.inum = 0 →
    Open tree (fds - 1) [slash] ∧ ∀ d q, Below tree [slash] d q → ¬ Matches tree filename q

variable {tree : Tree} {behind : Path → Dirent → Path} {filename path q name rest : Path} {slots : List Dirent}
  {de : Dirent} {i : UInt32} {n fds d : ℕ} {next : Path → List Event} {e : Event} {m : Message} {ms : List Message}

/-! ### Messages of the parts -/

theorem messages_append {xs ys : List Event} : messages (xs ++ ys) = messages xs ++ messages ys := List.filterMap_append

theorem messages_map {event : ℕ → Event} {ks : List ℕ} (silent : ∀ k, (event k).message = none) :
    messages (ks.map event) = [] := by
  unfold messages
  rw [List.filterMap_eq_nil_iff]
  intro e mem
  obtain ⟨k, -, rfl⟩ := List.mem_map.mp mem
  exact silent k

theorem messages_nameReads : messages (nameReads n) = [] := messages_map fun _ => rfl

theorem messages_dotReads : messages (dotReads name) = [] := by
  unfold dotReads
  rw [messages_append, messages_nameReads]
  split
  · rfl
  · exact messages_nameReads

theorem messages_copyPath : messages (copyPath path) = [] := by
  unfold copyPath
  rw [messages_append, messages_map fun _ => rfl]
  rfl

theorem messages_copyName : messages (copyName path name) = [] := by
  unfold copyName
  rw [messages_append, messages_append, messages_append, messages_append, messages_nameReads, messages_nameReads,
    messages_map fun _ => rfl]
  rfl

theorem messages_judge : messages (judge path filename) = if fmtname path = filename then [.line path] else [] := by
  unfold judge fmtnameWrites
  rw [messages_append, messages_map fun _ => rfl]
  split <;> rfl

theorem messages_visit {bytes : Dirent → Path} (short : (cstring de.name).length < dirsiz) :
    messages (visit bytes path next de) =
    if cstring de.name = dot ∨ cstring de.name = dotdot then []
      else messages (next (path ++ slash :: cstring de.name)) := by
  unfold visit
  rw [nameString_short short]
  dsimp only
  rw [messages_append, messages_dotReads, List.nil_append]
  split
  · rfl
  · rw [messages_append, messages_copyName, List.nil_append]
    rfl

/-- What `find` prints. -/
def output (tree : Tree) (behind : Path → Dirent → Path) (filename : Path) (fds : ℕ) (path : Path) : List Message :=
  messages (find tree behind filename fds path)

theorem output_none (closed : sysOpen tree path = none) :
    output tree behind filename fds path = [.cannotOpen path] := by
  unfold output
  rw [find_none closed]
  rfl

theorem output_file (opened : sysOpen tree path = some .file) :
    output tree behind filename (fds + 1) path = if fmtname path = filename then [.line path] else [] := by
  unfold output
  rw [find_file opened, messages_judge]

theorem output_device {major : ℕ} (opened : sysOpen tree path = some (.device major)) :
    output tree behind filename (fds + 1) path = [] := by
  unfold output
  rw [find_device opened]
  rfl

theorem output_dir (short : tree.Short) (opened : sysOpen tree path = some (.dir slots)) :
    output tree behind filename (fds + 1) path = slots.flatMap fun de =>
      if cstring de.name = dot ∨ cstring de.name = dotdot then []
        else output tree behind filename fds (path ++ slash :: cstring de.name) := by
  obtain ⟨i, -, dir⟩ := sysOpen_namei opened
  unfold output
  rw [find_dir opened, messages_append, messages_copyPath, List.nil_append]
  unfold messages
  rw [List.filterMap_flatMap]
  apply List.flatMap_congr
  intro de mem
  exact messages_visit (short i slots dir de mem)

theorem mem_output_dir (short : tree.Short) (opened : sysOpen tree path = some (.dir slots)) :
    m ∈ output tree behind filename (fds + 1) path ↔ ∃ de ∈ slots, cstring de.name ≠ dot ∧ cstring de.name ≠ dotdot ∧
      m ∈ output tree behind filename fds (path ++ slash :: cstring de.name) := by
  rw [output_dir short opened, List.mem_flatMap]
  refine exists_congr fun de => and_congr_right fun _ => ?_
  split
  · have special : cstring de.name = dot ∨ cstring de.name = dotdot := ‹_›
    constructor
    · intro inside
      exact absurd inside List.not_mem_nil
    · rintro ⟨first, second, -⟩
      exact absurd special (not_or.mpr ⟨first, second⟩)
  · have other := not_or.mp ‹_›
    exact ⟨fun inside => ⟨other.1, other.2, inside⟩, fun inside => inside.2.2⟩

/-! ### Paths below a path -/

theorem Below.prefix_path (below : Below tree path d q) :
    ∃ rest, q = path ++ rest ∧ (rest = [] ∨ ∃ tail, rest = slash :: tail) := by
  induction below with
  | here => exact ⟨[], (List.append_nil _).symm, .inl rfl⟩
  | under _ _ _ _ _ _ _ ih =>
    obtain ⟨rest, rfl, -⟩ := ih
    exact ⟨_, by rw [List.append_assoc, List.cons_append], .inr ⟨_, rfl⟩⟩

theorem element_inj {s t xs ys : Path} (whole₁ : slash ∉ s) (whole₂ : slash ∉ t)
    (end₁ : xs = [] ∨ ∃ tail, xs = slash :: tail)
    (end₂ : ys = [] ∨ ∃ tail, ys = slash :: tail) (same : s ++ xs = t ++ ys) : s = t := by
  have cut : ∀ {u zs : Path}, slash ∉ u → (zs = [] ∨ ∃ tail, zs = slash :: tail) →
      (u ++ zs).takeWhile (· ≠ slash) = u := by
    intro u zs whole stop
    have all : ∀ c ∈ u, decide (c ≠ slash) = true := by
      intro c mem
      have other : c ≠ slash := fun same => whole (same ▸ mem)
      simpa using other
    rw [List.takeWhile_append_of_pos all]
    rcases stop with rfl | ⟨tail, rfl⟩
    · rw [List.takeWhile_nil, List.append_nil]
    · rw [List.takeWhile_cons_of_neg (by simp), List.append_nil]
  rw [← cut whole₁ end₁, ← cut whole₂ end₂, same]

/-- Nothing is below both of two entries. -/
theorem Below.apart {s t : Path} {c : ℕ} (left : Below tree (path ++ slash :: s) c q)
    (right : Below tree (path ++ slash :: t) d q) (whole₁ : slash ∉ s) (whole₂ : slash ∉ t) : s = t := by
  obtain ⟨xs, rfl, end₁⟩ := left.prefix_path
  obtain ⟨ys, same, end₂⟩ := right.prefix_path
  rw [List.append_assoc, List.append_assoc] at same
  exact element_inj whole₁ whole₂ end₁ end₂ (List.cons.inj (List.append_cancel_left same)).2

/-- Below a file that is not a directory there is nothing. -/
theorem Below.eq_here (place : namei tree path = some i) (leaf : ∀ slots, tree.inode i ≠ .dir slots)
    (below : Below tree path d q) :
    d = 0 ∧ q = path := by
  cases below with
  | here => exact ⟨rfl, rfl⟩
  | under place' dir =>
    rw [place] at place'
    cases place'
    exact absurd dir (leaf _)

theorem Open.inner (whole : Open tree (fds + 1) path) (place : namei tree path = some i)
    (dir : tree.inode i = .dir slots)
    (mem : de ∈ slots) (used : de.inum ≠ 0) (first : cstring de.name ≠ dot) (second : cstring de.name ≠ dotdot) :
    Open tree fds (path ++ slash :: cstring de.name) where
  opened := by
    intro d q below
    obtain ⟨free, opens⟩ := whole.opened (d + 1) q (.under place dir mem used first second below)
    exact ⟨Nat.lt_of_succ_lt_succ free, opens⟩
  full := fun d q slots below => whole.full (d + 1) q slots (.under place dir mem used first second below)

/-! ### A removed entry -/

def Quiet (ms : List Message) : Prop := ∀ m ∈ ms, ∃ q, m = .line q

theorem Reports.quiet (reports : Reports tree filename path ms) : Quiet ms := by
  intro m mem
  obtain ⟨d, q, rfl, -⟩ := (reports.lines m).mp mem
  exact ⟨q, rfl⟩

theorem not_quiet_none (closed : sysOpen tree path = none) : ¬ Quiet (output tree behind filename fds path) := by
  intro quiet
  rw [output_none closed] at quiet
  obtain ⟨q, same⟩ := quiet _ (List.mem_singleton_self _)
  cases same

theorem not_quiet_zero : ¬ Quiet (output tree behind filename 0 path) := by
  intro quiet
  obtain ⟨q, same⟩ := quiet (.cannotOpen path) (List.mem_singleton_self _)
  cases same

theorem quiet_next (short : tree.Short) (quiet : Quiet (output tree behind filename (fds + 1) path))
    (opened : sysOpen tree path = some (.dir slots)) (mem : de ∈ slots) (first : cstring de.name ≠ dot)
    (second : cstring de.name ≠ dotdot) : Quiet (output tree behind filename fds (path ++ slash :: cstring de.name)) :=
  fun m inside => quiet m ((mem_output_dir short opened).mpr ⟨de, mem, first, second, inside⟩)

theorem removed_name (dir : tree.inode i = .dir slots) (mem : de ∈ slots) (removed : de.inum = 0) :
    cstring de.name = [] :=
  tree.removed i slots dir de mem removed

/-- A removed entry leads back to its directory, until nothing can be opened any more. -/
theorem not_quiet_removed (short : tree.Short) (start : path ≠ []) (place : namei tree path = some i)
    (dir : tree.inode i = .dir slots) (mem : de ∈ slots) (removed : de.inum = 0) :
    ¬ Quiet (output tree behind filename fds path) := by
  induction fds generalizing path with
  | zero => exact not_quiet_zero
  | succ fds ih =>
    cases opened : sysOpen tree path with
    | none => exact not_quiet_none opened
    | some kind =>
      obtain ⟨j, place', rfl⟩ := sysOpen_namei opened
      rw [place] at place'
      cases place'
      rw [dir] at opened
      have empty := removed_name dir mem removed
      intro quiet
      have again := quiet_next short quiet opened mem (by rw [empty]; decide) (by rw [empty]; decide)
      rw [empty] at again
      exact ih (by simp) (by rw [namei_slash start, place]) again

/-- Without an error message everything was opened, and nothing was removed. -/
theorem open_of_quiet (short : tree.Short) (quiet : Quiet (output tree behind filename fds path)) :
    Open tree fds path := by
  induction fds generalizing path with
  | zero => exact absurd quiet not_quiet_zero
  | succ fds ih =>
    cases opened : sysOpen tree path with
    | none => exact absurd quiet (not_quiet_none opened)
    | some kind =>
      obtain ⟨i, place, rfl⟩ := sysOpen_namei opened
      have inner : ∀ {slots : List Dirent} {de : Dirent}, tree.inode i = .dir slots → de ∈ slots →
        cstring de.name ≠ dot →
          cstring de.name ≠ dotdot → Open tree fds (path ++ slash :: cstring de.name) := by
        intro slots de dir mem first second
        rw [dir] at opened
        exact ih (quiet_next short quiet opened mem first second)
      constructor
      · intro d q below
        cases below with
        | here => exact ⟨Nat.succ_pos fds, by rw [opened]; rfl⟩
        | under place' dir mem used first second below =>
          rw [place] at place'
          cases place'
          obtain ⟨free, opens⟩ := (inner dir mem first second).opened _ _ below
          exact ⟨Nat.succ_lt_succ free, opens⟩
      · intro d q slots below apart opened' de mem removed
        cases below with
        | here =>
          rw [opened] at opened'
          exact not_quiet_removed short apart place (Option.some.inj opened') mem removed quiet
        | under place' dir mem' used first second below =>
          rw [place] at place'
          cases place'
          exact (inner dir mem' first second).full _ _ _ below apart opened' de mem removed

/-! ### The lines of one call -/

/-- `fmtname` finds the last element. -/
def Named (tree : Tree) (filename path : Path) : Prop :=
  (∃ i, namei tree path = some i ∧ tree.inode i = .file) →
    (fmtname path = filename ↔ (elements path).getLast? = some filename)

theorem named_entry (whole : slash ∉ name) (some_byte : name ≠ []) (short : name.length ≤ dirsiz) :
    Named tree filename (path ++ slash :: name) := by
  intro _
  rw [fmtname_append whole, elements_append, elements_name whole some_byte, List.take_of_length_le short,
    List.getLast?_append, List.getLast?_singleton, Option.some_or, Option.some_inj]

theorem reports_file (opened : sysOpen tree path = some .file) (named : Named tree filename path) :
    Reports tree filename path (output tree behind filename (fds + 1) path) := by
  obtain ⟨i, place, file⟩ := sysOpen_namei opened
  have leaf : ∀ slots, tree.inode i ≠ .dir slots := by
    intro slots dir
    rw [file] at dir
    cases dir
  have named := named ⟨i, place, file⟩
  rw [output_file opened]
  constructor
  · split
    · exact List.nodup_singleton _
    · exact List.nodup_nil
  · intro m
    constructor
    · intro mem
      split at mem
      · rw [List.mem_singleton.mp mem]
        exact ⟨0, path, rfl, .here, ⟨i, place, file⟩, named.mp ‹_›⟩
      · exact absurd mem List.not_mem_nil
    · rintro ⟨d, q, rfl, below, -, last⟩
      obtain ⟨-, rfl⟩ := below.eq_here place leaf
      rw [if_pos (named.mpr last)]
      exact List.mem_singleton_self _

theorem reports_device {major : ℕ} (opened : sysOpen tree path = some (.device major)) :
    Reports tree filename path (output tree behind filename (fds + 1) path) := by
  obtain ⟨i, place, device⟩ := sysOpen_namei opened
  have leaf : ∀ slots, tree.inode i ≠ .dir slots := by
    intro slots dir
    rw [device] at dir
    cases dir
  rw [output_device opened]
  constructor
  · exact List.nodup_nil
  · intro m
    constructor
    · intro mem
      exact absurd mem List.not_mem_nil
    · rintro ⟨d, q, rfl, below, ⟨j, place', file⟩, -⟩
      obtain ⟨-, rfl⟩ := below.eq_here place leaf
      rw [place] at place'
      cases place'
      rw [device] at file
      cases file

theorem reports_dir (short : tree.Short) (opened : sysOpen tree path = some (.dir slots))
    (entries : ∀ de ∈ slots, de.inum ≠ 0 → cstring de.name ≠ dot → cstring de.name ≠ dotdot →
      Reports tree filename (path ++ slash :: cstring de.name)
        (output tree behind filename fds (path ++ slash :: cstring de.name)))
    (removed : ∀ de ∈ slots, de.inum = 0 → output tree behind filename fds (path ++ [slash]) = []) :
    Reports tree filename path (output tree behind filename (fds + 1) path) := by
  obtain ⟨i, place, dir⟩ := sysOpen_namei opened
  have used : ∀ m, ∀ de ∈ slots, m ∈ output tree behind filename fds (path ++ slash :: cstring de.name) →
      de.inum ≠ 0 := by
    intro m de mem inside gone
    rw [removed_name dir mem gone, removed de mem gone] at inside
    exact absurd inside List.not_mem_nil
  have inside_entry : ∀ m, ∀ de ∈ slots, (m ∈ if cstring de.name = dot ∨ cstring de.name = dotdot then []
      else output tree behind filename fds (path ++ slash :: cstring de.name)) → de.inum ≠ 0 ∧ cstring de.name ≠ dot ∧
      cstring de.name ≠ dotdot ∧ m ∈ output tree behind filename fds (path ++ slash :: cstring de.name) := by
    intro m de mem inside
    split at inside
    · exact absurd inside List.not_mem_nil
    · have other := not_or.mp ‹_›
      exact ⟨used m de mem inside, other.1, other.2, inside⟩
  constructor
  · rw [output_dir short opened, List.nodup_flatMap]
    constructor
    · intro de mem
      by_cases gone : de.inum = 0
      · rw [removed_name dir mem gone, removed de mem gone, ite_self]
        exact List.nodup_nil
      · split
        · exact List.nodup_nil
        · have other := not_or.mp ‹_›
          exact (entries de mem gone other.1 other.2).once
    · refine (tree.unique i slots dir).imp_of_mem ?_
      intro a b mem₁ mem₂ differ m inside₁ inside₂
      obtain ⟨used₁, first₁, second₁, inside₁⟩ := inside_entry m a mem₁ inside₁
      obtain ⟨used₂, first₂, second₂, inside₂⟩ := inside_entry m b mem₂ inside₂
      obtain ⟨c, q, rfl, below₁, -⟩ := ((entries a mem₁ used₁ first₁ second₁).lines m).mp inside₁
      obtain ⟨d, r, same, below₂, -⟩ := ((entries b mem₂ used₂ first₂ second₂).lines _).mp inside₂
      cases same
      exact differ used₁ used₂ (below₁.apart below₂ (slash_not_mem dir mem₁) (slash_not_mem dir mem₂))
  · intro m
    rw [mem_output_dir short opened]
    constructor
    · rintro ⟨de, mem, first, second, inside⟩
      have taken := used m de mem inside
      obtain ⟨d, q, rfl, below, found⟩ := ((entries de mem taken first second).lines m).mp inside
      exact ⟨d + 1, q, rfl, .under place dir mem taken first second below, found⟩
    · rintro ⟨d, q, rfl, below, file, last⟩
      cases below with
      | here =>
        obtain ⟨j, place', file⟩ := file
        rw [place] at place'
        cases place'
        rw [dir] at file
        cases file
      | under place' dir' mem used first second below =>
        rw [place] at place'
        cases place'
        rw [dir] at dir'
        cases dir'
        exact ⟨_, mem, first, second, ((entries _ mem used first second).lines _).mpr ⟨_, _, rfl, below, file, last⟩⟩

theorem reports_of_open (short : tree.Short) (start : path ≠ []) (whole : Open tree fds path)
    (named : Named tree filename path) :
    Reports tree filename path (output tree behind filename fds path) := by
  induction fds generalizing path with
  | zero => exact absurd (whole.opened 0 path .here).1 (Nat.lt_irrefl 0)
  | succ fds ih =>
    cases opened : sysOpen tree path with
    | none =>
      have opens := (whole.opened 0 path .here).2
      rw [opened] at opens
      cases opens
    | some kind =>
      cases kind with
      | file => exact reports_file opened named
      | device major => exact reports_device opened
      | dir slots =>
        obtain ⟨i, place, dir⟩ := sysOpen_namei opened
        apply reports_dir short opened
        · intro de mem used first second
          have ⟨some_byte, bytes⟩ := tree.named i slots dir de mem used
          exact ih (by simp) (whole.inner place dir mem used first second)
            (named_entry bytes some_byte length_cstring_le)
        · intro de mem removed
          exact absurd removed (whole.full 0 path slots .here start opened de mem)

/-! ### The path that `find` is called with -/

theorem fmtname_whole : slash ∉ fmtname path := by
  intro mem
  simpa using List.mem_rtakeWhile_imp mem

theorem fmtname_split (path : Path) : ∃ dir, path = dir ++ fmtname path ∧ (dir = [] ∨ ∃ xs, dir = xs ++ [slash]) := by
  induction path using List.reverseRecOn with
  | nil => exact ⟨[], rfl, .inl rfl⟩
  | append_singleton path c ih =>
    by_cases last : c = slash
    · subst last
      have empty : fmtname (path ++ [slash]) = [] := fmtname_append List.not_mem_nil
      exact ⟨path ++ [slash], by rw [empty, List.append_nil], .inr ⟨path, rfl⟩⟩
    · obtain ⟨dir, split, ends⟩ := ih
      have longer : fmtname (path ++ [c]) = fmtname path ++ [c] :=
        List.rtakeWhile_concat_pos _ _ _ (by simpa using last)
      refine ⟨dir, ?_, ends⟩
      rw [longer, ← List.append_assoc, ← split]

theorem mem_elements (mem : name ∈ elements path) : name ≠ [] := by
  rw [elements_eq] at mem
  obtain ⟨part, inside, rfl⟩ := List.mem_map.mp mem
  have some_byte : part ≠ [] := by simpa using (List.mem_filter.mp inside).2
  intro empty
  rw [List.take_eq_nil_iff] at empty
  exact empty.elim (by decide) some_byte

/-- The last element names an entry, so it is shorter than `DIRSIZ`. -/
theorem last_short (short : tree.Short) (nonul : 0 ∉ name) {names : List Path} {j : UInt32}
    (place : follow tree i (names ++ [name.take dirsiz]) = some j) : name.length < dirsiz := by
  rw [follow_append] at place
  obtain ⟨k, -, place⟩ := Option.bind_eq_some_iff.mp place
  unfold follow at place
  cases dir : tree.inode k with
  | file => simp [dir] at place
  | device major => simp [dir] at place
  | dir slots =>
    rw [dir] at place
    dsimp only at place
    cases found : dirlookup slots (name.take dirsiz) with
    | none => simp [found] at place
    | some j =>
      obtain ⟨de, mem, -, same, -⟩ := mem_of_dirlookup found
      have bound := short k slots dir de mem
      rw [← same, cstring_eq fun zero => nonul (List.mem_of_mem_take zero), List.take_take, List.length_take] at bound
      change _ < 14 at bound
      change name.length < 14
      change min (min 14 14) name.length < 14 at bound
      omega

theorem named_path (short : tree.Short) (nonul : 0 ∉ path) (ends : path.getLast? ≠ some slash) :
    Named tree filename path := by
  rintro ⟨i, place, file⟩
  obtain ⟨dir, split, first⟩ := fmtname_split path
  have start : path ≠ [] := by
    rintro rfl
    cases place
    obtain ⟨slots, dir⟩ := tree.cwd_dir
    change tree.inode tree.cwd = _ at file
    rw [dir] at file
    cases file
  have some_byte : fmtname path ≠ [] := by
    intro empty
    rw [empty, List.append_nil] at split
    rcases first with rfl | ⟨xs, rfl⟩
    · exact start split
    · rw [split, List.getLast?_concat] at ends
      exact ends rfl
  have last : ∃ names, elements path = names ++ [(fmtname path).take dirsiz] := by
    rcases first with rfl | ⟨xs, rfl⟩
    · rw [List.nil_append] at split
      exact ⟨[], by rw [← elements_name fmtname_whole some_byte, ← split, List.nil_append]⟩
    · rw [List.append_assoc, List.singleton_append] at split
      exact ⟨elements xs, by rw [← elements_name fmtname_whole some_byte, ← elements_append, ← split]⟩
  obtain ⟨names, last⟩ := last
  have nonul' : 0 ∉ fmtname path := fun zero => nonul (split ▸ List.mem_append_right dir zero)
  unfold namei at place
  rw [last] at place
  rw [last, List.getLast?_concat, List.take_of_length_le (last_short short nonul' place).le, Option.some_inj]

/-- The root directory is not a regular file. -/
theorem named_root : Named tree filename [slash] := by
  rintro ⟨i, place, file⟩
  cases place
  obtain ⟨slots, dir⟩ := tree.root_dir
  change tree.inode rootino = _ at file
  rw [dir] at file
  cases file

theorem fmtname_trailing (ends : path.getLast? = some slash) : fmtname path = [] := by
  obtain ⟨xs, rfl⟩ := List.getLast?_eq_some_iff.mp ends
  exact fmtname_append List.not_mem_nil

/-! ### Exactly when `find` reports the matches -/

theorem opened_file (opens : (sysOpen tree path).isSome) (file : ∃ i, namei tree path = some i ∧ tree.inode i = .file) :
    sysOpen tree path = some .file := by
  obtain ⟨kind, opened⟩ := Option.isSome_iff_exists.mp opens
  obtain ⟨i, place, rfl⟩ := sysOpen_namei opened
  obtain ⟨j, place', file⟩ := file
  rw [place] at place'
  cases place'
  rw [opened, file]

/-- The paths that start from the empty path have one slash in front, those that start from the root have two. -/
theorem not_below_both {c : ℕ} (left : Below tree [] c q) (right : Below tree [slash] d q)
    (found : Matches tree filename q) : False := by
  cases right with
  | here =>
    obtain ⟨⟨i, place, file⟩, -⟩ := found
    cases place
    obtain ⟨slots, dir⟩ := tree.root_dir
    change tree.inode rootino = _ at file
    rw [dir] at file
    cases file
  | under _ _ _ _ _ _ right =>
    obtain ⟨rest₂, rfl, -⟩ := right.prefix_path
    generalize same : [slash] ++ slash :: _ ++ rest₂ = q at left
    cases left with
    | here => cases same
    | under place dir mem used _ _ left =>
      obtain ⟨rest₁, rfl, -⟩ := left.prefix_path
      obtain ⟨some_byte, whole⟩ := tree.named _ _ dir _ mem used
      obtain ⟨c, tail, name⟩ := List.exists_cons_of_ne_nil some_byte
      rw [name] at same whole
      have first : slash = c := (List.cons.inj (List.cons.inj same).2).1
      exact whole (first ▸ List.mem_cons_self)

theorem clean_of_reports (short : tree.Short)
    (reports : Reports tree filename path (output tree behind filename fds path)) :
    Clean tree fds filename path where
  toOpen := open_of_quiet short reports.quiet
  trailing := by
    intro ends file
    obtain ⟨free, opens⟩ := (open_of_quiet short reports.quiet).opened 0 path .here
    obtain ⟨left, rfl⟩ : ∃ left, fds = left + 1 := ⟨fds - 1, by omega⟩
    have line := reports.lines (.line path)
    rw [output_file (opened_file opens file), fmtname_trailing ends] at line
    have some_byte : filename ≠ [] := by
      intro empty
      rw [if_pos empty.symm] at line
      obtain ⟨d, q, same, -, -, last⟩ := line.mp (List.mem_singleton_self _)
      exact mem_elements (List.mem_of_getLast? last) empty
    refine ⟨some_byte, fun last => ?_⟩
    rw [if_neg some_byte.symm] at line
    exact absurd (line.mpr ⟨0, path, rfl, .here, file, last⟩) List.not_mem_nil
  empty := by
    rintro rfl slots opened de mem removed
    obtain ⟨i, -, dir⟩ := sysOpen_namei opened
    have name := removed_name dir mem removed
    have free := ((open_of_quiet short reports.quiet).opened 0 [] .here).1
    obtain ⟨left, rfl⟩ : ∃ left, fds = left + 1 := ⟨fds - 1, by omega⟩
    have first : cstring de.name ≠ dot := by rw [name]; decide
    have second : cstring de.name ≠ dotdot := by rw [name]; decide
    have again := quiet_next short reports.quiet opened mem first second
    rw [name] at again
    have whole := open_of_quiet short again
    refine ⟨whole, fun d q below found => ?_⟩
    have reports' : Reports tree filename [slash] (output tree behind filename left [slash]) :=
      reports_of_open short (by simp) whole named_root
    have lines := (reports'.lines (.line q)).mpr ⟨d, q, rfl, below, found⟩
    have inside : .line q ∈ output tree behind filename (left + 1) [] :=
      (mem_output_dir short opened).mpr ⟨de, mem, first, second, by rw [name]; exact lines⟩
    obtain ⟨c, r, same, left, -⟩ := (reports.lines _).mp inside
    cases same
    exact not_below_both left below found

theorem reports_empty (short : tree.Short) (clean : Clean tree fds filename []) :
    Reports tree filename [] (output tree behind filename fds []) := by
  obtain ⟨free, opens⟩ := clean.opened 0 [] .here
  obtain ⟨left, rfl⟩ : ∃ left, fds = left + 1 := ⟨fds - 1, by omega⟩
  obtain ⟨slots, dir⟩ := tree.cwd_dir
  have place : namei tree [] = some tree.cwd := rfl
  have opened : sysOpen tree [] = some (.dir slots) := by
    obtain ⟨kind, opened⟩ := Option.isSome_iff_exists.mp opens
    obtain ⟨i, place', rfl⟩ := sysOpen_namei opened
    rw [place] at place'
    cases place'
    rw [opened, dir]
  apply reports_dir short opened
  · intro de mem used first second
    have ⟨some_byte, bytes⟩ := tree.named _ slots dir de mem used
    exact reports_of_open short (by simp) (clean.toOpen.inner place dir mem used first second)
      (named_entry bytes some_byte length_cstring_le)
  · intro de mem removed
    obtain ⟨whole, nothing⟩ := clean.empty rfl slots opened de mem removed
    have reports : Reports tree filename [slash] (output tree behind filename left [slash]) :=
      reports_of_open short (by simp) whole named_root
    rw [List.nil_append, List.eq_nil_iff_forall_not_mem]
    intro m inside
    obtain ⟨d, q, -, below, found⟩ := (reports.lines m).mp inside
    exact nothing d q below found

theorem reports_of_clean (short : tree.Short) (nonul : 0 ∉ path) (clean : Clean tree fds filename path) :
    Reports tree filename path (output tree behind filename fds path) := by
  by_cases start : path = []
  · subst start
    exact reports_empty short clean
  · apply reports_of_open short start clean.toOpen
    by_cases ends : path.getLast? = some slash
    · intro file
      obtain ⟨some_byte, other⟩ := clean.trailing ends file
      rw [fmtname_trailing ends]
      exact ⟨fun same => absurd same.symm some_byte, fun same => absurd same other⟩
    · exact named_path short nonul ends

/-- With names shorter than `DIRSIZ`, each match is reported once and nothing else is, exactly if nothing was removed
and all can be opened. -/
theorem find_reports_iff (short : tree.Short) (nonul : 0 ∉ path) :
    Reports tree filename path (messages (find tree behind filename fds path)) ↔ Clean tree fds filename path :=
  ⟨clean_of_reports short, reports_of_clean short nonul⟩

theorem ofRoot_short {removed named unique} (short : ∀ de ∈ slots, (cstring de.name).length < dirsiz) :
    (Tree.ofRoot slots removed named unique).Short := by
  intro i slots' dir
  change (if i = rootino then _ else _) = _ at dir
  split at dir
  · cases dir
    exact short
  · cases dir

/-- The root directory has `.`, `..` and `f`. -/
def oneFile : Tree := .ofRoot [⟨1, [46]⟩, ⟨1, [46, 46]⟩, ⟨2, [102]⟩] (by decide) (by decide) (by decide)

theorem below_oneFile (below : Below oneFile [slash] d q) : d = 0 ∧ q = [slash] ∨ d = 1 ∧ q = [slash, slash, 102] := by
  have root : namei oneFile [slash] = some 1 := by decide +kernel
  have file : namei oneFile [slash, slash, 102] = some 2 := by decide +kernel
  cases below with
  | here => exact .inl ⟨rfl, rfl⟩
  | @under _ _ slots de i d found dir mem used first second below =>
    cases root.symm.trans found
    cases dir
    obtain rfl | rfl | rfl : de = ⟨1, [46]⟩ ∨ de = ⟨1, [46, 46]⟩ ∨ de = ⟨2, [102]⟩ := by simpa using mem
    · exact absurd (by decide) first
    · exact absurd (by decide) second
    · cases below with
      | here => exact .inr ⟨rfl, rfl⟩
      | under found dir =>
        cases file.symm.trans found
        cases dir

theorem clean_oneFile : Clean oneFile 13 [102] [slash] where
  opened := by
    rintro d q below
    rcases below_oneFile below with ⟨rfl, rfl⟩ | ⟨rfl, rfl⟩
    · exact ⟨by decide, by decide +kernel⟩
    · exact ⟨by decide, by decide +kernel⟩
  full := by
    rintro d q slots below - opened
    rcases below_oneFile below with ⟨rfl, rfl⟩ | ⟨rfl, rfl⟩
    · cases opened
      decide
    · cases opened
  trailing := by
    rintro - ⟨i, found, file⟩
    have root : namei oneFile [slash] = some 1 := by decide +kernel
    cases root.symm.trans found
    cases file
  empty start := absurd start (by decide)

theorem find_reports_iff_file : Reports oneFile [102] [slash] [.line [slash, slash, 102]] ∧
    messages (find oneFile (fun _ _ => []) [102] 13 [slash]) = [.line [slash, slash, 102]] := by
  have output : messages (find oneFile (fun _ _ => []) [102] 13 [slash]) = [.line [slash, slash, 102]] := by
    decide +kernel
  have reports : Reports oneFile [102] [slash] (messages (find oneFile (fun _ _ => []) [102] 13 [slash])) :=
    (find_reports_iff (ofRoot_short (by decide)) (by decide)).mpr clean_oneFile
  exact ⟨output ▸ reports, output⟩

/-- A removed entry behind them. -/
def oneRemoved : Tree := .ofRoot [⟨1, [46]⟩, ⟨1, [46, 46]⟩, ⟨2, [102]⟩, ⟨0, []⟩] (by decide) (by decide) (by decide)

/-- `f` is found again below the same directory. -/
theorem find_repeats : .line [slash, slash, 102] ∈ messages (find oneRemoved (fun _ _ => []) [102] 13 [slash]) ∧
    .line [slash, slash, slash, 102] ∈ messages (find oneRemoved (fun _ _ => []) [102] 13 [slash]) ∧
    ¬ Reports oneRemoved [102] [slash] (messages (find oneRemoved (fun _ _ => []) [102] 13 [slash])) := by
  refine ⟨by decide +kernel, by decide +kernel, fun reports => ?_⟩
  have open_all := open_of_quiet (ofRoot_short (by decide)) reports.quiet
  exact open_all.full 0 [slash] _ .here (by decide) rfl ⟨0, []⟩ (by simp) rfl

end Xv6Labs.Find
