import Xv6Labs.Find.Tree

/-!
# `find.c`

`find` as the list of what it does to its arrays and of what it prints. Each call that is going on holds a
descriptor, so the calls nest no deeper than there are free descriptors. `open` has the only checks that can fail
here, so `fstat` does not.
-/

namespace Xv6Labs.Find

open Fs (slash dirsiz cstring Dirent)

abbrev bufsize : ℕ := 512

def dot : Path := [46]

def dotdot : Path := [46, 46]

inductive Message where
  -- `"%s\n"`
  | line (path : Path)
  -- `"ls: cannot open %s\n"`, to descriptor 2
  | cannotOpen (path : Path)
  -- `"find: path too long\n"`
  | tooLong
  deriving DecidableEq

inductive Event where
  /-- A read of `de.name[index]`. -/
  | name (index : ℕ)
  /-- A write to `buf[index]`. -/
  | buf (index : ℕ)
  /-- A write to `buf[index]` in `fmtname`. -/
  | static (index : ℕ)
  /-- The path for an entry of the directory at `path` is in `buf`. -/
  | build (path : Path) (de : Dirent) (new : Path)
  | print (message : Message)

/-- `find first character after last slash.` -/
def fmtname (path : Path) : Path := path.rtakeWhile (· ≠ slash)

/-- `memmove(buf, p, strlen(p)+1)` -/
def fmtnameWrites (path : Path) : List Event := (List.range ((fmtname path).length + 1)).map .static

def judge (path filename : Path) : List Event :=
  fmtnameWrites path ++ if fmtname path = filename then [.print (.line path)] else []

/-- How far `strcmp` gets: it reads up to the first difference, or to the NUL. -/
def common : List UInt8 → List UInt8 → ℕ
  | a :: s, b :: t => if a = b then common s t + 1 else 0
  | _, _ => 0

def nameReads (n : ℕ) : List Event := (List.range n).map .name

/-- The string at `de.name`: a name of `DIRSIZ` bytes goes on into what lies behind it, up to a NUL. -/
def nameString (behind : Path) (de : Dirent) : Path :=
  if (cstring de.name).length < dirsiz then cstring de.name else cstring de.name ++ behind

/-- The two calls of `strcmp`, of which the second is not made if the first one finds `"."`. -/
def dotReads (name : Path) : List Event :=
  nameReads (common name dot + 1) ++ if name = dot then [] else nameReads (common name dotdot + 1)

/-- `strcpy(buf, path)` and the slash. -/
def copyPath (path : Path) : List Event := (List.range (path.length + 1)).map .buf ++ [.buf path.length]

/-- `memmove(p, de.name, strlen(de.name))` and `p[strlen(de.name)] = 0`. -/
def copyName (path name : Path) : List Event :=
  nameReads (name.length + 1) ++ nameReads name.length ++
    (List.range name.length).map (fun k => .buf (path.length + 1 + k)) ++
    nameReads (name.length + 1) ++ [.buf (path.length + 1 + name.length)]

/-- One round of the loop over the entries. -/
def visit (behind : Dirent → Path) (path : Path) (next : Path → List Event) (de : Dirent) : List Event :=
  let name := nameString (behind de) de
  dotReads name ++
    if name = dot ∨ name = dotdot then []
    else copyName path name ++ .build path de (path ++ slash :: name) :: next (path ++ slash :: name)

/-- `behind path de` is what lies behind `de.name` in the call for `path`. -/
def find (tree : Tree) (behind : Path → Dirent → Path) (filename : Path) : ℕ → Path → List Event
  | 0, path => [.print (.cannotOpen path)]
  | fds + 1, path =>
    match sysOpen tree path with
    | none => [.print (.cannotOpen path)]
    | some .file => judge path filename
    | some (.device _) => []
    | some (.dir slots) =>
      if path.length + 1 + dirsiz + 1 > bufsize then [.print .tooLong]
      else copyPath path ++ slots.flatMap (visit (behind path) path (find tree behind filename fds))

end Xv6Labs.Find
