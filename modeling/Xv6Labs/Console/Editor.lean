import Mathlib

/-!
# A line editor

What a console makes of the characters that are typed on it. A line is `committed` by its end, and readers take the
characters of committed lines.
-/

namespace Xv6Labs.Console

def inputBuf : ℕ := 128

/-- `C(x)` -/
def control (x : Char) : UInt8 := UInt8.ofNat (x.toNat - '@'.toNat)

def newline : UInt8 := 0x0a

def carriageReturn : UInt8 := 0x0d

def delete : UInt8 := 0x7f

/-- `C('D')` -/
def endOfFile : UInt8 := control 'D'

/-- Every committed character, how many of them readers have taken, and the line that is being typed. -/
structure Editor where
  committed : List UInt8 := []
  read : ℕ := 0
  line : List UInt8 := []

namespace Editor

variable (ed : Editor)

def text : List UInt8 := ed.committed ++ ed.line

def held : ℕ := ed.committed.length - ed.read + ed.line.length

def type (c : UInt8) : Editor := { ed with line := ed.line ++ [c] }

def erase : Editor := { ed with line := ed.line.dropLast }

def commit : Editor := { ed with committed := ed.text, line := [] }

def take : Editor := { ed with read := ed.read + 1 }

def putBack : Editor := { ed with read := ed.read - 1 }

def unreturned (c : UInt8) : UInt8 := if c = carriageReturn then newline else c

def kill : Editor := { ed with line := [] }

/-- A character that finds no room is dropped, and one that ends the line, or takes the last place, commits it. -/
def store (c : UInt8) : Editor :=
  if ed.held < inputBuf then
    let typed := ed.type (unreturned c)
    if unreturned c = newline ∨ unreturned c = endOfFile ∨ typed.held = inputBuf then typed.commit else typed
  else ed

def key (c : UInt8) : Editor :=
  if c = control 'P' then ed
  else if c = control 'U' then ed.kill
  else if c = control 'H' ∨ c = delete then ed.erase
  else if c ≠ 0 then ed.store c
  else ed

end Editor

/-- A character is typed, or a reader takes one. -/
inductive Event where
  | key (c : UInt8)
  | read

def Editor.step (ed : Editor) : Event → Editor
  | .key c => ed.key c
  | .read => ed.take

def Editor.run (events : List Event) : Editor := events.foldl Editor.step {}

variable {events : List Event} {ed : Editor} {c : UInt8}

theorem run_key : Editor.run (events ++ [.key c]) = (Editor.run events).key c := by
  rw [Editor.run, List.foldl_append]
  rfl

theorem run_read : Editor.run (events ++ [.read]) = (Editor.run events).take := by
  rw [Editor.run, List.foldl_append]
  rfl

theorem newline_notMem_store (plain : newline ∉ ed.line) : newline ∉ (ed.store c).line := by
  unfold Editor.store
  dsimp only
  split
  · split
    · exact List.not_mem_nil
    · rename_i short
      intro mem
      rcases List.mem_append.mp mem with mem | mem
      · exact plain mem
      · exact short (.inl (List.mem_singleton.mp mem).symm)
  · exact plain

theorem newline_notMem_key (plain : newline ∉ ed.line) : newline ∉ (ed.key c).line := by
  unfold Editor.key
  split
  · exact plain
  split
  · exact List.not_mem_nil
  split
  · exact fun mem => plain (List.dropLast_subset _ mem)
  split
  · exact newline_notMem_store plain
  · exact plain

/-- An end of line ends the line. -/
theorem newline_notMem_run : newline ∉ (Editor.run events).line := by
  induction events using List.reverseRecOn with
  | nil => exact List.not_mem_nil
  | append_singleton events event ih =>
    cases event with
    | key c =>
      rw [run_key]
      exact newline_notMem_key ih
    | read =>
      rw [run_read]
      exact ih

/-- What has been committed stays so, and typing takes nothing. -/
theorem store_keeps : ed.committed <+: (ed.store c).committed ∧ (ed.store c).read = ed.read := by
  unfold Editor.store
  dsimp only
  split
  · split
    · exact ⟨List.prefix_append .., rfl⟩
    · exact ⟨List.prefix_rfl, rfl⟩
  · exact ⟨List.prefix_rfl, rfl⟩

theorem key_keeps : ed.committed <+: (ed.key c).committed ∧ (ed.key c).read = ed.read := by
  unfold Editor.key
  split
  · exact ⟨List.prefix_rfl, rfl⟩
  split
  · exact ⟨List.prefix_rfl, rfl⟩
  split
  · exact ⟨List.prefix_rfl, rfl⟩
  split
  · exact store_keeps
  · exact ⟨List.prefix_rfl, rfl⟩

end Xv6Labs.Console
