import Xv6Labs.Lib.Window
import Xv6Labs.Console.Code

/-!
# The input ring

The three indices are the numbers of characters taken, committed and typed, wrapped, and the ring holds the text from
the first character that has not been taken. Each call of `consoleread` has consumed characters up to the first end
of line or ^D, and a ^D alone.
-/

namespace Xv6Labs.Console

open Monitor (Thread)
open Window (Shows window)

variable {cons : Cons} {ed : Editor} {events : List Event} {id other n k : ℕ} {c : UInt8} {served : List (ℕ × UInt8)}

structure Ring (cons : Cons) : Prop where
  r : cons.r = wrap cons.editor.read
  w : cons.w = wrap cons.editor.committed.length
  e : cons.e = wrap cons.editor.text.length
  least : cons.editor.read ≤ cons.editor.committed.length
  most : cons.editor.text.length ≤ cons.editor.read + inputBuf
  shows : Shows cell cons.buf cons.editor.text cons.editor.read

theorem cell_wrap : cell (wrap n) = cell n := by
  apply Fin.ext
  simp only [cell, wrap, inputBuf]
  omega

theorem cell_ne {i j : ℕ} (lt : i < j) (near : j < i + inputBuf) : cell i ≠ cell j := by
  intro same
  have same := congrArg Fin.val same
  simp only [cell, inputBuf] at same near
  omega

theorem wrap_succ : wrap (wrap n + 1) = wrap (n + 1) := by
  simp only [wrap]
  omega

theorem minus_one (some : 0 < n) : minus (wrap n) 1 = wrap (n - 1) := by
  simp only [minus, wrap]
  omega

theorem text_length (ed : Editor) : ed.text.length = ed.committed.length + ed.line.length := List.length_append

/-! ### The tests -/

theorem Ring.idle_iff (ring : Ring cons) : (cons.r == cons.w) = true ↔
    cons.editor.read = cons.editor.committed.length := by
  have least := ring.least
  have most := ring.most
  have length := text_length cons.editor
  simp only [beq_iff_eq, ring.r, ring.w, wrap, inputBuf] at *
  omega

theorem Ring.erasable_iff (ring : Ring cons) : (cons.e != cons.w) = true ↔ cons.editor.line ≠ [] := by
  have least := ring.least
  have most := ring.most
  have length := text_length cons.editor
  rw [ne_eq, ← List.length_eq_zero_iff]
  simp only [bne_iff_ne, ne_eq, ring.e, ring.w, wrap, inputBuf] at *
  omega

theorem Ring.held_eq (ring : Ring cons) : minus cons.e cons.r = cons.editor.held := by
  have least := ring.least
  have most := ring.most
  have length := text_length cons.editor
  simp only [minus, Editor.held, ring.e, ring.r, wrap, inputBuf] at *
  omega

theorem Ring.full_iff (ring : Ring cons) : (cons.e == wrap (cons.r + inputBuf)) = true ↔
    cons.editor.held = inputBuf := by
  have least := ring.least
  have most := ring.most
  have length := text_length cons.editor
  simp only [beq_iff_eq, Editor.held, ring.e, ring.r, wrap, inputBuf] at *
  omega

/-! ### The moves -/

theorem Ring.next (ring : Ring cons) (some : cons.editor.read < cons.editor.committed.length) :
    cons.editor.committed[cons.editor.read]? = .some (cons.buf (cell cons.r)) := by
  have next := ring.shows.next (by rw [text_length]; omega)
  rw [Editor.text, List.getElem?_append_left some] at next
  rw [next, ring.r, cell_wrap]

theorem Ring.take (ring : Ring cons) (some : cons.editor.read < cons.editor.committed.length) : Ring cons.take := by
  have most := ring.most
  refine ⟨?_, ring.w, ring.e, some, ?_, ring.shows.from_later (Nat.le_succ _)⟩
  · change wrap (cons.r + 1) = wrap (cons.editor.read + 1)
    rw [ring.r, wrap_succ]
  · change cons.editor.text.length ≤ cons.editor.read + 1 + inputBuf
    omega

/-- Nothing has happened to the ring since the character was taken. -/
theorem Ring.putBack (ring : Ring cons) (read : cons.editor.read = k + 1)
    (most : cons.editor.text.length ≤ k + inputBuf)
    (shows : Shows cell cons.buf cons.editor.text k) : Ring cons.putBack where
  r := by
    change minus cons.r 1 = wrap (cons.editor.read - 1)
    rw [ring.r, minus_one (by omega)]
  w := ring.w
  e := ring.e
  least := (Nat.sub_le ..).trans ring.least
  most := by
    change cons.editor.text.length ≤ cons.editor.read - 1 + inputBuf
    omega
  shows := by
    change Shows cell cons.buf cons.editor.text (cons.editor.read - 1)
    rw [read]
    exact shows

theorem Ring.erase (ring : Ring cons) (some : cons.editor.line ≠ []) : Ring cons.erase := by
  have pos : 0 < cons.editor.line.length := List.length_pos_of_ne_nil some
  have shorter : cons.editor.erase.text <+: cons.editor.text :=
    (List.prefix_append_right_inj _).mpr (List.dropLast_prefix _)
  have length : cons.editor.erase.text.length = cons.editor.text.length - 1 := by
    rw [text_length, text_length]
    change cons.editor.committed.length + cons.editor.line.dropLast.length = _
    rw [List.length_dropLast]
    omega
  refine ⟨ring.r, ring.w, ?_, ring.least, shorter.length_le.trans ring.most, ring.shows.of_prefix shorter⟩
  change minus cons.e 1 = wrap cons.editor.erase.text.length
  have long : 0 < cons.editor.text.length := by
    rw [text_length]
    omega
  rw [length, ring.e, minus_one long]

/-- The last character of the line that is being typed. -/
theorem Ring.last_mem (ring : Ring cons) (some : cons.editor.line ≠ []) :
    cons.buf (cell (minus cons.e 1)) ∈ cons.editor.line := by
  have pos : 0 < cons.editor.line.length := List.length_pos_of_ne_nil some
  have length := text_length cons.editor
  have least := ring.least
  have before : cons.editor.committed.length ≤ cons.editor.text.length - 1 := by omega
  obtain ⟨x, there⟩ : ∃ x, cons.editor.text[cons.editor.text.length - 1]? = .some x :=
    ⟨_, List.getElem?_eq_getElem (by omega)⟩
  have shown := ring.shows _ x (by omega) there
  have mem : x ∈ cons.editor.line := by
    have split : (cons.editor.committed ++ cons.editor.line)[cons.editor.text.length - 1]? = .some x := there
    rw [List.getElem?_append_right before] at split
    exact List.mem_of_getElem? split
  have long : 0 < cons.editor.text.length := by omega
  rw [ring.e, minus_one long, cell_wrap, shown]
  exact mem

theorem Ring.store (ring : Ring cons) (room : cons.editor.held < inputBuf) : Ring (cons.store c) := by
  have least := ring.least
  have length := text_length cons.editor
  have less : cons.editor.text.length < cons.editor.read + inputBuf := by
    unfold Editor.held at room
    omega
  have longer : (cons.editor.type c).text = cons.editor.text ++ [c] := (List.append_assoc ..).symm
  refine ⟨ring.r, ring.w, ?_, ring.least, ?_, ?_⟩
  · change wrap (cons.e + 1) = wrap (cons.editor.type c).text.length
    rw [longer, List.length_append, ring.e, wrap_succ]
    rfl
  · change (cons.editor.type c).text.length ≤ cons.editor.read + inputBuf
    rw [longer, List.length_append]
    exact less
  · change Shows cell (Function.update cons.buf (cell cons.e) c) (cons.editor.type c).text cons.editor.read
    rw [longer, ring.e, cell_wrap]
    exact ring.shows.push fun i within before => cell_ne before (by omega)

theorem Ring.commit (ring : Ring cons) : Ring cons.commit := by
  have same : cons.editor.commit.text = cons.editor.text := List.append_nil _
  have least := ring.least
  have length := text_length cons.editor
  refine ⟨ring.r, ring.e, ring.e.trans (congrArg (wrap ·.length) same.symm), ?_, ?_, ?_⟩
  · change cons.editor.read ≤ cons.editor.text.length
    omega
  · change cons.editor.commit.text.length ≤ _
    rw [same]
    exact ring.most
  · change Shows cell cons.buf cons.editor.commit.text cons.editor.read
    rw [same]
    exact ring.shows

/-! ### The reads -/

/-- What one call has consumed. -/
def seenBy (id : ℕ) (served : List (ℕ × UInt8)) : List UInt8 := (served.filter fun e => e.1 = id).map Prod.snd

theorem seenBy_self : seenBy id (served ++ [(id, c)]) = seenBy id served ++ [c] := by simp [seenBy]

theorem seenBy_other (ne : id ≠ other) :
    seenBy other (served ++ [(id, c)]) = seenBy other served := by simp [seenBy, ne]

/-- A ^D alone, or no ^D, and an end of line only at the end. -/
def Whole (seen : List UInt8) : Prop := seen = [endOfFile] ∨ endOfFile ∉ seen ∧ ∀ x ∈ seen.dropLast, x ≠ newline

structure Served (cons : Cons) : Prop where
  known : ∀ e ∈ cons.served, e.1 < cons.calls.length
  delivered : cons.delivered = (cons.served.map Prod.snd).filter (· ≠ endOfFile)
  count : cons.served.length = (Editor.run cons.events).read
  part : cons.served.map Prod.snd <+: (Editor.run cons.events).committed
  whole : ∀ id, Whole (seenBy id cons.served)

theorem Served.fresh (known : Served cons) : seenBy cons.calls.length cons.served = [] := by
  simp only [seenBy, List.map_eq_nil_iff, List.filter_eq_nil_iff, decide_eq_true_eq]
  exact fun e mem same => absurd (known.known e mem) (by omega)

theorem Served.taken (known : Served cons) :
    cons.served.map Prod.snd = (Editor.run cons.events).committed.take (Editor.run cons.events).read := by
  have part := List.prefix_iff_eq_take.mp known.part
  rw [List.length_map, known.count] at part
  exact part

/-- The call consumes the next committed character, which is no ^D. -/
theorem Served.copyout (known : Served cons) (call : id < cons.calls.length)
    (next : (Editor.run cons.events).committed[cons.served.length]? = some c) (text : c ≠ endOfFile)
    (plain : endOfFile ∉ seenBy id cons.served ∧ newline ∉ seenBy id cons.served) : Served (cons.copyout id c) := by
  refine ⟨fun e mem => ?_, ?_, ?_, ?_, fun other => ?_⟩
  · rcases List.mem_append.mp mem with mem | mem
    · exact known.known e mem
    · cases List.mem_singleton.mp mem
      exact call
  · simp only [Cons.copyout, List.map_append, List.filter_append, known.delivered]
    simp [text]
  · simp only [Cons.copyout, List.length_append, known.count, run_read]
    rfl
  · simp only [Cons.copyout, run_read, List.map_append]
    exact Window.prefix_concat known.part (by rw [List.length_map]; exact next)
  · change Whole (seenBy other (cons.served ++ [(id, c)]))
    by_cases same : id = other
    · subst same
      rw [seenBy_self]
      refine .inr ⟨fun mem => ?_, fun x mem => ?_⟩
      · rcases List.mem_append.mp mem with mem | mem
        · exact plain.1 mem
        · exact text (List.mem_singleton.mp mem).symm
      · rw [List.dropLast_concat] at mem
        exact fun same => plain.2 (same ▸ mem)
    · rw [seenBy_other same]
      exact known.whole other

theorem Served.eof (known : Served cons) (call : id < cons.calls.length)
    (next : (Editor.run cons.events).committed[cons.served.length]? = some endOfFile)
    (first : seenBy id cons.served = []) :
    Served (cons.eof id) := by
  refine ⟨fun e mem => ?_, ?_, ?_, ?_, fun other => ?_⟩
  · rcases List.mem_append.mp mem with mem | mem
    · exact known.known e mem
    · cases List.mem_singleton.mp mem
      exact call
  · simp only [Cons.eof, List.map_append, List.filter_append, known.delivered]
    simp
  · simp only [Cons.eof, List.length_append, known.count, run_read]
    rfl
  · simp only [Cons.eof, run_read, List.map_append]
    exact Window.prefix_concat known.part (by rw [List.length_map]; exact next)
  · change Whole (seenBy other (cons.served ++ [(id, endOfFile)]))
    by_cases same : id = other
    · subst same
      rw [seenBy_self, first]
      exact .inl rfl
    · rw [seenBy_other same]
      exact known.whole other

theorem Served.typed (known : Served cons) : Served (cons.typed c) := by
  refine ⟨known.known, known.delivered, ?_, ?_, known.whole⟩
  · simp only [Cons.typed, run_key, key_keeps.2]
    exact known.count
  · simp only [Cons.typed, run_key]
    exact known.part.trans key_keeps.1

structure Always (cons : Cons) : Prop where
  ring : Ring cons
  served : Served cons

end Xv6Labs.Console
