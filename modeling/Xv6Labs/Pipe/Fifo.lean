import Xv6Labs.Pipe.Calls

/-!
# What readers get, and who is left asleep

Readers get what writers have stored, in order. Nobody sleeps on a pipe that is ready for them, as long as no
`pipewrite` returns -1 while a process waits for bytes: that exit of `pipewrite` has no `wakeup` for the bytes stored
before it.
-/

namespace Xv6Labs.Pipes

open Threads Prog Monitor
open Proc (Slot)

variable {c : Conf Thread (Act pipe) Monitor.Res (Monitor.State pipe)}

theorem lossless_fifo (run : (menu false).machine.Runs boot c) :
    c.shared.data.held ≤ pipeSize ∧ c.shared.data.delivered <+: c.shared.data.stored ∧
    (∀ id k, c.shared.data.writes[id]? = some k →
      ∃ i, i ≤ k.n.toNat ∧ (bytesOf id c.shared.data.written).map some = (List.range i).map k.src) ∧
    ∀ r ∈ c.shared.data.reads, 0 < r.n → r.result = 0 → r.empty = true ∧ r.writeopen = false := by
  have always : Always false c.shared.data := (kept_of_runs run).1.1
  have delivered := always.delivered rfl
  refine ⟨?_, delivered.bytes.trans always.fifo.taken, fun id k there => ?_, delivered.zero⟩
  · rw [always.counts.held]
    exact Nat.sub_le_iff_le_add'.mpr always.counts.most
  · obtain ⟨i, most, stored⟩ := always.sources.part id k there
    exact ⟨i, most, stored.bytes⟩

def acts (p : Slot) (n : ℕ) : List (Move Thread (Thread × Call)) := List.replicate n (.act (.proc p))

def begin (p : Slot) (k : Call) : Move Thread (Thread × Call) := .call (.proc p) (.proc p, k)

/-- Process 2 waits for two bytes, process 0 stores 7 and 8, and process 1 stores 9. -/
def twoWriters : List (Move Thread (Thread × Call)) :=
  begin 2 (.piperead (fun _ => true) 2 2) :: acts 2 9 ++
    begin 0 (.pipewrite (fun i => if i = 0 then some 7 else some 8) 2 1) :: acts 0 200 ++
      begin 1 (.pipewrite (fun _ => some 9) 1 1) :: acts 1 197 ++ acts 2 203

theorem lossless_fifo_two_writers : ∃ c, (menu false).machine.Runs boot c ∧ c.shared.data.delivered = [7, 8] ∧
    (bytesOf 0 c.shared.data.written = [7, 8] ∧ bytesOf 1 c.shared.data.written = [9]) ∧
    c.shared.data.held ≤ pipeSize ∧ c.shared.data.delivered <+: c.shared.data.stored := by
  have found : (((menu false).machine.play twoWriters boot).any fun c => decide (c.shared.data.delivered = [7, 8] ∧
      bytesOf 0 c.shared.data.written = [7, 8] ∧ bytesOf 1 c.shared.data.written = [9])) = true := by
    decide +kernel
  obtain ⟨c, run, got⟩ := Machine.exists_of_play found
  obtain ⟨delivered, bytes⟩ := of_decide_eq_true got
  have fifo := lossless_fifo run
  exact ⟨c, run, delivered, bytes, fifo.1, fifo.2.1⟩

/-- No process waits for bytes when a `pipewrite` leaves early. -/
def announced : Act pipe → Monitor.State pipe → Bool
  | .op Op.leaves, s => decide (∀ q, s.waits q ≠ some Chan.nread)
  | _, _ => true

theorem kept_missed {t : Thread} {a : Act pipe} {s s' : Monitor.State pipe} {r : Monitor.Res a}
    (met : announced a s = true) (ran : exec t a s = some (r, s')) (fine : s.data.missed = false) :
    s'.data.missed = false := by
  rcases exec_data ran with same | ⟨x, r', rfl, done⟩
  · rw [same]
    exact fine
  have same : s'.data.missed = s.data.missed ∨ x = Op.leaves := by
    cases x with
    | leaves => exact .inr rfl
    | close writable =>
      obtain ⟨-, now⟩ := Prod.mk.inj (Option.some.inj done)
      rw [← now]
      cases writable <;> exact .inl rfl
    | _ =>
      obtain ⟨-, now⟩ := Prod.mk.inj (Option.some.inj done)
      rw [← now]
      exact .inl rfl
  rcases same with same | rfl
  · exact same.trans fine
  · obtain ⟨-, now⟩ := Prod.mk.inj (Option.some.inj done)
    have nobody : ¬ ∃ q, s.waits q = some Chan.nread := fun ⟨q, there⟩ => of_decide_eq_true met q there
    rw [← now]
    simp only [fine, nobody, decide_false, Bool.or_false]

theorem none_left_asleep {q : Slot}
    (run : (menu true).machine.Along (Machine.Meets fun _ a s => announced a s = true) boot c)
    (free : c.shared.owner .cond = none) (asleep : c.shared.state q = .SLEEPING) :
    (c.shared.chan q = some Chan.nread → c.shared.data.nread = c.shared.data.nwrite ∧ c.shared.data.writeopen = true) ∧
    (c.shared.chan q = some Chan.nwrite → c.shared.data.full = true ∧ c.shared.data.readopen = true) := by
  have kept := kept_of_runs run.runs
  have orderly : Orderly true c.shared.data c.shared.waits := kept.1.2.1 free
  have fine : c.shared.data.missed = false :=
    menu_keeps.along (J := fun s : Monitor.State pipe => s.data.missed = false) always_boot orderly_boot
      (fun _ => trivial) rfl
      (fun _ _ _ _ _ _ _ met ran => kept_missed met ran) run
  refine ⟨fun chan => ?_, fun chan => orderly.writers q (waits_of_kept kept asleep chan)⟩
  obtain ⟨empty, writeopen⟩ := orderly.readers fine q (waits_of_kept kept asleep chan)
  exact ⟨beq_iff_eq.mp empty, writeopen⟩

def waitForByte : List (Move Thread (Thread × Call)) := begin 1 (.piperead (fun _ => true) 1 1) :: acts 1 9

theorem none_left_asleep_empty : ∃ c, (menu true).machine.Along
    (Machine.Meets fun _ a s => announced a s = true) boot c ∧
    c.shared.state 1 = .SLEEPING ∧ c.shared.data.nread = c.shared.data.nwrite ∧ c.shared.data.writeopen = true := by
  have found : (((menu true).machine.playIf (fun _ => announced) waitForByte boot).any fun c =>
      decide (c.shared.owner .cond = none ∧ c.shared.state 1 = .SLEEPING ∧ c.shared.chan 1 = some Chan.nread)) =
        true := by
    decide +kernel
  obtain ⟨c, run, now⟩ := Machine.exists_of_playIf found
  obtain ⟨free, asleep, chan⟩ := of_decide_eq_true now
  exact ⟨c, run, asleep, (none_left_asleep run free asleep).1 chan⟩

def strand : List (Move Thread (Thread × Call)) :=
  begin 1 (.piperead (fun _ => true) 1 1) :: acts 1 9 ++ begin 2 (.kill (some 0)) :: acts 2 4 ++
    begin 0 (.pipewrite (fun _ => some 0) 513 1) :: acts 0 1031

theorem reader_left_asleep : ∃ c, (menu true).machine.Runs boot c ∧ c.shared.owner .cond = none ∧
    c.shared.state 1 = .SLEEPING ∧ c.shared.chan 1 = some Chan.nread ∧ c.shared.data.nread ≠ c.shared.data.nwrite := by
  have found : (((menu true).machine.play strand boot).any fun c => decide (c.shared.owner .cond = none ∧
      c.shared.state 1 = .SLEEPING ∧ c.shared.chan 1 = some Chan.nread ∧
      c.shared.data.nread ≠ c.shared.data.nwrite)) = true := by
    decide +kernel
  obtain ⟨c, run, left⟩ := Machine.exists_of_play found
  exact ⟨c, run, of_decide_eq_true left⟩

end Xv6Labs.Pipes
