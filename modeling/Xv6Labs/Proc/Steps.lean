import Xv6Labs.Proc.Run

/-!
# What one action writes

Five kinds of actions write to `proc`, `notes`, `births` or `history`, and two of them and one more to `killed`.
-/

namespace Xv6Labs.Proc

open Threads

variable {s s' : Kernel} {c : Core} {a : Act} {r : Res a}

/-- Nothing is written to the table of processes. -/
structure Same (s s' : Kernel) : Prop where
  proc : s'.proc = s.proc
  notes : s'.notes = s.notes
  births : s'.births = s.births
  history : s'.history = s.history

theorem wake_same (q : Slot) (f : Field) : Same s (s.wake q f) := by
  unfold Kernel.wake
  split <;> exact ⟨rfl, rfl, rfl, rfl⟩

theorem wake_killed (q : Slot) (f : Field) : (s.wake q f).killed = s.killed := by
  unfold Kernel.wake
  split <;> rfl

theorem within_same (n : ℕ) (b : Bool) : Same s (s.within c n b) := by
  unfold Kernel.within
  split <;> exact ⟨rfl, rfl, rfl, rfl⟩

theorem within_killed (n : ℕ) (b : Bool) : (s.within c n b).killed = s.killed := by
  unfold Kernel.within
  split <;> rfl

theorem reap_proc (q : Slot) (w : Option (Int × Option Int)) : (s.reap c q w).proc = s.proc := by
  rw [Kernel.reap_toTable]

theorem reap_killed (q : Slot) (w : Option (Int × Option Int)) : (s.reap c q w).killed = s.killed := by
  unfold Kernel.reap
  split
  · rfl
  · split <;> rfl

theorem record_proc (e : Event) : (s.record c e).proc = s.proc ∧ (s.record c e).births = s.births ∧
    (s.record c e).history = s.history ++ [e] ∧ (s.record c e).killed = s.killed := by
  unfold Kernel.record
  dsimp only
  split <;> exact ⟨rfl, rfl, rfl, rfl⟩

theorem perform_cases (ran : s.perform c a = some (r, s')) :
    (∃ q f, a = .set q f ∧ s'.proc = Function.update s.proc q (f.write (s.proc q)) ∧ s'.notes = s.notes ∧
      s'.births = s.births ∧ s'.history = s.history ∧ s'.killed = s.killed) ∨
    (∃ q w, a = .freeproc q w ∧ s'.proc = Function.update s.proc q {} ∧ s'.notes = s.notes ∧
      s'.births = s.births ∧ s'.history = (s.reap c q w).history ∧ s'.killed = Function.update s.killed q false) ∨
    (∃ q, a = .context q ∧ s'.proc = Function.update s.proc q { s.proc q with birth := s.births } ∧
      s'.notes = Function.update s.notes q {} ∧ s'.births = s.births + 1 ∧ s'.history = s.history ∧
      s'.killed = s.killed) ∨
    (∃ p o, a = .remember p o ∧ s'.proc = s.proc ∧
      s'.notes = Function.update s.notes p { s.notes p with remembered := o } ∧ s'.births = s.births ∧
      s'.history = s.history ∧ s'.killed = s.killed) ∨
    (∃ e, a = .record e ∧ s' = s.record c e) ∨
    (∃ q w, a = .setKilled q w ∧ Same s s' ∧ s'.killed = Function.update s.killed q true) ∨
    Same s s' ∧ s'.killed = s.killed := by
  cases a with
  | set q f =>
    cases ran
    obtain ⟨proc, notes, births, history⟩ := wake_same (s := s) q f
    exact .inl ⟨q, f, rfl, congrArg (Function.update · q _) proc, notes, births, history, wake_killed q f⟩
  | freeproc q w =>
    cases ran
    have notes : (s.reap c q w).notes = s.notes := congrArg Table.notes (s.reap_toTable c q w)
    have births : (s.reap c q w).births = s.births := congrArg Table.births (s.reap_toTable c q w)
    exact .inr (.inl ⟨q, w, rfl, congrArg (Function.update · q _) (reap_proc q w), notes, births, rfl,
      congrArg (Function.update · q _) (reap_killed q w)⟩)
  | context q =>
    cases ran
    exact .inr (.inr (.inl ⟨q, rfl, rfl, rfl, rfl, rfl, rfl⟩))
  | remember p o =>
    cases ran
    exact .inr (.inr (.inr (.inl ⟨p, o, rfl, rfl, rfl, rfl, rfl, rfl⟩)))
  | record e =>
    cases ran
    exact .inr (.inr (.inr (.inr (.inl ⟨e, rfl, rfl⟩))))
  | setKilled q w =>
    cases ran
    exact .inr (.inr (.inr (.inr (.inr (.inl ⟨q, w, rfl, ⟨rfl, rfl, rfl, rfl⟩, rfl⟩)))))
  | setLocked n b =>
    cases ran
    obtain ⟨proc, notes, births, history⟩ := within_same (s := s) (c := c) n b
    exact .inr (.inr (.inr (.inr (.inr (.inr ⟨⟨proc, notes, births, history⟩, within_killed n b⟩)))))
  | panic | cut => cases ran
  | acquire | release | pvminit | pvminithart | uservec | started =>
    -- these may not be possible
    simp only [Kernel.perform] at ran
    split at ran
    all_goals cases ran
    exact .inr (.inr (.inr (.inr (.inr (.inr ⟨⟨rfl, rfl, rfl, rfl⟩, rfl⟩)))))
  | _ =>
    cases ran
    exact .inr (.inr (.inr (.inr (.inr (.inr ⟨⟨rfl, rfl, rfl, rfl⟩, rfl⟩)))))

end Xv6Labs.Proc
