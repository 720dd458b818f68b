import Xv6Labs.Proc.Family
import Xv6Labs.Proc.Steps

/-!
# exit and wait agree

`Told` connects the history of `fork`, `exit` and `wait` with the table. A process is known by its birth: its slot is
used again, and its pid is when `nextpid` has gone around.
-/

namespace Xv6Labs.Proc

open Threads

variable {lab : Lab} {fsinit : Balanced} {mem : Memory} {conf : Conf Thread Act Res Kernel}

/-- The process that an event of `wait` is about. -/
def Event.reaped : Event → Option ℕ
  | .waited _ child _ _ => some child
  | _ => none

structure Told (proc : Slot → Process) (notes : Slot → Notes) (births : ℕ) (history : List Event) : Prop where
  once : (history.filterMap Event.reaped).Nodup
  gone : ∀ p b pid st, .waited p b pid st ∈ history → 0 < b ∧ b < births ∧ ∀ q, (proc q).birth ≠ b
  stored : ∀ p b pid st, .waited p b pid st ∈ history → ∃ v, .exited b v ∈ history ∧ (st = none ∨ st = some v)
  exited : ∀ b v, .exited b v ∈ history → 0 < b ∧ b < births ∧ ∀ q, (proc q).birth = b → (notes q).leaving = some v
  status : ∀ b v v', .exited b v ∈ history → .exited b v' ∈ history → v = v'
  leaving : ∀ q v, (notes q).leaving = some v → 0 < (proc q).birth → .exited (proc q).birth v ∈ history
  zombie : ∀ q, (proc q).state = .ZOMBIE → (notes q).leaving = some (proc q).xstate
  forked : ∀ b pid, .forked b pid ∈ history → 0 < b ∧ b < births ∧ ∀ q, (proc q).birth = b → (proc q).pid = pid
  returned : ∀ p b pid pid' st, .forked b pid ∈ history → .waited p b pid' st ∈ history → pid' = pid

namespace Told

variable {proc : Slot → Process} {notes : Slot → Notes} {births : ℕ} {history : List Event} {s : Table} {q : Slot}

theorem mem_reaped {b : ℕ} : b ∈ history.filterMap Event.reaped ↔ ∃ p pid st, .waited p b pid st ∈ history := by
  rw [List.mem_filterMap]
  constructor
  · rintro ⟨e, found, same⟩
    cases e with
    | waited p child pid st =>
      cases same
      exact ⟨p, pid, st, found⟩
    | _ => cases same
  · rintro ⟨p, pid, st, found⟩
    exact ⟨_, found, rfl⟩

/-- A write that leaves births alone, and pids of processes that were born. -/
theorem write {v : Process} (told : Told proc notes births history) (birth : v.birth = (proc q).birth)
    (pid : v.pid = (proc q).pid ∨ (proc q).birth = 0)
    (zombie : v.state = .ZOMBIE → (notes q).leaving = some v.xstate) :
    Told (Function.update proc q v) notes births history := by
  have same (k : Slot) : (Function.update proc q v k).birth = (proc k).birth := by
    rw [Function.update_apply]
    split
    case isTrue here => rw [birth, here]
    case isFalse => rfl
  refine ⟨told.once, fun p b pid st found => ?_, told.stored, fun b w found => ?_, told.status,
    fun k w noted born => ?_, fun k state => ?_, fun b w found => ?_, told.returned⟩
  · simp only [same]
    exact told.gone p b pid st found
  · simp only [same]
    exact told.exited b w found
  · rw [same] at born ⊢
    exact told.leaving k w noted born
  · rw [Function.update_apply] at state ⊢
    split at state
    case isTrue here =>
      rw [if_pos here, here]
      exact zombie state
    case isFalse other =>
      rw [if_neg other]
      exact told.zombie k state
  · obtain ⟨positive, less, given⟩ := told.forked b w found
    refine ⟨positive, less, fun k born => ?_⟩
    rw [same] at born
    rw [Function.update_apply]
    split
    case isFalse => exact given k born
    case isTrue here =>
      subst here
      rcases pid with pid | blank
      · rw [pid]
        exact given k born
      · omega

/-- `freeproc` of a slot that nobody has waited for. -/
theorem free (told : Told proc notes births history) : Told (Function.update proc q {}) notes births history := by
  have old {k : Slot} {b : ℕ} (positive : 0 < b) (born : (Function.update proc q {} k).birth = b) :
      k ≠ q ∧ Function.update proc q {} k = proc k ∧ (proc k).birth = b := by
    have other : k ≠ q := by
      rintro rfl
      rw [Function.update_self] at born
      change 0 = b at born
      omega
    rw [Function.update_of_ne other] at born
    exact ⟨other, Function.update_of_ne other .., born⟩
  refine ⟨told.once, fun p b pid st found => ?_, told.stored, fun b w found => ?_, told.status,
    fun k w noted born => ?_, fun k state => ?_, fun b w found => ?_, told.returned⟩
  · obtain ⟨positive, less, gone⟩ := told.gone p b pid st found
    exact ⟨positive, less, fun k born => gone k (old positive born).2.2⟩
  · obtain ⟨positive, less, noted⟩ := told.exited b w found
    exact ⟨positive, less, fun k born => noted k (old positive born).2.2⟩
  · obtain ⟨-, same, -⟩ := old born rfl
    rw [same] at born ⊢
    exact told.leaving k w noted born
  · have other : k ≠ q := by
      rintro rfl
      rw [Function.update_self] at state
      cases state
    rw [Function.update_of_ne other] at state ⊢
    exact told.zombie k state
  · obtain ⟨positive, less, given⟩ := told.forked b w found
    refine ⟨positive, less, fun k born => ?_⟩
    obtain ⟨-, same, born'⟩ := old positive born
    rw [same]
    exact given k born'

/-- `freeproc` in `wait`. -/
theorem reap {p : Slot} {pid : Int} {st : Option Int} (told : Told s.proc notes s.births history) (tree : s.Tree)
    (zombie : (s.proc q).state = .ZOMBIE) (same : pid = (s.proc q).pid)
    (stored : st = none ∨ st = some (s.proc q).xstate) :
    Told (Function.update s.proc q {}) notes s.births (history ++ [.waited p (s.proc q).birth pid st]) := by
  have used : (s.proc q).state ≠ .UNUSED := by simp [zombie]
  have born := tree.born q used
  have first : (s.proc q).birth ∉ history.filterMap Event.reaped := by
    rw [mem_reaped]
    rintro ⟨p', pid', st', found⟩
    exact (told.gone p' _ pid' st' found).2.2 q rfl
  have freed := told.free (q := q)
  have mem {e : Event} : e ∈ history ++ [.waited p (s.proc q).birth pid st] ↔
      e ∈ history ∨ e = .waited p (s.proc q).birth pid st := by simp
  refine ⟨?_, fun p' b pid' st' found => ?_, fun p' b pid' st' found => ?_, fun b w found => ?_,
    fun b v v' found found' => ?_,
    fun k w noted born => ?_, freed.zombie, fun b w found => ?_, fun p' b w pid' st' found found' => ?_⟩
  · rw [List.filterMap_append]
    exact told.once.append (List.nodup_singleton _) (by simpa [Event.reaped] using first)
  · rw [mem] at found
    rcases found with found | new
    · exact freed.gone p' b pid' st' found
    · cases new
      refine ⟨born, tree.births q, fun k other => ?_⟩
      rw [Function.update_apply] at other
      split at other
      case isTrue =>
        change 0 = _ at other
        omega
      case isFalse ne => exact ne (tree.distinct k q other (other ▸ born))
  · rw [mem] at found
    simp only [mem]
    rcases found with found | new
    · obtain ⟨v, exit, rest⟩ := told.stored p' b pid' st' found
      exact ⟨v, .inl exit, rest⟩
    · cases new
      exact ⟨_, .inl (told.leaving q _ (told.zombie q zombie) born), stored⟩
  · rw [mem] at found
    rcases found with found | new
    · exact freed.exited b w found
    · cases new
  · rw [mem] at found found'
    rcases found with found | new
    · rcases found' with found' | new'
      · exact told.status b v v' found found'
      · cases new'
    · cases new
  · exact mem.mpr (.inl (freed.leaving k w noted born))
  · rw [mem] at found
    rcases found with found | new
    · exact freed.forked b w found
    · cases new
  · rw [mem] at found found'
    rcases found with found | new
    · rcases found' with found' | new'
      · exact told.returned p' b w pid' st' found found'
      · cases new'
        rw [same]
        exact (told.forked _ w found).2.2 q rfl
    · cases new

/-- The birth of a process: no event is about it yet. -/
theorem bear (told : Told s.proc s.notes s.births history) (unused : (s.proc q).state = .UNUSED) :
    Told (Function.update s.proc q { s.proc q with birth := s.births }) (Function.update s.notes q {}) (s.births + 1)
      history := by
  have old {k : Slot} {b : ℕ} (less : b < s.births)
      (born : (Function.update s.proc q { s.proc q with birth := s.births } k).birth = b) :
      k ≠ q ∧ (s.proc k).birth = b := by
    have other : k ≠ q := by
      rintro rfl
      rw [Function.update_self] at born
      change s.births = b at born
      omega
    rw [Function.update_of_ne other] at born
    exact ⟨other, born⟩
  refine ⟨told.once, fun p b pid st found => ?_, told.stored, fun b w found => ?_, told.status,
    fun k w noted born => ?_, fun k state => ?_, fun b w found => ?_, told.returned⟩
  · obtain ⟨positive, less, gone⟩ := told.gone p b pid st found
    exact ⟨positive, by omega, fun k born => gone k (old less born).2⟩
  · obtain ⟨positive, less, noted⟩ := told.exited b w found
    refine ⟨positive, by omega, fun k born => ?_⟩
    obtain ⟨other, born'⟩ := old less born
    rw [Function.update_of_ne other]
    exact noted k born'
  · have other : k ≠ q := by
      rintro rfl
      rw [Function.update_self] at noted
      cases noted
    rw [Function.update_of_ne other] at noted born ⊢
    exact told.leaving k w noted born
  · have other : k ≠ q := by
      rintro rfl
      rw [Function.update_self] at state
      rw [unused] at state
      cases state
    rw [Function.update_of_ne other] at state ⊢
    rw [Function.update_of_ne other]
    exact told.zombie k state
  · obtain ⟨positive, less, given⟩ := told.forked b w found
    refine ⟨positive, by omega, fun k born => ?_⟩
    obtain ⟨other, born'⟩ := old less born
    rw [Function.update_of_ne other]
    exact given k born'

theorem fork {b : ℕ} {pid : Int} (told : Told s.proc notes s.births history) (tree : s.Tree)
    (born : (s.proc q).birth = b) (positive : 0 < b) (same : (s.proc q).pid = pid) :
    Told s.proc notes s.births (history ++ [.forked b pid]) := by
  have mem {e : Event} : e ∈ history ++ [.forked b pid] ↔ e ∈ history ∨ e = .forked b pid := by simp
  have waited {p : Slot} {b' : ℕ} {pid' : Int} {st : Option Int}
      (found : .waited p b' pid' st ∈ history ++ [.forked b pid]) : .waited p b' pid' st ∈ history := by
    simpa using found
  have exits {b' : ℕ} {v : Int} (found : .exited b' v ∈ history ++ [.forked b pid]) : .exited b' v ∈ history := by
    simpa using found
  refine ⟨?_, fun p b' pid' st found => told.gone p b' pid' st (waited found), fun p b' pid' st found => ?_,
    fun b' w found => told.exited b' w (exits found),
    fun b' v v' found found' => told.status b' v v' (exits found) (exits found'),
    fun k w noted born => mem.mpr (.inl (told.leaving k w noted born)), told.zombie, fun b' w found => ?_,
    fun p b' w pid' st found found' => ?_⟩
  · rw [List.filterMap_append]
    exact (List.append_nil _).symm ▸ told.once
  · obtain ⟨v, exit, rest⟩ := told.stored p b' pid' st (waited found)
    exact ⟨v, mem.mpr (.inl exit), rest⟩
  · rcases mem.mp found with found | new
    · exact told.forked b' w found
    · cases new
      refine ⟨positive, born ▸ tree.births q, fun k other => ?_⟩
      rw [tree.distinct k q (other.trans born.symm) (other ▸ positive), same]
  · rcases mem.mp found with found | new
    · exact told.returned p b' w pid' st found (waited found')
    · cases new
      exact absurd born ((told.gone p b pid' st (waited found')).2.2 q)

theorem exit {p : Slot} {b : ℕ} {v : Int} (told : Told s.proc s.notes s.births history) (tree : s.Tree)
    (alive : s.Alive p) (born : b = (s.proc p).birth) (first : (s.notes p).leaving = none) :
    Told s.proc (Function.update s.notes p { s.notes p with leaving := some v }) s.births
      (history ++ [.exited b v]) := by
  have mem {e : Event} : e ∈ history ++ [.exited b v] ↔ e ∈ history ∨ e = .exited b v := by simp
  have waited {p : Slot} {b' : ℕ} {pid' : Int} {st : Option Int}
      (found : .waited p b' pid' st ∈ history ++ [.exited b v]) : .waited p b' pid' st ∈ history := by
    simpa using found
  have forks {b' : ℕ} {w : Int} (found : .forked b' w ∈ history ++ [.exited b v]) : .forked b' w ∈ history := by
    simpa using found
  have positive := tree.born p alive.1
  rw [← born] at positive
  have never {v' : Int} : .exited b v' ∉ history := by
    intro found
    have noted := (told.exited b v' found).2.2 p born.symm
    rw [first] at noted
    cases noted
  refine ⟨?_, fun p b' pid' st found => told.gone p b' pid' st (waited found), fun p b' pid' st found => ?_,
    fun b' w found => ?_, fun b' w w' found found' => ?_, fun k w noted born' => ?_, fun k state => ?_,
    fun b' w found => told.forked b' w (forks found),
    fun p b' w pid' st found found' => told.returned p b' w pid' st (forks found) (waited found')⟩
  · rw [List.filterMap_append]
    exact (List.append_nil _).symm ▸ told.once
  · obtain ⟨v', exit, rest⟩ := told.stored p b' pid' st (waited found)
    exact ⟨v', mem.mpr (.inl exit), rest⟩
  · rcases mem.mp found with found | new
    · obtain ⟨positive', less, noted⟩ := told.exited b' w found
      refine ⟨positive', less, fun k born' => ?_⟩
      have other : k ≠ p := by
        rintro rfl
        rw [← born', ← born] at found
        exact never found
      rw [Function.update_of_ne other]
      exact noted k born'
    · cases new
      refine ⟨positive, born ▸ tree.births p, fun k born' => ?_⟩
      rw [tree.distinct k p (born'.trans born) (born' ▸ positive), Function.update_self]
  · rcases mem.mp found with found | new
    · rcases mem.mp found' with found' | new'
      · exact told.status b' w w' found found'
      · cases new'
        exact absurd found never
    · cases new
      rcases mem.mp found' with found' | new'
      · exact absurd found' never
      · cases new'
        rfl
  · by_cases here : k = p
    · subst here
      rw [Function.update_self] at noted
      cases noted
      rw [← born]
      exact mem.mpr (.inr rfl)
    · rw [Function.update_of_ne here] at noted
      exact mem.mpr (.inl (told.leaving k w noted born'))
  · have other : k ≠ p := by
      rintro rfl
      exact alive.2 state
    rw [Function.update_of_ne other]
    exact told.zombie k state

/-- Other notes do not matter. -/
theorem note {notes' : Slot → Notes} (told : Told proc notes births history)
    (same : ∀ k, (notes' k).leaving = (notes k).leaving) : Told proc notes' births history := by
  obtain ⟨once, gone, stored, exited, status, leaving, zombie, forked, returned⟩ := told
  refine ⟨once, gone, stored, ?_, status, ?_, ?_, forked, returned⟩
  all_goals simp only [same]
  · exact exited
  · exact leaving
  · exact zombie

end Told

abbrev Kernel.Told (s : Kernel) : Prop := Proc.Told s.proc s.notes s.births s.history

theorem told_set {s : Kernel} {q : Slot} {f : Field} (told : s.Told) (field : AllowedField q s.toTable f) :
    Told (Function.update s.proc q (f.write (s.proc q))) s.notes s.births s.history := by
  cases f with
  | state v =>
    refine told.write rfl (.inl rfl) fun zombie => ?_
    exact (field.2.2.2 zombie).2
  | parent v => exact told.write rfl (.inl rfl) (told.zombie q)
  | chan v => exact told.write rfl (.inl rfl) (told.zombie q)
  | xstate v => exact told.write rfl (.inl rfl) fun zombie => absurd zombie field.2
  | pid v =>
    refine told.write rfl (.inr field.2) fun zombie => ?_
    change (s.proc q).state = .ZOMBIE at zombie
    rw [field.1] at zombie
    cases zombie

theorem told_step {s s' : Kernel} {c : Core} {a : Act} {r : Res a} (inv : terms.inv s) (allowed : Allowed c a s.toTable)
    (ran : s.perform c a = some (r, s')) (told : s.Told) : s'.Told := by
  have tree := inv.1.tree
  unfold Kernel.Told
  rcases perform_cases ran with
    ⟨q, f, rfl, proc, notes, births, history, -⟩ | ⟨q, w, rfl, proc, notes, births, history, -⟩ |
    ⟨q, rfl, proc, notes, births, history, -⟩ | ⟨p, o, rfl, proc, notes, births, history, -⟩ | ⟨e, rfl, rfl⟩ |
    ⟨q, w, rfl, ⟨proc, notes, births, history⟩, -⟩ | ⟨⟨proc, notes, births, history⟩, -⟩
  · rw [proc, notes, births, history]
    exact told_set told allowed.2
  · rw [proc, notes, births, history]
    cases w with
    | none => exact told.free
    | some result =>
      obtain ⟨pid, st⟩ := result
      obtain ⟨-, -, zombie, ⟨p, here, -⟩, same, stored⟩ := allowed
      have thread : (s.cpu c).thread = some p := runs_proc.mp here
      simp only [Kernel.reap, thread]
      exact told.reap tree zombie same stored
  · rw [proc, notes, births, history]
    exact told.bear allowed.2.1
  · rw [proc, notes, births, history]
    apply told.note
    intro k
    rw [Function.update_apply]
    split
    case isTrue here => rw [here]
    case isFalse => rfl
  · cases e with
    | forked b pid =>
      obtain ⟨q, -, born, positive, same⟩ := allowed
      exact told.fork tree born positive same
    | exited b v =>
      obtain ⟨p, here, alive, born, first⟩ := allowed
      have thread : (s.cpu c).thread = some p := runs_proc.mp here
      simp only [Kernel.record, thread, Kernel.note]
      exact told.exit tree alive born first
    | waited => exact allowed.elim
  · rwa [proc, notes, births, history]
  · rwa [proc, notes, births, history]

theorem reachable_told (h : Reachable lab fsinit mem conf) : conf.shared.Told := by
  refine invariant_of_allowed (J := Kernel.Told) ?_ (fun c a s r s' inv allowed _ ran _ => told_step inv allowed ran)
    (Machine.Runs.along h)
  constructor
  case once => exact List.nodup_nil
  case leaving => rintro _ _ ⟨⟩
  case zombie => rintro _ ⟨⟩
  all_goals simp

theorem write_unused {q : Slot} {s : Table} {f : Field} (field : AllowedField q s f)
    (unused : (f.write (s.proc q)).state = .UNUSED) : (s.proc q).state = .UNUSED := by
  cases f with
  | state v => exact absurd unused field.1
  | _ => exact unused

/-- A slot becomes UNUSED in one way. -/
theorem freed_by_wait {s s' : Kernel} {c : Core} {a : Act} {r : Res a} {q : Slot} (allowed : Allowed c a s.toTable)
    (ran : s.perform c a = some (r, s')) (used : (s.proc q).state ≠ .UNUSED) (freed : (s'.proc q).state = .UNUSED) :
    (s.proc q).state = .ZOMBIE ∧ ∃ p st, s.runs c = .proc p ∧ (s.proc q).parent = some p ∧
      s'.history = s.history ++ [.waited p (s.proc q).birth (s.proc q).pid st] := by
  have here {v : Process} {k : Slot} (freed : (Function.update s.proc k v q).state = .UNUSED) : q = k := by
    by_contra other
    rw [Function.update_of_ne other] at freed
    exact used freed
  rcases perform_cases ran with
    ⟨k, f, rfl, proc, -⟩ | ⟨k, w, rfl, proc, -, -, history, -⟩ | ⟨k, rfl, proc, -⟩ | ⟨p, o, rfl, proc, -⟩ |
    ⟨e, rfl, rfl⟩ | ⟨k, w, rfl, ⟨proc, -⟩, -⟩ | ⟨⟨proc, -⟩, -⟩
  · rw [proc] at freed
    obtain rfl := here freed
    rw [Function.update_self] at freed
    exact absurd (write_unused allowed.2 freed) used
  · rw [proc] at freed
    obtain rfl := here freed
    cases w with
    | none => exact absurd allowed.2.2 used
    | some result =>
      obtain ⟨pid, st⟩ := result
      obtain ⟨-, -, zombie, ⟨p, there, parent⟩, rfl, -⟩ := allowed
      have thread : (s.cpu c).thread = some p := runs_proc.mp there
      refine ⟨zombie, p, st, there, parent, ?_⟩
      rw [history]
      simp only [Kernel.reap, thread]
  · rw [proc] at freed
    obtain rfl := here freed
    rw [Function.update_self] at freed
    exact absurd freed used
  · rw [proc] at freed
    exact absurd freed used
  · rw [(record_proc e).1] at freed
    exact absurd freed used
  · rw [proc] at freed
    exact absurd freed used
  · rw [proc] at freed
    exact absurd freed used

/-- So does an event of `wait` come about. -/
theorem waited_by_parent {s s' : Kernel} {c : Core} {a : Act} {r : Res a} {p : Slot} {b : ℕ} {pid : Int}
    {st : Option Int} (allowed : Allowed c a s.toTable) (ran : s.perform c a = some (r, s'))
    (found : .waited p b pid st ∈ s'.history) (new : .waited p b pid st ∉ s.history) :
    s.runs c = .proc p ∧ ∃ q, (s.proc q).birth = b ∧ (s.proc q).state = .ZOMBIE ∧ (s.proc q).parent = some p ∧
      (s'.proc q).state = .UNUSED := by
  rcases perform_cases ran with
    ⟨k, f, rfl, -, -, -, history, -⟩ | ⟨k, w, rfl, proc, -, -, history, -⟩ | ⟨k, rfl, -, -, -, history, -⟩ |
    ⟨p, o, rfl, -, -, -, history, -⟩ | ⟨e, rfl, rfl⟩ | ⟨k, w, rfl, ⟨-, -, -, history⟩, -⟩ | ⟨⟨-, -, -, history⟩, -⟩
  · rw [history] at found
    exact absurd found new
  · rw [history] at found
    cases w with
    | none => exact absurd found new
    | some result =>
      obtain ⟨pid', st'⟩ := result
      obtain ⟨-, -, zombie, ⟨p', there, parent⟩, -⟩ := allowed
      have thread : (s.cpu c).thread = some p' := runs_proc.mp there
      simp only [Kernel.reap, thread, List.mem_append, List.mem_singleton] at found
      rcases found with old | same
      · exact absurd old new
      · cases same
        refine ⟨there, k, rfl, zombie, parent, ?_⟩
        rw [proc, Function.update_self]
  · rw [history] at found
    exact absurd found new
  · rw [history] at found
    exact absurd found new
  · rw [(record_proc e).2.2.1, List.mem_append, List.mem_singleton] at found
    rcases found with old | rfl
    · exact absurd old new
    · exact allowed.elim
  · rw [history] at found
    exact absurd found new
  · rw [history] at found
    exact absurd found new

/-- At most one `wait` returns a process, and the pid that `fork` returned for it; it stores the status of its `exit`.
That `wait` is its parent's, and frees the slot; nothing else does. Where the status cannot be stored, the process is
still a zombie when `wait` returns, and nobody but init sleeps in `wait` while it has a zombie. -/
theorem exit_wait_agree (h : Reachable lab fsinit mem conf) :
    (conf.shared.history.filterMap Event.reaped).Nodup ∧
    (∀ p b pid st, .waited p b pid st ∈ conf.shared.history →
      (∀ pid', .forked b pid' ∈ conf.shared.history → pid = pid') ∧
      ∃ v, .exited b v ∈ conf.shared.history ∧ (∀ v', .exited b v' ∈ conf.shared.history → v = v') ∧
        (st = none ∨ st = some v)) ∧
    (∀ m conf', (machine lab fsinit).next m conf = some conf' →
      (∀ p b pid st, .waited p b pid st ∈ conf'.shared.history → .waited p b pid st ∉ conf.shared.history →
        m = .act (.proc p) ∧ ∃ q, (conf.shared.proc q).birth = b ∧ (conf.shared.proc q).state = .ZOMBIE ∧
          (conf.shared.proc q).parent = some p ∧ (conf'.shared.proc q).state = .UNUSED) ∧
      ∀ q, (conf.shared.proc q).state ≠ .UNUSED → (conf'.shared.proc q).state = .UNUSED →
        (conf.shared.proc q).state = .ZOMBIE ∧ ∃ p st, m = .act (.proc p) ∧ (conf.shared.proc q).parent = some p ∧
          conf'.shared.history = conf.shared.history ++
            [.waited p (conf.shared.proc q).birth (conf.shared.proc q).pid st]) ∧
    (∀ t c q k, conf.code t = .act (.unstored q) k → conf.shared.on t = some c →
      (conf.shared.proc q).state = .ZOMBIE ∧ ∃ p, t = .proc p ∧ (conf.shared.proc q).parent = some p) ∧
    ∀ p q, conf.shared.initproc ≠ some p → conf.shared.owner (.proc p) = none →
      (conf.shared.proc p).state = .SLEEPING → (conf.shared.proc p).chan = some (.proc p) →
      (conf.shared.proc q).parent = some p → (conf.shared.proc q).state ≠ .ZOMBIE := by
  have told := reachable_told h
  have kept := reachable_kept h
  refine ⟨told.once, fun p b pid st found => ⟨?_, ?_⟩, fun m conf' moved => ?_, fun t c q k point here => ?_,
    fun p q other _ state chan child => kept.1.1.tree.asleep p q other state chan child⟩
  · intro pid' forked
    exact told.returned p b pid' pid st forked found
  · obtain ⟨v, exit, stored⟩ := told.stored p b pid st found
    exact ⟨v, exit, fun v' exit' => told.status b v v' exit exit', stored⟩
  · rcases Machine.next_cases moved with
      ⟨t, k, -, -, -, rfl⟩ | ⟨t, k, -, -, rfl⟩ | ⟨t, a, k, r, s, rfl, point, ran, rfl⟩
    · exact ⟨fun p b pid st found new => absurd found new, fun q used freed => absurd freed used⟩
    · exact ⟨fun p b pid st found new => absurd found new, fun q used freed => absurd freed used⟩
    · obtain ⟨c, here, ran⟩ := exec_cases ran
      have allowed := kept.ok point c here
      constructor
      · intro p b pid st found new
        obtain ⟨there, rest⟩ := waited_by_parent allowed ran found new
        exact ⟨by rw [← here, there], rest⟩
      · intro q used freed
        obtain ⟨zombie, p, st, there, rest⟩ := freed_by_wait allowed ran used freed
        exact ⟨zombie, p, st, by rw [← here, there], rest⟩
  · obtain ⟨p, there, zombie, child⟩ := kept.ok point c (runs_of_on here)
    exact ⟨zombie, p, (runs_of_on here).symm.trans there, child⟩

/-- The child of init exits, and init waits for it. -/
def exitAndWait : List (Move Thread Call) :=
  firstFork ++ acts 2 (.sched 1) ++ .call (.sched 1) .scheduler :: acts 9 (.sched 1) ++ acts 6 (.proc 1) ++
    .call (.proc 1) (.usertrap (.syscall (.exit 7)) noOps) :: acts 94 (.proc 1) ++ acts 2 (.sched 1) ++
    .call (.proc 0) (.usertrap (.syscall (.wait (some true) 1)) noOps) :: acts 17 (.proc 0)

theorem exit_wait_agree_seven : ∃ conf, Reachable .two ⟨[], rfl⟩ plenty conf ∧
    conf.shared.history = [.forked 2 2, .exited 2 7, .waited 0 2 2 (some 7)] ∧
    ∃ v, .exited 2 v ∈ conf.shared.history ∧ (∀ v', .exited 2 v' ∈ conf.shared.history → v = v') ∧
      (some (7 : Int) = none ∨ some 7 = some v) := by
  have played : (((machine .two ⟨[], rfl⟩).play exitAndWait (boot .two plenty)).any fun conf =>
      decide (conf.shared.history = [.forked 2 2, .exited 2 7, .waited 0 2 2 (some 7)])) = true := by decide +kernel
  obtain ⟨conf, run, history⟩ := Machine.exists_of_play played
  rw [decide_eq_true_eq] at history
  exact ⟨conf, run, history, ((exit_wait_agree run).2.1 0 2 2 (some 7) (by simp [history])).2⟩

end Xv6Labs.Proc
