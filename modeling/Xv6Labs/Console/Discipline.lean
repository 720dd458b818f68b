import Xv6Labs.Monitor.Robust
import Xv6Labs.Console.Ring

/-!
# Line discipline

While the lock is free, the console is where the editor is after the same characters and reads, and the calls that
have returned 0 are those that have consumed a ^D.
-/

namespace Xv6Labs.Console

open Threads Prog Monitor
open Proc (Slot)
open Window (Shows window)

variable {cons cons' : Cons} {t u : Thread} {p : Slot} {id k n target : ℕ} {c : UInt8} {dst : ℕ → Bool}
  {P : Cons → Prop} {f : Editor → Editor}

def Cons.zeros (cons : Cons) : List ℕ := (cons.returned.filter fun e => e.2 = 0).map Prod.fst

def Cons.ends (cons : Cons) : List ℕ := (cons.served.filter fun e => e.2 = endOfFile).map Prod.fst

/-- The console is where `f` takes the editor, and every ^D has been reported. -/
structure Edited (f : Editor → Editor) (cons : Cons) : Prop where
  editor : cons.editor = f (Editor.run cons.events)
  zeros : cons.zeros = cons.ends

abbrev Orderly : Cons → Prop := Edited fun ed => ed

/-- Others leave the calls of `t` alone. -/
def Own (t : Thread) (cons cons' : Cons) : Prop :=
  ∀ id, cons.calls[id]? = some t → cons'.calls[id]? = some t ∧ seenBy id cons'.served = seenBy id cons.served

def duty : Duty console where
  always := Always
  inv cons _ := Orderly cons
  shrink orderly _ := orderly
  drift cons cons' := cons' = cons
  drift_refl _ := rfl
  drift_trans same same' := same'.trans same
  view := Own
  view_refl _ _ _ there := ⟨there, rfl⟩
  view_trans := by
    intro t cons cons' cons'' own own' id there
    obtain ⟨there', same⟩ := own id there
    obtain ⟨there'', same'⟩ := own' id there'
    exact ⟨there'', same'.trans same⟩
  drift_view := by
    rintro t cons _ rfl id there
    exact ⟨there, rfl⟩
  ok _ _ _ := True

/-- Inside, with a fact about the data. -/
def Holds (t : Thread) (P : Cons → Prop) : Monitor.State console → Prop := Knows t [.cond] fun cons _ => P cons

theorem robust_data : Robust duty fun (cons : Cons) _ => P cons := by
  refine ⟨?_, fun _ _ _ _ fact => fact⟩
  rintro cons _ w rfl fact
  exact fact

theorem triple_do {x : Op} {Q : Op.Res x → Cons → Prop}
    (step : ∀ cons, Always cons → P cons → ∀ r cons', perform t x cons = some (r, cons') →
      Always cons' ∧ (∀ u, u ≠ t → Own u cons cons') ∧ Q r cons') :
    Triple duty t (Holds t P) (look x) fun r => Holds t (Q r) :=
  triple_op robust_data.lasts (fun _ => robust_data.lasts) fun cons _ always fact => ⟨trivial, step cons always fact⟩

theorem triple_test (x : Op) (value : Cons → Op.Res x) (looks : ∀ cons, perform t x cons = some (value cons, cons)) :
    Triple duty t (Holds t P) (look x) fun r => Holds t fun cons => P cons ∧ value cons = r := by
  refine triple_do fun cons always fact r cons' ran => ?_
  obtain ⟨rfl, rfl⟩ := Prod.mk.inj (Option.some.inj ((looks cons).symm.trans ran))
  exact ⟨always, fun u _ => duty.view_refl u cons, fact, rfl⟩

theorem triple_finish {α : Type} {a : α} {Q : α → Cons → Prop} (weaker : ∀ cons, P cons → Q a cons) :
    Triple duty t (Holds t P) (pure a) fun r => Holds t (Q r) :=
  Triple.pure (stable_knows robust_data.lasts) fun _ _ knows => knows.imp fun cons _ => weaker cons

theorem triple_locked : Triple duty t (Outside t) (acquire .cond) fun _ => Holds t Orderly :=
  triple_enter robust_data fun _ _ _ orderly => orderly

theorem triple_unlocked : Triple duty t (Holds t Orderly) (release .cond) fun _ => Outside t :=
  triple_leave robust_data fun _ _ _ orderly => orderly

/-! ### consoleread -/

/-- The call `id` of `t` has consumed `k` characters, and none that ends it. -/
structure Mine (t : Thread) (id k : ℕ) (cons : Cons) : Prop where
  call : cons.calls[id]? = some t
  count : (seenBy id cons.served).length = k
  plain : endOfFile ∉ seenBy id cons.served ∧ newline ∉ seenBy id cons.served

theorem Mine.own (mine : Mine t id k cons) (own : Own t cons cons') : Mine t id k cons' := by
  obtain ⟨call, seen⟩ := own id mine.call
  refine ⟨call, ?_, ?_⟩
  · rw [seen]
    exact mine.count
  · rw [seen]
    exact mine.plain

theorem Mine.known (mine : Mine t id k cons) : id < cons.calls.length := (List.getElem?_eq_some_iff.mp mine.call).1

theorem Mine.own_served {x : UInt8} (mine : Mine t id k cons) (other : u ≠ t) {cons' : Cons}
    (calls : cons'.calls = cons.calls) (served : cons'.served = cons.served ++ [(id, x)]) : Own u cons cons' := by
  intro id' theirs
  refine ⟨calls ▸ theirs, ?_⟩
  have ne : id ≠ id' := by
    rintro rfl
    exact other (Option.some.inj (theirs.symm.trans mine.call))
  rw [served, seenBy_other ne]

/-- The character `c` is taken from the ring, and not yet consumed. -/
structure Taken (t : Thread) (id k : ℕ) (c : UInt8) (cons : Cons) : Prop where
  edited : Edited Editor.take cons
  mine : Mine t id k cons
  next : (Editor.run cons.events).committed[cons.served.length]? = some c
  most : cons.editor.text.length ≤ cons.served.length + inputBuf
  shows : Shows cell cons.buf cons.editor.text cons.served.length

theorem triple_begins : Triple duty t (Holds t Orderly) (look .begins) fun id => Holds t fun cons =>
    Orderly cons ∧ Mine t id 0 cons := by
  refine triple_do fun cons always orderly r cons' ran => ?_
  cases ran
  have served := always.served
  have none := served.fresh
  refine ⟨⟨⟨always.ring.r, always.ring.w, always.ring.e, always.ring.least, always.ring.most, always.ring.shows⟩,
    fun e mem => ?_, served.delivered, served.count, served.part, served.whole⟩, fun u _ id there => ⟨?_, rfl⟩,
    ⟨orderly.editor, orderly.zeros⟩, List.getElem?_concat_length, ?_, ?_, ?_⟩
  · have := served.known e mem
    simp only [List.length_append]
    omega
  · have within := (List.getElem?_eq_some_iff.mp there).1
    change (cons.calls ++ [t])[id]? = some u
    rw [List.getElem?_append_left within]
    exact there
  · exact congrArg List.length none
  · exact fun mem => List.not_mem_nil (none ▸ mem)
  · exact fun mem => List.not_mem_nil (none ▸ mem)

theorem triple_take :
    Triple duty t (Holds t fun cons => (Orderly cons ∧ Mine t id k cons) ∧ (cons.r == cons.w) = false) (look .take)
      fun c : UInt8 => Holds t (Taken t id k c) := by
  refine triple_do fun cons always fact r cons' ran => ?_
  cases ran
  obtain ⟨⟨orderly, mine⟩, busy⟩ := fact
  have least := always.ring.least
  have apart : ¬ cons.editor.read = cons.editor.committed.length := by
    rw [← always.ring.idle_iff, busy]
    exact Bool.false_ne_true
  have some : cons.editor.read < cons.editor.committed.length := by omega
  have editor : cons.editor = Editor.run cons.events := orderly.editor
  have count : cons.served.length = cons.editor.read := by rw [always.served.count, editor]
  have served := always.served
  refine ⟨⟨always.ring.take some, served.known, served.delivered, served.count, served.part, served.whole⟩,
    fun u _ id there => ⟨there, rfl⟩, ⟨congrArg Editor.take editor, orderly.zeros⟩,
    ⟨mine.call, mine.count, mine.plain⟩, ?_, ?_, ?_⟩
  · change (Editor.run cons.events).committed[cons.served.length]? = _
    rw [count, ← editor]
    exact always.ring.next some
  · change cons.editor.text.length ≤ cons.served.length + inputBuf
    rw [count]
    exact always.ring.most
  · change Shows cell cons.buf cons.editor.text cons.served.length
    rw [count]
    exact always.ring.shows

theorem triple_putBack : Triple duty t (Holds t (Taken t id k c)) (look .putBack) fun _ => Holds t Orderly := by
  refine triple_do fun cons always taken r cons' ran => ?_
  cases ran
  have served := always.served
  have read : cons.editor.read = cons.served.length + 1 := by
    rw [taken.edited.editor, served.count]
    rfl
  refine ⟨⟨always.ring.putBack read taken.most taken.shows, served.known, served.delivered, served.count, served.part,
    served.whole⟩, fun u _ id there => ⟨there, rfl⟩, ?_, taken.edited.zeros⟩
  change cons.editor.putBack = Editor.run cons.events
  rw [taken.edited.editor]
  rfl

theorem triple_copyout (text : c ≠ endOfFile) :
    Triple duty t (Holds t (Taken t id k c)) (look (.copyout id c)) fun _ => Holds t fun cons =>
      Orderly cons ∧ (c ≠ newline → Mine t id (k + 1) cons) := by
  refine triple_do fun cons always taken r cons' ran => ?_
  cases ran
  have mine := taken.mine
  have ring := always.ring
  have seen : seenBy id (cons.copyout id c).served = seenBy id cons.served ++ [c] := seenBy_self
  refine ⟨⟨⟨ring.r, ring.w, ring.e, ring.least, ring.most, ring.shows⟩,
    always.served.copyout mine.known taken.next text mine.plain⟩, fun u other => mine.own_served other rfl rfl,
    ⟨?_, ?_⟩, fun more => ⟨mine.call, ?_, ?_⟩⟩
  · change cons.editor = Editor.run (cons.events ++ [.read])
    rw [run_read]
    exact taken.edited.editor
  · have same : (cons.copyout id c).ends = cons.ends := by
      simp only [Cons.ends, Cons.copyout, List.filter_append]
      simp [text]
    rw [same]
    exact taken.edited.zeros
  · rw [seen, List.length_append, mine.count]
    rfl
  · rw [seen, List.mem_append, List.mem_append, List.mem_singleton, List.mem_singleton]
    exact ⟨fun mem => mem.elim mine.plain.1 text.symm, fun mem => mem.elim mine.plain.2 more.symm⟩

/-- The call `id` has consumed a ^D, and will return 0. -/
structure Ended (id : ℕ) (cons : Cons) : Prop where
  editor : cons.editor = Editor.run cons.events
  ends : cons.ends = cons.zeros ++ [id]

theorem triple_eof : Triple duty t (Holds t (Taken t id 0 endOfFile)) (look (.eof id)) fun _ => Holds t (Ended id) := by
  refine triple_do fun cons always taken r cons' ran => ?_
  cases ran
  have mine := taken.mine
  have ring := always.ring
  refine ⟨⟨⟨ring.r, ring.w, ring.e, ring.least, ring.most, ring.shows⟩,
    always.served.eof mine.known taken.next (List.length_eq_zero_iff.mp mine.count)⟩,
    fun u other => mine.own_served other rfl rfl, ?_, ?_⟩
  · change cons.editor = Editor.run (cons.events ++ [.read])
    rw [run_read]
    exact taken.edited.editor
  · change (cons.eof id).ends = cons.zeros ++ [id]
    rw [taken.edited.zeros]
    simp [Cons.ends, Cons.eof]

theorem Always.returns (always : Always cons) {result : ℤ} : Always (cons.returns id result) :=
  ⟨⟨always.ring.r, always.ring.w, always.ring.e, always.ring.least, always.ring.most, always.ring.shows⟩,
    always.served.known, always.served.delivered, always.served.count, always.served.part, always.served.whole⟩

theorem triple_returns {result : ℤ} (ne : result ≠ 0) :
    Triple duty t (Holds t Orderly) (look (.returns id result)) fun _ => Holds t Orderly := by
  refine triple_do fun cons always orderly r cons' ran => ?_
  cases ran
  refine ⟨always.returns, fun u _ id there => ⟨there, rfl⟩, orderly.editor, ?_⟩
  have same : (cons.returns id result).zeros = cons.zeros := by simp [Cons.zeros, Cons.returns, ne]
  rw [same]
  exact orderly.zeros

theorem triple_returns_zero : Triple duty t (Holds t (Ended id)) (look (.returns id 0)) fun _ => Holds t Orderly := by
  refine triple_do fun cons always ended r cons' ran => ?_
  cases ran
  refine ⟨always.returns, fun u _ id there => ⟨there, rfl⟩, ended.editor, ?_⟩
  have more : (cons.returns id 0).zeros = cons.zeros ++ [id] := by simp [Cons.zeros, Cons.returns]
  rw [more]
  exact ended.ends.symm

theorem triple_awaitInput (fuel : ℕ) :
    Triple duty (.proc p) (Holds (.proc p) fun cons => Orderly cons ∧ Mine (.proc p) id k cons)
    (awaitInput p fuel) fun ready =>
      Holds (.proc p) fun cons => (Orderly cons ∧ Mine (.proc p) id k cons) ∧
        (ready = true → (cons.r == cons.w) = false) := by
  induction fuel with
  | zero => exact triple_cut
  | succ fuel ih =>
    unfold awaitInput
    refine (triple_test .idle (fun cons => cons.r == cons.w) fun _ => rfl).bind fun idle => ?_
    cases idle with
    | false => exact triple_finish fun cons fact => ⟨fact.1, fun _ => fact.2⟩
    | true =>
      refine (triple_killed robust_data.lasts).bind fun dead => ?_
      cases dead with
      | true => exact triple_finish fun cons fact => ⟨fact.1, fun wrong => absurd wrong Bool.false_ne_true⟩
      | false =>
        refine (triple_rest (V := Mine (.proc p) id k) (fun cons cons' own mine => mine.own own) robust_data robust_data
          (fun cons w _ fact => fact.1.1) (fun cons w fact => fact.1.2) fun cons w _ orderly mine =>
            ⟨orderly, mine⟩).bind fun _ => ih

/-- What a read has done when its loop is over with `left` of its `n`. -/
def Finished (id target : ℕ) : Option ℕ → Cons → Prop
  | none, cons => Orderly cons
  | some left, cons => left < target ∧ Orderly cons ∨ left = target ∧ Ended id cons

theorem triple_readLine (fuel : ℕ) (le : n ≤ target) (some : 0 < target) (copies : ∀ i, i < target → dst i = true) :
    Triple duty (.proc p) (Holds (.proc p) fun cons => Orderly cons ∧ Mine (.proc p) id (target - n) cons)
      (readLine p id dst target fuel n) fun left => Holds (.proc p) (Finished id target left) := by
  induction n with
  | zero => exact triple_finish fun cons fact => .inl ⟨some, fact.1⟩
  | succ n ih =>
    unfold readLine
    refine (triple_awaitInput fuel).bind fun ready => ?_
    cases ready with
    | false => exact triple_finish fun cons fact => fact.1.1
    | true =>
      have taken : Triple duty (.proc p) (Holds (.proc p) fun cons =>
          (Orderly cons ∧ Mine (.proc p) id (target - (n + 1)) cons) ∧ (true = true → (cons.r == cons.w) = false))
            (look .take)
          fun c : UInt8 => Holds (.proc p) (Taken (.proc p) id (target - (n + 1)) c) :=
        triple_take.mono (fun _ _ knows => knows.imp fun cons w fact => ⟨fact.1, fact.2 rfl⟩) fun _ _ _ knows => knows
      rw [if_pos rfl]
      refine taken.bind fun c : UInt8 => ?_
      by_cases ends : c = endOfFile
      · subst ends
        rw [if_pos rfl]
        by_cases later : n + 1 < target
        · rw [if_pos later]
          exact triple_putBack.bind fun _ => triple_finish fun cons orderly => .inl ⟨later, orderly⟩
        · rw [if_neg later]
          have first : target - (n + 1) = 0 := by omega
          rw [first]
          exact triple_eof.bind fun _ => triple_finish fun cons ended => .inr ⟨by omega, ended⟩
      · rw [if_neg ends, if_pos (copies _ (by omega))]
        refine (triple_copyout ends).bind fun _ => ?_
        by_cases line : c = newline
        · rw [if_pos line]
          exact triple_finish fun cons fact => .inl ⟨by omega, fact.1⟩
        · rw [if_neg line]
          have next : target - (n + 1) + 1 = target - n := by omega
          refine (ih (by omega)).mono (fun _ _ knows => knows.imp fun cons w fact => ⟨fact.1, ?_⟩) fun _ _ _ knows =>
            knows
          rw [← next]
          exact fact.2 line

theorem triple_consoleread {m : ℤ} (fuel : ℕ) (some : 0 < m) (copies : ∀ i, i < m.toNat → dst i = true) :
    Triple duty (.proc p) (Outside (.proc p)) (consoleread p dst m fuel) fun _ => Outside (.proc p) := by
  unfold consoleread
  refine triple_locked.bind fun _ => triple_begins.bind fun id : ℕ => ?_
  have reads : Triple duty (.proc p) (Holds (.proc p) fun cons => Orderly cons ∧ Mine (.proc p) id 0 cons)
      (readLine p id dst m.toNat fuel m.toNat) fun left => Holds (.proc p) (Finished id m.toNat left) := by
    have start : Triple duty (.proc p) _ (readLine p id dst m.toNat fuel m.toNat) _ :=
      triple_readLine fuel le_rfl (by omega) copies
    rw [Nat.sub_self] at start
    exact start
  refine reads.bind fun left => ?_
  cases left with
  | none => exact (triple_returns (by decide)).bind fun _ => triple_unlocked.bind fun _ => triple_done
  | some left =>
    have returned : Triple duty (.proc p) (Holds (.proc p) (Finished id m.toNat (.some left)))
        (look (.returns id (m.toNat - left : ℕ))) fun _ => Holds (.proc p) Orderly := by
      rcases Nat.lt_or_ge left m.toNat with less | more
      · refine (triple_returns (by omega)).mono (fun _ _ knows => knows.imp fun cons w fact => ?_) fun _ _ _ knows =>
          knows
        exact fact.elim And.right fun wrong => absurd wrong.1 (by omega)
      · rw [Nat.sub_eq_zero_of_le more]
        refine triple_returns_zero.mono (fun _ _ knows => knows.imp fun cons w fact => ?_) fun _ _ _ knows => knows
        exact fact.elim (fun wrong => absurd wrong.1 (by omega)) And.right
    exact returned.bind fun _ => triple_unlocked.bind fun _ => triple_done

/-! ### consoleintr -/

theorem triple_typed : Triple duty t (Holds t (Edited (Editor.key · c)))
    (look (.typed c)) fun _ => Holds t Orderly := by
  refine triple_do fun cons always edited r cons' ran => ?_
  cases ran
  have ring := always.ring
  refine ⟨⟨⟨ring.r, ring.w, ring.e, ring.least, ring.most, ring.shows⟩, always.served.typed⟩,
    fun u _ id there => ⟨there, rfl⟩, ?_, edited.zeros⟩
  change cons.editor = Editor.run (cons.events ++ [.key c])
  rw [run_key]
  exact edited.editor

theorem triple_echo {x : ℕ} (blind : ∀ cons echoed, P cons → P { cons with echoed := echoed }) :
    Triple duty t (Holds t P) (look (.consputc x)) fun _ => Holds t P := by
  refine triple_do fun cons always fact r cons' ran => ?_
  cases ran
  have ring := always.ring
  have served := always.served
  exact ⟨⟨⟨ring.r, ring.w, ring.e, ring.least, ring.most, ring.shows⟩, served.known, served.delivered, served.count,
    served.part, served.whole⟩, fun u _ id there => ⟨there, rfl⟩, blind _ _ fact⟩

theorem triple_erase :
    Triple duty t (Holds t fun cons => Edited f cons ∧ cons.editor.line ≠ []) (look .erase) fun _ =>
      Holds t (Edited fun ed => (f ed).erase) := by
  refine triple_do fun cons always fact r cons' ran => ?_
  cases ran
  have served := always.served
  exact ⟨⟨always.ring.erase fact.2, served.known, served.delivered, served.count, served.part, served.whole⟩,
    fun u _ id there => ⟨there, rfl⟩, congrArg Editor.erase fact.1.editor, fact.1.zeros⟩

theorem blind_edited (cons : Cons) (echoed : List ℕ) (edited : Edited f cons) : Edited f
    { cons with echoed := echoed } :=
  ⟨edited.editor, edited.zeros⟩

/-- Whether there is something to erase. -/
theorem triple_erasable :
    Triple duty t (Holds t P) (look .erasable) fun b : Bool => Holds t fun cons => P cons ∧
      (b = true ↔ cons.editor.line ≠ []) := by
  refine triple_do fun cons always fact r cons' ran => ?_
  cases ran
  exact ⟨always, fun u _ => duty.view_refl u cons, fact, always.ring.erasable_iff⟩

/-- The line as ^U has left it so far. -/
def Killing (cons : Cons) : Prop := ∃ line, newline ∉ line ∧ Edited (fun ed => { ed with line := line }) cons

theorem triple_last :
    Triple duty t (Holds t fun cons => Killing cons ∧ cons.editor.line ≠ []) (look .last) fun x : UInt8 =>
      Holds t fun cons => (Killing cons ∧ cons.editor.line ≠ []) ∧ x ≠ newline := by
  refine triple_do fun cons always fact r cons' ran => ?_
  cases ran
  refine ⟨always, fun u _ => duty.view_refl u cons, fact, fun same => ?_⟩
  obtain ⟨⟨line, plain, edited⟩, some⟩ := fact
  have mem := always.ring.last_mem some
  rw [same, edited.editor] at mem
  exact plain mem

theorem triple_killLine (fuel : ℕ) : Triple duty t (Holds t Killing) (killLine fuel) fun _ => Holds t
    (Edited Editor.kill) := by
  induction fuel with
  | zero => exact triple_cut
  | succ fuel ih =>
    unfold killLine
    refine triple_erasable.bind fun b : Bool => ?_
    cases b with
    | false =>
      refine triple_finish fun cons fact => ?_
      obtain ⟨⟨line, plain, edited⟩, iff⟩ := fact
      have none : cons.editor.line = [] := by
        by_contra some
        exact Bool.false_ne_true (iff.mpr some)
      refine ⟨?_, edited.zeros⟩
      have same := edited.editor
      rw [same] at none
      rw [same]
      exact congrArg (fun line => ({ Editor.run cons.events with line := line } : Editor)) none
    | true =>
      rw [if_pos rfl]
      have last : Triple duty t (Holds t fun cons => Killing cons ∧ (true = true ↔ cons.editor.line ≠ [])) (look .last)
          fun x : UInt8 => Holds t fun cons => (Killing cons ∧ cons.editor.line ≠ []) ∧ x ≠ newline :=
        triple_last.mono (fun _ _ knows => knows.imp fun cons w fact => ⟨fact.1, fact.2.mp rfl⟩) fun _ _ _ knows =>
          knows
      refine last.bind fun x : UInt8 => ?_
      by_cases stop : x ≠ newline
      · rw [if_pos stop]
        have erased : Triple duty t (Holds t fun cons => (Killing cons ∧ cons.editor.line ≠ []) ∧ x ≠ newline)
          (look .erase)
            fun _ => Holds t Killing := by
          refine triple_do fun cons always fact r cons' ran => ?_
          cases ran
          obtain ⟨⟨⟨line, plain, edited⟩, some⟩, -⟩ := fact
          have served := always.served
          refine ⟨⟨always.ring.erase some, served.known, served.delivered, served.count, served.part, served.whole⟩,
            fun u _ id there => ⟨there, rfl⟩, line.dropLast, fun mem => plain (List.dropLast_subset _ mem), ?_,
            edited.zeros⟩
          exact congrArg Editor.erase edited.editor
        refine erased.bind fun _ => (triple_echo fun cons echoed fact => ?_).bind fun _ => ih
        obtain ⟨line, plain, edited⟩ := fact
        exact ⟨line, plain, blind_edited cons echoed edited⟩
      · rw [if_neg stop]
        exact triple_finish fun cons fact => absurd fact.2 stop

theorem triple_commitLine {Q : List Event → Prop} :
    Triple duty t (Holds t fun cons => Edited f cons ∧ Q cons.events) commitLine fun _ =>
      Holds t fun cons => Edited (fun ed => (f ed).commit) cons ∧ Q cons.events := by
  have commits : Triple duty t (Holds t fun cons => Edited f cons ∧ Q cons.events) (look .commit) fun _ =>
      Holds t fun cons => Edited (fun ed => (f ed).commit) cons ∧ Q cons.events := by
    refine triple_do fun cons always fact r cons' ran => ?_
    cases ran
    have served := always.served
    exact ⟨⟨always.ring.commit, served.known, served.delivered, served.count, served.part, served.whole⟩,
      fun u _ id there => ⟨there, rfl⟩, ⟨congrArg Editor.commit fact.1.editor, fact.1.zeros⟩, fact.2⟩
  exact commits.bind fun _ => (triple_wakeup robust_data.lasts).mono (fun _ _ knows => knows) fun _ _ _ knows =>
    knows.imp fun cons w fact => fact.1

theorem store_commit {ed : Editor} (room : ed.held < inputBuf) (ends : Editor.unreturned c = newline ∨
    Editor.unreturned c = endOfFile ∨ (ed.type (Editor.unreturned c)).held = inputBuf) :
    ed.store c = (ed.type (Editor.unreturned c)).commit := by
  rw [Editor.store, if_pos room]
  exact if_pos ends

theorem store_type {ed : Editor} (room : ed.held < inputBuf) (more : ¬ (Editor.unreturned c = newline ∨
    Editor.unreturned c = endOfFile ∨ (ed.type (Editor.unreturned c)).held = inputBuf)) :
    ed.store c = ed.type (Editor.unreturned c) := by
  rw [Editor.store, if_pos room]
  exact if_neg more

theorem triple_storeChar : Triple duty t (Holds t Orderly) (storeChar c) fun _ => Holds t
    (Edited (Editor.store · c)) := by
  unfold storeChar
  have room : Triple duty t (Holds t Orderly) (look .room) fun b : Bool => Holds t fun cons =>
      Orderly cons ∧ (b = true ↔ (Editor.run cons.events).held < inputBuf) := by
    refine triple_do fun cons always orderly r cons' ran => ?_
    cases ran
    refine ⟨always, fun u _ => duty.view_refl u cons, orderly, ?_⟩
    have editor : cons.editor = Editor.run cons.events := orderly.editor
    rw [decide_eq_true_iff, always.ring.held_eq, editor]
  refine room.bind fun b : Bool => ?_
  cases b with
  | false =>
    refine triple_finish fun cons fact => ⟨?_, fact.1.zeros⟩
    have full : ¬ (Editor.run cons.events).held < inputBuf := fun room => Bool.false_ne_true (fact.2.mpr room)
    rw [Editor.store, if_neg full]
    exact fact.1.editor
  | true =>
    rw [if_pos rfl]
    refine (triple_echo fun cons echoed fact => ⟨blind_edited cons echoed fact.1, fact.2⟩).bind fun _ => ?_
    have stores : Triple duty t (Holds t fun cons => Orderly cons ∧
      (true = true ↔ (Editor.run cons.events).held < inputBuf))
        (look (.store (Editor.unreturned c))) fun _ => Holds t fun cons =>
          Edited (Editor.type · (Editor.unreturned c)) cons ∧ (Editor.run cons.events).held < inputBuf := by
      refine triple_do fun cons always fact r cons' ran => ?_
      cases ran
      have editor : cons.editor = Editor.run cons.events := fact.1.editor
      have room := fact.2.mp rfl
      have served := always.served
      exact ⟨⟨always.ring.store (by rw [editor]; exact room), served.known, served.delivered, served.count, served.part,
        served.whole⟩, fun u _ id there => ⟨there, rfl⟩, ⟨congrArg (Editor.type · _) editor, fact.1.zeros⟩, room⟩
    refine stores.bind fun _ => ?_
    by_cases ends : Editor.unreturned c = newline ∨ Editor.unreturned c = endOfFile
    · rw [if_pos ends]
      refine (triple_commitLine (Q := fun events => (Editor.run events).held < inputBuf)).mono (fun _ _ knows => knows)
        fun _ _ _ knows => knows.imp fun cons w fact => ⟨?_, fact.1.zeros⟩
      rw [store_commit fact.2 (or_assoc.mp (.inl ends))]
      exact fact.1.editor
    · rw [if_neg ends]
      have full : Triple duty t (Holds t fun cons => Edited (Editor.type · (Editor.unreturned c)) cons ∧
          (Editor.run cons.events).held < inputBuf) (look .full) fun b : Bool => Holds t fun cons =>
            Edited (Editor.type · (Editor.unreturned c)) cons ∧ (Editor.run cons.events).held < inputBuf ∧
              (b = true ↔ ((Editor.run cons.events).type (Editor.unreturned c)).held = inputBuf) := by
        refine triple_do fun cons always fact r cons' ran => ?_
        cases ran
        refine ⟨always, fun u _ => duty.view_refl u cons, fact.1, fact.2, ?_⟩
        rw [← fact.1.editor]
        exact always.ring.full_iff
      refine full.bind fun b : Bool => ?_
      cases b with
      | false =>
        refine triple_finish fun cons fact => ⟨?_, fact.1.zeros⟩
        rw [store_type fact.2.1]
        · exact fact.1.editor
        · rintro (line | eof | last)
          · exact ends (.inl line)
          · exact ends (.inr eof)
          · exact Bool.false_ne_true (fact.2.2.mpr last)
      | true =>
        refine (triple_commitLine (Q := fun events => (Editor.run events).held < inputBuf ∧
          (true = true ↔ ((Editor.run events).type (Editor.unreturned c)).held = inputBuf))).mono
            (fun _ _ knows => knows)
          fun _ _ _ knows => knows.imp fun cons w fact => ⟨?_, fact.1.zeros⟩
        rw [store_commit fact.2.1 (.inr (.inr (fact.2.2.mp rfl)))]
        exact fact.1.editor

theorem triple_eraseChar : Triple duty t (Holds t Orderly) eraseChar fun _ => Holds t (Edited Editor.erase) := by
  unfold eraseChar
  refine triple_erasable.bind fun b : Bool => ?_
  cases b with
  | false =>
    refine triple_finish fun cons fact => ⟨?_, fact.1.zeros⟩
    have none : cons.editor.line = [] := by
      by_contra some
      exact Bool.false_ne_true (fact.2.mpr some)
    have editor : cons.editor = Editor.run cons.events := fact.1.editor
    rw [← editor, Editor.erase, none]
    exact congrArg (fun line => ({ cons.editor with line := line } : Editor)) none
  | true =>
    have erased : Triple duty t (Holds t fun cons => Orderly cons ∧ (true = true ↔ cons.editor.line ≠ [])) (look .erase)
        fun _ => Holds t (Edited Editor.erase) :=
      triple_erase.mono (fun _ _ knows => knows.imp fun cons w fact => ⟨fact.1, fact.2.mp rfl⟩) fun _ _ _ knows => knows
    exact erased.bind fun _ => triple_echo blind_edited

/-- What the `switch` does is what the editor does. -/
theorem triple_handleKey (fuel : ℕ) : Triple duty t (Holds t Orderly) (handleKey c fuel) fun _ => Holds t
    (Edited (Editor.key · c)) := by
  unfold handleKey
  have as (g : Editor → Editor) (same : ∀ ed : Editor, ed.key c = g ed) (cons : Cons) (edited : Edited g cons) :
      Edited (Editor.key · c) cons := ⟨edited.editor.trans (same _).symm, edited.zeros⟩
  by_cases print : c = control 'P'
  · rw [if_pos print]
    exact triple_finish (as (fun ed => ed) fun ed => by rw [Editor.key, if_pos print])
  rw [if_neg print]
  by_cases kill : c = control 'U'
  · rw [if_pos kill]
    refine (triple_killLine fuel).mono (fun _ _ knows => knows.imp fun cons w orderly => ?_) fun _ _ _ knows =>
      knows.imp fun cons w edited => as Editor.kill
        (fun ed => by rw [Editor.key, if_neg print, if_pos kill]) cons edited
    exact ⟨(Editor.run cons.events).line, newline_notMem_run, orderly.editor, orderly.zeros⟩
  rw [if_neg kill]
  by_cases erase : c = control 'H' ∨ c = delete
  · rw [if_pos erase]
    refine triple_eraseChar.mono (fun _ _ knows => knows) fun _ _ _ knows => knows.imp fun cons w edited => ?_
    exact as Editor.erase (fun ed => by rw [Editor.key, if_neg print, if_neg kill, if_pos erase]) cons edited
  rw [if_neg erase]
  by_cases some : c ≠ 0
  · rw [if_pos some]
    refine triple_storeChar.mono (fun _ _ knows => knows) fun _ _ _ knows => knows.imp fun cons w edited => ?_
    exact as (Editor.store · c) (fun ed => by rw [Editor.key, if_neg print, if_neg kill, if_neg erase, if_pos some])
      cons edited
  · rw [if_neg some]
    exact triple_finish
      (as (fun ed => ed) fun ed => by rw [Editor.key, if_neg print, if_neg kill, if_neg erase, if_neg some])

theorem triple_consoleintr (fuel : ℕ) : Triple duty t (Outside t) (consoleintr c fuel) fun _ => Outside t :=
  triple_locked.bind fun _ => (triple_handleKey fuel).bind fun _ => triple_typed.bind fun _ => triple_unlocked

/-! ### Runs -/

theorem menu_keeps : menu.Keeps duty fun _ _ => True where
  stable _ _ _ _ := id
  calls := by
    intro t k s offered inv idle
    have kept : Triple duty t (Outside t) (menu.body t k) fun _ => Outside t := by
      cases k with
      | consoleread dst n fuel =>
        cases t with
        | proc p =>
          obtain ⟨some, copies⟩ := (Bool.and_eq_true _ _).mp offered
          refine (triple_consoleread fuel (of_decide_eq_true some) fun i within => ?_).bind fun _ => triple_done
          exact List.all_eq_true.mp copies i (List.mem_range.mpr within)
        | intr i => cases offered
      | consoleintr c fuel => cases t <;> exact triple_consoleintr fuel
      | kill target => cases t <;> exact triple_kill target (Lasts.outside fun _ _ _ => id)
    exact kept s inv idle

theorem always_boot : Always {} where
  ring := ⟨rfl, rfl, rfl, le_rfl, Nat.zero_le _, fun _ _ _ there => by cases there⟩
  served := ⟨fun _ mem => (by cases mem), rfl, rfl, List.nil_prefix,
    fun _ => .inr ⟨List.not_mem_nil, fun _ mem => (by cases mem)⟩⟩

variable {s : Conf Thread (Act console) Monitor.Res (Monitor.State console)}

theorem kept_of_runs (run : menu.machine.Runs boot s) : s.Kept (terms duty) exec (Menu.Idle fun _ _ => True) :=
  menu_keeps.runs always_boot ⟨rfl, rfl⟩ (fun _ => trivial) run

/-- The characters that readers may take, and the line that is being typed, as they lie in the ring. -/
def Cons.unread (cons : Cons) : List UInt8 := window cell cons.buf cons.r (minus cons.w cons.r)

def Cons.editing (cons : Cons) : List UInt8 := window cell cons.buf cons.w (minus cons.e cons.w)

theorem cell_add (m i : ℕ) : cell (wrap m + i) = cell (m + i) := by
  apply Fin.ext
  simp only [cell, wrap, inputBuf]
  omega

theorem window_wrap (buf : Fin inputBuf → UInt8) (m n : ℕ) : window cell buf (wrap m) n = window cell buf m n :=
  List.map_congr_left fun i _ => by rw [cell_add]

theorem Ring.unread (ring : Ring cons) : cons.unread = cons.editor.committed.drop cons.editor.read := by
  have least := ring.least
  have most := ring.most
  have length := text_length cons.editor
  have count : minus cons.w cons.r = cons.editor.committed.length - cons.editor.read := by
    simp only [minus, ring.w, ring.r, wrap, inputBuf] at *
    omega
  have shows : Shows cell cons.buf cons.editor.committed cons.editor.read :=
    ring.shows.of_prefix (List.prefix_append ..)
  rw [Cons.unread, count, ring.r, window_wrap, shows.window_eq least]

theorem Ring.editing (ring : Ring cons) : cons.editing = cons.editor.line := by
  have least := ring.least
  have most := ring.most
  have length := text_length cons.editor
  have count : minus cons.e cons.w = cons.editor.text.length - cons.editor.committed.length := by
    simp only [minus, ring.w, ring.e, wrap, inputBuf] at *
    omega
  rw [Cons.editing, count, ring.w, window_wrap, (ring.shows.from_later least).window_eq (by omega)]
  exact List.drop_left ..

theorem ends_length (cons : Cons) : cons.ends.length = (cons.served.map Prod.snd).count endOfFile := by
  rw [Cons.ends, List.length_map, List.count_eq_countP, List.countP_map, List.countP_eq_length_filter]
  congr 1

/-- The indices are in order. What has been delivered, with what is left in the ring, is what the editor has
committed, without the ^Ds; no read goes on after an end of line or a ^D; and of the committed ^Ds, each that is not
left in the ring has made one read return 0, which has consumed nothing else. -/
theorem line_discipline (run : menu.machine.Runs boot s) :
    (minus s.shared.data.w s.shared.data.r ≤ minus s.shared.data.e s.shared.data.r ∧
      minus s.shared.data.e s.shared.data.r ≤ inputBuf) ∧
    s.shared.data.delivered <+: (Editor.run s.shared.data.events).committed.filter (· ≠ endOfFile) ∧
    (∀ id, Whole (seenBy id s.shared.data.served)) ∧
    (s.shared.owner .cond = none →
      s.shared.data.delivered ++ s.shared.data.unread.filter (· ≠ endOfFile) =
        (Editor.run s.shared.data.events).committed.filter (· ≠ endOfFile) ∧
      s.shared.data.editing = (Editor.run s.shared.data.events).line ∧
      s.shared.data.zeros = s.shared.data.ends ∧
      s.shared.data.zeros.length + s.shared.data.unread.count endOfFile =
        (Editor.run s.shared.data.events).committed.count endOfFile) := by
  have kept := kept_of_runs run
  have always : Always s.shared.data := kept.1.1
  have ring := always.ring
  have served := always.served
  have least := ring.least
  have most := ring.most
  have length := text_length s.shared.data.editor
  refine ⟨⟨?_, ?_⟩, ?_, served.whole, fun free => ?_⟩
  · simp only [minus, ring.r, ring.w, ring.e, wrap, inputBuf] at *
    omega
  · rw [ring.held_eq, Editor.held]
    omega
  · rw [served.delivered]
    exact served.part.filter _
  · have orderly : Orderly s.shared.data := kept.1.2.1 free
    have editor : s.shared.data.editor = Editor.run s.shared.data.events := orderly.editor
    rw [ring.unread, ring.editing, served.delivered, served.taken, editor, ← List.filter_append,
      List.take_append_drop, orderly.zeros, ends_length, served.taken, ← List.count_append, List.take_append_drop]
    exact ⟨rfl, rfl, rfl, rfl⟩

def acts (t : Thread) (n : ℕ) : List (Move Thread (Thread × Call)) := List.replicate n (.act t)

def types (c : UInt8) : Move Thread (Thread × Call) := .call (.intr 0) (.intr 0, .consoleintr c 1)

def reads (p : Slot) (n : ℤ) : Move Thread (Thread × Call) :=
  .call (.proc p) (.proc p, .consoleread (fun _ => true) n 1)

/-- A line and a ^D, and two reads. -/
def lineAndEnd : List (Move Thread (Thread × Call)) :=
  types 97 :: acts (.intr 0) 7 ++ types newline :: acts (.intr 0) 199 ++ types endOfFile :: acts (.intr 0) 199 ++
    reads 0 10 :: acts (.proc 0) 10 ++ reads 0 10 :: acts (.proc 0) 7

theorem line_discipline_two : ∃ c, menu.machine.Runs boot c ∧
    c.shared.data.delivered = [97, newline] ∧ c.shared.data.returned = [(0, 2), (1, 0)] ∧
    c.shared.data.delivered <+: (Editor.run c.shared.data.events).committed.filter (· ≠ endOfFile) ∧
    c.shared.data.zeros = c.shared.data.ends := by
  have found : ((menu.machine.play lineAndEnd boot).any fun c => decide (c.shared.owner .cond = none ∧
      c.shared.data.delivered = [97, newline] ∧ c.shared.data.returned = [(0, 2), (1, 0)])) = true := by
    decide +kernel
  obtain ⟨c, run, got⟩ := Machine.exists_of_play found
  obtain ⟨free, delivered, returned⟩ := of_decide_eq_true got
  have discipline := line_discipline run
  exact ⟨c, run, delivered, returned, discipline.2.1, (discipline.2.2.2 free).2.2.1⟩

end Xv6Labs.Console
