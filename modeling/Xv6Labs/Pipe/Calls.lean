import Xv6Labs.Monitor.Robust
import Xv6Labs.Pipe.Inv

/-!
# Every call keeps the pipe in order

While the lock is free, readers wait only on an empty pipe that may still be written, and writers only on a full one
that may still be read, unless a `pipewrite` has left readers behind.
-/

namespace Xv6Labs.Pipes

open Threads Prog Monitor
open Proc (Slot)

variable {pi pi' : Pipe} {w w' : Waits pipe} {id i : ℕ} {n : ℤ} {ch : UInt8} {src : ℕ → Option UInt8} {dst : ℕ → Bool}
  {t u : Thread} {p : Slot} {faults : Bool}

/-- Nobody waits for bytes who should not. -/
def Readers (pi : Pipe) (w : Waits pipe) : Prop :=
  pi.missed = false → ∀ q, w q = some Chan.nread → pi.empty = true ∧ pi.writeopen = true

def Writers (pi : Pipe) (w : Waits pipe) : Prop :=
  ∀ q, w q = some Chan.nwrite → pi.full = true ∧ pi.readopen = true

def Paid (faults : Bool) (pi : Pipe) : Prop := faults = false → pi.delivered = pi.taken

structure Orderly (faults : Bool) (pi : Pipe) (w : Waits pipe) : Prop where
  readers : Readers pi w
  writers : Writers pi w
  paid : Paid faults pi

/-- The calls of `t` are its own. -/
def Own (t : Thread) (pi pi' : Pipe) : Prop :=
  ∀ id k, pi.writes[id]? = some k → pi'.writes[id]? = some k ∧
    (k.caller = t → bytesOf id pi'.written = bytesOf id pi.written)

def duty (faults : Bool) : Duty pipe where
  always := Always faults
  inv := Orderly faults
  shrink := by
    intro pi w w' orderly sub
    exact ⟨fun fine q there => orderly.readers fine q (sub q _ there), fun q there => orderly.writers q (sub q _ there),
      orderly.paid⟩
  drift pi pi' := ∃ b, pi' = { pi with freed := b }
  drift_refl pi := ⟨pi.freed, rfl⟩
  drift_trans := by
    rintro pi _ _ ⟨b, rfl⟩ ⟨c, rfl⟩
    exact ⟨c, rfl⟩
  view := Own
  view_refl _ _ _ _ there := ⟨there, fun _ => rfl⟩
  view_trans := by
    intro t pi pi' pi'' own own' id k there
    obtain ⟨there', same⟩ := own id k there
    obtain ⟨there'', same'⟩ := own' id k there'
    exact ⟨there'', fun mine => (same' mine).trans (same mine)⟩
  drift_view := by
    rintro t pi _ ⟨b, rfl⟩ id k there
    exact ⟨there, fun _ => rfl⟩
  ok _ _ _ := True

/-- `kfree` leaves alone what does not look at `freed`. -/
theorem blind {P : Pipe → Prop} (freed : ∀ pi b, P pi → P { pi with freed := b }) :
    ∀ pi pi', (duty faults).drift pi pi' → P pi → P pi' := by
  rintro pi _ ⟨b, rfl⟩
  exact freed pi b

theorem robust_of_blind {A : Pipe → Waits pipe → Prop} (freed : ∀ pi b w, A pi w → A { pi with freed := b } w)
    (sub : ∀ pi w w', Sub w' w → A pi w → A pi w') : Robust (duty faults) A :=
  ⟨fun pi pi' w => blind (fun pi b => freed pi b w) pi pi', sub⟩

theorem Writers.sub (writers : Writers pi w) (sub : Sub w' w) : Writers pi w' :=
  fun q there => writers q (sub q _ there)

theorem Readers.sub (readers : Readers pi w) (sub : Sub w' w) : Readers pi w' :=
  fun fine q there => readers fine q (sub q _ there)

theorem robust_orderly : Robust (duty faults) (Orderly faults) :=
  robust_of_blind (fun _ _ _ fact => ⟨fact.readers, fact.writers, fact.paid⟩)
    fun _ _ _ sub fact => ⟨fact.readers.sub sub, fact.writers.sub sub, fact.paid⟩

theorem triple_look {A : Pipe → Waits pipe → Prop} (x : Op) (value : Pipe → Op.Res x)
    (looks : ∀ pi w, perform t x pi w = some (value pi, pi)) (freed : ∀ pi b, value { pi with freed := b } = value pi)
    (robust : Robust (duty faults) A) :
    Triple (duty faults) t (Knows t [.cond] A) (look x) fun r => Knows t [.cond] fun pi w => A pi w ∧ value pi = r := by
  refine triple_looks (O := pipe) x value looks (fun _ => trivial) ?_ robust
  rintro pi _ ⟨b, rfl⟩
  exact freed pi b

theorem triple_orElse {A : Pipe → Waits pipe → Prop} {b : Bool} (robust : Robust (duty faults) A) :
    Triple (duty faults) t (Knows t [.cond] A) (orElse b killed) fun gone => Knows t [.cond] fun pi w =>
      A pi w ∧ (gone = false → b = false) := by
  cases b with
  | true => exact Triple.pure (stable_knows robust.lasts) fun s _ knows =>
      ⟨knows.owns, knows.running, knows.fact, nofun⟩
  | false =>
    refine (triple_killed robust.lasts).mono (fun _ _ knows => knows) fun _ s _ knows => ?_
    exact ⟨knows.owns, knows.running, knows.fact, fun _ => rfl⟩

/-! ### pipewrite -/

/-- In the `for` of `pipewrite`. -/
structure Writing (faults : Bool) (t : Thread) (src : ℕ → Option UInt8) (n : ℤ) (id i : ℕ) (pi : Pipe)
    (w : Waits pipe) : Prop where
  stored : Stored t src n id i pi
  writers : Writers pi w
  paid : Paid faults pi

theorem robust_writing : Robust (duty faults) (Writing faults t src n id i) :=
  robust_of_blind (fun _ _ _ fact => ⟨⟨fact.stored.call, fact.stored.bytes⟩, fact.writers, fact.paid⟩)
    fun _ _ _ sub fact => ⟨fact.stored, fact.writers.sub sub, fact.paid⟩

theorem Stored.own (stored : Stored t src n id i pi) (own : Own t pi pi') : Stored t src n id i pi' := by
  obtain ⟨call, bytes⟩ := own id _ stored.call
  refine ⟨call, ?_⟩
  rw [bytes rfl]
  exact stored.bytes

theorem triple_begins : Triple (duty faults) t (Knows t [.cond] (Orderly faults)) (look (.begins src n)) fun id =>
    Knows t [.cond] (Writing faults t src n id 0) := by
  refine triple_op robust_orderly.lasts (fun _ => robust_writing.lasts) fun pi w always orderly =>
    ⟨trivial, fun r pi' ran => ?_⟩
  cases ran
  refine ⟨⟨⟨always.counts.nread, always.counts.nwrite, always.counts.least, always.counts.most⟩,
    ⟨always.fifo.taken, always.fifo.ring⟩, always.sources.begin, fun good => ?_⟩,
    fun u _ id k there => ⟨?_, fun _ => rfl⟩, always.sources.begins, orderly.writers, orderly.paid⟩
  · exact ⟨(always.delivered good).bytes, (always.delivered good).zero⟩
  · have within := (List.getElem?_eq_some_iff.mp there).1
    change (pi.writes ++ _)[id]? = some k
    rw [List.getElem?_append_left within]
    exact there

theorem triple_store (found : src i = some ch) (within : i < n.toNat) :
    Triple (duty faults) t (Knows t [.cond] fun pi w => Writing faults t src n id i pi w ∧ pi.full = false)
      (look (.store id ch)) fun _ => Knows t [.cond] (Writing faults t src n id (i + 1)) := by
  refine triple_op (robust_writing.and (blind fun _ _ room => room)).lasts
    (fun _ => robust_writing.lasts) fun pi w always fact =>
    ⟨trivial, fun r pi' ran => ?_⟩
  cases ran
  obtain ⟨writing, room⟩ := fact
  refine ⟨⟨always.counts.store room, always.fifo.store always.counts room,
    always.sources.store writing.stored found within,
    fun good => ⟨(always.delivered good).bytes, (always.delivered good).zero⟩⟩,
    fun u other id' k there => ⟨there, fun mine => ?_⟩, writing.stored.store found, fun q there => ?_, writing.paid⟩
  · rw [bytesOf_store, if_neg, List.append_nil]
    rintro rfl
    cases writing.stored.call.symm.trans there
    exact other mine.symm
  · exact nomatch room.symm.trans (writing.writers q there).1

/-- The sleep of a writer, on a full pipe. -/
theorem triple_sleepFull :
    Triple (duty faults) (.proc p) (Knows (.proc p) [.cond] fun pi w =>
        (Writing faults (.proc p) src n id i pi w ∧ pi.full = true ∧ pi.readopen = true) ∧ ∀ q, w q ≠ some Chan.nread)
      (sleep (O := pipe) p Chan.nwrite) fun _ => Knows (.proc p) [.cond] (Writing faults (.proc p) src n id i) := by
  have stable (pi pi' : Pipe) (view : (duty faults).view (.proc p) pi pi') (stored : Stored (.proc p) src n id i pi) :
      Stored (.proc p) src n id i pi' := stored.own view
  refine triple_rest stable (robust_writing.and (blind fun _ _ fact => fact)).awake robust_writing ?_
    (fun _ _ fact => fact.1.1.stored) fun _ _ _ orderly stored => ⟨stored, orderly.writers, orderly.paid⟩
  rintro pi w - ⟨⟨writing, full, readopen⟩, awake⟩
  refine ⟨fun _ q there => ?_, fun q there => ⟨full, readopen⟩, writing.paid⟩
  by_cases same : q = p
  · subst same
    rw [Function.update_self] at there
    cases there
  · rw [Function.update_of_ne same] at there
    exact absurd there (awake q)

theorem triple_awaitRoom (fuel : ℕ) :
    Triple (duty faults) (.proc p) (Knows (.proc p) [.cond] (Writing faults (.proc p) src n id i)) (awaitRoom p fuel)
      fun room => Knows (.proc p) [.cond] fun pi w => Writing faults (.proc p) src n id i pi w ∧
        (room = true → pi.full = false) := by
  induction fuel with
  | zero => exact triple_cut
  | succ fuel ih =>
    unfold awaitRoom
    refine (triple_look .full Pipe.full (fun _ _ => rfl) (fun _ _ => rfl) robust_writing).bind fun full => ?_
    have writing : Robust (duty faults) fun pi w => Writing faults (.proc p) src n id i pi w ∧ pi.full = full :=
      robust_writing.and (blind fun _ _ fact => fact)
    cases full with
    | false =>
      refine Triple.pure (stable_knows writing.lasts) fun s _ knows => ?_
      exact ⟨knows.owns, knows.running, knows.fact.1, fun _ => knows.fact.2⟩
    | true =>
      refine (triple_look .readopen Pipe.readopen (fun _ _ => rfl) (fun _ _ => rfl) writing).bind fun readopen => ?_
      have writing' := writing.and (P := fun pi : Pipe => pi.readopen = readopen) (blind fun _ _ fact => fact)
      refine (triple_orElse writing').bind fun gone => ?_
      cases gone with
      | true =>
        refine Triple.pure (stable_knows (writing'.and (blind fun _ _ fact => fact)).lasts) fun s _ knows => ?_
        exact ⟨knows.owns, knows.running, knows.fact.1.1.1, nofun⟩
      | false =>
        have open' : Robust (duty faults) fun pi w => Writing faults (.proc p) src n id i pi w ∧ pi.full = true ∧
          pi.readopen = true :=
          robust_writing.and (blind fun _ _ fact => fact)
        refine ((triple_wakeup open'.lasts).mono (fun s _ knows => ?_) fun _ _ _ knows => knows).bind fun _ =>
          triple_sleepFull.bind fun _ => ih
        obtain ⟨⟨⟨now, full⟩, same⟩, not⟩ := knows.fact
        cases readopen with
        | true => exact ⟨knows.owns, knows.running, now, full, same⟩
        | false => exact nomatch not rfl

theorem triple_storeAll (fuel left : ℕ) (within : i + left ≤ n.toNat) :
    Triple (duty faults) (.proc p) (Knows (.proc p) [.cond] (Writing faults (.proc p) src n id i))
      (storeAll p id src fuel left i) fun _ => Knows (.proc p) [.cond] fun pi w => Writers pi w ∧ Paid faults pi := by
  have done : Robust (duty faults) fun pi w => Writers pi w ∧ Paid faults pi :=
    robust_of_blind (fun _ _ _ fact => fact) fun _ _ _ sub fact => ⟨fact.1.sub sub, fact.2⟩
  have leave (room : Bool) (i : ℕ) (r : Option ℕ) : Triple (duty faults) (.proc p) (Knows (.proc p) [.cond] fun pi w =>
      Writing faults (.proc p) src n id i pi w ∧ (room = true → pi.full = false)) (pure r) fun _ =>
        Knows (.proc p) [.cond] fun pi w => Writers pi w ∧ Paid faults pi :=
    Triple.pure (stable_knows (robust_writing.and (blind fun _ _ fact => fact)).lasts) fun s _ knows =>
      ⟨knows.owns, knows.running, knows.fact.1.writers, knows.fact.1.paid⟩
  induction left generalizing i with
  | zero => exact Triple.pure (stable_knows robust_writing.lasts) fun s _ knows =>
      ⟨knows.owns, knows.running, knows.fact.writers, knows.fact.paid⟩
  | succ left ih =>
    unfold storeAll
    refine (triple_awaitRoom fuel).bind fun room => ?_
    cases room with
    | false => exact leave false i none
    | true =>
      cases found : src i with
      | none => exact leave true i (some i)
      | some ch =>
        refine ((triple_store found (by omega)).mono (fun s _ knows => ?_) fun _ _ _ knows => knows).bind fun _ =>
          ih (by omega)
        exact ⟨knows.owns, knows.running, knows.fact.1, knows.fact.2 rfl⟩

/-- The history of who has read what, and the two flags, have no part in the ring. -/
theorem Always.with_flags (always : Always faults pi) {readopen writeopen freed missed : Bool} :
    Always faults { pi with readopen := readopen, writeopen := writeopen, freed := freed, missed := missed } where
  counts := ⟨always.counts.nread, always.counts.nwrite, always.counts.least, always.counts.most⟩
  fifo := ⟨always.fifo.taken, always.fifo.ring⟩
  sources := ⟨always.sources.known, fun id k there => by
    obtain ⟨i, most, stored⟩ := always.sources.part id k there
    exact ⟨i, most, stored.call, stored.bytes⟩⟩
  delivered good := ⟨(always.delivered good).bytes, (always.delivered good).zero⟩

theorem triple_locked : Triple (duty faults) t (Outside t) (acquire .cond) fun _ => Knows t [.cond] (Orderly faults) :=
  triple_enter robust_orderly fun _ _ _ orderly => orderly

theorem triple_unlocked : Triple (duty faults) t (Knows t [.cond] (Orderly faults))
    (release .cond) fun _ => Outside t :=
  triple_leave robust_orderly fun _ _ _ orderly => orderly

/-- A `pipewrite` that leaves early has to answer for the readers that wait. -/
theorem triple_leaves : Triple (duty faults) t (Knows t [.cond] fun pi w => Writers pi w ∧ Paid faults pi)
    (look .leaves)
    fun _ => Knows t [.cond] (Orderly faults) := by
  have robust : Robust (duty faults) fun pi w => Writers pi w ∧ Paid faults pi :=
    robust_of_blind (fun _ _ _ fact => fact) fun _ _ _ sub fact => ⟨fact.1.sub sub, fact.2⟩
  refine triple_op robust.lasts (fun _ => robust_orderly.lasts) fun pi w always fact => ⟨trivial, fun r pi' ran => ?_⟩
  cases ran
  refine ⟨always.with_flags, fun u _ id k there => ⟨there, fun _ => rfl⟩, fun fine q there => ?_, fact.1, fact.2⟩
  exact absurd ⟨q, there⟩ (of_decide_eq_false (Bool.or_eq_false_iff.mp fine).2)

theorem triple_pipewrite (fuel : ℕ) :
    Triple (duty faults) (.proc p) (Outside (.proc p)) (pipewrite p src n fuel) fun _ => Outside (.proc p) := by
  have robust : Robust (duty faults) fun pi w => Writers pi w ∧ Paid faults pi :=
    robust_of_blind (fun _ _ _ fact => fact) fun _ _ _ sub fact => ⟨fact.1.sub sub, fact.2⟩
  unfold pipewrite
  refine triple_locked.bind fun _ => triple_begins.bind fun id =>
    (triple_storeAll fuel n.toNat (by simp)).bind fun i => ?_
  cases i with
  | none => exact triple_leaves.bind fun _ => triple_unlocked.bind fun _ => triple_done
  | some i =>
    refine ((triple_wakeup robust.lasts).mono (fun _ _ knows => knows) fun _ s _ knows => ?_).bind fun _ =>
      triple_unlocked.bind fun _ => triple_done
    exact ⟨knows.owns, knows.running, fun _ q there => absurd there (knows.fact.2 q), knows.fact.1.1, knows.fact.1.2⟩

/-! ### piperead -/

/-- The sleep of a reader, on an empty pipe. -/
theorem triple_sleepEmpty :
    Triple (duty faults) (.proc p)
      (Knows (.proc p) [.cond] fun pi w => Orderly faults pi w ∧ pi.empty = true ∧ pi.writeopen = true)
      (sleep (O := pipe) p Chan.nread) fun _ => Knows (.proc p) [.cond] (Orderly faults) := by
  refine triple_rest (V := fun _ => True) (fun _ _ _ => id)
    (robust_orderly.and (blind fun _ _ fact => fact)) robust_orderly ?_
    (fun _ _ _ => trivial) fun _ _ _ orderly _ => orderly
  rintro pi w - ⟨orderly, empty, writeopen⟩
  refine ⟨fun _ _ _ => ⟨empty, writeopen⟩, fun q there => ?_, orderly.paid⟩
  by_cases same : q = p
  · subst same
    rw [Function.update_self] at there
    cases there
  · rw [Function.update_of_ne same] at there
    exact orderly.writers q there

theorem triple_andThen {A : Pipe → Waits pipe → Prop} {b : Bool} (robust : Robust (duty faults) A) :
    Triple (duty faults) t (Knows t [.cond] A) (andThen b (look .writeopen)) fun r => Knows t [.cond] fun pi w =>
      A pi w ∧ r = (b && pi.writeopen) := by
  have robust' (r : Bool) : Robust (duty faults) fun pi w => A pi w ∧ r = (b && pi.writeopen) :=
    robust.and (blind fun _ _ fact => fact)
  cases b with
  | false => exact Triple.pure (stable_knows robust.lasts) fun s _ knows => ⟨knows.owns, knows.running, knows.fact, rfl⟩
  | true =>
    refine (triple_look .writeopen Pipe.writeopen (fun _ _ => rfl) (fun _ _ => rfl) robust).mono
      (fun _ _ knows => knows) ?_
    exact fun r s _ knows => ⟨knows.owns, knows.running, knows.fact.1, knows.fact.2.symm⟩

theorem triple_awaitData (fuel : ℕ) :
    Triple (duty faults) (.proc p) (Knows (.proc p) [.cond] (Orderly faults)) (awaitData p fuel)
      fun ready => Knows (.proc p) [.cond] fun pi w =>
        Orderly faults pi w ∧ (ready = true → pi.empty = true → pi.writeopen = false) := by
  induction fuel with
  | zero => exact triple_cut
  | succ fuel ih =>
    unfold awaitData
    refine (triple_look .empty Pipe.empty (fun _ _ => rfl) (fun _ _ => rfl) robust_orderly).bind fun empty => ?_
    have emptied : Robust (duty faults) fun pi w => Orderly faults pi w ∧ pi.empty = empty :=
      robust_orderly.and (blind fun _ _ fact => fact)
    refine (triple_andThen emptied).bind fun idle => ?_
    have waiting := emptied.and (P := fun pi : Pipe => idle = (empty && pi.writeopen)) (blind fun _ _ fact => fact)
    cases idle with
    | false =>
      refine Triple.pure (stable_knows waiting.lasts) fun s _ knows =>
        ⟨knows.owns, knows.running, knows.fact.1.1, fun _ now => ?_⟩
      obtain ⟨⟨-, same⟩, idle⟩ := knows.fact
      rw [← same, now] at idle
      exact idle.symm
    | true =>
      refine (triple_killed waiting.lasts).bind fun dead => ?_
      cases dead with
      | true => exact Triple.pure (stable_knows waiting.lasts) fun s _ knows =>
          ⟨knows.owns, knows.running, knows.fact.1.1, nofun⟩
      | false =>
        refine (triple_sleepEmpty.mono (fun s _ knows => ?_) fun _ _ _ knows => knows).bind fun _ => ih
        obtain ⟨⟨orderly, same⟩, both⟩ := knows.fact
        obtain ⟨now, writeopen⟩ := (Bool.and_eq_true _ _).mp both.symm
        exact ⟨knows.owns, knows.running, orderly, same.trans now, writeopen⟩

/-- In the `for` of `piperead`. -/
structure Reading (faults : Bool) (bytes : List UInt8) (pi : Pipe) (w : Waits pipe) : Prop where
  readers : Readers pi w
  paid : faults = false → pi.delivered ++ bytes = pi.taken

theorem robust_reading {bytes : List UInt8} : Robust (duty faults) (Reading faults bytes) :=
  robust_of_blind (fun _ _ _ fact => ⟨fact.readers, fact.paid⟩) fun _ _ _ sub fact => ⟨fact.readers.sub sub, fact.paid⟩

theorem triple_take (bytes : List UInt8) :
    Triple (duty faults) t (Knows t [.cond] fun pi w => Reading faults bytes pi w ∧ pi.empty = false) (look .take)
      fun ch : UInt8 => Knows t [.cond] (Reading faults (bytes ++ [ch])) := by
  refine triple_op (robust_reading.and (blind fun _ _ fact => fact)).lasts
    (fun _ => robust_reading.lasts) fun pi w always fact =>
    ⟨trivial, fun r pi' ran => ?_⟩
  cases ran
  obtain ⟨reading, some⟩ := fact
  refine ⟨⟨always.counts.take some, always.fifo.take always.counts some, ?_, fun good => ?_⟩,
    fun u _ id k there => ⟨there, fun _ => rfl⟩, fun fine q there => ?_, fun good => ?_⟩
  · refine ⟨always.sources.known, fun id k there => ?_⟩
    obtain ⟨i, most, stored⟩ := always.sources.part id k there
    exact ⟨i, most, stored.call, stored.bytes⟩
  · exact ⟨(always.delivered good).bytes.trans (List.prefix_append ..), (always.delivered good).zero⟩
  · exact nomatch some.symm.trans (reading.readers fine q there).1
  · change pi.delivered ++ (bytes ++ [_]) = pi.taken ++ [_]
    rw [← List.append_assoc, reading.paid good]

/-- What `piperead` has when it is done: with nothing read of a positive `n`, the pipe is at its end. -/
def AtEnd (faults : Bool) (n : ℤ) (bytes : List UInt8) (pi : Pipe) : Prop :=
  faults = false → bytes = [] → 0 < n → pi.empty = true ∧ pi.writeopen = false

theorem triple_takeAll (left : ℕ) {bytes : List UInt8} (count : bytes.length + left = n.toNat)
    (copies : faults = false → ∀ i, i < n.toNat → dst i = true) :
    Triple (duty faults) t (Knows t [.cond] fun pi w =>
        Reading faults bytes pi w ∧ (bytes = [] → pi.empty = true → pi.writeopen = false))
      (takeAll dst left bytes) fun bytes' => Knows t [.cond] fun pi w => Reading faults bytes' pi w ∧
        AtEnd faults n bytes' pi := by
  have entered (bytes : List UInt8) : Robust (duty faults) fun pi w =>
      Reading faults bytes pi w ∧ (bytes = [] → pi.empty = true → pi.writeopen = false) :=
    robust_reading.and (blind fun _ _ fact => fact)
  induction left generalizing bytes with
  | zero =>
    refine Triple.pure (stable_knows (entered bytes).lasts) fun s _ knows =>
      ⟨knows.owns, knows.running, knows.fact.1, ?_⟩
    rintro - rfl positive
    simp only [List.length_nil, Nat.add_zero] at count
    omega
  | succ left ih =>
    unfold takeAll
    refine (triple_look .empty Pipe.empty (fun _ _ => rfl) (fun _ _ => rfl) (entered bytes)).bind fun empty => ?_
    have looked := (entered bytes).and (P := fun pi : Pipe => pi.empty = empty) (blind fun _ _ fact => fact)
    cases empty with
    | true =>
      refine Triple.pure (stable_knows looked.lasts) fun s _ knows => ⟨knows.owns, knows.running, knows.fact.1.1, ?_⟩
      exact fun _ nothing _ => ⟨knows.fact.2, knows.fact.1.2 nothing knows.fact.2⟩
    | false =>
      refine ((triple_take bytes).mono (fun s _ knows => ?_) fun _ _ _ knows => knows).bind fun ch : UInt8 => ?_
      · exact ⟨knows.owns, knows.running, knows.fact.1.1, knows.fact.2⟩
      cases copied : dst bytes.length with
      | true =>
        have next : (bytes ++ [ch]).length + left = n.toNat := by
          simp only [List.length_append, List.length_singleton]
          omega
        refine (ih next).mono (fun s _ knows => ⟨knows.owns, knows.running, knows.fact, ?_⟩) fun _ _ _ knows => knows
        exact fun nothing => absurd nothing (by simp)
      | false =>
        have faulty : faults ≠ false := by
          intro good
          exact nomatch copied.symm.trans (copies good bytes.length (by omega))
        refine Triple.pure (stable_knows robust_reading.lasts) fun s _ knows => ⟨knows.owns, knows.running, ?_⟩
        exact ⟨⟨knows.fact.readers, fun good => absurd good faulty⟩, fun good => absurd good faulty⟩

/-- A read is over: the next one starts from what has been taken. -/
theorem triple_returns {result : ℤ} {bytes : List UInt8} {A : Pipe → Waits pipe → Prop}
    (robust : Robust (duty faults) A)
    (orderly : ∀ pi w, A pi w → Readers pi w ∧ Writers pi w ∧ (faults = false → pi.delivered ++ bytes = pi.taken))
    (zero : ∀ pi w, A pi w → faults = false → 0 < n → result = 0 → pi.empty = true ∧ pi.writeopen = false) :
    Triple (duty faults) t (Knows t [.cond] A) (look (.returns n result bytes)) fun _ =>
      Knows t [.cond] (Orderly faults) := by
  refine triple_op robust.lasts (fun _ => robust_orderly.lasts) fun pi w always fact => ⟨trivial, fun r pi' ran => ?_⟩
  cases ran
  obtain ⟨readers, writers, paid⟩ := orderly pi w fact
  have delivered : (pi.returns n result bytes).delivered = pi.delivered ++ bytes := by
    simp [Pipe.delivered, Pipe.returns]
  refine ⟨⟨⟨always.counts.nread, always.counts.nwrite, always.counts.least, always.counts.most⟩,
    ⟨always.fifo.taken, always.fifo.ring⟩, ⟨always.sources.known, fun id k there => ?_⟩,
    fun good => ⟨?_, fun r mem => ?_⟩⟩,
    fun u _ id k there => ⟨there, fun _ => rfl⟩, readers, writers, fun good => delivered.trans (paid good)⟩
  · obtain ⟨i, most, stored⟩ := always.sources.part id k there
    exact ⟨i, most, stored.call, stored.bytes⟩
  · rw [delivered, paid good]
    exact List.prefix_rfl
  · rcases List.mem_append.mp mem with mem | mem
    · exact (always.delivered good).zero r mem
    · cases List.mem_singleton.mp mem
      exact zero pi w fact good

theorem triple_piperead (fuel : ℕ) (copies : faults = false → ∀ i, i < n.toNat → dst i = true) :
    Triple (duty faults) (.proc p) (Outside (.proc p)) (piperead p dst n fuel) fun _ => Outside (.proc p) := by
  have orderly : Robust (duty faults) (Orderly faults) := robust_orderly
  unfold piperead
  refine triple_locked.bind fun _ => (triple_awaitData fuel).bind fun ready => ?_
  cases ready with
  | false =>
    refine ((triple_returns orderly ?_ ?_).mono (fun s _ knows => ?_) fun _ _ _ knows => knows).bind fun _ =>
      triple_unlocked.bind fun _ => triple_done
    · exact fun pi w orderly => ⟨orderly.readers, orderly.writers,
        fun good => by rw [List.append_nil, orderly.paid good]⟩
    · exact fun _ _ _ _ _ zero => absurd zero (by decide)
    · exact ⟨knows.owns, knows.running, knows.fact.1⟩
  | true =>
    refine ((triple_takeAll n.toNat (by simp) copies).mono (fun s _ knows => ?_) fun _ _ _ knows => knows).bind
      fun bytes => ?_
    · exact ⟨knows.owns, knows.running,
        ⟨knows.fact.1.readers, fun good => by rw [List.append_nil, knows.fact.1.paid good]⟩, fun _ => knows.fact.2 rfl⟩
    have ended : Robust (duty faults) fun pi w => Reading faults bytes pi w ∧ AtEnd faults n bytes pi :=
      robust_reading.and (blind fun _ _ fact => fact)
    refine (triple_wakeup ended.lasts).bind fun _ => (triple_returns ended.awake ?_ ?_).bind fun _ =>
      triple_unlocked.bind fun _ => triple_done
    · exact fun pi w fact => ⟨fact.1.1.readers, fun q there => absurd there (fact.2 q), fact.1.1.paid⟩
    · intro pi w fact good positive zero
      exact fact.1.2 good (List.length_eq_zero_iff.mp (Int.natCast_eq_zero.mp zero)) positive

/-! ### pipeclose -/

theorem triple_close {writable : Bool} :
    Triple (duty faults) t (Knows t [.cond] (Orderly faults)) (look (.close writable)) fun _ =>
      Knows t [.cond] fun pi w =>
      (if writable then Writers pi w else Readers pi w) ∧ Paid faults pi := by
  have robust : Robust (duty faults) fun pi w => (if writable then Writers pi w else Readers pi w) ∧
      Paid faults pi := by
    refine robust_of_blind (fun _ _ _ fact => fact) fun pi w w' sub fact => ⟨?_, fact.2⟩
    cases writable with
    | true => exact Writers.sub fact.1 sub
    | false => exact Readers.sub fact.1 sub
  refine triple_op robust_orderly.lasts (fun _ => robust.lasts) fun pi w always orderly =>
    ⟨trivial, fun r pi' ran => ?_⟩
  cases ran
  cases writable with
  | true => exact ⟨always.with_flags, fun u _ id k there => ⟨there, fun _ => rfl⟩, orderly.writers, orderly.paid⟩
  | false => exact ⟨always.with_flags, fun u _ id k there => ⟨there, fun _ => rfl⟩, orderly.readers, orderly.paid⟩

theorem triple_kfree : Triple (duty faults) t (Outside t) (look .kfree) fun _ => Outside t := by
  have kfree : Triple (duty faults) t (Knows t [] fun _ _ => True) (op (O := pipe) Op.kfree) fun _ =>
      Knows t [] fun _ _ => True := by
    refine triple_drift (fun _ _ _ => id) (fun _ => (fun _ _ _ => id)) fun pi w always _ =>
      ⟨trivial, fun r pi' ran => ?_⟩
    cases ran
    exact ⟨always.with_flags, ⟨true, rfl⟩, robust_orderly.drift _ _ _ ⟨true, rfl⟩, trivial⟩
  exact kfree

theorem triple_pipeclose {writable : Bool} :
    Triple (duty faults) t (Outside t) (pipeclose writable) fun _ => Outside t := by
  have closed : Robust (duty faults) fun pi w => (if writable then Writers pi w else Readers pi w) ∧
      Paid faults pi := by
    refine robust_of_blind (fun _ _ _ fact => fact) fun pi w w' sub fact => ⟨?_, fact.2⟩
    cases writable with
    | true => exact Writers.sub fact.1 sub
    | false => exact Readers.sub fact.1 sub
  have orderly : Robust (duty faults) (Orderly faults) := robust_orderly
  unfold pipeclose
  refine triple_locked.bind fun _ => triple_close.bind fun _ =>
    ((triple_wakeup closed.lasts).mono (fun _ _ knows => knows)
    fun _ s _ knows => ?_).bind fun _ => (triple_look .closed _ (fun _ _ => rfl) (fun _ _ => rfl) orderly).bind
      fun closed : Bool => ?_
  · refine ⟨knows.owns, knows.running, ?_⟩
    obtain ⟨⟨kept, paid⟩, awake⟩ := knows.fact
    cases writable with
    | true => exact ⟨fun _ q there => absurd there (awake q), kept, paid⟩
    | false => exact ⟨kept, fun q there => absurd there (awake q), paid⟩
  · refine (triple_unlocked.mono (fun s _ knows => ⟨knows.owns, knows.running, knows.fact.1⟩) fun _ _ _ there =>
      there).bind fun _ => ?_
    cases closed with
    | true => exact triple_kfree
    | false => exact triple_done

/-! ### Runs -/

theorem menu_keeps : (menu faults).Keeps (duty faults) fun _ _ => True where
  stable _ _ _ _ := id
  calls := by
    intro t k s offered inv idle
    cases t with
    | intr n => cases offered
    | proc p =>
      suffices kept : Triple (duty faults) (.proc p) (Outside (.proc p)) (k.body p) fun _ => Outside (.proc p) from
        kept s inv idle
      obtain ⟨-, copies⟩ := (Bool.and_eq_true _ _).mp offered
      have done (r : ℤ) : Triple (duty faults) (.proc p) (Outside (.proc p)) (pure ()) fun _ => Outside (.proc p) :=
        triple_done
      cases k with
      | pipewrite src n fuel => exact (triple_pipewrite fuel).bind done
      | piperead dst n fuel =>
        refine (triple_piperead fuel ?_).bind done
        rintro rfl i within
        exact List.all_eq_true.mp copies i (List.mem_range.mpr within)
      | pipeclose writable => exact triple_pipeclose
      | kill target => exact triple_kill target (Lasts.outside (fun _ _ _ => id))

theorem always_boot : Always faults {} where
  counts := ⟨rfl, rfl, le_rfl, Nat.zero_le _⟩
  fifo := ⟨List.nil_prefix, fun _ _ _ there => nomatch there⟩
  sources := ⟨(fun _ mem => nomatch mem), (fun _ _ there => nomatch there)⟩
  delivered _ := ⟨List.nil_prefix, fun _ mem => nomatch mem⟩

theorem orderly_boot : Orderly faults {} fun _ => none :=
  ⟨(fun _ _ there => nomatch there), (fun _ there => nomatch there), fun _ => rfl⟩

/-- In every run, every thread is about to do what it may. -/
theorem kept_of_runs {c : Conf Thread (Act pipe) Monitor.Res (Monitor.State pipe)}
    (run : (menu faults).machine.Runs boot c) : c.Kept (terms (duty faults)) exec (Menu.Idle fun _ _ => True) :=
  menu_keeps.runs always_boot orderly_boot (fun _ => trivial) run

end Xv6Labs.Pipes
