import Xv6Labs.Lib.Among
import Xv6Labs.Pipe.Inv

/-!
# Transfers that fault

A call of `pipewrite` or `piperead` among other threads, which leave the pipe alone while the call has its lock.
`pipewrite` copies a byte in before it stores it, and reports exactly what it has stored. `piperead` takes a byte out
of the ring before it copies it out: a byte whose copy fails is lost.
-/

namespace Xv6Labs.Pipes

open Threads Prog Monitor
open Proc (Slot)

abbrev PipeEvent : Type := Event (Act pipe) Monitor.Res

/-- The counters are values of `uint`. -/
def Uint (pi : Pipe) : Prop := pi.nread < 2 ^ 32 ∧ pi.nwrite < 2 ^ 32

/-- What other threads may do. -/
structure Others (t : Thread) (s s' : Monitor.State pipe) : Prop where
  held : s.owner .cond = some t → s'.owner .cond = some t ∧ s'.data = s.data
  uint : Uint s.data → Uint s'.data

abbrev Ran {α : Type} (t : Thread) (p : Code pipe α) (s : Monitor.State pipe) (es : List PipeEvent) (a : α)
    (s' : Monitor.State pipe) : Prop :=
  Among (Others t) (Monitor.exec t) p s es a s'

def storedBy (es : List PipeEvent) : List UInt8 :=
  es.filterMap fun e => match e.1 with
    | .op (.store _ ch) => some ch
    | _ => none

def takenBy (es : List PipeEvent) : List UInt8 :=
  es.filterMap fun
    | ⟨.op .take, ch⟩ => some ch
    | _ => none

/-- The bytes that a `piperead` has copied out. -/
def copiedBy (es : List PipeEvent) : List UInt8 :=
  (es.map fun e => match e.1 with
    | .op (.returns _ _ bytes) => bytes
    | _ => []).flatten

variable {t : Thread} {p : Slot} {s s' : Monitor.State pipe} {es es' : List PipeEvent} {src : ℕ → Option UInt8}
  {dst : ℕ → Bool} {fuel left i : ℕ} {bytes : List UInt8} {pi : Pipe}

theorem storedBy_append : storedBy (es ++ es') = storedBy es ++ storedBy es' := List.filterMap_append ..

theorem takenBy_append : takenBy (es ++ es') = takenBy es ++ takenBy es' := List.filterMap_append ..

theorem copiedBy_append : copiedBy (es ++ es') = copiedBy es ++ copiedBy es' := by simp [copiedBy]

/-- An action that moves no byte of the pipe. -/
def Silent : Act pipe → Prop
  | .op (.store _ _) | .op .take | .op (.returns _ _ _) => False
  | _ => True

theorem silent_events (silent : ∀ e ∈ es, Silent e.1) : storedBy es = [] ∧ takenBy es = [] ∧ copiedBy es = [] := by
  refine ⟨List.filterMap_eq_nil_iff.mpr fun e mem => ?_, List.filterMap_eq_nil_iff.mpr fun e mem => ?_,
    List.flatten_eq_nil_iff.mpr fun l mem => ?_⟩
  · have quiet := silent e mem
    obtain ⟨a, r⟩ := e
    dsimp only at quiet ⊢
    split
    · exact quiet.elim
    · rfl
  · have quiet := silent e mem
    split
    · exact quiet.elim
    · rfl
  · obtain ⟨e, there, rfl⟩ := List.mem_map.mp mem
    have quiet := silent e there
    obtain ⟨a, r⟩ := e
    dsimp only at quiet ⊢
    split
    · exact quiet.elim
    · rfl

/-! ### What is silent -/

theorem silent_wakeup (c : Chan) : (Monitor.wakeup (O := pipe) c).Only Silent := by
  unfold Monitor.wakeup
  induction slots with
  | nil => trivial
  | cons q rest ih =>
    refine Only.bind ⟨trivial, fun _ => trivial⟩ fun _ => Only.bind ⟨trivial, fun _ => trivial⟩ fun b => ?_
    refine Only.bind ?_ fun _ => Only.bind ⟨trivial, fun _ => trivial⟩ fun _ => ih
    cases b with
    | true => exact ⟨trivial, fun _ => trivial⟩
    | false => trivial

theorem silent_sleep (c : Chan) : (Monitor.sleep (O := pipe) p c).Only Silent := by
  unfold Monitor.sleep
  iterate 8 refine Only.bind ⟨trivial, fun _ => trivial⟩ fun _ => ?_
  exact ⟨trivial, fun _ => trivial⟩

theorem silent_awaitRoom : (awaitRoom p fuel).Only Silent := by
  induction fuel with
  | zero => exact ⟨trivial, fun e => nomatch e⟩
  | succ fuel ih =>
    unfold awaitRoom
    refine Only.bind ⟨trivial, fun _ => trivial⟩ fun _ => .ite ?_ trivial
    refine Only.bind ⟨trivial, fun _ => trivial⟩ fun _ => Only.bind ?_ fun _ => .ite trivial ?_
    · exact .ite trivial ⟨trivial, fun _ => trivial⟩
    · exact (silent_wakeup _).bind fun _ => (silent_sleep _).bind fun _ => ih

theorem silent_awaitData : (awaitData p fuel).Only Silent := by
  induction fuel with
  | zero => exact ⟨trivial, fun e => nomatch e⟩
  | succ fuel ih =>
    unfold awaitData
    refine Only.bind ⟨trivial, fun _ => trivial⟩ fun _ => Only.bind ?_ fun _ => .ite ?_ trivial
    · exact .ite ⟨trivial, fun _ => trivial⟩ trivial
    · refine Only.bind ⟨trivial, fun _ => trivial⟩ fun _ => .ite trivial ?_
      exact (silent_sleep _).bind fun _ => ih

theorem silent_acquire : (Monitor.acquire (O := pipe) .cond).Only Silent := ⟨trivial, fun _ => trivial⟩

theorem silent_look {x : Op} (silent : Silent (.op x)) : (look x).Only Silent := ⟨silent, fun _ => trivial⟩

theorem silent_release : (Monitor.release (O := pipe) .cond).Only Silent := ⟨trivial, fun _ => trivial⟩

/-! ### pipewrite -/

theorem storeAll_sees {id : ℕ} : Sees (Others t) (Monitor.exec t) (storeAll p id src fuel left i) s fun es out _ =>
    ∀ j, out = some j → ∃ n, n ≤ left ∧ j = i + n ∧ (storedBy es).map some = (List.range' i n).map src := by
  induction left generalizing i s with
  | zero => exact .pure fun j same => ⟨0, le_rfl, (Option.some.inj same).symm, rfl⟩
  | succ left ih =>
    unfold storeAll
    refine .bind ((Sees.only silent_awaitRoom).mono fun es room m silent => ?_)
    have none := (silent_events silent).1
    by_cases ready : room = true
    · rw [if_pos ready]
      cases found : src i with
      | none =>
        refine .pure fun j same => ⟨0, Nat.zero_le _, (Option.some.inj same).symm, ?_⟩
        rw [List.append_nil, none]
        rfl
      | some ch =>
        refine .bind (.lift fun s₁ r m' _ _ => (ih (i := i + 1)).mono fun es' out m'' rest j same => ?_)
        obtain ⟨n, le, rfl, all⟩ := rest j same
        have one : storedBy [(⟨.op (.store id ch), r⟩ : PipeEvent)] = [ch] := rfl
        refine ⟨n + 1, by omega, by omega, ?_⟩
        rw [storedBy_append, storedBy_append, none, one, List.nil_append, List.map_append, all, List.range'_succ]
        simp only [List.map_cons, List.map_nil, found, List.singleton_append]
    · rw [if_neg ready]
      exact .pure fun j same => nomatch same

theorem pipewrite_sees {n : ℤ} : Sees (Others t) (Monitor.exec t) (pipewrite p src n fuel) s fun es r _ =>
    0 ≤ r → r.toNat ≤ n.toNat ∧ (storedBy es).map some = (List.range r.toNat).map src := by
  unfold pipewrite
  refine .bind ((Sees.only silent_acquire).mono fun es₁ _ _ silent₁ => ?_)
  refine .bind ((Sees.only (silent_look (x := .begins src n) trivial)).mono fun es₂ id _ silent₂ => ?_)
  refine .bind (storeAll_sees.mono fun es₃ out _ stored => ?_)
  have before : storedBy es₁ = [] ∧ storedBy es₂ = [] := ⟨(silent_events silent₁).1, (silent_events silent₂).1⟩
  cases out with
  | none =>
    refine .bind ((Sees.only (silent_look (x := .leaves) trivial)).mono fun _ _ _ _ => ?_)
    refine .bind ((Sees.only silent_release).mono fun _ _ _ _ => .pure fun wrong => ?_)
    exact absurd wrong (by decide)
  | some i =>
    obtain ⟨m, le, rfl, all⟩ := stored i rfl
    refine .bind ((Sees.only (silent_wakeup _)).mono fun es₄ _ _ silent₄ => ?_)
    refine .bind ((Sees.only silent_release).mono fun es₅ _ _ silent₅ => .pure fun _ => ?_)
    rw [Nat.zero_add, Int.toNat_natCast]
    refine ⟨le, ?_⟩
    simp only [storedBy_append, before, (silent_events silent₄).1, (silent_events silent₅).1, List.nil_append,
      List.append_nil]
    rw [all, List.range_eq_range']

/-! ### piperead -/

theorem uint_wrap (n : ℕ) : wrap n < 2 ^ 32 := Nat.mod_lt _ (by decide)

theorem exec_uint {a : Act pipe} {r : Monitor.Res a} (ran : Monitor.exec t a s = some (r, s')) (uint : Uint s.data) :
    Uint s'.data := by
  rcases exec_data ran with same | ⟨x, r', -, done⟩
  · rw [same]
    exact uint
  · change perform t x s.data s.waits = some (r', s'.data) at done
    cases x with
    | store id ch =>
      obtain ⟨-, same⟩ := Prod.mk.inj (Option.some.inj done)
      rw [← same]
      exact ⟨uint.1, uint_wrap _⟩
    | take =>
      obtain ⟨-, same⟩ := Prod.mk.inj (Option.some.inj done)
      rw [← same]
      exact ⟨uint_wrap _, uint.2⟩
    | close writable =>
      obtain ⟨-, same⟩ := Prod.mk.inj (Option.some.inj done)
      rw [← same]
      cases writable <;> exact uint
    | begins | full | empty | readopen | writeopen | closed | kfree | leaves | returns =>
      obtain ⟨-, same⟩ := Prod.mk.inj (Option.some.inj done)
      rw [← same]
      exact uint

theorem Ran.uint {α : Type} {p : Code pipe α} {a : α} (ran : Ran t p s es a s') (uint : Uint s.data) : Uint s'.data :=
  Among.invariant (J := fun s => Uint s.data) ran (fun _ _ others => others.uint) (fun _ _ _ _ => exec_uint) uint

theorem empty_iff (uint : Uint pi) : pi.empty = true ↔ pi.held = 0 := by
  obtain ⟨read, write⟩ := uint
  simp only [Pipe.empty, beq_iff_eq, Pipe.held, wrap]
  omega

theorem held_take (uint : Uint pi) (some : pi.empty = false) : pi.take.held = pi.held - 1 := by
  have held : ¬ pi.held = 0 := by
    rw [← empty_iff uint, some]
    exact Bool.false_ne_true
  obtain ⟨read, write⟩ := uint
  simp only [Pipe.held, Pipe.take, wrap] at held ⊢
  omega

/-- An operation of the caller while it has the lock. -/
theorem look_sees {x : Op} (mine : s.owner .cond = some t) : Sees (Others t) (Monitor.exec t) (look x) s fun es r m =>
    es = [⟨.op x, r⟩] ∧ m.owner .cond = some t ∧ perform t x s.data m.waits = some (r, m.data) := by
  refine .lift fun s₁ r m others ran => ?_
  obtain ⟨owner, same⟩ := others.held mine
  obtain ⟨⟨r', d⟩, done, result⟩ := Option.map_eq_some_iff.mp ran
  cases result
  exact ⟨rfl, owner, same ▸ done⟩

theorem killed_sees (mine : s.owner .cond = some t) : Sees (Others t) (Monitor.exec t)
    (Monitor.killed (O := pipe)) s fun _ _ m =>
    m.owner .cond = some t := by
  refine .lift fun s₁ r m others ran => ?_
  obtain ⟨owner, -⟩ := others.held mine
  cases t with
  | intr n => cases ran
  | proc q =>
    cases ran
    exact owner

theorem acquire_sees : Sees (Others t) (Monitor.exec t)
    (Monitor.acquire (O := pipe) .cond) s fun _ _ m => m.owner .cond = some t := by
  refine .lift fun s₁ r m others ran => ?_
  simp only [Monitor.exec] at ran
  split at ran
  case isTrue =>
    cases ran
    exact Function.update_self (β := fun _ : Lock => Option Thread) Lock.cond (some t) s₁.owner
  case isFalse => cases ran

theorem sleep_sees {c : Chan} : Sees (Others t) (Monitor.exec t) (Monitor.sleep (O := pipe) p c) s fun _ _ m =>
    m.owner .cond = some t := by
  unfold Monitor.sleep
  iterate 8 refine .last fun _ _ => ?_
  exact acquire_sees

theorem awaitData_sees (mine : s.owner .cond = some t) :
    Sees (Others t) (Monitor.exec t) (awaitData p fuel) s fun _ _ m =>
    m.owner .cond = some t := by
  induction fuel generalizing s with
  | zero =>
    intro es a s' ran
    rcases ran with _ | ⟨others, ran, rest⟩
    cases ran
  | succ fuel ih =>
    unfold awaitData
    refine .bind ((look_sees mine).mono fun _ (empty : Bool) m sees => .bind ?_)
    have mine := sees.2.1
    have idle : Sees (Others t) (Monitor.exec t) (andThen empty (look .writeopen)) m fun _ _ m =>
        m.owner .cond = some t := by
      cases empty with
      | true => exact (look_sees mine).mono fun _ _ _ sees => sees.2.1
      | false => exact .pure mine
    refine idle.mono fun _ idle m mine => ?_
    by_cases waits : idle = true
    · rw [if_pos waits]
      refine .bind ((killed_sees mine).mono fun _ dead m mine => ?_)
      by_cases gone : dead = true
      · rw [if_pos gone]
        exact .pure mine
      · rw [if_neg gone]
        exact .bind (sleep_sees.mono fun _ _ m mine => ih mine)
    · rw [if_neg waits]
      exact .pure mine

/-- What the `for` of `piperead` takes is what it copies out, unless the copy of the last byte fails. -/
def Takes (dst : ℕ → Bool) (left held : ℕ) (bytes : List UInt8) (es : List PipeEvent) (out : List UInt8) : Prop :=
  copiedBy es = [] ∧ ∃ more, out = bytes ++ more ∧ more <+: takenBy es ∧
    (takenBy es = more ↔ ∀ i, i < min left held → dst (bytes.length + i) = true)

theorem takeAll_sees (mine : s.owner .cond = some t) (uint : Uint s.data) :
    Sees (Others t) (Monitor.exec t) (takeAll dst left bytes) s fun es out _ =>
      Takes dst left s.data.held bytes es out := by
  induction left generalizing s bytes with
  | zero => exact .pure ⟨rfl, [], (List.append_nil _).symm, List.nil_prefix, fun _ i lt => by omega, fun _ => rfl⟩
  | succ left ih =>
    unfold takeAll
    refine .bind ((look_sees mine).mono fun es₁ (empty : Bool) m sees => ?_)
    obtain ⟨same₁, mine₁, done₁⟩ := sees
    obtain ⟨found, same⟩ := Prod.mk.inj (Option.some.inj done₁)
    subst same₁
    by_cases none : empty = true
    · rw [if_pos none]
      have held : s.data.held = 0 := (empty_iff uint).mp (found.trans none)
      exact .pure ⟨rfl, [], (List.append_nil _).symm, List.nil_prefix, fun _ i lt => by omega, fun _ => rfl⟩
    · rw [if_neg none]
      have data : m.data = s.data := same.symm
      have some : s.data.empty = false := found.trans (Bool.eq_false_iff.mpr none)
      have held : ¬ s.data.held = 0 := by
        rw [← empty_iff uint, some]
        exact Bool.false_ne_true
      refine .bind ((look_sees mine₁).mono fun es₂ (ch : UInt8) m' sees => ?_)
      obtain ⟨same₂, mine₂, done₂⟩ := sees
      obtain ⟨-, next⟩ := Prod.mk.inj (Option.some.inj done₂)
      have uint' : Uint m'.data := by
        rw [← next, data]
        exact ⟨uint_wrap _, uint.2⟩
      have fewer : m'.data.held = s.data.held - 1 := by
        rw [← next, data]
        exact held_take uint some
      subst same₂
      by_cases reached : dst bytes.length = true
      · rw [if_pos reached]
        refine (ih mine₂ uint').mono fun es₃ out _ takes => ?_
        obtain ⟨quiet, more, rfl, part, exact⟩ := takes
        have taken : takenBy (([⟨.op .empty, empty⟩] : List PipeEvent) ++ ([⟨.op .take, ch⟩] ++ es₃)) =
          ch :: takenBy es₃ := rfl
        have copied : copiedBy (([⟨.op .empty, empty⟩] : List PipeEvent) ++ ([⟨.op .take, ch⟩] ++ es₃)) =
          copiedBy es₃ := rfl
        refine ⟨copied.trans quiet, ch :: more, List.append_assoc .., ?_, ?_⟩
        · rw [taken]
          exact List.cons_prefix_cons.mpr ⟨rfl, part⟩
        · rw [taken, List.cons_inj_right, exact, List.length_append, List.length_singleton, fewer]
          constructor
          · intro all i lt
            cases i with
            | zero => exact reached
            | succ i =>
              rw [Nat.add_comm i 1, ← Nat.add_assoc]
              exact all i (by omega)
          · intro all i lt
            rw [Nat.add_assoc, Nat.add_comm 1 i]
            exact all (i + 1) (by omega)
      · rw [if_neg reached]
        refine .pure ⟨rfl, [], (List.append_nil _).symm, List.nil_prefix, fun lost => ?_, fun all => ?_⟩
        · exact absurd lost (List.cons_ne_nil ch [])
        · exact absurd (all 0 (by omega)) reached

/-- `piperead` up to its `for`. -/
def waitForData (p : Slot) (fuel : ℕ) : Code pipe Bool := do
  acquire .cond
  awaitData p fuel

/-- `piperead` from its `for` on. -/
def readFound (dst : ℕ → Bool) (n : ℤ) : Code pipe ℤ := do
  let bytes ← takeAll dst n.toNat []
  wakeup (O := pipe) Chan.nwrite
  look (.returns n bytes.length bytes)
  release .cond
  pure (bytes.length : ℤ)

theorem piperead_takes {n r : ℤ} (uint : Uint s.data) (ran : Ran t (piperead p dst n fuel) s es r s') (done : 0 ≤ r) :
    ∃ es₁ es₂ s₁, es = es₁ ++ es₂ ∧ Ran t (waitForData p fuel) s es₁ true s₁ ∧ Ran t (readFound dst n) s₁ es₂ r s' ∧
      ((r = (takenBy es).length ∧ copiedBy es = takenBy es) ↔ ∀ i, i < min n.toNat s₁.data.held → dst i = true) := by
  obtain ⟨es₁, es₂, _, s₁, rfl, locked, rest⟩ := among_bind.mp ran
  obtain ⟨es₃, es₄, ready, s₂, rfl, waited, rest⟩ := among_bind.mp rest
  have mine : s₂.owner .cond = some t := awaitData_sees (acquire_sees _ _ _ locked) _ _ _ waited
  have before : Ran t (waitForData p fuel) s (es₁ ++ es₃) ready s₂ := among_bind.mpr ⟨_, _, _, _, rfl, locked, waited⟩
  obtain ⟨-, none₁, quiet₁⟩ := silent_events (locked.only silent_acquire)
  obtain ⟨-, none₃, quiet₃⟩ := silent_events (waited.only silent_awaitData)
  cases ready with
  | false =>
    rw [if_neg Bool.false_ne_true] at rest
    obtain ⟨es₅, es₆, _, s₃, -, -, rest⟩ := among_bind.mp rest
    obtain ⟨es₇, es₈, _, s₄, -, -, rest⟩ := among_bind.mp rest
    cases rest
    omega
  | true =>
    rw [if_pos rfl] at rest
    have found : Ran t (readFound dst n) s₂ es₄ r s' := rest
    obtain ⟨es₅, es₆, bytes, s₃, rfl, took, rest⟩ := among_bind.mp rest
    obtain ⟨es₇, es₈, _, s₄, rfl, woke, rest⟩ := among_bind.mp rest
    obtain ⟨es₉, es₁₀, _, s₅, rfl, returned, rest⟩ := among_bind.mp rest
    obtain ⟨es₁₁, es₁₂, _, s₆, rfl, unlocked, rest⟩ := among_bind.mp rest
    cases rest
    obtain ⟨quiet', more, same, part, exact⟩ := takeAll_sees mine (before.uint uint) _ _ _ took
    have all : bytes = more := same
    obtain ⟨-, none₇, quiet₇⟩ := silent_events (woke.only (silent_wakeup _))
    obtain ⟨-, none₁₁, quiet₁₁⟩ := silent_events (unlocked.only silent_release)
    have report : takenBy es₉ = [] ∧ copiedBy es₉ = bytes := by
      rcases returned with _ | ⟨others, ran, last⟩
      cases last
      exact ⟨rfl, List.append_nil _⟩
    refine ⟨es₁ ++ es₃, es₅ ++ (es₇ ++ (es₉ ++ (es₁₁ ++ []))), s₂, (List.append_assoc ..).symm, before, found, ?_⟩
    have taken : takenBy (es₁ ++ (es₃ ++ (es₅ ++ (es₇ ++ (es₉ ++ (es₁₁ ++ [])))))) = takenBy es₅ := by
      simp only [takenBy_append, none₁, none₃, none₇, report.1, none₁₁, List.append_nil, List.nil_append]
    have copied : copiedBy (es₁ ++ (es₃ ++ (es₅ ++ (es₇ ++ (es₉ ++ (es₁₁ ++ [])))))) = bytes := by
      simp only [copiedBy_append, quiet₁, quiet₃, quiet', quiet₇, report.2, quiet₁₁, List.append_nil, List.nil_append]
    rw [taken, copied, all, Nat.cast_inj]
    have start : (takenBy es₅ = more ↔ ∀ i, i < min n.toNat s₂.data.held → dst i = true) := by
      simpa only [List.length_nil, Nat.zero_add] using exact
    rw [← start]
    exact ⟨fun both => both.2.symm, fun same => ⟨congrArg List.length same.symm, same.symm⟩⟩

/-- A `pipewrite` that returns a count has stored that many bytes of its buffer. A `piperead` waits, to a state `s₁`,
and reads what it finds there: it has taken what it returns and copied out if and only if it can copy out every byte
that it finds. -/
theorem transfers_exact_iff (t : Thread) (p : Slot) (s : Monitor.State pipe) (src : ℕ → Option UInt8)
    (dst : ℕ → Bool) (fuel : ℕ) (uint : Uint s.data) :
    (∀ n es r s', Ran t (pipewrite p src n fuel) s es r s' → 0 ≤ r →
      r.toNat ≤ n.toNat ∧ (storedBy es).map some = (List.range r.toNat).map src) ∧
    ∀ n es r s', Ran t (piperead p dst n fuel) s es r s' → 0 ≤ r →
      ∃ es₁ es₂ s₁, es = es₁ ++ es₂ ∧ Ran t (waitForData p fuel) s es₁ true s₁ ∧ Ran t (readFound dst n) s₁ es₂ r s' ∧
        ((r = (takenBy es).length ∧ copiedBy es = takenBy es) ↔ ∀ i, i < min n.toNat s₁.data.held → dst i = true) :=
  ⟨fun _ es r s' => pipewrite_sees es r s', fun _ _ _ _ ran => piperead_takes uint ran⟩

theorem others_refl (s : Monitor.State pipe) : Others t s s := ⟨fun mine => ⟨mine, rfl⟩, id⟩

/-- A pipe that holds one byte. -/
def withByte : Monitor.State pipe := { data := { nwrite := 1 } }

def withThree : Monitor.State pipe := { data := { nwrite := 3, data := fun i => i.val.toUInt8 } }

/-- Two of three bytes are read to the last two addresses that can be written. -/
theorem transfers_exact_iff_two : ∃ es₁ es₂ s₁ s',
    Ran (.proc 0) (piperead 0 (fun i => decide (i < 2)) 2 1) withThree (es₁ ++ es₂) 2 s' ∧
    Ran (.proc 0) (readFound (fun i => decide (i < 2)) 2) s₁ es₂ 2 s' ∧
    (takenBy (es₁ ++ es₂)).length = 2 ∧ copiedBy (es₁ ++ es₂) = takenBy (es₁ ++ es₂) := by
  have stops : (((piperead 0 (fun i => decide (i < 2)) 2 1).trace (Monitor.exec (.proc 0)) withThree).any fun x =>
      decide (x.2.1 = 2)) = true := by decide +kernel
  obtain ⟨es, r, s', ran, found⟩ :=
    exists_of_trace (P := fun _ r _ => decide (r = 2)) (others_refl (t := .proc 0)) stops
  obtain rfl : r = 2 := of_decide_eq_true found
  have uint : Uint withThree.data := ⟨by decide, by decide⟩
  have exact := (transfers_exact_iff (.proc 0) 0 withThree (fun _ => none) (fun i => decide (i < 2)) 1 uint).2
    2 es 2 s' ran
    (by decide)
  obtain ⟨es₁, es₂, s₁, rfl, -, reads, iff⟩ := exact
  obtain ⟨count, copied⟩ := iff.mpr fun i lt => decide_eq_true (lt.trans_le (Nat.min_le_left ..))
  exact ⟨es₁, es₂, s₁, s', ran, reads, Int.ofNat.inj count.symm, copied⟩

/-- The read finds one byte, which it cannot copy out: it returns 0, and the byte is gone. -/
theorem piperead_loses_byte : ∃ es r s', Ran (.proc 0) (piperead 0 (fun _ => false) 1 1) withByte es r s' ∧ r = 0 ∧
    (takenBy es).length = 1 ∧ copiedBy es = [] := by
  have stops : (((piperead 0 (fun _ => false) 1 1).trace (Monitor.exec (.proc 0)) withByte).any fun x =>
      decide (x.2.1 = 0 ∧ (takenBy x.1).length = 1 ∧ copiedBy x.1 = [])) = true := by decide +kernel
  obtain ⟨es, r, s', ran, found⟩ := exists_of_trace
    (P := fun es r _ => decide (r = 0 ∧ (takenBy es).length = 1 ∧ copiedBy es = [])) (others_refl (t := .proc 0)) stops
  exact ⟨es, r, s', ran, of_decide_eq_true found⟩

end Xv6Labs.Pipes
