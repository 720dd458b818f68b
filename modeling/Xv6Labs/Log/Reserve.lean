import Mathlib
import Xv6Labs.Param

/-!
# Log reservation

`begin_op` admits an operation only if the log has room for `MAXOPBLOCKS` blocks of each operation that is running.
`log_write` tests the number of listed blocks without the log's lock, and stores the block number under it. The
machine below runs the operations of all processes through `begin_op`, `log_write` and `end_op`; of `commit` it keeps
what happens to the list, which `commit` leaves alone if it is empty. `sleep` in `begin_op` is a step that is not
enabled.

`logged` and `trans` are history: the distinct blocks an operation has passed to `log_write`, and those of all
operations since the last commit.
-/

namespace Xv6Labs

abbrev Tid := Fin nproc

/-- `struct log` without its lock and the constants `start`, `size` and `dev`; `n` and `block` are the fields
of `lh`. -/
structure Log where
  outstanding : ℕ := 0
  committing : Bool := false
  n : ℕ := 0
  block : ℕ → UInt32 := fun _ => 0

namespace Log

/-- `log.size = sb->nlog`, a `uint` stored in an `int`. -/
def size (nlog : UInt32) : Int32 := nlog.toInt32

/-! ### The critical sections of `log.c` -/

def admits (l : Log) : Bool := !l.committing && decide (l.n + (l.outstanding + 1) * maxOpBlocks ≤ logSize)

def tooBig (l : Log) (nlog : UInt32) : Bool := decide (logSize ≤ l.n) || decide ((size nlog - 1).toInt ≤ l.n)

/-- The loop of `log_write`: where the block is listed, or `n`. -/
def slot (l : Log) (blockno : UInt32) : ℕ := ((List.range l.n).find? fun i => l.block i == blockno).getD l.n

def append (l : Log) (blockno : UInt32) : Log :=
  let i := l.slot blockno
  let l' := { l with block := Function.update l.block i blockno }
  if i = l.n then { l' with n := l.n + 1 } else l'

def enter (l : Log) : Log := { l with outstanding := l.outstanding + 1 }

def leave (l : Log) : Log :=
  { l with outstanding := l.outstanding - 1, committing := l.committing || l.outstanding - 1 == 0 }

def Listed (l : Log) (blockno : UInt32) : Prop := ∃ i < l.n, l.block i = blockno

/-! ### Operations -/

inductive Panic where
  | tooBig
  | outsideTrans
  | committing
  deriving DecidableEq

/-- Where a process is: outside of any operation, inside one, inside `log_write` after its tests, in `commit`
before and after `log.lh.n = 0`, or stopped by a panic. -/
inductive Phase where
  | out
  | inOp (logged : Finset UInt32)
  | checked (logged : Finset UInt32) (blockno : UInt32)
  | commit
  | cleared
  | panicked (why : Panic)
  deriving DecidableEq

structure State where
  log : Log := {}
  phase : Tid → Phase := fun _ => .out
  trans : Finset UInt32 := ∅

inductive Event where
  | begin_op
  | log_write (blockno : UInt32)
  | append
  | end_op
  | clear
  | finish

namespace State

def goto (s : State) (t : Tid) (phase : Phase) : State := { s with phase := Function.update s.phase t phase }

end State

/-- An operation passes at most `MAXOPBLOCKS` distinct blocks to `log_write`. -/
def next (nlog : UInt32) (s : State) (t : Tid) : Event → Option State
  | .begin_op =>
    match s.phase t with
    | .out => if s.log.admits then some ({ s with log := s.log.enter }.goto t (.inOp ∅)) else none
    | _ => none
  | .log_write blockno =>
    match s.phase t with
    | .inOp logged =>
      if blockno ∈ logged ∨ logged.card < maxOpBlocks then
        if s.log.tooBig nlog then some (s.goto t (.panicked .tooBig))
        else if s.log.outstanding < 1 then some (s.goto t (.panicked .outsideTrans))
        else some (s.goto t (.checked logged blockno))
      else none
    | _ => none
  | .append =>
    match s.phase t with
    | .checked logged blockno =>
      some ({ s with log := s.log.append blockno, trans := insert blockno s.trans }.goto t
        (.inOp (insert blockno logged)))
    | _ => none
  | .end_op =>
    match s.phase t with
    | .inOp _ =>
      if s.log.committing then some ({ s with log := s.log.leave }.goto t (.panicked .committing))
      else some ({ s with log := s.log.leave }.goto t (if s.log.outstanding - 1 = 0 then .commit else .out))
    | _ => none
  | .clear =>
    match s.phase t with
    | .commit => some ({ s with log := { s.log with n := 0 }, trans := ∅ }.goto t .cleared)
    | _ => none
  | .finish =>
    match s.phase t with
    | .cleared => some ({ s with log := { s.log with committing := false } }.goto t .out)
    | .commit =>
      if s.log.n = 0 then some ({ s with log := { s.log with committing := false } }.goto t .out) else none
    | _ => none

def Step (nlog : UInt32) (s s' : State) : Prop := ∃ t e, next nlog s t e = some s'

/-- `log_write` is not called when the operations since the last commit have already logged `LOGSIZE` or
`log.size - 1` distinct blocks. -/
def Roomy (nlog : UInt32) (s : State) : Event → Prop
  | .log_write _ => s.trans.card < logSize ∧ (s.trans.card : ℤ) < (size nlog - 1).toInt
  | _ => True

def RoomyStep (nlog : UInt32) (s s' : State) : Prop := ∃ t e, Roomy nlog s e ∧ next nlog s t e = some s'

/-! ### The reservation -/

/-- The blocks that a running operation may still add to the list. -/
def Phase.reserve : Phase → ℕ
  | .inOp logged | .checked logged _ => maxOpBlocks - logged.card
  | _ => 0

/-- An operation that panics in `log_write` stays outstanding. -/
def Phase.running : Phase → ℕ
  | .inOp _ | .checked _ _ | .panicked .tooBig | .panicked .outsideTrans => 1
  | _ => 0

def Phase.Committing : Phase → Prop
  | .commit | .cleared => True
  | _ => False

def Phase.logged : Phase → Finset UInt32
  | .inOp logged | .checked logged _ => logged
  | _ => ∅

structure Inv (s : State) : Prop where
  room : s.log.n + ∑ t, (s.phase t).reserve ≤ logSize
  count : s.log.outstanding = ∑ t, (s.phase t).running
  committing : s.log.committing = true ↔ ∃ t, (s.phase t).Committing
  alone : ∀ t, (s.phase t).Committing → s.log.outstanding = 0
  one : ∀ t u, (s.phase t).Committing → (s.phase u).Committing → t = u
  listed : ∀ b, b ∈ s.trans ↔ s.log.Listed b
  distinct : ∀ i < s.log.n, ∀ j < s.log.n, s.log.block i = s.log.block j → i = j
  own : ∀ t, (s.phase t).logged ⊆ s.trans
  limit : ∀ t logged b, s.phase t = .checked logged b → b ∈ logged ∨ logged.card < maxOpBlocks

/-! ### The list -/

section
variable {l : Log} {b : UInt32}

theorem slot_spec (l : Log) (b : UInt32) :
    (l.slot b < l.n ∧ l.block (l.slot b) = b) ∨ (l.slot b = l.n ∧ ¬l.Listed b) := by
  unfold slot
  cases found : (List.range l.n).find? fun i => l.block i == b with
  | some i =>
    left
    have small := List.mem_range.mp (List.mem_of_find?_eq_some found)
    have same := List.find?_some found
    exact ⟨small, by simpa using same⟩
  | none =>
    right
    refine ⟨rfl, ?_⟩
    rintro ⟨i, small, same⟩
    have miss := List.find?_eq_none.mp found i (List.mem_range.mpr small)
    simp [same] at miss

theorem append_listed (listed : l.Listed b) : l.append b = l := by
  rcases l.slot_spec b with ⟨small, same⟩ | ⟨-, absent⟩
  · unfold append
    have update : Function.update l.block (l.slot b) b = l.block := Function.update_eq_self_iff.mpr same.symm
    simp [Nat.ne_of_lt small, update]
  · exact (absent listed).elim

theorem append_new (absent : ¬l.Listed b) :
    l.append b = { l with block := Function.update l.block l.n b, n := l.n + 1 } := by
  rcases l.slot_spec b with ⟨small, same⟩ | ⟨last, -⟩
  · exact (absent ⟨_, small, same⟩).elim
  · unfold append
    simp [last]

theorem listed_append (l : Log) (b x : UInt32) : (l.append b).Listed x ↔ x = b ∨ l.Listed x := by
  by_cases listed : l.Listed b
  · rw [append_listed listed]
    constructor
    · exact .inr
    · rintro (rfl | old)
      · exact listed
      · exact old
  · rw [append_new listed]
    constructor
    · rintro ⟨i, small, same⟩
      by_cases last : i = l.n
      · subst last
        left
        simpa using same.symm
      · right
        exact ⟨i, Nat.lt_of_le_of_ne (Nat.le_of_lt_succ small) last, by simpa [last] using same⟩
    · rintro (rfl | ⟨i, small, same⟩)
      · exact ⟨l.n, Nat.lt_succ_self _, by simp⟩
      · exact ⟨i, Nat.lt_succ_of_lt small, by simp [Nat.ne_of_lt small, same]⟩

end

/-! ### Every step keeps the reservation -/

variable {nlog : UInt32} {s s' : State} {t : Tid}

def State.reserves (s : State) : ℕ := ∑ t, (s.phase t).reserve

theorem goto_phase (s : State) (t u : Tid) (phase : Phase) :
    (s.goto t phase).phase u = if u = t then phase else s.phase u := by
  simp [State.goto, Function.update_apply]

theorem sum_update {ι α : Type} [Fintype ι] [DecidableEq ι] (f : α → ℕ) (g : ι → α) (t : ι) (x : α) :
    ∑ u, f (Function.update g t x u) + f (g t) = ∑ u, f (g u) + f x := by
  have others : ∑ u ∈ Finset.univ.erase t, f (Function.update g t x u) = ∑ u ∈ Finset.univ.erase t, f (g u) := by
    apply Finset.sum_congr rfl
    intro u other
    rw [Function.update_of_ne (Finset.ne_of_mem_erase other)]
  have before := Finset.add_sum_erase Finset.univ (fun u => f (g u)) (Finset.mem_univ t)
  have after := Finset.add_sum_erase Finset.univ (fun u => f (Function.update g t x u)) (Finset.mem_univ t)
  rw [Function.update_self] at after
  omega

theorem Inv.running_le (inv : Inv s) (t : Tid) : (s.phase t).running ≤ s.log.outstanding := by
  rw [inv.count]
  exact Finset.single_le_sum (f := fun u => (s.phase u).running) (fun _ _ => Nat.zero_le _) (Finset.mem_univ t)

theorem Inv.reserve_le (inv : Inv s) (t : Tid) : s.log.n + (s.phase t).reserve ≤ logSize :=
  (Nat.add_le_add_left (Finset.single_le_sum (f := fun u => (s.phase u).reserve) (fun _ _ => Nat.zero_le _)
    (Finset.mem_univ t)) _).trans inv.room

theorem Phase.reserve_le (phase : Phase) : phase.reserve ≤ phase.running * maxOpBlocks := by
  cases phase with
  | inOp logged | checked logged =>
    change maxOpBlocks - logged.card ≤ 1 * maxOpBlocks
    omega
  | _ => exact Nat.zero_le _

theorem Inv.reserves_le (inv : Inv s) : s.reserves ≤ s.log.outstanding * maxOpBlocks := by
  rw [inv.count, Finset.sum_mul]
  apply Finset.sum_le_sum
  intro u _
  exact (s.phase u).reserve_le

/-- No operation has begun. -/
theorem blank_inv {ctl : State} (phase : ∀ t, ctl.phase t = .out) (empty : ctl.log.n = 0)
    (counts : ctl.log.outstanding = 0 ∧ ctl.log.committing = false) (trans : ctl.trans = ∅) : Inv ctl := by
  have calm : ∀ t, ¬(ctl.phase t).Committing := by
    intro t
    rw [phase]
    exact id
  constructor
  · have reserve : ∀ t, (ctl.phase t).reserve = 0 := by
      intro t
      rw [phase]
      rfl
    simp only [empty, reserve, Finset.sum_const_zero]
    exact Nat.zero_le _
  · have running : ∀ t, (ctl.phase t).running = 0 := by
      intro t
      rw [phase]
      rfl
    simp only [running, Finset.sum_const_zero]
    exact counts.1
  · rw [counts.2]
    constructor
    · exact fun absurd => Bool.noConfusion absurd
    · rintro ⟨t, busy⟩
      exact (calm t busy).elim
  · exact fun t busy => (calm t busy).elim
  · exact fun t _ busy => (calm t busy).elim
  · intro b
    rw [trans]
    constructor
    · exact fun inside => (Finset.notMem_empty b inside).elim
    · rintro ⟨k, less, -⟩
      rw [empty] at less
      exact (Nat.not_lt_zero k less).elim
  · intro k less
    rw [empty] at less
    exact (Nat.not_lt_zero k less).elim
  · intro t
    rw [phase]
    exact Finset.empty_subset _
  · intro t logged b checked
    rw [phase] at checked
    cases checked

theorem initial_inv : Inv {} := blank_inv (fun _ => rfl) rfl ⟨rfl, rfl⟩ rfl

/-- What a step of process `t` to phase `phase` must show. -/
theorem Inv.goto (inv : Inv s) (log : Log) (trans : Finset UInt32) (phase : Phase)
    (room : log.n + s.reserves + phase.reserve ≤ logSize + (s.phase t).reserve)
    (count : log.outstanding + (s.phase t).running = s.log.outstanding + phase.running)
    (committing : log.committing = true ↔ phase.Committing ∨ ∃ u ≠ t, (s.phase u).Committing)
    (alone : phase.Committing ∨ (∃ u ≠ t, (s.phase u).Committing) → log.outstanding = 0)
    (one : phase.Committing → ∀ u ≠ t, ¬(s.phase u).Committing)
    (listed : ∀ b, b ∈ trans ↔ log.Listed b)
    (distinct : ∀ i < log.n, ∀ j < log.n, log.block i = log.block j → i = j)
    (others : ∀ u ≠ t, (s.phase u).logged ⊆ trans) (own : phase.logged ⊆ trans)
    (limit : ∀ logged b, phase = .checked logged b → b ∈ logged ∨ logged.card < maxOpBlocks) :
    Inv ({ s with log := log, trans := trans }.goto t phase) := by
  have reserves := sum_update Phase.reserve s.phase t phase
  have runs := sum_update Phase.running s.phase t phase
  have busy : (∃ u, ((({ s with log := log, trans := trans }.goto t phase : State)).phase u).Committing) ↔
      phase.Committing ∨ ∃ u ≠ t, (s.phase u).Committing := by
    constructor
    · rintro ⟨u, busy⟩
      rw [goto_phase] at busy
      by_cases here : u = t
      · rw [if_pos here] at busy
        exact .inl busy
      · rw [if_neg here] at busy
        exact .inr ⟨u, here, busy⟩
    · rintro (busy | ⟨u, other, busy⟩)
      · exact ⟨t, by rwa [goto_phase, if_pos rfl]⟩
      · exact ⟨u, by rwa [goto_phase, if_neg other]⟩
  constructor
  · change log.n + ∑ u, Phase.reserve (Function.update s.phase t phase u) ≤ logSize
    unfold State.reserves at room
    omega
  · change log.outstanding = ∑ u, Phase.running (Function.update s.phase t phase u)
    rw [inv.count] at count
    omega
  · rw [busy]
    exact committing
  · intro u here
    exact alone (busy.mp ⟨u, here⟩)
  · intro u w left right
    rw [goto_phase] at left right
    by_cases here : u = t <;> by_cases there : w = t
    · rw [here, there]
    · rw [if_pos here] at left
      rw [if_neg there] at right
      exact (one left w there right).elim
    · rw [if_neg here] at left
      rw [if_pos there] at right
      exact (one right u here left).elim
    · rw [if_neg here] at left
      rw [if_neg there] at right
      exact inv.one u w left right
  · exact listed
  · exact distinct
  · intro u
    rw [goto_phase]
    by_cases here : u = t
    · rw [if_pos here]
      exact own
    · rw [if_neg here]
      exact others u here
  · intro u logged b checked
    rw [goto_phase] at checked
    by_cases here : u = t
    · rw [if_pos here] at checked
      exact limit logged b checked
    · rw [if_neg here] at checked
      exact inv.limit u logged b checked

theorem Inv.quiet (inv : Inv s) (idle : s.log.committing = false) (u : Tid) : ¬(s.phase u).Committing := by
  intro busy
  have committing := inv.committing.mpr ⟨u, busy⟩
  rw [idle] at committing
  cases committing

/-- No commit while an operation is running. -/
theorem Inv.calm (inv : Inv s) (running : (s.phase t).running = 1) : s.log.committing = false := by
  have some := inv.running_le t
  cases committing : s.log.committing with
  | false => rfl
  | true =>
    obtain ⟨u, busy⟩ := inv.committing.mp committing
    have none := inv.alone u busy
    omega

/-- A step of a running operation that does not start a commit. -/
theorem Inv.working (inv : Inv s) (running : (s.phase t).running = 1) (log : Log) (trans : Finset UInt32)
    (phase : Phase) (calm : ¬phase.Committing) (same : log.committing = s.log.committing)
    (room : log.n + s.reserves + phase.reserve ≤ logSize + (s.phase t).reserve)
    (count : log.outstanding + 1 = s.log.outstanding + phase.running)
    (listed : ∀ b, b ∈ trans ↔ log.Listed b)
    (distinct : ∀ i < log.n, ∀ j < log.n, log.block i = log.block j → i = j)
    (grows : s.trans ⊆ trans) (own : phase.logged ⊆ trans)
    (limit : ∀ logged b, phase = .checked logged b → b ∈ logged ∨ logged.card < maxOpBlocks) :
    Inv ({ s with log := log, trans := trans }.goto t phase) := by
  have idle := inv.calm running
  have quiet := inv.quiet idle
  have busy : ¬(phase.Committing ∨ ∃ u ≠ t, (s.phase u).Committing) := by
    rintro (busy | ⟨u, -, busy⟩)
    · exact calm busy
    · exact quiet u busy
  apply inv.goto log trans phase room (by omega) ?_ (fun h => (busy h).elim) (fun h => (calm h).elim) listed
    distinct (fun u _ => (inv.own u).trans grows) own limit
  rw [same, idle]
  exact ⟨fun h => (Bool.false_ne_true h).elim, fun h => (busy h).elim⟩

theorem begin_op_inv (inv : Inv s) (out : s.phase t = .out) (admitted : s.log.admits = true) :
    Inv ({ s with log := s.log.enter }.goto t (.inOp ∅)) := by
  unfold admits at admitted
  simp only [Bool.and_eq_true, Bool.not_eq_true', decide_eq_true_eq] at admitted
  obtain ⟨idle, room⟩ := admitted
  have quiet := inv.quiet idle
  have busy : ¬((Phase.inOp ∅).Committing ∨ ∃ u ≠ t, (s.phase u).Committing) := by
    rintro (busy | ⟨u, -, busy⟩)
    · exact busy
    · exact quiet u busy
  apply inv.goto s.log.enter s.trans (.inOp ∅)
  · have most := inv.reserves_le
    rw [out]
    change s.log.n + s.reserves + 10 ≤ logSize + 0
    unfold logSize maxOpBlocks at *
    omega
  · rw [out]
    rfl
  · change s.log.committing = true ↔ _
    rw [idle]
    exact ⟨fun h => (Bool.false_ne_true h).elim, fun h => (busy h).elim⟩
  · intro h
    exact (busy h).elim
  · exact fun h => h.elim
  · exact inv.listed
  · exact inv.distinct
  · intro u _
    exact inv.own u
  · exact Finset.empty_subset _
  · intro logged b checked
    cases checked

theorem log_write_inv (inv : Inv s) {logged : Finset UInt32} {b : UInt32} (inOp : s.phase t = .inOp logged)
    (allowed : b ∈ logged ∨ logged.card < maxOpBlocks) : Inv (s.goto t (.checked logged b)) := by
  have own := inv.own t
  rw [inOp] at own
  apply inv.working (by rw [inOp]; rfl) s.log s.trans (.checked logged b) id rfl
  · have room := inv.room
    rw [inOp]
    unfold State.reserves
    exact Nat.add_le_add_right room _
  · rfl
  · exact inv.listed
  · exact inv.distinct
  · exact Finset.Subset.refl _
  · exact own
  · intro logged' b' same
    cases same
    exact allowed

theorem panic_inv (inv : Inv s) {logged : Finset UInt32} {why : Panic} (inOp : s.phase t = .inOp logged)
    (counted : (Phase.panicked why).running = 1) : Inv (s.goto t (.panicked why)) := by
  apply inv.working (by rw [inOp]; rfl) s.log s.trans (.panicked why) id rfl
  · exact Nat.add_le_add inv.room (Nat.zero_le _)
  · rw [counted]
  · exact inv.listed
  · exact inv.distinct
  · exact Finset.Subset.refl _
  · exact Finset.empty_subset _
  · intro logged' b' same
    cases same

theorem append_distinct {l : Log} (b : UInt32)
    (distinct : ∀ i < l.n, ∀ j < l.n, l.block i = l.block j → i = j) :
    ∀ i < (l.append b).n, ∀ j < (l.append b).n, (l.append b).block i = (l.append b).block j → i = j := by
  by_cases listed : l.Listed b
  · rwa [append_listed listed]
  · rw [append_new listed]
    intro i hi j hj same
    simp only at hi hj same
    by_cases left : i = l.n <;> by_cases right : j = l.n
    · rw [left, right]
    · subst left
      rw [Function.update_self, Function.update_of_ne right] at same
      exact (listed ⟨j, by omega, same.symm⟩).elim
    · subst right
      rw [Function.update_self, Function.update_of_ne left] at same
      exact (listed ⟨i, by omega, same⟩).elim
    · rw [Function.update_of_ne left, Function.update_of_ne right] at same
      exact distinct i (by omega) j (by omega) same

theorem append_inv (inv : Inv s) {logged : Finset UInt32} {b : UInt32} (checked : s.phase t = .checked logged b) :
    Inv ({ s with log := s.log.append b, trans := insert b s.trans }.goto t (.inOp (insert b logged))) := by
  have own := inv.own t
  have limit := inv.limit t logged b checked
  have room := inv.room
  rw [checked] at own
  change logged ⊆ s.trans at own
  have fields : (s.log.append b).committing = s.log.committing ∧
      (s.log.append b).outstanding = s.log.outstanding := by
    by_cases listed : s.log.Listed b
    · rw [append_listed listed]
      exact ⟨rfl, rfl⟩
    · rw [append_new listed]
      exact ⟨rfl, rfl⟩
  apply inv.working (by rw [checked]; rfl) (s.log.append b) (insert b s.trans) (.inOp (insert b logged)) id fields.1
  · rw [checked]
    change _ + s.reserves + (maxOpBlocks - (insert b logged).card) ≤ logSize + (maxOpBlocks - logged.card)
    change s.log.n + s.reserves ≤ logSize at room
    by_cases listed : s.log.Listed b
    · rw [append_listed listed]
      have grows := Finset.card_le_card (Finset.subset_insert b logged)
      omega
    · -- A block that is not listed is new to the operation, and takes one block of its reserve.
      have fresh : b ∉ logged := fun old => listed ((inv.listed b).mp (own old))
      have few := limit.resolve_left fresh
      rw [append_new listed, Finset.card_insert_of_notMem fresh]
      simp only
      omega
  · rw [fields.2]
    rfl
  · intro x
    rw [Finset.mem_insert, listed_append, inv.listed]
  · exact append_distinct b inv.distinct
  · exact Finset.subset_insert b s.trans
  · exact Finset.insert_subset_insert b own
  · intro logged' b' same
    cases same

theorem end_op_inv (inv : Inv s) {logged : Finset UInt32} (inOp : s.phase t = .inOp logged) :
    Inv ({ s with log := s.log.leave }.goto t (if s.log.outstanding - 1 = 0 then .commit else .out)) := by
  have running : (s.phase t).running = 1 := by
    rw [inOp]
    rfl
  have some := inv.running_le t
  have idle := inv.calm running
  have quiet := inv.quiet idle
  have none : ¬∃ u ≠ t, (s.phase u).Committing := fun ⟨u, _, busy⟩ => quiet u busy
  have last : (s.log.leave.committing = true) ↔ s.log.outstanding - 1 = 0 := by
    simp [leave, idle]
  have listed : ∀ b, b ∈ s.trans ↔ s.log.leave.Listed b := inv.listed
  have distinct : ∀ i < s.log.leave.n, ∀ j < s.log.leave.n, s.log.leave.block i = s.log.leave.block j → i = j :=
    inv.distinct
  have room : s.log.leave.n + s.reserves + 0 ≤ logSize + (s.phase t).reserve :=
    Nat.add_le_add inv.room (Nat.zero_le _)
  by_cases zero : s.log.outstanding - 1 = 0
  · rw [if_pos zero]
    apply inv.goto s.log.leave s.trans .commit room ?_ ?_ ?_ ?_ listed distinct (fun u _ => inv.own u)
      (Finset.empty_subset _) (fun _ _ same => by cases same)
    · rw [running]
      change s.log.outstanding - 1 + 1 = s.log.outstanding + 0
      omega
    · rw [last]
      exact ⟨fun _ => .inl trivial, fun _ => zero⟩
    · exact fun _ => zero
    · exact fun _ u _ => quiet u
  · rw [if_neg zero]
    apply inv.goto s.log.leave s.trans .out room ?_ ?_ ?_ ?_ listed distinct (fun u _ => inv.own u)
      (Finset.empty_subset _) (fun _ _ same => by cases same)
    · rw [running]
      change s.log.outstanding - 1 + 1 = s.log.outstanding + 0
      omega
    · rw [last]
      exact ⟨fun h => (zero h).elim, fun h => (none (h.resolve_left id)).elim⟩
    · exact fun h => (none (h.resolve_left id)).elim
    · exact fun h => h.elim

/-- The two steps of `commit` that the list sees. -/
theorem commit_inv (inv : Inv s) (busy : (s.phase t).Committing) (log : Log) (trans : Finset UInt32) (phase : Phase)
    (idle : phase = .cleared ∧ log.committing = s.log.committing ∨ phase = .out ∧ log.committing = false)
    (smaller : log.n ≤ s.log.n) (same : log.outstanding = s.log.outstanding)
    (listed : ∀ b, b ∈ trans ↔ log.Listed b)
    (distinct : ∀ i < log.n, ∀ j < log.n, log.block i = log.block j → i = j) :
    Inv ({ s with log := log, trans := trans }.goto t phase) := by
  have zero := inv.alone t busy
  have others : ∀ u ≠ t, ¬(s.phase u).Committing := fun u other busy' => other (inv.one u t busy' busy)
  have none : ¬∃ u ≠ t, (s.phase u).Committing := fun ⟨u, other, busy'⟩ => others u other busy'
  have stopped : ∀ u, (s.phase u).running = 0 := by
    intro u
    have := inv.running_le u
    omega
  have empty : ∀ u, (s.phase u).logged = ∅ := by
    intro u
    have := stopped u
    cases phase : s.phase u <;> rw [phase] at this <;> first | rfl | cases this
  have simple : phase.reserve = 0 ∧ phase.running = 0 ∧ phase.logged = ∅ := by
    rcases idle with ⟨rfl, -⟩ | ⟨rfl, -⟩ <;> exact ⟨rfl, rfl, rfl⟩
  have room := inv.room
  change s.log.n + s.reserves ≤ logSize at room
  apply inv.goto log trans phase ?_ ?_ ?_ ?_ ?_ listed distinct ?_ ?_ ?_
  · rw [simple.1]
    omega
  · rw [same, stopped, simple.2.1]
  · rcases idle with ⟨rfl, keeps⟩ | ⟨rfl, clears⟩
    · rw [keeps]
      exact ⟨fun _ => .inl trivial, fun _ => inv.committing.mpr ⟨t, busy⟩⟩
    · rw [clears]
      exact ⟨fun h => (Bool.false_ne_true h).elim, fun h => (none (h.resolve_left id)).elim⟩
  · exact fun _ => same.trans zero
  · exact fun _ => others
  · intro u _
    rw [empty]
    exact Finset.empty_subset _
  · rw [simple.2.2]
    exact Finset.empty_subset _
  · intro logged b checked
    rcases idle with ⟨rfl, -⟩ | ⟨rfl, -⟩ <;> cases checked

theorem next_inv (inv : Inv s) {e : Event} (h : next nlog s t e = some s') : Inv s' := by
  cases e with
  | begin_op =>
    unfold next at h
    cases phase : s.phase t <;> simp only [phase] at h <;> try cases h
    by_cases admitted : s.log.admits = true
    · rw [if_pos admitted] at h
      cases h
      exact begin_op_inv inv phase admitted
    · rw [if_neg admitted] at h
      cases h
  | log_write b =>
    unfold next at h
    cases phase : s.phase t <;> simp only [phase] at h <;> try cases h
    split at h
    · split at h
      · cases h
        exact panic_inv inv phase rfl
      · split at h
        · cases h
          exact panic_inv inv phase rfl
        · cases h
          exact log_write_inv inv phase ‹_›
    · cases h
  | append =>
    unfold next at h
    cases phase : s.phase t <;> simp only [phase] at h <;> cases h
    exact append_inv inv phase
  | end_op =>
    unfold next at h
    cases phase : s.phase t <;> simp only [phase] at h <;> try cases h
    have idle := inv.calm (t := t) (by rw [phase]; rfl)
    simp only [idle, Bool.false_eq_true, if_false] at h
    cases h
    exact end_op_inv inv phase
  | clear =>
    unfold next at h
    cases phase : s.phase t <;> simp only [phase] at h <;> cases h
    exact commit_inv inv (by rw [phase]; trivial) _ _ _ (.inl ⟨rfl, rfl⟩) (Nat.zero_le _) rfl
      (by simp [Listed]) (fun i small => (Nat.not_lt_zero _ small).elim)
  | finish =>
    unfold next at h
    have done : (s.phase t).Committing → Inv ({ s with log := { s.log with committing := false } }.goto t .out) :=
      fun busy => commit_inv inv busy _ _ _ (.inr ⟨rfl, rfl⟩) (Nat.le_refl _) rfl inv.listed inv.distinct
    cases phase : s.phase t <;> simp only [phase] at h <;> try cases h
    · split at h
      · cases h
        exact done (by rw [phase]; trivial)
      · cases h
    · exact done (by rw [phase]; trivial)

/-! ### What the reservation is for -/

theorem Inv.card (inv : Inv s) : s.trans.card = s.log.n := by
  have image : s.trans = (Finset.range s.log.n).image s.log.block := by
    ext b
    rw [inv.listed, Finset.mem_image]
    constructor
    · rintro ⟨i, small, same⟩
      exact ⟨i, Finset.mem_range.mpr small, same⟩
    · rintro ⟨i, small, same⟩
      exact ⟨i, Finset.mem_range.mp small, same⟩
  rw [image, Finset.card_image_of_injOn, Finset.card_range]
  intro i hi j hj same
  exact inv.distinct i (by simpa using hi) j (by simpa using hj) same

/-- `log_write` stores inside `log.lh.block`. -/
theorem Inv.slot_lt (inv : Inv s) {logged : Finset UInt32} {b : UInt32} (checked : s.phase t = .checked logged b) :
    s.log.slot b < logSize := by
  have room := inv.reserve_le t
  rw [checked] at room
  change s.log.n + (maxOpBlocks - logged.card) ≤ logSize at room
  rcases s.log.slot_spec b with ⟨small, -⟩ | ⟨last, absent⟩
  · omega
  · have own := inv.own t
    rw [checked] at own
    have fresh : b ∉ logged := fun old => absent ((inv.listed b).mp (own old))
    have few := (inv.limit t logged b checked).resolve_left fresh
    omega

def Working (s : State) : Prop := ∀ t why, s.phase t ≠ .panicked why

theorem roomy_next (inv : Inv s) (working : Working s) {e : Event} (roomy : Roomy nlog s e)
    (h : next nlog s t e = some s') : Working s' := by
  have goto : ∀ (s : State) (phase : Phase), (∀ u why, s.phase u ≠ .panicked why) →
      (∀ why, phase ≠ .panicked why) → Working (s.goto t phase) := by
    intro s phase working other u why
    rw [goto_phase]
    split
    · exact other why
    · exact working u why
  cases e with
  | log_write b =>
    unfold next at h
    cases phase : s.phase t <;> simp only [phase] at h <;> try cases h
    have fits : s.log.tooBig nlog = false := by
      obtain ⟨short, shorter⟩ := roomy
      rw [inv.card] at short shorter
      simp only [tooBig, decide_eq_false (Nat.not_le.mpr short), decide_eq_false (Int.not_le.mpr shorter),
        Bool.or_false]
    have some := inv.running_le t
    rw [phase] at some
    change 1 ≤ _ at some
    simp only [fits, Bool.false_eq_true, if_false, Nat.not_lt.mpr some] at h
    split at h
    · cases h
      exact goto _ _ working fun why same => by cases same
    · cases h
  | end_op =>
    unfold next at h
    cases phase : s.phase t <;> simp only [phase] at h <;> try cases h
    have idle := inv.calm (t := t) (by rw [phase]; rfl)
    simp only [idle, Bool.false_eq_true, if_false] at h
    cases h
    apply goto _ _ working
    intro why
    split <;> exact fun same => by cases same
  | begin_op =>
    unfold next at h
    cases phase : s.phase t <;> simp only [phase] at h <;> try cases h
    split at h
    · cases h
      exact goto _ _ working fun why same => by cases same
    · cases h
  | append | clear =>
    unfold next at h
    cases phase : s.phase t <;> simp only [phase] at h <;> cases h
    exact goto _ _ working fun why same => by cases same
  | finish =>
    unfold next at h
    cases phase : s.phase t <;> simp only [phase] at h <;> try cases h
    · split at h
      · cases h
        exact goto _ _ working fun why same => by cases same
      · cases h
    · exact goto _ _ working fun why same => by cases same

/-- As long as `log_write` is called only while the transaction is short of the limits, no call panics, and
every call stores inside `log.lh.block`. -/
theorem roomyReachable_safe (run : Relation.ReflTransGen (RoomyStep nlog) {} s) :
    (∀ t why, s.phase t ≠ .panicked why) ∧
      ∀ t logged b, s.phase t = .checked logged b → s.log.slot b < logSize := by
  have both : Inv s ∧ Working s := by
    induction run with
    | refl => exact ⟨initial_inv, fun t why same => by cases same⟩
    | tail _ step ih =>
      obtain ⟨t, e, roomy, h⟩ := step
      exact ⟨next_inv ih.1 h, roomy_next ih.1 ih.2 roomy h⟩
  exact ⟨both.2, fun t logged b checked => both.1.slot_lt checked⟩

theorem roomyReachable_safe_logging :
    ∃ s : State, (s.phase 0 = .checked ∅ 46 ∧ s.log.slot 46 < logSize) ∧ ∀ t why, s.phase t ≠ .panicked why := by
  have run : Relation.ReflTransGen (RoomyStep 30) {}
      (({ log := ({} : Log).enter : State }.goto 0 (.inOp ∅)).goto 0 (.checked ∅ 46)) := by
    apply Relation.ReflTransGen.tail (b := ({ log := ({} : Log).enter : State }.goto 0 (.inOp ∅)))
    · apply Relation.ReflTransGen.single
      exact ⟨0, .begin_op, trivial, rfl⟩
    · refine ⟨0, .log_write 46, ⟨by decide, by decide⟩, ?_⟩
      rfl
  obtain ⟨working, inside⟩ := roomyReachable_safe run
  exact ⟨_, ⟨rfl, inside 0 ∅ 46 rfl⟩, working⟩

/-! ### Where it falls short

The reservation counts `LOGSIZE` blocks, but `log_write` panics at the last block if the log has no more than
`LOGSIZE` blocks with its header, and it panics at a full list before it looks for the block in it. -/

def runs (nlog : UInt32) : List (Tid × Event) → State → Option State
  | [], s => some s
  | (t, e) :: rest, s => (next nlog s t e).bind (runs nlog rest)

theorem runs_reachable {trace : List (Tid × Event)} (h : runs nlog trace s = some s') :
    Relation.ReflTransGen (Step nlog) s s' := by
  induction trace generalizing s with
  | nil =>
    cases h
    exact .refl
  | cons move rest ih =>
    obtain ⟨t, e⟩ := move
    unfold runs at h
    obtain ⟨middle, first, h⟩ := Option.bind_eq_some_iff.mp h
    exact .head ⟨t, e, first⟩ (ih h)

theorem reaches_of_runs (nlog : UInt32) (trace : List (Tid × Event)) (p : State → Bool)
    (h : (runs nlog trace {}).map p = some true) : ∃ s, Relation.ReflTransGen (Step nlog) {} s ∧ p s = true := by
  obtain ⟨s, run, holds⟩ := Option.map_eq_some_iff.mp h
  exact ⟨s, runs_reachable run, holds⟩

/-- Three operations log ten blocks each. -/
def threeOps : List (Tid × Event) :=
  [(0, .begin_op), (1, .begin_op), (2, .begin_op)] ++
    (List.range 30).flatMap fun k =>
      [(Fin.ofNat _ (k / 10), .log_write (.ofNat (46 + k))), (Fin.ofNat _ (k / 10), .append)]

theorem log_write_panics :
    (∃ s, Relation.ReflTransGen (Step 30) {} s ∧ s.phase 2 = .panicked .tooBig) ∧
      ∃ s, Relation.ReflTransGen (Step 100) {} s ∧ s.phase 0 = .panicked .tooBig := by
  constructor
  · obtain ⟨s, run, panicked⟩ := reaches_of_runs 30 threeOps.dropLast
      (fun s => s.phase 2 == .panicked .tooBig) (by decide +kernel)
    exact ⟨s, run, by simpa using panicked⟩
  · obtain ⟨s, run, panicked⟩ := reaches_of_runs 100 (threeOps ++ [(0, .log_write 46)])
      (fun s => s.phase 0 == .panicked .tooBig) (by decide +kernel)
    exact ⟨s, run, by simpa using panicked⟩

end Log

end Xv6Labs
