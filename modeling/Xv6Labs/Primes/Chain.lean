import Xv6Labs.Lib.Sieve
import Xv6Labs.Primes.Code

/-!
# The chain of processes

Process `m` makes pipe `m` and forks process `m + 1`. At any time one process works on its call, or one pair of
neighbours passes numbers, and the processes before them wait; in the end they exit one after the other. `Phase` says
where the chain is.
-/

namespace Xv6Labs.Primes

open Sieve (stage)

/-- The stages of the sieve of `l`: there are `K`, and only the last one has a single number. -/
structure Stages (l : List ℕ) (K : ℕ) : Prop where
  pos : 0 < K
  nonempty : ∀ k < K, stage l k ≠ []
  single : ∀ k < K, (stage l k).length = 1 ↔ k + 1 = K
  small : ∀ n ∈ l, n < 2 ^ 31

def readEnds (m : ℕ) : List (ℕ × Bool) := (List.range m).map fun p => (p, false)

def bothEnds (m : ℕ) : List (ℕ × Bool) := readEnds m ++ [(m, false), (m, true)]

def parentOf : ℕ → Option ℕ
  | 0 => none
  | k + 1 => some k

def linesTo (l : List ℕ) (K m : ℕ) : List Line := (List.range m).map fun k => ⟨(stage l k).headD 0, decide (k + 1 < K)⟩

/-- The numbers that process `m` sends. -/
def sends (l : List ℕ) (m : ℕ) : List ℕ := (stage l m).tail

def bytesOf (ns : List ℕ) : List UInt8 := ns.flatMap intBytes

/-- What is kept of the first `r` numbers that process `m` sends. -/
def got (l : List ℕ) (m r : ℕ) : List ℕ := ((sends l m).take r).filter fun n => n % (stage l m).headD 0 ≠ 0

/-- `born` processes in a row, of which the first `m` wait. -/
structure Row (s : State) (born m : ℕ) : Prop where
  count : s.born = born
  parents : ∀ k < born, (s.procs k).parent = parentOf k
  rest : ∀ k, born ≤ k → (s.procs k).pc = .reaped
  waits : ∀ k < m, (s.procs k).pc = .wait ∧ (s.procs k).fds = readEnds (k + 1)

/-- The sender has written `w` numbers, is writing the next one, or has closed its end. -/
inductive Writer where
  | write (w : ℕ)
  | send (w : ℕ)
  | closed

def Writer.sent (total : ℕ) : Writer → ℕ
  | .write w => w
  | .send w => w
  | .closed => total

inductive Phase where
  | call (m : ℕ)
  | fork (m : ℕ)
  | transfer (m : ℕ) (w : Writer) (r : Option ℕ)
  | unwind (j : ℕ)
  | exiting (j : ℕ)
  | done

variable (l : List ℕ) (K : ℕ)

structure Calling (m : ℕ) (s : State) : Prop where
  inside : m < K
  row : Row s (m + 1) m
  made : s.made = m
  out : s.out = linesTo l K m
  proc : ∃ num, (s.procs m).pc = .call num (stage l m).length ∧ num.take (stage l m).length = stage l m
  fds : (s.procs m).fds = readEnds m

structure Forking (m : ℕ) (s : State) : Prop where
  inside : m + 1 < K
  row : Row s (m + 1) m
  made : s.made = m + 1
  pipe : s.pipes m = []
  out : s.out = linesTo l K (m + 1)
  proc : ∃ num, (s.procs m).pc = .fork num (stage l m).length m ∧ num.take (stage l m).length = stage l m
  fds : (s.procs m).fds = bothEnds m

def Writes (m : ℕ) (proc : Proc) : Writer → Prop
  | .write w => ∃ num, proc.pc = .write num (stage l m).length m (w + 1) ∧ num.take (stage l m).length = stage l m ∧
      proc.fds = bothEnds m
  | .send w => ∃ num, proc.pc = .send num (stage l m).length m (w + 1) (intBytes (num.getD (w + 1) 0)) ∧
      num.take (stage l m).length = stage l m ∧ proc.fds = bothEnds m ∧ w < (sends l m).length
  | .closed => proc.pc = .wait ∧ proc.fds = readEnds (m + 1)

def Reads (m : ℕ) (proc : Proc) : Option ℕ → Prop
  | none => ∃ num, proc.pc = .closeWrite num ((stage l m).headD 0) m ∧ (stage l m).length ≤ num.length ∧
      proc.fds = bothEnds m
  | some r => ∃ num buf, proc.pc = .read num ((stage l m).headD 0) m (got l m r).length buf ∧
      (stage l m).length ≤ num.length ∧
      num.take (got l m r).length = got l m r ∧ buf.length = 4 ∧ proc.fds = readEnds (m + 1)

structure Transfers (m : ℕ) (w : Writer) (r : Option ℕ) (s : State) : Prop where
  inside : m + 1 < K
  row : Row s (m + 2) m
  made : s.made = m + 1
  out : s.out = linesTo l K (m + 1)
  order : r.getD 0 ≤ w.sent (sends l m).length ∧ w.sent (sends l m).length ≤ (sends l m).length
  room : w.sent (sends l m).length ≤ r.getD 0 + 128
  pipe : s.pipes m = bytesOf (((sends l m).take (w.sent (sends l m).length)).drop (r.getD 0))
  writer : Writes l m (s.procs m) w
  reader : Reads l m (s.procs (m + 1)) r

structure Unwinds (j : ℕ) (s : State) : Prop where
  inside : j < K
  row : Row s K j
  out : s.out = linesTo l K K
  proc : (s.procs j).pc = .wait
  next : j + 1 < K → (s.procs (j + 1)).pc = .zombie 0
  later : ∀ k, j + 1 < k → k < K → (s.procs k).pc = .reaped

structure Exits (j : ℕ) (s : State) : Prop where
  inside : j < K
  row : Row s K j
  out : s.out = linesTo l K K
  proc : (s.procs j).pc = .exit 0
  later : ∀ k, j < k → k < K → (s.procs k).pc = .reaped

structure Done (s : State) : Prop where
  born : s.born = K
  out : s.out = linesTo l K K
  proc : (s.procs 0).pc = .zombie 0
  later : ∀ k, 0 < k → (s.procs k).pc = .reaped

def Inv : Phase → State → Prop
  | .call m, s => Calling l K m s
  | .fork m, s => Forking l K m s
  | .transfer m w r, s => Transfers l K m w r s
  | .unwind j, s => Unwinds l K j s
  | .exiting j, s => Exits l K j s
  | .done, s => Done l K s

/-! ### How far the chain is -/

/-- What is left of a transfer. -/
def left (total : ℕ) : Writer → Option ℕ → ℕ
  | .write w, r => 2 * (total - w) + 2 + r.elim (total + 2) fun r => total - r + 1
  | .send w, r => 2 * (total - w) + 1 + r.elim (total + 2) fun r => total - r + 1
  | .closed, r => r.elim (total + 2) fun r => total - r + 1

def rank : Phase → ℕ
  | .call m => (K - m) * (3 * l.length + 10) + (2 * K + 4)
  | .fork m => (K - m) * (3 * l.length + 10) + (2 * K + 3)
  | .transfer m w r => (K - (m + 1)) * (3 * l.length + 10) + (2 * K + 4) + left (sends l m).length w r
  | .unwind j => 2 * j + 2
  | .exiting j => 2 * j + 1
  | .done => 0

variable {l : List ℕ} {K : ℕ} {s s' : State} {m k j i born p : ℕ} {w : Writer} {r : Option ℕ} {ns : List ℕ} {n : ℕ}

/-! ### Bytes -/

theorem length_intBytes : (intBytes n).length = 4 := rfl

theorem ofBytes_intBytes (small : n < 2 ^ 32) : ofBytes (intBytes n) = n := by
  simp only [intBytes, ofBytes, UInt8.toNat_ofNat']
  omega

theorem length_bytesOf : (bytesOf ns).length = 4 * ns.length := by
  induction ns with
  | nil => rfl
  | cons n ns ih =>
    change (intBytes n ++ bytesOf ns).length = _
    rw [List.length_append, ih, length_intBytes, List.length_cons]
    omega

/-! ### The stages -/

theorem length_stage_le : (stage l k).length ≤ l.length := by
  induction k with
  | zero => exact le_rfl
  | succ k ih =>
    have kept := List.length_filter_le (fun n => decide (n % (stage l k).headD 0 ≠ 0)) (stage l k).tail
    change ((stage l k).tail.filter _).length ≤ _
    rw [List.length_tail] at kept
    omega

theorem mem_stage (mem : n ∈ stage l k) : n ∈ l := by
  induction k with
  | zero => exact mem
  | succ k ih => exact ih (List.mem_of_mem_tail (List.mem_of_mem_filter mem))

theorem length_sends : (sends l m).length = (stage l m).length - 1 := List.length_tail ..

theorem got_all : got l m (sends l m).length = stage l (m + 1) := by
  unfold got
  rw [List.take_length]
  rfl

theorem got_succ {x : ℕ} (more : (sends l m)[i]? = some x) :
    got l m (i + 1) = if x % (stage l m).headD 0 ≠ 0 then got l m i ++ [x] else got l m i := by
  unfold got
  rw [List.take_add_one, more, Option.toList_some, List.filter_append, List.filter_singleton]
  split <;> simp_all

theorem got_length_le : (got l m i).length ≤ i :=
  (List.length_filter_le ..).trans (List.length_take_le ..)

/-! ### States -/

section
variable {pc : Pc} {fds : List (ℕ × Bool)} {fd : ℕ × Bool} {data : List UInt8} {line : Line}

@[simp] theorem goto_self : (s.goto k pc).procs k = { s.procs k with pc := pc } := Function.update_self ..

theorem goto_other (ne : i ≠ k) : (s.goto k pc).procs i = s.procs i := Function.update_of_ne ne ..

@[simp] theorem goto_fds : ((s.goto k pc).procs i).fds = (s.procs i).fds := by
  by_cases same : i = k
  · subst same
    rw [goto_self]
  · rw [goto_other same]

@[simp] theorem goto_parent : ((s.goto k pc).procs i).parent = (s.procs i).parent := by
  by_cases same : i = k
  · subst same
    rw [goto_self]
  · rw [goto_other same]

@[simp] theorem setFds_self : (s.setFds k fds).procs k = { s.procs k with fds := fds } := Function.update_self ..

theorem setFds_other (ne : i ≠ k) : (s.setFds k fds).procs i = s.procs i := Function.update_of_ne ne ..

theorem isOpen_iff {writable : Bool} : s.isOpen p writable = true ↔ ∃ i < s.born, (p, writable) ∈ (s.procs i).fds := by
  simp [State.isOpen]

end

/-- Nobody but process `k` changes, and it stays the child of its parent. -/
theorem Row.update (row : Row s born m) (own : m ≤ k) (inside : k < born) (others : ∀ i ≠ k, s'.procs i = s.procs i)
    (parent : (s'.procs k).parent = (s.procs k).parent) (count : s'.born = s.born) : Row s' born m := by
  refine ⟨count.trans row.count, fun i less => ?_, fun i more => ?_, fun i less => ?_⟩
  · by_cases same : i = k
    · subst same
      rw [parent, row.parents i less]
    · rw [others i same, row.parents i less]
  · rw [others i (by omega), row.rest i more]
  · rw [others i (by omega)]
    exact row.waits i less

theorem Row.fewer (row : Row s born m) (less : j ≤ m) : Row s born j :=
  ⟨row.count, row.parents, row.rest, fun k below => row.waits k (by omega)⟩

theorem Row.more (row : Row s born m) (waits : (s.procs m).pc = .wait ∧ (s.procs m).fds = readEnds (m + 1)) :
    Row s born (m + 1) := by
  refine ⟨row.count, row.parents, row.rest, fun k below => ?_⟩
  by_cases same : k = m
  · subst same
    exact waits
  · exact row.waits k (by omega)

theorem step_reaped (reaped : (s.procs k).pc = .reaped) : step s k = none := by
  unfold step
  rw [reaped]

theorem step_zombie {status : ℕ} (zombie : (s.procs k).pc = .zombie status) : step s k = none := by
  unfold step
  rw [zombie]

theorem child_eq (row : Row s born m) (inside : i < born) (child : (s.procs i).parent = some k) : i = k + 1 := by
  rw [row.parents i inside] at child
  cases i with
  | zero => cases child
  | succ i => rw [Option.some.inj child]

/-- A process waits for a child that is running. -/
theorem step_wait_blocked (row : Row s born m) (wait : (s.procs k).pc = .wait) (inside : k + 1 < born)
    (running : (s.procs (k + 1)).pc.isZombie = false) (alive : (s.procs (k + 1)).pc.isReaped = false) :
    step s k = none := by
  have child : (List.range s.born).any (s.isChild k) = true := by
    rw [List.any_eq_true]
    refine ⟨k + 1, List.mem_range.mpr (row.count ▸ inside), ?_⟩
    unfold State.isChild
    rw [row.parents _ inside, alive]
    simp [parentOf]
  have nobody : (List.range s.born).find? (s.isZombie k) = none := by
    rw [List.find?_eq_none]
    intro i mem zombie
    unfold State.isZombie at zombie
    rw [Bool.and_eq_true, beq_iff_eq] at zombie
    rw [List.mem_range, row.count] at mem
    have same := child_eq row mem zombie.1
    subst same
    rw [running] at zombie
    cases zombie.2
  unfold step
  rw [wait]
  dsimp only
  rw [if_pos child, nobody]

/-- The first processes of a row wait. -/
theorem step_before (row : Row s born m) (inside : m < born) (less : k < m) (running : (s.procs m).pc.isZombie = false)
    (alive : (s.procs m).pc.isReaped = false) : step s k = none := by
  refine step_wait_blocked row (row.waits k less).1 (by omega) ?_ ?_
  · by_cases last : k + 1 = m
    · rw [last, running]
    · rw [(row.waits (k + 1) (by omega)).1]
      rfl
  · by_cases last : k + 1 = m
    · rw [last, alive]
    · rw [(row.waits (k + 1) (by omega)).1]
      rfl

theorem linesTo_succ : linesTo l K (m + 1) = linesTo l K m ++ [⟨(stage l m).headD 0, decide (m + 1 < K)⟩] := by
  unfold linesTo
  rw [List.range_succ, List.map_append]
  rfl

theorem headD_of_take {num : List ℕ} (stages : Stages l K) (inside : m < K)
    (same : num.take (stage l m).length = stage l m) :
    num.headD 0 = (stage l m).headD 0 := by
  obtain ⟨n, rest, shape⟩ := List.exists_cons_of_ne_nil (stages.nonempty m inside)
  rw [shape] at same ⊢
  cases num with
  | nil => cases same
  | cons n' num =>
    rw [List.length_cons, List.take_succ_cons] at same
    rw [(List.cons.inj same).1]
    rfl

/-! ### Steps -/

/-- Process `k` makes a step, and the chain comes to a later phase. -/
def Advances (l : List ℕ) (K : ℕ) (φ : Phase) (s : State) (k : ℕ) : Prop :=
  ∃ s', step s k = some s' ∧ ∃ φ', Inv l K φ' s' ∧ rank l K φ' < rank l K φ

theorem calling_advances (stages : Stages l K) (calling : Calling l K m s) : Advances l K (.call m) s m := by
  have inside := calling.inside
  have row := calling.row
  obtain ⟨num, pc, same⟩ := calling.proc
  have head := headD_of_take stages inside same
  unfold Advances step
  rw [pc]
  dsimp only
  rw [head]
  by_cases last : m + 1 = K
  · rw [if_pos ((stages.single m inside).mpr last)]
    refine ⟨_, rfl, .unwind m, ⟨inside, ?_, ?_, ?_, ?_, ?_⟩, ?_⟩
    · rw [← last]
      exact row.update le_rfl (Nat.lt_succ_self m) (fun i ne => goto_other ne) goto_parent rfl
    · change s.out ++ [_] = _
      rw [← last, linesTo_succ, calling.out, ← last, decide_eq_false (Nat.lt_irrefl _)]
    · rw [goto_self]
    · omega
    · omega
    · change 2 * m + 2 < (K - m) * (3 * l.length + 10) + (2 * K + 4)
      omega
  · rw [if_neg fun single => last ((stages.single m inside).mp single)]
    refine ⟨_, rfl, .fork m, ⟨by omega, ?_, ?_, ?_, ?_, ?_, ?_⟩, ?_⟩
    · refine row.update le_rfl (Nat.lt_succ_self m) (fun i ne => ?_) ?_ rfl
      · rw [goto_other ne]
        exact setFds_other ne
      · rw [goto_parent]
        change ((s.setFds m _).procs m).parent = _
        rw [setFds_self]
    · change s.made + 1 = m + 1
      rw [calling.made]
    · change Function.update s.pipes s.made [] m = []
      rw [calling.made, Function.update_self]
    · change s.out ++ [_] = _
      rw [linesTo_succ, calling.out, decide_eq_true (by omega)]
    · refine ⟨num, ?_, same⟩
      rw [goto_self, calling.made]
    · rw [goto_fds]
      change ((s.setFds m _).procs m).fds = _
      rw [setFds_self, calling.fds, calling.made]
      rfl
    · change _ + (2 * K + 3) < _ + (2 * K + 4)
      omega

theorem length_le_of_take {num : List ℕ} (same : num.take (stage l m).length = stage l m) :
    (stage l m).length ≤ num.length := by
  have bound := congrArg List.length same
  rw [List.length_take] at bound
  omega

theorem forking_advances (stages : Stages l K) (forking : Forking l K m s) : Advances l K (.fork m) s m := by
  have row := forking.row
  have inside := forking.inside
  have count := row.count
  obtain ⟨num, pc, same⟩ := forking.proc
  have head := headD_of_take stages (by omega) same
  have child : ∀ pc pc', ((s.forkTo m pc').goto m pc).procs (m + 1) = ⟨pc', bothEnds m, some m⟩ := by
    intro pc pc'
    rw [goto_other (by omega)]
    change Function.update s.procs s.born _ (m + 1) = _
    rw [count, Function.update_self, forking.fds]
  have others : ∀ pc' i, i ≠ m + 1 → (s.forkTo m pc').procs i = s.procs i := by
    intro pc' i ne
    change Function.update s.procs s.born _ i = _
    rw [count, Function.update_of_ne ne]
  unfold Advances step
  rw [pc]
  dsimp only
  rw [head]
  refine ⟨_, rfl, .transfer m (.write 0) none,
    ⟨inside, ⟨?_, ?_, ?_, ?_⟩, forking.made, forking.out, ⟨le_rfl, Nat.zero_le _⟩, Nat.zero_le _, ?_,
    ⟨num, ?_, same, ?_⟩, ⟨num, ?_, length_le_of_take same, ?_⟩⟩, ?_⟩
  · change s.born + 1 = m + 2
    rw [count]
  · intro k less
    by_cases new : k = m + 1
    · rw [new, child]
      rfl
    · rw [goto_parent, others _ k new, row.parents k (by omega)]
  · intro k more
    rw [goto_other (by omega), others _ k (by omega)]
    exact row.rest k (by omega)
  · intro k less
    rw [goto_other (by omega), others _ k (by omega)]
    exact row.waits k less
  · change s.pipes m = _
    rw [forking.pipe]
    rfl
  · rw [goto_self]
  · rw [goto_fds, others _ m (by omega), forking.fds]
  · rw [child]
  · rw [child]
  · have short := length_stage_le (l := l) (k := m)
    have some_number : (stage l m).length ≠ 0 :=
      fun none => stages.nonempty m (by omega) (List.length_eq_zero_iff.mp none)
    have rounds : K - m = K - (m + 1) + 1 := by omega
    have total := length_sends (l := l) (m := m)
    change (K - (m + 1)) * _ + (2 * K + 4) + (2 * ((sends l m).length - 0) + 2 + ((sends l m).length + 2)) <
      (K - m) * _ + (2 * K + 3)
    rw [rounds, Nat.add_one_mul (K - (m + 1))]
    omega

/-! ### The pair that passes numbers -/

theorem readEnds_write (p q : ℕ) : (p, true) ∉ readEnds q := by
  unfold readEnds
  rw [List.mem_map]
  rintro ⟨k, -, same⟩
  cases same

theorem bothEnds_close : (bothEnds m).erase (m, true) = readEnds (m + 1) := by
  unfold bothEnds
  rw [List.erase_append_right _ (readEnds_write m m), List.erase_cons_tail (by simp), List.erase_cons_head]
  unfold readEnds
  rw [List.range_succ, List.map_append]
  rfl

theorem mem_bothEnds (writable : Bool) : (m, writable) ∈ bothEnds m := by
  unfold bothEnds
  cases writable <;> simp

/-- The number behind the first `i` that are sent. -/
theorem num_getD {num : List ℕ} (same : num.take (stage l m).length = stage l m) (inside : i < (sends l m).length) :
    num.getD (i + 1) 0 = (sends l m)[i] := by
  have total := length_sends (l := l) (m := m)
  have place : (stage l m)[i + 1]? = num[i + 1]? := by
    rw [← same, List.getElem?_take_of_lt (by omega)]
  have behind : (sends l m)[i]? = (stage l m)[i + 1]? := List.getElem?_tail ..
  rw [List.getD_eq_getElem?_getD, ← place, ← behind, List.getElem?_eq_getElem inside, Option.getD_some]

theorem length_pipe (transfers : Transfers l K m w r s) :
    (s.pipes m).length = 4 * (w.sent (sends l m).length - r.getD 0) := by
  rw [transfers.pipe, length_bytesOf, List.length_drop, List.length_take, Nat.min_eq_left transfers.order.2]

theorem write_advances {c : ℕ} (transfers : Transfers l K m (.write c) r s) :
    Advances l K (.transfer m (.write c) r) s m := by
  obtain ⟨num, pc, same, fds⟩ := transfers.writer
  have row := transfers.row
  have total := length_sends (l := l) (m := m)
  unfold Advances step
  rw [pc]
  dsimp only
  by_cases more : c + 1 < (stage l m).length
  · rw [if_pos more]
    refine ⟨_, rfl, .transfer m (.send c) r, { transfers with
      row := row.update le_rfl (by omega) (fun i ne => goto_other ne) goto_parent rfl
      writer := ⟨num, by rw [goto_self], same, by rw [goto_fds, fds], by omega⟩
      reader := ?_ }, ?_⟩
    · rw [goto_other (by omega)]
      exact transfers.reader
    · change _ + _ + (2 * _ + 1 + _) < _ + _ + (2 * _ + 2 + _)
      omega
  · have all : c = (sends l m).length := by
      have bound := transfers.order.2
      change c ≤ _ at bound
      omega
    rw [if_neg more]
    refine ⟨_, rfl, .transfer m .closed r, ?_, ?_⟩
    · subst all
      refine { transfers with
        row := row.update le_rfl (by omega) (fun i ne => ?_) ?_ rfl
        writer := ⟨by rw [goto_self], ?_⟩
        reader := ?_ }
      · rw [goto_other ne]
        exact setFds_other ne
      · rw [goto_parent]
        unfold State.close
        rw [setFds_self]
      · rw [goto_fds]
        unfold State.close
        rw [setFds_self, fds]
        exact bothEnds_close
      · rw [goto_other (by omega)]
        unfold State.close
        rw [setFds_other (by omega)]
        exact transfers.reader
    · change _ + _ + r.elim _ _ < _ + _ + (2 * _ + 2 + r.elim _ _)
      omega

theorem bytesOf_append {ms : List ℕ} : bytesOf (ns ++ ms) = bytesOf ns ++ bytesOf ms := List.flatMap_append

/-- An `int` goes into the pipe as a whole, or the pipe is full. -/
theorem send_advances {c : ℕ} (transfers : Transfers l K m (.send c) r s) :
    Advances l K (.transfer m (.send c) r) s m ∨ c = r.getD 0 + 128 ∧ step s m = none := by
  obtain ⟨num, pc, same, fds, more⟩ := transfers.writer
  have row := transfers.row
  have size := length_pipe transfers
  have order := transfers.order
  have room := transfers.room
  change (s.pipes m).length = 4 * (c - r.getD 0) at size
  change r.getD 0 ≤ c ∧ c ≤ _ at order
  change c ≤ r.getD 0 + 128 at room
  have reader : s.isOpen m false = true :=
    isOpen_iff.mpr ⟨m, by rw [row.count]; omega, by rw [fds]; exact mem_bothEnds false⟩
  unfold Advances step
  rw [pc]
  dsimp only
  unfold pipewrite
  by_cases full : c = r.getD 0 + 128
  · right
    refine ⟨full, ?_⟩
    have none_left : pipesize - (s.pipes m).length = 0 := by
      change 512 - _ = 0
      omega
    dsimp only
    rw [if_pos none_left, if_pos reader]
  · left
    have space : 4 ≤ pipesize - (s.pipes m).length := by
      change 4 ≤ 512 - _
      omega
    dsimp only
    rw [if_neg (by omega), num_getD same more, List.take_of_length_le (by rw [length_intBytes]; exact space),
      List.drop_of_length_le (by rw [length_intBytes]; exact space)]
    refine ⟨_, rfl, .transfer m (.write (c + 1)) r, { transfers with
      row := row.update le_rfl (by omega) (fun i ne => goto_other ne) goto_parent rfl
      order := ⟨by change _ ≤ c + 1; omega, more⟩
      room := by change c + 1 ≤ _; omega
      pipe := ?_
      writer := ⟨num, by rw [goto_self], same, by rw [goto_fds]; exact fds⟩
      reader := ?_ }, ?_⟩
    · have before := transfers.pipe
      change s.pipes m = bytesOf (((sends l m).take c).drop (r.getD 0)) at before
      change Function.update s.pipes m (s.pipes m ++ intBytes _) m =
        bytesOf (((sends l m).take (c + 1)).drop (r.getD 0))
      have shorter : r.getD 0 ≤ ((sends l m).take c).length := by
        rw [List.length_take]
        omega
      rw [Function.update_self, before, List.take_add_one, List.getElem?_eq_getElem more, Option.toList_some,
        List.drop_append_of_le_length shorter, bytesOf_append]
      rfl
    · rw [goto_other (by omega)]
      exact transfers.reader
    · change _ + _ + (2 * (_ - (c + 1)) + 2 + _) < _ + _ + (2 * _ + 1 + _)
      omega

/-- A process that reads has closed its write end, so the other one has the last. -/
theorem isOpen_write (transfers : Transfers l K m w (some i) s) : s.isOpen m true = true ↔ w ≠ .closed := by
  obtain ⟨_, _, -, -, -, -, fds⟩ := transfers.reader
  have row := transfers.row
  rw [isOpen_iff]
  constructor
  · rintro ⟨k, less, mem⟩ rfl
    rw [row.count] at less
    have closed : (s.procs m).fds = readEnds (m + 1) := transfers.writer.2
    have ends : ∃ q, (s.procs k).fds = readEnds q := by
      have place : k < m ∨ k = m ∨ k = m + 1 := by omega
      rcases place with before | rfl | rfl
      · exact ⟨_, (row.waits k before).2⟩
      · exact ⟨_, closed⟩
      · exact ⟨_, fds⟩
    obtain ⟨q, ends⟩ := ends
    rw [ends] at mem
    exact readEnds_write _ _ mem
  · intro writing
    refine ⟨m, by rw [row.count]; omega, ?_⟩
    have both : (s.procs m).fds = bothEnds m := by
      cases w with
      | write c => exact transfers.writer.choose_spec.2.2
      | send c => exact transfers.writer.choose_spec.2.2.1
      | closed => exact absurd rfl writing
    rw [both]
    exact mem_bothEnds true

theorem closing_advances (transfers : Transfers l K m w none s) : Advances l K (.transfer m w none) s (m + 1) := by
  obtain ⟨num, pc, long, fds⟩ := transfers.reader
  have row := transfers.row
  have order := transfers.order
  unfold Advances step
  rw [pc]
  dsimp only
  refine ⟨_, rfl, .transfer m w (some 0), { transfers with
    row := row.update (Nat.le_succ m) (by omega) (fun i ne => ?_) ?_ rfl
    writer := ?_
    reader := ⟨num, [0, 0, 0, 0], by rw [goto_self]; rfl, long, rfl, rfl, ?_⟩ }, ?_⟩
  · rw [goto_other ne]
    exact setFds_other ne
  · rw [goto_parent]
    unfold State.close
    rw [setFds_self]
  · rw [goto_other (by omega)]
    unfold State.close
    rw [setFds_other (by omega)]
    exact transfers.writer
  · rw [goto_fds]
    unfold State.close
    rw [setFds_self, fds]
    exact bothEnds_close
  · cases w <;> exact Nat.add_lt_add_left (by simp only [left, Option.elim]; omega) _

/-- The next number is in front of the pipe. -/
theorem pipe_cons (transfers : Transfers l K m w (some i) s) (more : i < w.sent (sends l m).length) :
    ∃ inside : i < (sends l m).length, s.pipes m =
      intBytes (sends l m)[i] ++ bytesOf (((sends l m).take (w.sent (sends l m).length)).drop (i + 1)) := by
  have order := transfers.order
  have pipe := transfers.pipe
  change s.pipes m = bytesOf (((sends l m).take _).drop i) at pipe
  have inside : i < ((sends l m).take (w.sent (sends l m).length)).length := by
    rw [List.length_take]
    omega
  refine ⟨by omega, ?_⟩
  rw [pipe, List.drop_eq_getElem_cons inside, List.getElem_take]
  rfl

/-- The child keeps the numbers of the next stage. -/
theorem keep_got {num : List ℕ} {temp : ℕ} (head : (stage l m).headD 0 = temp) (inside : i < (sends l m).length)
    (long : (stage l m).length ≤ num.length) (same : num.take (got l m i).length = got l m i) :
    (keep num temp (got l m i).length (sends l m)[i]).2 = (got l m (i + 1)).length ∧
      (keep num temp (got l m i).length (sends l m)[i]).1.take (got l m (i + 1)).length = got l m (i + 1) ∧
      (stage l m).length ≤ (keep num temp (got l m i).length (sends l m)[i]).1.length := by
  have total := length_sends (l := l) (m := m)
  have few := got_length_le (l := l) (m := m) (i := i)
  have next := got_succ (List.getElem?_eq_getElem inside)
  rw [head] at next
  unfold keep
  by_cases kept : (sends l m)[i] % temp ≠ 0
  · rw [if_pos kept] at next ⊢
    rw [next, List.length_append, List.length_singleton]
    refine ⟨rfl, ?_, by rw [List.length_set]; exact long⟩
    rw [List.take_add_one, List.take_set_of_le le_rfl, same, List.getElem?_set_self (by omega)]
    rfl
  · rw [if_neg kept] at next ⊢
    rw [next]
    exact ⟨rfl, same, long⟩

theorem read_advances (stages : Stages l K) (transfers : Transfers l K m w (some i) s) :
    Advances l K (.transfer m w (some i)) s (m + 1) ∨
      step s (m + 1) = none ∧ i = w.sent (sends l m).length ∧ w ≠ .closed := by
  obtain ⟨num, buf, pc, long, same, four, fds⟩ := transfers.reader
  have row := transfers.row
  have order := transfers.order
  change i ≤ _ ∧ _ at order
  unfold Advances step
  rw [pc]
  dsimp only
  unfold piperead
  by_cases more : i < w.sent (sends l m).length
  · left
    obtain ⟨inside, front⟩ := pipe_cons transfers more
    have small : (sends l m)[i] < 2 ^ 32 := by
      have bound := stages.small _ (mem_stage (List.mem_of_mem_tail (List.getElem_mem inside)))
      omega
    have filled : ¬ s.pipes m = [] := by
      rw [front]
      simp [intBytes]
    have first : (s.pipes m).take 4 = intBytes (sends l m)[i] := by rw [front]; rfl
    have rest : (s.pipes m).drop 4 = bytesOf (((sends l m).take (w.sent (sends l m).length)).drop (i + 1)) := by
      rw [front]; rfl
    have bytes : intBytes (sends l m)[i] ≠ [] := by simp [intBytes]
    have whole : intBytes (sends l m)[i] ++ buf.drop (intBytes (sends l m)[i]).length = intBytes (sends l m)[i] := by
      rw [List.drop_of_length_le (by rw [four, length_intBytes]), List.append_nil]
    obtain ⟨counter, kept, longer⟩ := keep_got rfl inside long same
    rw [if_neg fun both => filled both.1]
    dsimp only
    rw [first, rest, if_neg bytes, whole, ofBytes_intBytes small]
    refine ⟨_, rfl, .transfer m w (some (i + 1)), { transfers with
      row := row.update (Nat.le_succ m) (by omega) (fun i ne => goto_other ne) goto_parent rfl
      order := ⟨more, order.2⟩
      room := ?_
      pipe := Function.update_self ..
      writer := ?_
      reader := ⟨_, _, by rw [goto_self, counter], longer, kept, length_intBytes, by rw [goto_fds]; exact fds⟩ }, ?_⟩
    · have room := transfers.room
      change _ ≤ i + 128 at room
      change _ ≤ i + 1 + 128
      omega
    · rw [goto_other (by omega)]
      exact transfers.writer
    · cases w <;> exact Nat.add_lt_add_left (by simp only [left, Option.elim]; omega) _
  · have all : i = w.sent (sends l m).length := by omega
    have empty : s.pipes m = [] := by
      have size := length_pipe transfers
      change _ = 4 * (_ - i) at size
      exact List.length_eq_zero_iff.mp (by omega)
    by_cases closed : w = .closed
    · left
      have shut : ¬ s.isOpen m true = true := fun up => (isOpen_write transfers).mp up closed
      subst closed
      change i = (sends l m).length at all
      rw [if_neg fun both => shut both.2, empty]
      dsimp only
      rw [if_pos List.take_nil]
      refine ⟨_, rfl, .call (m + 1), ⟨transfers.inside, ?_, transfers.made, transfers.out, ⟨num, ?_, ?_⟩, ?_⟩, ?_⟩
      · refine (row.more transfers.writer).update le_rfl (by omega) (fun i ne => goto_other ne) goto_parent rfl
      · rw [goto_self, all, got_all]
      · rw [← got_all, ← all, same]
      · rw [goto_fds, fds]
      · change (K - (m + 1)) * _ + _ < _ + left _ _ _
        simp only [left, Option.elim]
        omega
    · right
      have up := (isOpen_write transfers).mpr closed
      rw [if_pos ⟨empty, up⟩]
      exact ⟨rfl, all, closed⟩

end Xv6Labs.Primes
