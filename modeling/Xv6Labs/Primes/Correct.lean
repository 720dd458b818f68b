import Xv6Labs.Primes.Chain

/-!
# The chain prints the primes

Every step leads to a later phase, and in every phase but the last some process can make a step.
-/

namespace Xv6Labs.Primes

open Sieve (stage upTo primesUpTo)

variable {l : List ℕ} {K : ℕ} {s s' : State} {m k j i : ℕ} {w : Writer} {r : Option ℕ} {N : ℕ} {φ : Phase}

/-! ### The end of the chain -/

theorem unwinding_advances (unwinds : Unwinds l K j s) : Advances l K (.unwind j) s j := by
  have inside := unwinds.inside
  have row := unwinds.row
  have smaller : rank l K (.exiting j) < rank l K (.unwind j) := Nat.lt_succ_self (2 * j + 1)
  unfold Advances step
  rw [unwinds.proc]
  dsimp only
  by_cases more : j + 1 < K
  · have zombie : s.isZombie j (j + 1) = true := by
      unfold State.isZombie
      rw [row.parents _ more, unwinds.next more]
      simp [parentOf, Pc.isZombie]
    have child : (List.range s.born).any (s.isChild j) = true := by
      rw [List.any_eq_true]
      refine ⟨j + 1, List.mem_range.mpr (row.count ▸ more), ?_⟩
      unfold State.isChild
      rw [row.parents _ more, unwinds.next more]
      simp [parentOf, Pc.isReaped]
    have found : (List.range s.born).find? (s.isZombie j) = some (j + 1) := by
      cases search : (List.range s.born).find? (s.isZombie j) with
      | none => exact absurd zombie (List.find?_eq_none.mp search _ (List.mem_range.mpr (row.count ▸ more)))
      | some i =>
        have parent := List.find?_some search
        have place := List.mem_range.mp (List.mem_of_find?_eq_some search)
        unfold State.isZombie at parent
        rw [Bool.and_eq_true, beq_iff_eq] at parent
        rw [child_eq row (row.count ▸ place) parent.1]
    rw [if_pos child, found]
    dsimp only
    refine ⟨_, rfl, .exiting j, ⟨inside, ?_, unwinds.out, by rw [goto_self], ?_⟩, smaller⟩
    · have reaped : Row (s.goto (j + 1) .reaped) K j :=
        row.update (Nat.le_succ j) more (fun i ne => goto_other ne) goto_parent rfl
      exact reaped.update le_rfl inside (fun i ne => goto_other ne) goto_parent rfl
    · intro k after before
      rw [goto_other (by omega)]
      by_cases next : k = j + 1
      · rw [next, goto_self]
      · rw [goto_other next]
        exact unwinds.later k (by omega) before
  · have childless : ¬ (List.range s.born).any (s.isChild j) = true := by
      rw [List.any_eq_true]
      rintro ⟨i, mem, child⟩
      unfold State.isChild at child
      rw [Bool.and_eq_true, beq_iff_eq] at child
      rw [List.mem_range, row.count] at mem
      have same := child_eq row mem child.1
      omega
    rw [if_neg childless]
    refine ⟨_, rfl, .exiting j, ⟨inside, ?_, unwinds.out, by rw [goto_self], ?_⟩, smaller⟩
    · exact row.update le_rfl inside (fun i ne => goto_other ne) goto_parent rfl
    · omega

theorem exiting_advances (exits : Exits l K j s) : Advances l K (.exiting j) s j := by
  have inside := exits.inside
  have row := exits.row
  unfold Advances step
  rw [exits.proc]
  dsimp only
  have others : ∀ i, i ≠ j → ((s.setFds j []).goto j (.zombie 0)).procs i = s.procs i := by
    intro i ne
    rw [goto_other ne, setFds_other ne]
  have parent : (((s.setFds j []).goto j (.zombie 0)).procs j).parent = (s.procs j).parent := by
    rw [goto_parent, setFds_self]
  have row' : Row ((s.setFds j []).goto j (.zombie 0)) K j := row.update le_rfl inside others parent rfl
  have later : ∀ k, j < k → (((s.setFds j []).goto j (.zombie 0)).procs k).pc = .reaped := by
    intro k after
    rw [others k (by omega)]
    by_cases born : k < K
    · exact exits.later k after born
    · exact row.rest k (by omega)
  cases j with
  | zero => exact ⟨_, rfl, .done, ⟨row'.count, exits.out, by rw [goto_self], later⟩, Nat.succ_pos 0⟩
  | succ j =>
    refine ⟨_, rfl, .unwind j, ⟨by omega, row'.fewer (Nat.le_succ j), exits.out, ?_, fun _ => by rw [goto_self], ?_⟩,
      ?_⟩
    · rw [others j (by omega)]
      exact (row.waits j (Nat.lt_succ_self j)).1
    · intro k after _
      exact later k after
    · change 2 * j + 2 < 2 * (j + 1) + 1
      omega

/-! ### Every step, and some step -/

/-- Of a row whose first `m` processes wait, only the others move. -/
theorem only_last (row : Row s (m + 1) m) (running : (s.procs m).pc.isZombie = false)
    (alive : (s.procs m).pc.isReaped = false) (stepped : step s k = some s') : k = m := by
  by_contra other
  rcases Nat.lt_or_gt_of_ne other with less | more
  · rw [step_before row (Nat.lt_succ_self m) less running alive] at stepped
    cases stepped
  · rw [step_reaped (row.rest k more)] at stepped
    cases stepped

theorem Advances.step (advances : Advances l K φ s k) (stepped : step s k = some s') :
    ∃ φ', Inv l K φ' s' ∧ rank l K φ' < rank l K φ := by
  obtain ⟨next, same, later⟩ := advances
  rw [stepped] at same
  cases same
  exact later

theorem writer_advances (transfers : Transfers l K m w r s) :
    Advances l K (.transfer m w r) s m ∨ step s m = none ∧ (w = .closed ∨ ∃ c, w = .send c ∧ c = r.getD 0 + 128) := by
  cases w with
  | write c => exact .inl (write_advances transfers)
  | send c =>
    rcases send_advances transfers with advances | ⟨full, blocked⟩
    · exact .inl advances
    · exact .inr ⟨blocked, .inr ⟨c, rfl, full⟩⟩
  | closed =>
    have reader : (s.procs (m + 1)).pc.isZombie = false ∧ (s.procs (m + 1)).pc.isReaped = false := by
      cases r with
      | none =>
        obtain ⟨num, pc, -⟩ := transfers.reader
        rw [pc]
        exact ⟨rfl, rfl⟩
      | some i =>
        obtain ⟨num, buf, pc, -⟩ := transfers.reader
        rw [pc]
        exact ⟨rfl, rfl⟩
    exact .inr ⟨step_wait_blocked transfers.row transfers.writer.1 (Nat.lt_succ_self _) reader.1 reader.2, .inl rfl⟩

theorem reader_advances (stages : Stages l K) (transfers : Transfers l K m w r s) :
    Advances l K (.transfer m w r) s (m + 1) ∨
    step s (m + 1) = none ∧ r.getD 0 = w.sent (sends l m).length ∧ w ≠ .closed := by
  cases r with
  | none => exact .inl (closing_advances transfers)
  | some i => exact read_advances stages transfers

theorem writer_running (transfers : Transfers l K m w r s) :
    (s.procs m).pc.isZombie = false ∧ (s.procs m).pc.isReaped = false := by
  cases w with
  | write c =>
    obtain ⟨num, pc, -⟩ := transfers.writer
    rw [pc]
    exact ⟨rfl, rfl⟩
  | send c =>
    obtain ⟨num, pc, -⟩ := transfers.writer
    rw [pc]
    exact ⟨rfl, rfl⟩
  | closed =>
    rw [transfers.writer.1]
    exact ⟨rfl, rfl⟩

/-- Whoever makes a step, the chain comes to a later phase. -/
theorem inv_step (stages : Stages l K) (inv : Inv l K φ s) (stepped : step s k = some s') :
    ∃ φ', Inv l K φ' s' ∧ rank l K φ' < rank l K φ := by
  cases φ with
  | call m =>
    have calling : Calling l K m s := inv
    obtain ⟨num, pc, -⟩ := calling.proc
    obtain rfl := only_last calling.row (by rw [pc]; rfl) (by rw [pc]; rfl) stepped
    exact (calling_advances stages calling).step stepped
  | fork m =>
    have forking : Forking l K m s := inv
    obtain ⟨num, pc, -⟩ := forking.proc
    obtain rfl := only_last forking.row (by rw [pc]; rfl) (by rw [pc]; rfl) stepped
    exact (forking_advances stages forking).step stepped
  | transfer m w r =>
    have transfers : Transfers l K m w r s := inv
    have running := writer_running transfers
    rcases Nat.lt_or_ge k m with before | later
    · rw [step_before transfers.row (by omega) before running.1 running.2] at stepped
      cases stepped
    · by_cases writer : k = m
      · subst writer
        rcases writer_advances transfers with advances | ⟨blocked, -⟩
        · exact advances.step stepped
        · rw [blocked] at stepped
          cases stepped
      · by_cases reader : k = m + 1
        · subst reader
          rcases reader_advances stages transfers with advances | ⟨blocked, -⟩
          · exact advances.step stepped
          · rw [blocked] at stepped
            cases stepped
        · rw [step_reaped (transfers.row.rest k (by omega))] at stepped
          cases stepped
  | unwind j =>
    have unwinds : Unwinds l K j s := inv
    rcases Nat.lt_trichotomy k j with before | rfl | after
    · rw [step_before unwinds.row unwinds.inside before (by rw [unwinds.proc]; rfl)
        (by rw [unwinds.proc]; rfl)] at stepped
      cases stepped
    · exact (unwinding_advances unwinds).step stepped
    · by_cases born : k < K
      · by_cases next : k = j + 1
        · subst next
          rw [step_zombie (unwinds.next born)] at stepped
          cases stepped
        · rw [step_reaped (unwinds.later k (by omega) born)] at stepped
          cases stepped
      · rw [step_reaped (unwinds.row.rest k (by omega))] at stepped
        cases stepped
  | exiting j =>
    have exits : Exits l K j s := inv
    rcases Nat.lt_trichotomy k j with before | rfl | after
    · rw [step_before exits.row exits.inside before (by rw [exits.proc]; rfl) (by rw [exits.proc]; rfl)] at stepped
      cases stepped
    · exact (exiting_advances exits).step stepped
    · by_cases born : k < K
      · rw [step_reaped (exits.later k after born)] at stepped
        cases stepped
      · rw [step_reaped (exits.row.rest k (by omega))] at stepped
        cases stepped
  | done =>
    have done : Done l K s := inv
    rcases Nat.eq_zero_or_pos k with rfl | pos
    · rw [step_zombie done.proc] at stepped
      cases stepped
    · rw [step_reaped (done.later k pos)] at stepped
      cases stepped

/-- Some process can make a step until the chain is done. -/
theorem inv_progress (stages : Stages l K) (inv : Inv l K φ s) : (∃ s', Step s s') ∨ Done l K s := by
  have moves : ∀ {k}, Advances l K φ s k → ∃ s', Step s s' := fun advances => ⟨_, _, advances.choose_spec.1⟩
  cases φ with
  | call m => exact .inl (moves (calling_advances stages inv))
  | fork m => exact .inl (moves (forking_advances stages inv))
  | transfer m w r =>
    have transfers : Transfers l K m w r s := inv
    left
    rcases reader_advances stages transfers with advances | ⟨-, all, writing⟩
    · exact moves advances
    · rcases writer_advances transfers with advances | ⟨-, closed | ⟨c, rfl, full⟩⟩
      · exact moves advances
      · exact absurd closed writing
      · change r.getD 0 = c at all
        omega
  | unwind j => exact .inl (moves (unwinding_advances inv))
  | exiting j => exact .inl (moves (exiting_advances inv))
  | done => exact .inr inv

/-! ### What the processes are doing -/

def Pc.isWorking : Pc → Bool
  | .wait => false
  | .exit _ => false
  | .zombie _ => false
  | .reaped => false
  | _ => true

theorem row_idle (row : Row s i m) (outside : k < m ∨ i ≤ k) : (s.procs k).pc.isWorking = false := by
  rcases outside with before | after
  · rw [(row.waits k before).1]
    rfl
  · rw [row.rest k after]
    rfl

/-- Who is working on its call, or passes numbers. -/
theorem working_phase (inv : Inv l K φ s) (working : (s.procs k).pc.isWorking = true) :
    φ = .call k ∨ φ = .fork k ∨ ∃ m w r, φ = .transfer m w r ∧ (k = m ∨ k = m + 1) := by
  have idle : ¬ (s.procs k).pc.isWorking = false := by
    rw [working]
    exact Bool.noConfusion
  cases φ with
  | call m =>
    have calling : Calling l K m s := inv
    have here : k = m := by
      by_contra other
      exact idle (row_idle calling.row (by omega))
    exact .inl (by rw [here])
  | fork m =>
    have forking : Forking l K m s := inv
    have here : k = m := by
      by_contra other
      exact idle (row_idle forking.row (by omega))
    exact .inr (.inl (by rw [here]))
  | transfer m w r =>
    have transfers : Transfers l K m w r s := inv
    refine .inr (.inr ⟨m, w, r, rfl, ?_⟩)
    by_contra other
    exact idle (row_idle transfers.row (by omega))
  | unwind j =>
    have unwinds : Unwinds l K j s := inv
    refine absurd ?_ idle
    by_cases outside : k < j ∨ K ≤ k
    · exact row_idle unwinds.row outside
    · have place : k = j ∨ k = j + 1 ∨ j + 1 < k := by omega
      rcases place with rfl | rfl | after
      · rw [unwinds.proc]
        rfl
      · rw [unwinds.next (by omega)]
        rfl
      · rw [unwinds.later k after (by omega)]
        rfl
  | exiting j =>
    have exits : Exits l K j s := inv
    refine absurd ?_ idle
    by_cases outside : k < j ∨ K ≤ k
    · exact row_idle exits.row outside
    · have place : k = j ∨ j < k := by omega
      rcases place with rfl | after
      · rw [exits.proc]
        rfl
      · rw [exits.later k after (by omega)]
        rfl
  | done =>
    have done : Done l K s := inv
    refine absurd ?_ idle
    rcases Nat.eq_zero_or_pos k with rfl | pos
    · rw [done.proc]
      rfl
    · rw [done.later k pos]
      rfl

/-- Nobody is called without numbers. -/
theorem count_ne_zero (stages : Stages l K) (inv : Inv l K φ s) {num : List ℕ} {count : ℕ}
    (pc : (s.procs k).pc = .call num count) :
    count ≠ 0 := by
  rcases working_phase inv (by rw [pc]; rfl) with rfl | rfl | ⟨m, w, r, rfl, place⟩
  · have calling : Calling l K k s := inv
    obtain ⟨num', pc', -⟩ := calling.proc
    rw [pc] at pc'
    cases pc'
    exact fun zero => stages.nonempty k calling.inside (List.length_eq_zero_iff.mp zero)
  · have forking : Forking l K k s := inv
    obtain ⟨num', pc', -⟩ := forking.proc
    rw [pc] at pc'
    cases pc'
  · have transfers : Transfers l K m w r s := inv
    rcases place with rfl | rfl
    · cases w with
      | write c =>
        obtain ⟨num', pc', -⟩ := transfers.writer
        rw [pc] at pc'
        cases pc'
      | send c =>
        obtain ⟨num', pc', -⟩ := transfers.writer
        rw [pc] at pc'
        cases pc'
      | closed =>
        have pc' := transfers.writer.1
        rw [pc] at pc'
        cases pc'
    · cases r with
      | none =>
        obtain ⟨num', pc', -⟩ := transfers.reader
        rw [pc] at pc'
        cases pc'
      | some i =>
        obtain ⟨num', buf, pc', -⟩ := transfers.reader
        rw [pc] at pc'
        cases pc'

/-- A `read` gets a whole `int`, or the end of the file. -/
theorem read_whole (inv : Inv l K φ s) {num : List ℕ} {temp p counter : ℕ} {buf bytes rest : List UInt8}
    (pc : (s.procs k).pc = .read num temp p counter buf)
    (read : piperead (s.pipes p) (s.isOpen p true) 4 = some (bytes, rest)) :
    (∃ n ∈ l, bytes = intBytes n) ∨ bytes = [] := by
  rcases working_phase inv (by rw [pc]; rfl) with rfl | rfl | ⟨m, w, r, rfl, place⟩
  · have calling : Calling l K k s := inv
    obtain ⟨num', pc', -⟩ := calling.proc
    rw [pc] at pc'
    cases pc'
  · have forking : Forking l K k s := inv
    obtain ⟨num', pc', -⟩ := forking.proc
    rw [pc] at pc'
    cases pc'
  · have transfers : Transfers l K m w r s := inv
    rcases place with rfl | rfl
    · cases w with
      | write c =>
        obtain ⟨num', pc', -⟩ := transfers.writer
        rw [pc] at pc'
        cases pc'
      | send c =>
        obtain ⟨num', pc', -⟩ := transfers.writer
        rw [pc] at pc'
        cases pc'
      | closed =>
        have pc' := transfers.writer.1
        rw [pc] at pc'
        cases pc'
    · cases r with
      | none =>
        obtain ⟨num', pc', -⟩ := transfers.reader
        rw [pc] at pc'
        cases pc'
      | some i =>
        obtain ⟨num', buf', pc', -⟩ := transfers.reader
        rw [pc] at pc'
        cases pc'
        unfold piperead at read
        split at read
        · cases read
        · cases read
          by_cases more : i < w.sent (sends l p).length
          · obtain ⟨inside, front⟩ := pipe_cons transfers more
            refine .inl ⟨_, mem_stage (List.mem_of_mem_tail (List.getElem_mem inside)), ?_⟩
            rw [front]
            rfl
          · right
            have size := length_pipe transfers
            change _ = 4 * (_ - i) at size
            rw [List.length_eq_zero_iff.mp (by omega : (s.pipes p).length = 0), List.take_nil]

/-! ### Whole runs -/

theorem start_calling (stages : Stages l K) : Inv l K (.call 0) (start l) := by
  refine ⟨stages.pos, ⟨rfl, ?_, ?_, ?_⟩, rfl, rfl, ⟨l, rfl, List.take_length⟩, rfl⟩
  · intro k less
    have first : k = 0 := by omega
    subst first
    rfl
  · intro k born
    change ((if k = 0 then _ else _ : Proc)).pc = .reaped
    rw [if_neg (by omega)]
  · intro k less
    exact absurd less (Nat.not_lt_zero k)

theorem reachable_inv (stages : Stages l K) (run : Relation.ReflTransGen Step (start l) s) : ∃ φ, Inv l K φ s := by
  induction run with
  | refl => exact ⟨.call 0, start_calling stages⟩
  | tail _ step ih =>
    obtain ⟨φ, inv⟩ := ih
    obtain ⟨k, stepped⟩ := step
    obtain ⟨φ', inv', -⟩ := inv_step stages inv stepped
    exact ⟨φ', inv'⟩

/-- No run goes on for ever. -/
theorem runs_end (stages : Stages l K) (run : ℕ → State) (first : run 0 = start l) :
    ∃ n, ¬ Step (run n) (run (n + 1)) := by
  by_contra endless
  rw [not_exists] at endless
  have falls : ∀ n, ∃ φ, Inv l K φ (run n) ∧ rank l K φ + n ≤ rank l K (.call 0) := by
    intro n
    induction n with
    | zero => exact ⟨.call 0, first ▸ start_calling stages, le_rfl⟩
    | succ n ih =>
      obtain ⟨φ, inv, bound⟩ := ih
      obtain ⟨k, stepped⟩ := not_not.mp (endless n)
      obtain ⟨φ', inv', less⟩ := inv_step stages inv stepped
      exact ⟨φ', inv', by omega⟩
  obtain ⟨φ, -, bound⟩ := falls (rank l K (.call 0) + 1)
  omega

/-- The first numbers of the stages are the primes. -/
theorem primes_stages (two : 2 ≤ N) (fits : N < 2 ^ 31) : Stages (upTo N) (primesUpTo N).length where
  pos := (Sieve.first_prime two).choose
  nonempty := by
    intro k inside
    obtain ⟨rest, shape⟩ := Sieve.head_stage two inside
    rw [shape]
    exact List.cons_ne_nil _ _
  single := fun k inside => Sieve.length_stage two inside
  small := by
    intro n mem
    have bound := (Sieve.mem_upTo.mp mem).2
    omega

theorem lines_primes (two : 2 ≤ N) :
    (linesTo (upTo N) (primesUpTo N).length (primesUpTo N).length).map Line.number = primesUpTo N := by
  unfold linesTo
  rw [List.map_map]
  apply List.ext_getElem
  · simp
  · intro k left right
    obtain ⟨rest, shape⟩ := Sieve.head_stage two right
    simp [shape]

/-- Called with `2..N`, the chain ends, and then it has printed the primes up to `N` and every process has exited. On
the way each `read` gets one of the numbers or the end of the file, and there is no call without numbers. -/
theorem primes_correct (two : 2 ≤ N) (fits : N < 2 ^ 31) :
    (∀ run : ℕ → State, run 0 = start (upTo N) → ∃ n, ¬ Step (run n) (run (n + 1))) ∧
    ∀ s, Relation.ReflTransGen Step (start (upTo N)) s →
      (∀ k num count, (s.procs k).pc = .call num count → count ≠ 0) ∧
      (∀ k num temp p counter buf bytes rest, (s.procs k).pc = .read num temp p counter buf →
        piperead (s.pipes p) (s.isOpen p true) 4 = some (bytes, rest) → (∃ n ∈ upTo N, bytes = intBytes n) ∨
        bytes = []) ∧
      ((∀ s', ¬ Step s s') → s.out.map Line.number = primesUpTo N ∧
        ∀ k < s.born, (s.procs k).pc = .zombie 0 ∨ (s.procs k).pc = .reaped) := by
  have stages := primes_stages two fits
  refine ⟨runs_end stages, fun s run => ?_⟩
  obtain ⟨φ, inv⟩ := reachable_inv stages run
  refine ⟨fun k num count => count_ne_zero stages inv, fun k num temp p counter buf bytes rest => read_whole inv,
    fun stuck => ?_⟩
  rcases inv_progress stages inv with ⟨s', step⟩ | done
  · exact absurd step (stuck s')
  · refine ⟨by rw [done.out, lines_primes two], fun k _ => ?_⟩
    rcases Nat.eq_zero_or_pos k with rfl | pos
    · exact .inl done.proc
    · exact .inr (done.later k pos)

/-- The numbers of `main`. -/
theorem primes_correct_35 :
    (∀ run : ℕ → State, run 0 = start (upTo 35) → ∃ n, ¬ Step (run n) (run (n + 1))) ∧
    ∀ s, Relation.ReflTransGen Step (start (upTo 35)) s → (∀ s', ¬ Step s s') →
      s.out.map Line.number = [2, 3, 5, 7, 11, 13, 17, 19, 23, 29, 31] ∧
        ∀ k < s.born, (s.procs k).pc = .zombie 0 ∨ (s.procs k).pc = .reaped := by
  have primes : primesUpTo 35 = [2, 3, 5, 7, 11, 13, 17, 19, 23, 29, 31] := by decide
  have ⟨ends, correct⟩ := primes_correct (N := 35) (by decide) (by decide)
  refine ⟨ends, fun s run stuck => ?_⟩
  rw [← primes]
  exact (correct s run).2.2 stuck

end Xv6Labs.Primes
