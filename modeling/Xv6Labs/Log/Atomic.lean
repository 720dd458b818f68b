import Xv6Labs.Log.Crash

/-!
# Crash atomicity

The system boots from a disk with an empty log, runs, and crashes in the middle of any call. After recovery, which
may crash and start again, the home blocks hold the writes of the operations that some commit has covered, all of
them, and nothing of the operations after that.
-/

namespace Xv6Labs.Log

open Bio Threads Prog

variable {sb : Superblock} {disk disk' disk₀ : UInt32 → Block} {t : Tid} {s : Kernel} {c c₀ : Conf} {i : Fin nbuf}

/-! ### After the boot -/

theorem Recovered.refs (done : Recovered sb disk s) (free : ∀ i, s.lock i = none) (zero : ∀ i, (s.buf i).refcnt = 0) :
    RefInv s := by
  have unlisted : ∀ i, ¬Pinned s i := by
    rintro i ⟨-, k, -, less, -⟩
    rw [done.empty] at less
    exact Nat.not_lt_zero k less
  refine ⟨done.calm.filed, done.calm.distinct,
    blank_inv done.calm.phase done.empty done.calm.counts done.calm.trans, fun i => ?_, fun k _ less => ?_,
    fun _ => done.unpinned⟩
  · have none : refCount s i = 0 := by
      unfold refCount
      simp only [free, done.calm.idle, waits_none, Finset.sum_const_zero]
      rw [pins, if_neg (unlisted i)]
      rfl
    rw [zero, none]
    rfl
  · rw [done.empty] at less
    exact (Nat.not_lt_zero k less).elim

theorem Recovered.pins (done : Recovered sb disk s) : PinInv s := by
  refine ⟨?_, fun _ _ => done.empty⟩
  rintro i ⟨-, k, -, less, -⟩
  rw [done.empty] at less
  exact (Nat.not_lt_zero k less).elim

theorem Recovered.clean (done : Recovered sb disk s) : CleanInv s := by
  constructor
  · intro i dirty
    rw [done.calm.clean i (Set.notMem_empty i)] at dirty
    cases dirty
  · intro i root valid _ _
    exact done.calm.backed i (Set.notMem_empty i) root valid

theorem Recovered.data (nonempty : 0 < sb.nlog.toNat) (empty : headN (disk sb.logstart) = 0)
    (done : Recovered sb disk s) : DataInv sb disk s := by
  obtain ⟨calm, cleared, -, header, homes⟩ := done
  obtain ⟨ops, durable, finished⟩ := calm.numbers
  rw [recovered_empty empty] at homes
  have replayed : ∀ m, replay disk (upTo m s.writes) = disk := by
    intro m
    rw [calm.writes]
    rfl
  have out : ∀ t, (s.ctl.phase t).running ≠ 1 ∧ ¬(s.ctl.phase t).Committing := by
    intro t
    rw [calm.phase]
    exact ⟨by decide, id⟩
  constructor
  · intro i dirty
    rw [calm.clean i (Set.notMem_empty i)] at dirty
    cases dirty
  · intro i root valid _
    rw [calm.backed i (Set.notMem_empty i) root valid]
    by_cases home : Home sb (s.buf i).blockno
    · rw [current_home home, calm.writes]
      exact homes _ home
    · rw [current_log home]
  · intro n home _
    rw [calm.writes]
    exact homes n home
  · rintro i ⟨-, k, -, less, -⟩
    rw [cleared] at less
    exact (Nat.not_lt_zero k less).elim
  · intro k less
    rw [cleared] at less
    exact (Nat.not_lt_zero k less).elim
  · exact fun _ => header
  · exact Sound.empty nonempty header
  · intro n home
    rw [recovered_empty header, replayed]
    exact homes n home
  · intro w member
    rw [calm.writes] at member
    cases member
  · exact fun t running => ((out t).1 running).elim
  · omega
  · rw [durable]
    exact List.mem_cons_self
  · exact fun t busy => ((out t).2 busy).elim

/-- A boot from an empty log returns, and leaves no references. -/
theorem boot_run (empty : headN (disk sb.logstart) = 0) :
    ∃ s, (recover_from_log sb).run (exec sb t) (boot disk) = some ((), s) ∧ (∀ i, s.lock i = none) ∧
      ∀ i, (s.buf i).refcnt = 0 := by
  have none : ∀ {p : ℕ → Prop}, ∀ j < headN (disk sb.logstart), p j := by
    intro p j less
    rw [empty] at less
    exact (Nat.not_lt_zero j less).elim
  obtain ⟨s, ran, strays⟩ := recover_run sb t disk (by rw [empty]; decide) none fun _ _ => none
  rw [empty] at strays
  exact ⟨s, ran, strays.free, strays.none_iff.mpr rfl⟩

theorem boot_recovered (sound : Sound sb disk)
    (ran : (recover_from_log sb).run (exec sb 0) (boot disk) = some ((), s)) :
    Recovered sb disk s :=
  (run_post (solo_recover sound) ⟨sound, fun _ _ => rfl⟩ ran).2

theorem booted_good (nonempty : 0 < sb.nlog.toNat) (empty : headN (disk sb.logstart) = 0) (booted : Booted sb disk c) :
    Good sb disk c.shared ∧ c.code = (fun _ => .ret ()) ∧ ∀ t, Settled t c.shared := by
  obtain ⟨ran, code⟩ := booted
  obtain ⟨s, ran', free, zero⟩ := boot_run (t := 0) empty
  rw [ran] at ran'
  cases ran'
  have done := boot_recovered (Sound.empty nonempty empty) ran
  have none : ∀ {i t}, c.shared.lock i ≠ some t := by
    intro i t held
    rw [free] at held
    cases held
  refine ⟨⟨done.refs free zero, done.pins, done.clean, fun _ => done.data nonempty empty⟩, code, fun t => ?_⟩
  refine ⟨⟨?_, done.calm.idle t, fun i held => (none held).elim⟩, fun i held => (none held).elim⟩
  rw [done.calm.phase]
  exact id

theorem booted_settled (nonempty : 0 < sb.nlog.toNat) (empty : headN (disk sb.logstart) = 0)
    (booted : Booted sb disk c) : c.Safe (rules sb disk) (exec sb) Settled := by
  obtain ⟨good, code, settled⟩ := booted_good nonempty empty booted
  refine ⟨good, fun t => ?_⟩
  rw [code]
  apply wp_ret
  intro s frame _
  exact (settled t).frame frame

theorem booted_safe (nonempty : 0 < sb.nlog.toNat) (empty : headN (disk sb.logstart) = 0) (booted : Booted sb disk c) :
    c.Safe (rules sb disk) (exec sb) Idle := by
  obtain ⟨good, threads⟩ := booted_settled nonempty empty booted
  exact ⟨good, fun t => wp_mono (threads t) fun _ _ _ settled => settled.toIdle⟩

theorem running_good (nonempty : 0 < sb.nlog.toNat) (empty : headN (disk sb.logstart) = 0) (booted : Booted sb disk c₀)
    (run : Relation.ReflTransGen (Running sb) c₀ c) : Good sb disk c.shared :=
  ((booted_safe nonempty empty booted).run (fun _ _ _ _ idle offered => offered_wp nonempty idle offered) run).1

/-! ### Crashes -/

theorem crashes_recoverable (sound : Sound sb disk) (crashes : Relation.ReflTransGen (Crashes sb) disk disk') :
    Recoverable sb disk disk' := by
  induction crashes with
  | refl => exact ⟨sound, fun _ _ => rfl⟩
  | tail _ crash ih =>
    obtain ⟨s, visits, rfl⟩ := crash
    have again := visits_inv (solo_recover ih.sound) ⟨ih.sound, fun _ _ => rfl⟩ visits
    exact ⟨again.sound, fun n home => (again.same n home).trans (ih.same n home)⟩

/-- The home blocks hold what the first `m` operations have written, where `m` operations had begun at some commit,
and no operation whose commit had finished is missing. -/
theorem crash_atomic (nonempty : 0 < sb.nlog.toNat) (empty : headN (disk₀ sb.logstart) = 0)
    (booted : Booted sb disk₀ c₀) (run : Relation.ReflTransGen (Running sb) c₀ c) (fits : c.shared.short = false)
    (crashes : Relation.ReflTransGen (Crashes sb) c.shared.disk disk) (recovers : Recovers sb disk disk') :
    ∃ m ∈ 0 :: c.shared.commits, c.shared.finished ≤ m ∧
      ∀ n, Home sb n → disk' n = replay disk₀ (upTo m c.shared.writes) n := by
  have inv := (running_good nonempty empty booted run).data fits
  have same := crashes_recoverable inv.sound crashes
  obtain ⟨s, ran, rfl⟩ := recovers
  refine ⟨c.shared.durable, inv.member, inv.bounds.1, fun n home => ?_⟩
  rw [(boot_recovered same.sound ran).homes n home, same.same n home, inv.durable n home]

/-- The file system of `mkfs`, less its data: the log starts at block 2. -/
def mkfs : Superblock := ⟨2, 30⟩

def zeros : UInt32 → Block := fun _ _ => 0

def sevens : Block := fun _ => 7

/-- A call that process 0 makes on its own. -/
def after (p : Code Unit) (s : Kernel) : Kernel := ((p.run (exec mkfs 0) s).map Prod.snd).getD s

theorem after_ran {p : Code Unit} (h : (p.run (exec mkfs 0) s).isSome = true) :
    p.run (exec mkfs 0) s = some ((), after p s) := by
  unfold after
  cases result : p.run (exec mkfs 0) s with
  | none =>
    rw [result] at h
    cases h
  | some x => rfl

theorem after_step (menu : Tid → Kernel → Code Unit → Prop) {p : Code Unit}
    (h : (p.run (exec mkfs 0) s).isSome = true) (offered : menu 0 s p) :
    Relation.ReflTransGen (Threads.Step (exec mkfs) menu) ⟨s, fun _ => .ret ()⟩ ⟨after p s, fun _ => .ret ()⟩ := by
  have call : Threads.Step (exec mkfs) menu ⟨s, fun _ => .ret ()⟩ _ := .call 0 p rfl offered
  have rest := Step.run menu (fun _ => .ret ()) (after_ran h)
  rw [Function.update_eq_self] at rest
  exact .head call rest

theorem after_running {p : Code Unit} (h : (p.run (exec mkfs 0) s).isSome = true) (offered : Offered mkfs 0 s p) :
    Relation.ReflTransGen (Running mkfs) ⟨s, fun _ => .ret ()⟩ ⟨after p s, fun _ => .ret ()⟩ :=
  after_step _ h offered

def booted : Kernel := after (recover_from_log mkfs) (boot zeros)

/-- An operation changes block 50 and logs it. -/
def reading : Kernel := after (bread 50 >>= fun _ => pure ()) (after begin_op booted)

def changed : Kernel := after (act (.store 1 fun _ => sevens)) reading

def ending : Kernel := after (brelse 1) (after (log_write 1) changed)

theorem ending_running : Relation.ReflTransGen (Running mkfs) ⟨booted, fun _ => .ret ()⟩
    ⟨ending, fun _ => .ret ()⟩ := by
  have home : ∀ s : Kernel, (s.buf 1).blockno = 50 → Home mkfs (s.buf 1).blockno := by
    intro s block
    rw [block]
    unfold Home
    decide +kernel
  have begins := after_running (s := booted) (p := begin_op) (by decide +kernel) .begin_op
  have reads : Relation.ReflTransGen _ _ (⟨reading, fun _ => .ret ()⟩ : Conf) :=
    after_running (by decide +kernel) (.bread 50)
  have changes : Relation.ReflTransGen _ _ (⟨changed, fun _ => .ret ()⟩ : Conf) :=
    after_running (by decide +kernel) (.change 1 _ (by decide +kernel) (home _ (by decide +kernel))
      ⟨∅, by decide +kernel⟩)
  have logs := after_running (s := changed) (p := log_write 1) (by decide +kernel)
    (.log_write 1 (by decide +kernel) (home _ (by decide +kernel)) ⟨∅, by decide +kernel⟩)
  have releases : Relation.ReflTransGen _ _ (⟨ending, fun _ => .ret ()⟩ : Conf) :=
    after_running (by decide +kernel) (.brelse 1 (by decide +kernel) (by decide +kernel))
  exact (((begins.trans reads).trans changes).trans logs).trans releases

/-- The header is on the disk, block 50 is not; then recovery has written block 50, but not the header. -/
@[irreducible] def crashed : Kernel := ((end_op mkfs).visit (exec mkfs 0) 22 ending).getD ending

@[irreducible] def crashedAgain : Kernel :=
  ((recover_from_log mkfs).visit (exec mkfs 0) 20 (boot crashed.disk)).getD (boot crashed.disk)

theorem visit_visits {p : Code Unit} {m : ℕ} (h : (p.visit (exec mkfs 0) m s).isSome = true) :
    Visits (exec mkfs 0) p s ((p.visit (exec mkfs 0) m s).getD s) := by
  cases result : p.visit (exec mkfs 0) m s with
  | none =>
    rw [result] at h
    cases h
  | some x => exact visits_of_visit result

theorem booted_of (ran : (recover_from_log sb).run (exec sb 0) (boot disk) = some ((), s)) :
    Booted sb disk ⟨s, fun _ => .ret ()⟩ := ⟨ran, rfl⟩

theorem crashes_of (visits : Visits (exec sb 0) (recover_from_log sb) (boot disk) s) : Crashes sb disk s.disk :=
  ⟨s, visits, rfl⟩

theorem recovers_of (ran : (recover_from_log sb).run (exec sb 0) (boot disk) = some ((), s)) :
    Recovers sb disk s.disk := ⟨s, ran, rfl⟩

theorem visits_running {p : Code Unit} {x : Kernel} (offered : Offered sb t s p) (visits : Visits (exec sb t) p s x) :
    ∃ code, Relation.ReflTransGen (Running sb) ⟨s, fun _ => .ret ()⟩ ⟨x, code⟩ := by
  have call : Running sb ⟨s, fun _ => .ret ()⟩ _ := .call t p rfl offered
  obtain ⟨q, rest⟩ := Step.visits (Offered sb) (fun _ => .ret ()) visits
  exact ⟨_, .head call rest⟩

theorem crash_atomic_committed :
    ∃ c disk disk', Relation.ReflTransGen (Running mkfs) ⟨booted, fun _ => .ret ()⟩ c ∧
      c.shared.disk 50 = zeros 50 ∧ Relation.ReflTransGen (Crashes mkfs) c.shared.disk disk ∧
      Recovers mkfs disk disk' ∧ disk' 50 = sevens ∧
      ∃ m ∈ 0 :: c.shared.commits, c.shared.finished ≤ m ∧
        ∀ n, Home mkfs n → disk' n = replay zeros (upTo m c.shared.writes) n := by
  have ran : (recover_from_log mkfs).run (exec mkfs 0) (boot zeros) = some ((), booted) := after_ran (by decide +kernel)
  have commits : Visits (exec mkfs 0) (end_op mkfs) ending crashed := by
    unfold crashed
    exact visit_visits (by decide +kernel)
  obtain ⟨code, last⟩ := visits_running (.end_op (by decide +kernel)) commits
  have run := ending_running.trans last
  have visits : Visits (exec mkfs 0) (recover_from_log mkfs) (boot crashed.disk) crashedAgain := by
    unfold crashedAgain
    exact visit_visits (by decide +kernel)
  have again := Relation.ReflTransGen.single (crashes_of visits)
  have recovers := recovers_of (after_ran (p := recover_from_log mkfs) (s := boot crashedAgain.disk)
    (by decide +kernel))
  have old : crashed.disk 50 = zeros 50 := by decide +kernel
  have fits : crashed.short = false := by decide +kernel
  exact ⟨⟨crashed, code⟩, _, _, run, old, again, recovers, by decide +kernel,
    crash_atomic (by decide) (by decide) (booted_of ran) run fits again recovers⟩

end Xv6Labs.Log
