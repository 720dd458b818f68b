import Xv6Labs.Intr.Code

/-!
# The invariant of the interrupt state

`Fits` is about a CPU and the thread that it runs, `Parked` about a process that no CPU runs. A step of one CPU that
is not a `swtch` keeps both for the others (`Inv.put`).
-/

namespace Xv6Labs.Intr

variable {C P L : Type} {t : Thread C P} {u : List (Push C P)} {cpu cpu' : Cpu P} {th : Context C P L}
  {pc : Pc C P L} {lk : Lock P L}
  {k : Place P} {lock lock' : Lock P L → Option C} {c c' : C} {p : P} {rest : List P}

/-- `intena` is what interrupts were at the outermost `push_off`. -/
def Trusted (cpu : Cpu P) (u : List (Push C P)) : Prop := ∀ x, u.getLast? = some x → cpu.intena = x.enabled

/-- The call is one of `acquire` in the scheduler's loop, or of other code. `n` is how many `push_off`s are unmatched
in the loop. -/
def Into (n : ℕ) (t : Thread C P) (u : List (Push C P)) (lk : Option (Lock P L)) (k : Place P) : Prop :=
  k = .code ∨ ∃ c p rest, t = .scheduler c ∧ k = .locked p rest ∧ lk = some (.proc p) ∧ u.length = n

/-- The same for `release`. What interrupts were matters only to other code, which `holds` is about. -/
def Outof (n : ℕ) (t : Thread C P) (u : List (Push C P)) (k : Place P) (holds : Prop) : Prop :=
  k = .code ∧ holds ∨ ∃ c rest, t = .scheduler c ∧ k = .visit rest ∧ u.length = n

def PcOk (lock : Lock P L → Option C) (c : C) (t : Thread C P) (cpu : Cpu P) (u : List (Push C P)) : Pc C P L → Prop
  | .between .code => Trusted cpu u
  | .between (.visit _) => (∃ c, t = .scheduler c) ∧ u = []
  | .between (.locked p _) => (∃ c, t = .scheduler c) ∧ u.length = 1 ∧ Trusted cpu u ∧ lock (.proc p) = some c
  | .between (.away p _) => (∃ c, t = .scheduler c) ∧ u.length = 1 ∧ lock (.proc p) = some c
  | .pushGet e lk k => e = cpu.intr ∧ Trusted cpu u ∧ Into 0 t u lk k
  | .pushClear old e lk k => old = cpu.intr ∧ e = cpu.intr ∧ Trusted cpu u ∧ Into 0 t u lk k
  | .pushSave old e lk k => cpu.intr = false ∧ old = e ∧ Trusted cpu u ∧ Into 0 t u lk k
  | .pushCount e lk k => cpu.intr = false ∧ (u = [] → cpu.intena = e) ∧ Trusted cpu u ∧ Into 0 t u lk k
  | .holding lk k => u ≠ [] ∧ Trusted cpu u ∧ Into 1 t u (some lk) k
  | .spin lk k => u ≠ [] ∧ Trusted cpu u ∧ Into 1 t u (some lk) k
  | .popCheck c' k => c' = c ∧ u ≠ [] ∧ Outof 1 t u k (Trusted cpu u)
  | .popCount c' k => c' = c ∧ u ≠ [] ∧ Outof 1 t u k (Trusted cpu u)
  | .popSet c' outer k =>
    c' = c ∧ cpu.intr = false ∧ Outof 0 t u k (Trusted cpu u ∧ (u = [] → ∃ x, outer = some x ∧ cpu.intena = x.enabled))
  | .popReturn outer k => Outof 0 t u k (Trusted cpu u ∧ (u = [] → ∃ x, outer = some x ∧ cpu.intr = x.enabled))
  | .fresh => False
  | .switched v => (∃ p, t = .proc p) ∧ ∃ x, u = [x] ∧ v = x.enabled
  | .panic why => why ≠ .popOff ∧ why ≠ .interruptible

/-- What an interrupt may have interrupted, on whatever CPU it goes on. -/
def Waiting (t : Thread C P) (pc : Pc C P L) : Prop :=
  ∀ (lock : Lock P L → Option C) (c : C) (cpu : Cpu P), cpu.intr = true → PcOk lock c t cpu [] pc

/-- Only the outermost `push_off` of a process may be one that its thread has not made, but a scheduler. -/
def Origin (t : Thread C P) (u : List (Push C P)) : Prop :=
  (∀ x ∈ u.dropLast, x.thread = t) ∧ ∀ x, u.getLast? = some x → x.thread = t ∨
    ∃ c p, x.thread = .scheduler c ∧ t = .proc p

structure Fits (lock : Lock P L → Option C) (c : C) (t : Thread C P) (cpu : Cpu P) (th : Context C P L) : Prop where
  count : cpu.noff = th.unmatched.length
  off : th.unmatched ≠ [] → cpu.intr = false
  pc : PcOk lock c t cpu th.unmatched th.pc
  behind : ∀ pc ∈ th.behind, Waiting t pc
  origin : Origin t th.unmatched

structure Parked (p : P) (th : Context C P L) : Prop where
  pc : th.pc = .fresh ∨ ∃ v x, th.pc = .switched v ∧ th.unmatched = [x] ∧ v = x.enabled
  behind : ∀ pc ∈ th.behind, Waiting (.proc p) pc
  origin : Origin (.proc p) th.unmatched

/-- A scheduler whose CPU runs the process `p`. -/
structure Away (c : C) (p : P) (th : Context C P L) : Prop where
  pc : ∃ rest, th.pc = .between (.away p rest)
  once : th.unmatched.length = 1
  behind : ∀ pc ∈ th.behind, Waiting (.scheduler c) pc
  origin : Origin (.scheduler c) th.unmatched

structure Inv (s : State C P L) : Prop where
  fits : ∀ c, Fits s.lock c (s.on c) (s.cpu c) (s.here c)
  home : ∀ c c', s.on c = .scheduler c' → c' = c
  once : ∀ c c' p, s.on c = .proc p → s.on c' = .proc p → c = c'
  proc : ∀ c p, s.on c = .proc p → (s.cpu c).proc = some p
  away : ∀ c p, s.on c = .proc p → Away c p (s.thread (.scheduler c))
  busy : ∀ c p, s.on c = .proc p → s.state p = .RUNNING ∨ s.lock (.proc p) = some c ∧ s.state p ≠ .UNUSED
  idle : ∀ c c', s.on c = .scheduler c' → (s.cpu c).proc = none ∨ ∃ p rest, (s.here c).pc = .between (.away p rest)
  parked : ∀ p, (∀ c, s.on c ≠ .proc p) → Parked p (s.thread (.proc p)) ∧ s.state p ≠ .RUNNING

/-! ### Small facts -/

theorem trusted_nil : Trusted cpu ([] : List (Push C P)) := fun _ last => absurd last (by simp)

theorem Trusted.congr (trusted : Trusted cpu u) (same : cpu'.intena = cpu.intena) : Trusted cpu' u :=
  fun x last => same.trans (trusted x last)

theorem origin_nil : Origin t [] := ⟨fun _ h => absurd h List.not_mem_nil, fun _ last => absurd last (by simp)⟩

theorem Origin.cons {e : Bool} (origin : Origin t u) : Origin t (⟨t, e⟩ :: u) := by
  cases u with
  | nil =>
    refine ⟨fun _ h => absurd h List.not_mem_nil, fun x last => .inl ?_⟩
    rw [List.getLast?_singleton, Option.some_inj] at last
    rw [← last]
  | cons y u =>
    rw [Origin, List.dropLast_cons_cons, List.getLast?_cons_cons]
    refine ⟨fun x mem => ?_, origin.2⟩
    rcases List.mem_cons.mp mem with rfl | mem
    · rfl
    · exact origin.1 x mem

theorem Origin.tail (origin : Origin t u) : Origin t u.tail := by
  cases u with
  | nil => exact origin
  | cons y u =>
    cases u with
    | nil => exact origin_nil
    | cons z u =>
      rw [Origin, List.dropLast_cons_cons, List.getLast?_cons_cons] at origin
      exact ⟨fun x mem => origin.1 x (List.mem_cons_of_mem y mem), origin.2⟩

theorem PcOk.mono (ok : PcOk lock c t cpu u pc) (locks : ∀ lk, lock lk = some c → lock' lk = some c) :
    PcOk lock' c t cpu u pc := by
  cases pc with
  | between k =>
    cases k with
    | locked p rest => exact ⟨ok.1, ok.2.1, ok.2.2.1, locks _ ok.2.2.2⟩
    | away p rest => exact ⟨ok.1, ok.2.1, locks _ ok.2.2⟩
    | _ => exact ok
  | _ => exact ok

theorem Fits.mono (fits : Fits lock c t cpu th) (locks : ∀ lk, lock lk = some c → lock' lk = some c) :
    Fits lock' c t cpu th :=
  { fits with pc := fits.pc.mono locks }

/-- Interrupts come only where nothing is unmatched, and there the thread can go on anywhere. -/
theorem PcOk.waiting (ok : PcOk lock c t cpu [] pc) (enabled : cpu.intr = true) : Waiting t pc := by
  intro lock' c' cpu' enabled'
  cases pc with
  | between k =>
    cases k with
    | code => exact trusted_nil
    | visit rest => exact ok
    | locked p rest => exact absurd ok.2.1 (by simp)
    | away p rest => exact absurd ok.2.1 (by simp)
  | pushGet e lk k => exact ⟨ok.1.trans (enabled.trans enabled'.symm), trusted_nil, ok.2.2⟩
  | pushClear old e lk k =>
    exact ⟨ok.1.trans (enabled.trans enabled'.symm), ok.2.1.trans (enabled.trans enabled'.symm), trusted_nil, ok.2.2.2⟩
  | pushSave old e lk k => exact absurd (ok.1.symm.trans enabled) (by decide)
  | pushCount e lk k => exact absurd (ok.1.symm.trans enabled) (by decide)
  | holding lk k => exact absurd rfl ok.1
  | spin lk k => exact absurd rfl ok.1
  | popCheck d k => exact absurd rfl ok.2.1
  | popCount d k => exact absurd rfl ok.2.1
  | popSet d outer k => exact absurd (ok.2.1.symm.trans enabled) (by decide)
  | popReturn outer k =>
    rcases ok with ⟨code, -, outermost⟩ | loop
    · obtain ⟨x, outer, before⟩ := outermost rfl
      exact .inl ⟨code, trusted_nil, fun _ => ⟨x, outer, enabled'.trans (enabled.symm.trans before)⟩⟩
    · exact .inr loop
  | fresh => exact ok
  | switched v =>
    obtain ⟨-, x, single, -⟩ := ok
    exact absurd single (List.cons_ne_nil x []).symm
  | panic why => exact ok

/-! ### What the invariant says -/

variable {s s' : State C P L} {e : Bool} {lko : Option (Lock P L)}

theorem Inv.enabled (inv : Inv s) (enabled : (s.cpu c).intr = true) : (s.here c).unmatched = [] := by
  by_contra some
  exact absurd (((inv.fits c).off some).symm.trans enabled) (by decide)

theorem Inv.on_ne (inv : Inv s) (other : c' ≠ c) : s.on c' ≠ s.on c := by
  intro same
  cases on : s.on c with
  | scheduler d => exact other ((inv.home c' d (same.trans on)).symm.trans (inv.home c d on))
  | proc p => exact other (inv.once c' c p (same.trans on) on)

theorem Inv.trusted (inv : Inv s) (pc : (s.here c).pc = .between .code) : Trusted (s.cpu c) (s.here c).unmatched := by
  have ok := (inv.fits c).pc
  rw [pc] at ok
  exact ok

theorem Inv.none_of_scheduler (inv : Inv s) (pc : (s.here c).pc = .between .code) {d : C} (on : s.on c = .scheduler d) :
    (s.cpu c).proc = none := by
  rcases inv.idle c d on with none | ⟨q, rest, away⟩
  · exact none
  · exact absurd (pc.symm.trans away) (by simp)

theorem Into.succ {t : Thread C P} {u : List (Push C P)} {x : Push C P} (into : Into 0 t u lko k) :
    Into 1 t (x :: u) lko k := by
  rcases into with code | ⟨c, p, rest, loop, locked, lock, none⟩
  · exact .inl code
  · exact .inr ⟨c, p, rest, loop, locked, lock, by rw [List.length_cons, none]⟩

/-- What interrupts were at the outermost call is in `intena` from then on. -/
theorem trusted_cons {t : Thread C P} {u : List (Push C P)} {cpu cpu' : Cpu P} (trusted : Trusted cpu u)
    (first : u = [] → cpu.intena = e) (same : cpu'.intena = cpu.intena) : Trusted cpu' (⟨t, e⟩ :: u) := by
  cases u with
  | nil =>
    intro x last
    rw [List.getLast?_singleton, Option.some_inj] at last
    rw [same, first rfl, ← last]
  | cons y u =>
    intro x last
    rw [List.getLast?_cons_cons] at last
    exact same.trans (trusted x last)

/-- Only who holds `p->lock` finds `p` off the CPUs and not running. -/
theorem Inv.off (inv : Inv s) (held : s.lock (.proc p) = some c) (still : s.state p ≠ .RUNNING)
    (here : s.on c ≠ .proc p) (d : C) :
    s.on d ≠ .proc p := by
  intro on
  rcases inv.busy d p on with running | ⟨held', -⟩
  · exact still running
  · obtain rfl := Option.some_inj.mp (held.symm.trans held')
    exact here on

theorem Parked.entered {lock : Lock P L → Option C} {cpu : Cpu P} {th : Context C P L} {u : List (Push C P)}
    (parked : Parked p th)
    (count : cpu.noff = u.length) (one : u.length = 1) (off : cpu.intr = false) (trusted : Trusted cpu u)
    (origin : Origin (.scheduler c) u) :
    Fits lock c (.proc p) cpu (th.entered u) := by
  rcases parked.pc with fresh | ⟨v, x, switched, single, saved⟩
  · have new : th.entered u = { pc := .between .code, unmatched := u } := by
      rw [Context.entered, fresh]
    rw [new]
    refine ⟨count, fun _ => off, trusted, fun _ h => absurd h List.not_mem_nil, ?_⟩
    obtain ⟨x, rfl⟩ := List.length_eq_one_iff.mp one
    refine ⟨fun _ h => absurd h List.not_mem_nil, fun y last => .inr ?_⟩
    rcases origin.2 y last with mine | ⟨b, q, theirs, -⟩
    · exact ⟨c, p, mine, rfl⟩
    · exact ⟨b, p, theirs, rfl⟩
  · have same : th.entered u = th := by
      rw [Context.entered, switched]
    rw [same]
    refine ⟨?_, fun _ => off, ?_, parked.behind, parked.origin⟩
    · rw [count, one, single]
      rfl
    · rw [switched]
      exact ⟨⟨p, rfl⟩, x, single, saved⟩

/-- Between two calls, `myproc()` is the process of the thread. -/
theorem Inv.on_proc (inv : Inv s) (pc : (s.here c).pc = .between .code) (mine : (s.cpu c).proc = some p) :
    s.on c = .proc p := by
  cases on : s.on c with
  | scheduler d =>
    rcases inv.idle c d on with none | ⟨q, rest, away⟩
    · exact absurd (mine.symm.trans none) (by simp)
    · exact absurd (pc.symm.trans away) (by simp)
  | proc q =>
    obtain rfl := Option.some_inj.mp (mine.symm.trans (inv.proc c q on))
    rfl

theorem boot_inv : Inv (boot : State C P L) := by
  refine ⟨fun c => ⟨rfl, fun some => absurd rfl some, trusted_nil, fun _ h => absurd h List.not_mem_nil, origin_nil⟩,
    fun c d on => ?_,
    fun c d p on => ?_, fun c p on => ?_, fun c p on => ?_, fun c p on => ?_, fun c d on => .inl rfl,
    fun p _ => ⟨?_, by simp [boot]⟩⟩
  · exact (Thread.scheduler.inj on).symm
  · exact absurd on (by simp [boot])
  · exact absurd on (by simp [boot])
  · exact absurd on (by simp [boot])
  · exact absurd on (by simp [boot])
  · exact ⟨.inl rfl, fun _ h => absurd h List.not_mem_nil, origin_nil⟩

variable [DecidableEq C] [DecidableEq P]

/-! ### Steps without a `swtch` -/

/-- A step of `c` on its own data, on its thread, and on the locks. -/
def State.put (s : State C P L) (c : C) (cpu : Cpu P) (lock : Lock P L → Option C) (th : Context C P L) : State C P L :=
  { s with cpu := Function.update s.cpu c cpu, lock, thread := Function.update s.thread (s.on c) th }

theorem State.setHere_eq : s.setHere c th = s.put c (s.cpu c) s.lock th := by
  rw [State.put, Function.update_eq_self]
  rfl

theorem State.goto_eq : s.goto c pc = s.put c (s.cpu c) s.lock { s.here c with pc } := State.setHere_eq

theorem State.setCpu_eq : s.setCpu c cpu = s.put c cpu s.lock (s.here c) := by
  rw [State.put, State.here, Function.update_eq_self]
  rfl

theorem State.setLock_goto [DecidableEq L] {h : Option C} :
    (s.setLock lk h).goto c pc = s.put c (s.cpu c) (Function.update s.lock lk h) { s.here c with pc } := by
  rw [State.put, Function.update_eq_self]
  rfl

theorem State.here_put : (s.put c cpu lock th).here c = th := Function.update_self ..

theorem Inv.put (inv : Inv s) (fits : Fits lock c (s.on c) cpu th)
    (proc : ∀ p, s.on c = .proc p → cpu.proc = (s.cpu c).proc)
    (idle : ∀ d, s.on c = .scheduler d → cpu.proc = none ∨ ∃ p rest, th.pc = .between (.away p rest))
    (others : ∀ lk d, d ≠ c → s.lock lk = some d → lock lk = some d)
    (own : ∀ p, s.on c = .proc p → s.state p ≠ .RUNNING → s.lock (.proc p) = some c → lock (.proc p) = some c) :
    Inv (s.put c cpu lock th) := by
  have cpus : ∀ d, d ≠ c → (s.put c cpu lock th).cpu d = s.cpu d := fun d other => Function.update_of_ne other ..
  have threads : ∀ u, u ≠ s.on c → (s.put c cpu lock th).thread u = s.thread u :=
    fun u other => Function.update_of_ne other ..
  have cpuHere : (s.put c cpu lock th).cpu c = cpu := Function.update_self ..
  have here : ∀ d, d ≠ c → (s.put c cpu lock th).here d = s.here d := fun d other => threads _ (inv.on_ne other)
  refine ⟨fun d => ?_, inv.home, inv.once, fun d p on => ?_, fun d p on => ?_, fun d p on => ?_, fun d d' on => ?_,
    fun p off => ?_⟩
  · by_cases same : d = c
    · subst same
      rw [cpuHere, State.here_put]
      exact fits
    · rw [cpus d same, here d same]
      exact (inv.fits d).mono fun lk => others lk d same
  · by_cases same : d = c
    · subst same
      rw [cpuHere, proc p on]
      exact inv.proc d p on
    · rw [cpus d same]
      exact inv.proc d p on
  · have asleep : Thread.scheduler d ≠ s.on c := by
      intro running
      obtain rfl := inv.home c d running.symm
      exact absurd (running.trans on) (by simp)
    rw [threads _ asleep]
    exact inv.away d p on
  · rcases inv.busy d p on with running | ⟨held, used⟩
    · exact .inl running
    · by_cases running : s.state p = .RUNNING
      · exact .inl running
      · by_cases same : d = c
        · subst same
          exact .inr ⟨own p on running held, used⟩
        · exact .inr ⟨others _ d same held, used⟩
  · by_cases same : d = c
    · subst same
      rw [cpuHere, State.here_put]
      exact idle d' on
    · rw [cpus d same, here d same]
      exact inv.idle d d' on
  · rw [threads _ fun same => off c same.symm]
    exact inv.parked p off

/-- A step that has nothing to do with locks or with `c->proc`. -/
theorem Inv.stay (inv : Inv s) (fits : Fits s.lock c (s.on c) cpu th) (proc : cpu.proc = (s.cpu c).proc)
    (here : ∀ p rest, (s.here c).pc ≠ .between (.away p rest)) : Inv (s.put c cpu s.lock th) := by
  refine inv.put fits (fun _ _ => proc) (fun d on => ?_) (fun _ _ _ held => held) fun _ _ _ held => held
  rcases inv.idle c d on with none | ⟨p, rest, away⟩
  · exact .inl (proc.trans none)
  · exact absurd away (here p rest)

theorem Inv.goto (inv : Inv s) (ok : PcOk s.lock c (s.on c) (s.cpu c) (s.here c).unmatched pc)
    (here : ∀ p rest, (s.here c).pc ≠ .between (.away p rest)) : Inv (s.goto c pc) := by
  rw [State.goto_eq]
  exact inv.stay { inv.fits c with pc := ok } rfl here

/-- `lk->cpu = 0`, or the panic. -/
theorem Inv.release [DecidableEq L] (inv : Inv s) (undo : (s.here c).unmatched ≠ [])
    (back : Outof 1 (s.on c) (s.here c).unmatched k (Trusted (s.cpu c) (s.here c).unmatched))
    (own : ∀ p, s.on c = .proc p → lk = .proc p → s.state p = .RUNNING)
    (idle : ∀ d, s.on c = .scheduler d → (s.cpu c).proc = none) :
    Inv (s.release c lk k) := by
  rw [State.release]
  by_cases held : s.lock lk = some c
  · rw [if_pos held, State.setLock_goto]
    have still : ∀ lk' d, lk' ≠ lk → s.lock lk' = some d → Function.update s.lock lk none lk' = some d := by
      intro lk' d other before
      rw [Function.update_of_ne other]
      exact before
    have fits := inv.fits c
    refine inv.put ⟨fits.count, fits.off, ⟨rfl, undo, back⟩, fits.behind, fits.origin⟩ (fun _ _ => rfl)
      (fun d on => .inl (idle d on)) ?_ ?_
    · intro lk' d other before
      refine still lk' d ?_ before
      rintro rfl
      exact other (Option.some_inj.mp (before.symm.trans held))
    · intro p on leaving before
      exact still _ c (fun same => leaving (own p on same.symm)) before
  · rw [if_neg held, State.goto_eq]
    have fits := inv.fits c
    exact inv.put { fits with pc := ⟨by decide, by decide⟩ } (fun _ _ => rfl) (fun d on => .inl (idle d on))
      (fun _ _ _ h => h) fun _ _ _ h => h

theorem Inv.pushOff {lk : Option (Lock P L)} (inv : Inv s) (trusted : Trusted (s.cpu c) (s.here c).unmatched)
    (into : Into 0 (s.on c) (s.here c).unmatched lk k) (here : ∀ p rest, (s.here c).pc ≠ .between (.away p rest)) :
    Inv (s.pushOff c lk k) :=
  inv.goto ⟨rfl, trusted, into⟩ here

end Xv6Labs.Intr
