import Xv6Labs.Kalloc.SysinfoInv

/-!
# What `calsize` counts

The walk of `calsize` is right as long as `kalloc` does not take the page that the walk has got to. Taken, that page is
overwritten, and the walk follows the junk.
-/

namespace Xv6Labs.Kalloc.Single

open LinkedChain

variable {image : Image} {s s' : State} {t u : Tid} {seen : List State} {r count n p : ℕ} {l l' : List ℕ}

theorem Inv.step (inv : Inv image s l) (h : step image s u = some s') :
    ∃ l', Inv image s' l' ∧ Change s s' l l' ∧ Links s s' l l' := by
  have own := inv.threads u
  have others (a : State) (pc : Pc) (t : Tid) (other : t ≠ u) : (a.goto u pc).pc t = a.pc t :=
    goto_pc_other a u pc other
  have alone (t : Tid) (other : t ≠ u) : some t ≠ some u := fun same => other (Option.some.inj same)
  cases pc : s.pc u with
  | idle | panic => simp [Single.step, pc] at h
  | allocAcquire | freeAcquire pa =>
    rw [pc] at own
    simp only [Single.step, pc, State.acquire] at h
    split at h
    case isFalse => cases h
    case isTrue free =>
      cases h
      refine inv.still u (fun t => others _ _ t) (fun t other held => ?_) rfl rfl rfl ?_
      · rw [free] at held
        cases held
      · rw [goto_pc]
        first
          | exact rfl
          | exact ⟨rfl, own⟩
  | allocRead =>
    rw [pc] at own
    simp only [Single.step, pc, Option.some.injEq] at h
    subst h
    refine inv.still u (fun t => others _ _ t) (fun _ _ held => held) rfl rfl rfl ?_
    rw [goto_pc]
    exact ⟨own, rfl⟩
  | allocTake r =>
    rw [pc] at own
    obtain ⟨held, head⟩ := own
    simp only [Single.step, pc, Option.some.injEq, State.take] at h
    split at h
    case isTrue zero =>
      subst h
      refine inv.still u (fun t => others _ _ t) (fun _ _ held => held) rfl rfl rfl ?_
      rw [goto_pc]
      exact ⟨held, fun nonzero => absurd zero nonzero⟩
    case isFalse nonzero =>
      subst h
      have pages := inv.pages
      rw [head] at pages
      obtain ⟨rest, split, pages⟩ := pages.take nonzero u
      refine ⟨rest, inv.next (u := u) ⟨fun t => others _ _ t, fun _ _ held => held,
        fun _ _ _ mem => List.mem_cons_of_mem _ mem,
        fun t other held' => ?_, fun _ _ _ _ => rfl⟩ pages ?_, .take u r rest split nonzero pc (goto_pc ..),
        fun _ _ _ => rfl⟩
      · exact absurd (Option.some.inj (held'.symm.trans held)) other
      · rw [goto_pc]
        exact ⟨held, fun _ => List.mem_cons_self⟩
  | allocRelease r =>
    rw [pc] at own
    simp only [Single.step, pc, Option.some.injEq] at h
    subst h
    refine inv.still u (fun t => others _ _ t) (fun t other held => ?_) rfl rfl rfl ?_
    · exact absurd (Option.some.inj (held.symm.trans own.1)) other
    · rw [State.release, goto_pc]
      split
      · rename_i zero
        exact fun nonzero => absurd rfl nonzero
      · rename_i nonzero
        exact own.2 nonzero
  | freeRelease =>
    rw [pc] at own
    simp only [Single.step, pc, Option.some.injEq] at h
    subst h
    refine inv.still u (fun t => others _ _ t) (fun t other held => ?_) rfl rfl rfl ?_
    · exact absurd (Option.some.inj (held.symm.trans own)) other
    · rw [State.release, goto_pc]
      trivial
  | fill r =>
    rw [pc] at own
    simp only [Single.step, pc, Option.some.injEq] at h
    subst h
    refine inv.scribble own u alone (fun a out => if_neg out) (fun t => others _ _ t) rfl rfl rfl ?_
    rw [goto_pc]
    exact fun _ => own
  | ret r =>
    rw [pc] at own
    simp only [Single.step, pc, Option.some.injEq] at h
    subst h
    split
    · refine inv.still u (fun t => others _ _ t) (fun _ _ held => held) rfl rfl rfl ?_
      rw [goto_pc]
      trivial
    · rename_i nonzero
      exact inv.pass (own nonzero) u alone trivial
  | free pa =>
    rw [pc] at own
    simp only [Single.step, pc, Option.some.injEq, if_neg (inv.pages.out_page own).not_bad] at h
    subst h
    refine inv.still u (fun t => others _ _ t) (fun _ _ held => held) rfl rfl rfl ?_
    rw [goto_pc]
    exact own
  | freeFill pa =>
    rw [pc] at own
    simp only [Single.step, pc, Option.some.injEq] at h
    subst h
    refine inv.scribble own u alone (fun a out => if_neg out) (fun t => others _ _ t) rfl rfl rfl ?_
    rw [goto_pc]
    exact own
  | freeLink pa =>
    rw [pc] at own
    simp only [Single.step, pc, Option.some.injEq] at h
    subst h
    refine inv.scribble own.2 u alone (fun a out => Function.update_of_ne ?_ _ _) (fun t => others _ _ t) rfl rfl rfl ?_
    · rintro rfl
      exact out ⟨le_rfl, Nat.lt_add_of_pos_right (by decide)⟩
    · rw [goto_pc]
      exact ⟨own.1, own.2, Function.update_self ..⟩
  | freePush pa =>
    rw [pc] at own
    obtain ⟨held, there, link⟩ := own
    simp only [Single.step, pc, Option.some.injEq] at h
    subst h
    refine ⟨pa :: l, inv.next (u := u) ⟨fun t => others _ _ t, fun _ _ held => held, fun t other p mem => ?_,
      fun t other held' => ?_, fun _ _ _ _ => rfl⟩ (inv.pages.push there link) ?_, .push pa, fun _ _ _ => rfl⟩
    · refine (List.mem_erase_of_ne ?_).mpr mem
      intro same
      exact alone t other (congrArg Prod.fst same)
    · exact absurd (Option.some.inj (held'.symm.trans held)) other
    · rw [goto_pc]
      exact held
  | sizeRead | sized =>
    simp only [Single.step, pc, Option.some.injEq] at h
    subst h
    refine inv.still u (fun t => others _ _ t) (fun _ _ held => held) rfl rfl rfl ?_
    rw [goto_pc]
    trivial
  | walk r count =>
    simp only [Single.step, pc, Option.some.injEq, State.round] at h
    subst h
    split_ifs <;>
    · refine inv.still u (fun t => others _ _ t) (fun _ _ held => held) rfl rfl rfl ?_
      rw [goto_pc]
      trivial

theorem Inv.steps (inv : Inv image s l) (h : Step image s s') :
    ∃ l', Inv image s' l' ∧ Change s s' l l' ∧ Links s s' l l' := by
  cases h with
  | run u h => exact inv.step h
  | kalloc u idle | calsize u idle =>
    refine inv.still u (fun t => goto_pc_other _ _ _) (fun _ _ held => held) rfl rfl rfl ?_
    rw [goto_pc]
    trivial
  | kfree u pa idle allocated =>
    exact inv.pass allocated u (fun t _ => Option.some_ne_none t) List.mem_cons_self
  | write pa a w allocated inside =>
    have outside (b : ℕ) (out : ¬ (pa ≤ b ∧ b < pa + pgsize)) : Function.update s.mem a w b = s.mem b := by
      refine Function.update_of_ne ?_ _ _
      rintro rfl
      exact out inside
    obtain ⟨list, others⟩ := inv.pages.written allocated outside
    -- No thread takes part, so that each of them is one of the others.
    have still (u : Tid) : Guarantee u s { s with mem := Function.update s.mem a w } :=
      ⟨fun _ _ => rfl, fun _ _ held => held, fun _ _ _ mem => mem, fun _ _ _ => rfl,
        fun t _ p mem => others (some t) p mem (Option.some_ne_none t)⟩
    refine ⟨l, ⟨inv.pages.congr list, fun t => ?_⟩, .same, fun p mem _ => list p mem⟩
    exact (inv.threads t).stable (still (t + 1)) (Nat.succ_ne_self t).symm

theorem Reachable.inv (reach : Reachable image s) : ∃ l, Inv image s l := by
  obtain ⟨s₀, start, steps⟩ := reach
  induction steps with
  | refl =>
    obtain ⟨l, chain, once, page⟩ := start.pages
    exact ⟨l, ⟨chain, once, page⟩, fun t => by rw [start.idle t]; trivial⟩
  | tail _ step ih =>
    obtain ⟨l, inv⟩ := ih
    obtain ⟨l', inv', -⟩ := inv.steps step
    exact ⟨l', inv'⟩

theorem Reachable.step (reach : Reachable image s) (h : Step image s s') : Reachable image s' := by
  obtain ⟨s₀, start, steps⟩ := reach
  exact ⟨s₀, start, steps.tail h⟩

/-! ### The walk -/

/-- Thread `t` has just called `calsize` in a reachable state. -/
def Entered (image : Image) (t : Tid) (s : State) : Prop :=
  ∃ a, Reachable image a ∧ a.pc t = .idle ∧ s = a.goto t .sizeRead

/-- Thread `t` is inside a call of `calsize`, and `R` has led from each state to the next. -/
abbrev During (image : Image) (t : Tid) (R : State → State → Prop) : List State → State → Prop :=
  History.During (Entered image t) (fun s => s.pc t ≠ .idle) R

/-- `kalloc` does not take the page that the walk of `t` has got to. -/
def Undisturbed (t : Tid) (s s' : State) : Prop :=
  ∀ u r count, s.pc u = .allocTake r → s'.pc u = .allocRelease r → r ≠ 0 → s.pc t ≠ .walk r count

/-- The walk has still to count the pages `rest` at the end of the list, and will have counted `n` then. -/
structure Walks (mem : ℕ → ℕ) (l : List ℕ) (r count n : ℕ) : Prop where
  left : ∃ done rest, l = done ++ rest ∧ Chain mem r rest ∧ count + rest.length = n

theorem Walks.change (walks : Walks s.mem l r count n) (change : Change s s' l l') (links : Links s s' l l')
    (clear : ∀ u, s.pc u = .allocTake r → s'.pc u = .allocRelease r → r = 0) : Walks s'.mem l' r count n := by
  obtain ⟨done, rest, split, chain, total⟩ := walks.left
  subst split
  cases change with
  | same => exact ⟨done, rest, rfl, chain.congr fun p mem =>
      links p (List.mem_append_right _ mem) (List.mem_append_right _ mem), total⟩
  | push pa =>
    have mem {p : ℕ} (there : p ∈ rest) : p ∈ done ++ rest := List.mem_append_right _ there
    exact ⟨pa :: done, rest, rfl, chain.congr fun p there =>
      links p (mem there) (List.mem_cons_of_mem _ (mem there)), total⟩
  | take u q _ cut nonzero before after =>
    cases done with
    | nil =>
      -- The page that is taken would be the one that the walk has got to.
      rw [List.nil_append] at cut
      subst cut
      obtain ⟨rfl, -, -⟩ := chain
      exact absurd (clear u before after) nonzero
    | cons d done =>
      obtain ⟨rfl, rfl⟩ := List.cons.inj cut
      exact ⟨done, rest, rfl, chain.congr fun p there =>
        links p (List.mem_cons_of_mem _ (List.mem_append_right _ there))
        (List.mem_append_right _ there), total⟩

theorem Pages.length_le {mem : ℕ → ℕ} {freelist : ℕ} {out : List (Option Tid × ℕ)}
    (pages : Pages image mem freelist out l) :
    l.length ≤ (phystop - kernbase) / pgsize := by
  have nodup : l.Nodup := (List.nodup_append.mp pages.once).1
  have loaded := image.loaded
  have inside : l.toFinset.image (· / pgsize) ⊆ Finset.Ico (kernbase / pgsize) (phystop / pgsize) := by
    intro q mem
    obtain ⟨p, there, rfl⟩ := Finset.mem_image.mp mem
    have page := pages.list_page (List.mem_toFinset.mp there)
    unfold IsPage pgsize phystop kernbase at page
    unfold kernbase at loaded
    rw [Finset.mem_Ico]
    unfold pgsize phystop kernbase
    omega
  have apart : Set.InjOn (· / pgsize) (l.toFinset : Set ℕ) := by
    intro p mem q mem' same
    have page := (pages.list_page (List.mem_toFinset.mp mem)).1
    have page' := (pages.list_page (List.mem_toFinset.mp mem')).1
    have same : p / pgsize = q / pgsize := same
    unfold pgsize at *
    omega
  have card := Finset.card_le_card inside
  rw [Finset.card_image_of_injOn apart, Nat.card_Ico, List.toFinset_card_of_nodup nodup] at card
  exact card.trans (by decide)

theorem step_others (h : step image s u = some s') (other : t ≠ u) : s'.pc t = s.pc t := by
  have moved (a : State) (pc : Pc) : (a.goto u pc).pc t = a.pc t := goto_pc_other a u pc other
  unfold Single.step at h
  simp only [State.acquire, State.release, State.take, State.pass, State.round] at h
  split at h
  all_goals (repeat' split at h)
  all_goals first | (obtain rfl := Option.some.inj h; exact moved _ _) | cases h

theorem Step.own (h : Step image s s') (busy : s.pc t ≠ .idle) : step image s t = some s' ∨ s'.pc t = s.pc t := by
  cases h with
  | run u h =>
    by_cases same : t = u
    · subst same
      exact .inl h
    · exact .inr (step_others h same)
  | kalloc u idle | kfree u _ idle | calsize u idle =>
    refine .inr (goto_pc_other _ _ _ ?_)
    rintro rfl
    exact busy idle
  | write => exact .inr rfl

/-- The points of `calsize`. -/
def Pc.Sizing : Pc → Prop
  | .sizeRead | .walk _ _ | .sized _ | .idle => True
  | _ => False

/-- What the walk of `t` knows, where the list is `l`: it counts the pages that were free when it began. -/
structure Knows (t : Tid) (seen : List State) (s : State) (l : List ℕ) : Prop where
  sizing : (s.pc t).Sizing
  walk : ∀ r count, s.pc t = .walk r count → ∃ x ∈ seen, ∃ n, x.FreePages n ∧ n ≤ (phystop - kernbase) / pgsize ∧
    Walks s.mem l r count n
  sized : ∀ size, s.pc t = .sized size → ∃ x ∈ seen, ∃ n, x.FreePages n ∧ size = pgsize * n

theorem Knows.others (knows : Knows t seen s l) (same : s'.pc t = s.pc t)
    (walks : ∀ r count n, s.pc t = .walk r count → Walks s.mem l r count n → Walks s'.mem l' r count n) :
    Knows t (s' :: seen) s' l' := by
  refine ⟨by rw [same]; exact knows.sizing, fun r count here => ?_, fun size here => ?_⟩
  · rw [same] at here
    obtain ⟨x, mem, n, free, bound, left⟩ := knows.walk r count here
    exact ⟨x, List.mem_cons_of_mem _ mem, n, free, bound, walks r count n here left⟩
  · rw [same] at here
    obtain ⟨x, mem, n, free, exact_⟩ := knows.sized size here
    exact ⟨x, List.mem_cons_of_mem _ mem, n, free, exact_⟩

/-- The walk goes on to the next page. -/
theorem Walks.next {mem : ℕ → ℕ} (walks : Walks mem l r count n) (nonzero : r ≠ 0) :
    r ∈ l ∧ Walks mem l (mem r) (count + 1) n := by
  obtain ⟨done, rest, split, chain, total⟩ := walks.left
  obtain ⟨rest, rfl, tail⟩ := chain.head nonzero
  rw [List.length_cons] at total
  exact ⟨by rw [split]; simp, done ++ [r], rest, by simp [split], tail, by omega⟩

theorem Walks.over {mem : ℕ → ℕ} (walks : Walks mem l 0 count n) : count = n := by
  obtain ⟨done, rest, -, chain, total⟩ := walks.left
  cases rest with
  | nil => exact total
  | cons p rest => exact absurd chain.1.symm chain.2.1

theorem Knows.step (knows : Knows t seen s l) (inv : Inv image s l) (h : step image s t = some s')
    (mem : s'.mem = s.mem) (busy : s.pc t ≠ .idle) : Knows t (s' :: seen) s' l := by
  have sizing := knows.sizing
  cases pc : s.pc t with
  | sizeRead =>
    simp only [Single.step, pc, Option.some.injEq] at h
    subst h
    refine ⟨by rw [goto_pc]; trivial, fun r count here => ?_, fun size here => ?_⟩
    · rw [goto_pc] at here
      cases here
      exact ⟨_, List.mem_cons_self, l.length, ⟨l, inv.pages.chain, rfl⟩, inv.pages.length_le, [], l, rfl,
        inv.pages.chain, Nat.zero_add _⟩
    · rw [goto_pc] at here
      cases here
  | walk r count =>
    obtain ⟨x, there, n, free, bound, walks⟩ := knows.walk r count pc
    simp only [Single.step, pc, Option.some.injEq, State.round] at h
    subst h
    by_cases zero : r = 0
    · subst zero
      rw [if_pos rfl]
      refine ⟨by rw [goto_pc]; trivial, fun r count here => ?_, fun size here => ?_⟩
      · rw [goto_pc] at here
        cases here
      · rw [goto_pc] at here
        cases here
        refine ⟨x, List.mem_cons_of_mem _ there, n, free, ?_⟩
        rw [walks.over, Nat.mul_comm, Nat.mod_eq_of_lt]
        have small : (phystop - kernbase) / pgsize < 2 ^ 52 := by decide
        unfold pgsize at *
        omega
    · obtain ⟨mem, walks⟩ := walks.next zero
      have page := inv.pages.list_page mem
      have inside : ¬ (r < kernbase ∨ phystop ≤ r) := by
        have loaded := image.loaded
        unfold IsPage at page
        omega
      rw [if_neg zero, if_neg inside]
      refine ⟨by rw [goto_pc]; trivial, fun r' count' here => ?_, fun size here => ?_⟩
      · rw [goto_pc] at here
        cases here
        exact ⟨x, List.mem_cons_of_mem _ there, n, free, bound, walks⟩
      · rw [goto_pc] at here
        cases here
  | sized size =>
    simp only [Single.step, pc, Option.some.injEq] at h
    subst h
    refine ⟨by rw [goto_pc]; trivial, fun r count here => ?_, fun size here => ?_⟩ <;>
    · rw [goto_pc] at here
      cases here
  | idle => exact absurd pc busy
  | _ =>
    rw [pc] at sizing
    exact sizing.elim

/-- A step of `calsize` leaves the list as it is. -/
theorem Change.sizing (change : Change s s' l l') (inv : Inv image s l) (inv' : Inv image s' l')
    (h : step image s t = some s') (sizing : (s.pc t).Sizing) (busy : s.pc t ≠ .idle) : s'.mem = s.mem ∧ l' = l := by
  have same : s'.mem = s.mem ∧ s'.freelist = s.freelist := by
    cases pc : s.pc t with
    | sizeRead | sized =>
      simp only [Single.step, pc, Option.some.injEq] at h
      subst h
      exact ⟨rfl, rfl⟩
    | walk =>
      simp only [Single.step, pc, Option.some.injEq, State.round] at h
      subst h
      split_ifs <;> exact ⟨rfl, rfl⟩
    | idle => exact absurd pc busy
    | _ =>
      rw [pc] at sizing
      exact sizing.elim
  have chain := inv'.pages.chain
  rw [same.1, same.2] at chain
  exact ⟨same.1, chain.unique inv.pages.chain⟩

/-- A page on the free list. -/
def State.OnList (s : State) (p : ℕ) : Prop := ∃ l, Chain s.mem s.freelist l ∧ p ∈ l

theorem calsize_exact (run : During image t (fun a b => Step image a b ∧ Undisturbed t a b) seen s) :
    (∀ r count, s.pc t = .walk r count → (r ≠ 0 → s.OnList r) ∧ count ≤ (phystop - kernbase) / pgsize) ∧
      s.pc t ≠ .panic ∧
    ∀ size, s.pc t = .sized size → ∃ x ∈ seen, ∃ n, x.FreePages n ∧ size = pgsize * n := by
  suffices h : ∃ l, Inv image s l ∧ Knows t seen s l by
    obtain ⟨l, inv, knows⟩ := h
    refine ⟨fun r count here => ?_, fun here => ?_, knows.sized⟩
    · obtain ⟨x, -, n, -, bound, walks⟩ := knows.walk r count here
      obtain ⟨-, rest, -, -, total⟩ := walks.left
      exact ⟨fun nonzero => ⟨l, inv.pages.chain, (walks.next nonzero).1⟩, by omega⟩
    · have sizing := knows.sizing
      rw [here] at sizing
      exact sizing
  induction run with
  | enter h =>
    obtain ⟨a, reach, idle, rfl⟩ := h
    obtain ⟨l, inv⟩ := (reach.step (.calsize t idle)).inv
    refine ⟨l, inv, by rw [goto_pc]; trivial, fun r count here => ?_, fun size here => ?_⟩ <;>
    · rw [goto_pc] at here
      cases here
  | @next seen s s' before busy step ih =>
    obtain ⟨l, inv, knows⟩ := ih
    obtain ⟨step, clear⟩ := step
    obtain ⟨l', inv', change, links⟩ := inv.steps step
    rcases step.own busy with own | same
    · obtain ⟨mem, rfl⟩ := change.sizing inv inv' own knows.sizing busy
      exact ⟨l', inv', knows.step inv own mem busy⟩
    · refine ⟨l', inv', knows.others same fun r count n here walks =>
        walks.change change links fun u taking taken => ?_⟩
      by_contra nonzero
      exact clear u r count taking taken nonzero here

/-! ### Two pages -/

inductive Move where
  | run (t : Tid)
  | kalloc (t : Tid)
  deriving DecidableEq

def next (image : Image) : Move → State → Option State
  | .run t, s => Single.step image s t
  | .kalloc t, s => if s.pc t = .idle then some (s.goto t .allocAcquire) else none

theorem step_of_next {m : Move} (h : next image m s = some s') : Step image s s' := by
  cases m with
  | run t => exact .run t h
  | kalloc t =>
    simp only [next] at h
    split at h
    case isTrue idle =>
      cases h
      exact .kalloc t idle
    case isFalse => cases h

/-- Plays the moves that `ok` allows, as long as `t` is in its call. -/
def play (image : Image) (t : Tid) (ok : Move → Bool) : List Move → State → Option State
  | [], s => some s
  | m :: moves, s => if s.pc t ≠ .idle ∧ ok m = true then (next image m s).bind (play image t ok moves) else none

theorem during_of_play {R : State → State → Prop} (ok : Move → Bool) (P : State → Bool) (moves : List Move)
    (run : During image t R seen s) (rel : ∀ m a b, ok m = true → next image m a = some b → R a b)
    (played : (play image t ok moves s).any P = true) : ∃ seen' s', During image t R seen' s' ∧ P s' = true := by
  induction moves generalizing seen s with
  | nil => exact ⟨seen, s, run, by simpa [play] using played⟩
  | cons m moves ih =>
    unfold play at played
    split at played
    case isFalse => cases played
    case isTrue fine =>
      cases moved : next image m s with
      | none =>
        rw [moved] at played
        cases played
      | some a =>
        rw [moved] at played
        exact ih (run.next fine.1 (rel m s a fine.2 moved)) played

/-- The allocator has the last two pages of memory. -/
def twoPages : Image := ⟨phystop - 2 * pgsize, by decide⟩

def bothFree : State where
  mem a := if a = phystop - 2 * pgsize then phystop - pgsize else 0
  freelist := phystop - 2 * pgsize
  lock := none
  pc _ := .idle
  out := []

theorem bothFree_start : Start twoPages bothFree :=
  ⟨fun _ => rfl, rfl, (fun _ mem => nomatch mem),
    [phystop - 2 * pgsize, phystop - pgsize], ⟨rfl, by decide, rfl, by decide, rfl⟩, by decide, by decide⟩

theorem bothFree_called {R : State → State → Prop} :
    During twoPages 1 R [bothFree.goto 1 .sizeRead] (bothFree.goto 1 .sizeRead) :=
  .enter ⟨bothFree, ⟨bothFree, bothFree_start, .refl⟩, rfl, rfl⟩

theorem calsize_exact_alone : ∃ (seen : List State) (s : State),
    During twoPages 1 (fun a b => Step twoPages a b ∧ Undisturbed 1 a b) seen s ∧ s.pc 1 = .sized (2 * pgsize) ∧
    ∃ x ∈ seen, ∃ n, x.FreePages n ∧ 2 * pgsize = pgsize * n := by
  obtain ⟨seen, s, run, done⟩ := during_of_play
    (R := fun a b => Step twoPages a b ∧ Undisturbed 1 a b) (fun m => decide (m = .run 1))
    (fun s => decide (s.pc 1 = .sized (2 * pgsize))) (List.replicate 4 (.run 1)) bothFree_called
    (fun m a b alone moved => ⟨step_of_next moved, fun u r count taking taken _ walking => by
      cases of_decide_eq_true alone
      by_cases same : u = 1
      · subst same
        rw [walking] at taking
        cases taking
      · rw [step_others moved same, taking] at taken
        cases taken⟩) (by decide +kernel)
  have size := of_decide_eq_true done
  exact ⟨seen, s, run, size, (calsize_exact run).2.2 _ size⟩

/-- `calsize` has got to the first page when `kalloc` takes it and fills it with junk: the walk goes on at the junk. -/
theorem calsize_follows_junk : ∃ (image : Image) (seen : List State) (s : State), During image 1 (Step image) seen s ∧
    s.pc 1 = .walk junkAlloc 1 ∧ ¬ s.OnList junkAlloc := by
  obtain ⟨seen, s, run, done⟩ := during_of_play (R := Step twoPages) (fun _ => true)
    (fun s => decide (s.pc 1 = .walk junkAlloc 1 ∧ s.freelist = phystop - pgsize ∧ s.mem (phystop - pgsize) = 0))
    (.run 1 :: .kalloc 0 :: List.replicate 5 (.run 0) ++ [.run 1]) bothFree_called
    (fun _ _ _ _ moved => step_of_next moved) (by decide +kernel)
  obtain ⟨here, head, last⟩ := of_decide_eq_true done
  refine ⟨twoPages, seen, s, run, here, ?_⟩
  rintro ⟨l, chain, mem⟩
  have rest : Chain s.mem (s.mem (phystop - pgsize)) [] := last
  have one : Chain s.mem s.freelist [phystop - pgsize] := by
    rw [head]
    exact rest.cons (by decide)
  rw [chain.unique one, List.mem_singleton] at mem
  exact absurd mem (by decide)

end Xv6Labs.Kalloc.Single
