import Xv6Labs.Console.Code
import Xv6Labs.Fs.Calls
import Xv6Labs.Pipe.Faults

/-!
# What `read` stores

A `read` of a pipe or of the console stores at most `n` bytes, and of a negative `n` none. A `read` of an inode takes
`n` for unsigned in `readi`.
-/

namespace Xv6Labs

open Threads Prog

/-! ### Pipes -/

namespace Pipes

open Proc (Slot)

variable {t : Monitor.Thread} {p : Slot} {s s' : Monitor.State pipe} {dst : ℕ → Bool}
  {env : Monitor.State pipe → Monitor.State pipe → Prop}

theorem takeAll_length {left : ℕ} {bytes : List UInt8} :
    Sees env (Monitor.exec t) (takeAll dst left bytes) s fun es out _ =>
    copiedBy es = [] ∧ out.length ≤ bytes.length + left := by
  induction left generalizing s bytes with
  | zero => exact .pure ⟨rfl, le_rfl⟩
  | succ left ih =>
    unfold takeAll
    refine .bind (.lift fun _ (empty : Bool) _ _ _ => ?_)
    by_cases none : empty = true
    · rw [if_pos none]
      exact .pure ⟨rfl, Nat.le_add_right _ _⟩
    · rw [if_neg none]
      refine .bind (.lift fun _ (ch : UInt8) _ _ _ => ?_)
      by_cases reached : dst bytes.length = true
      · rw [if_pos reached]
        refine ih.mono fun es out _ seen => ⟨seen.1, ?_⟩
        have most := seen.2
        rw [List.length_append, List.length_singleton] at most
        omega
      · rw [if_neg reached]
        exact .pure ⟨rfl, Nat.le_add_right _ _⟩

theorem piperead_bounded {n : ℤ} {fuel : ℕ} : Sees env (Monitor.exec t) (piperead p dst n fuel) s fun es r _ =>
    r ≤ max n 0 ∧ ((copiedBy es).length : ℤ) ≤ max n 0 := by
  unfold piperead
  refine .bind ((Sees.only silent_acquire).mono fun es₁ _ _ silent₁ => ?_)
  refine .bind ((Sees.only silent_awaitData).mono fun es₂ ready _ silent₂ => ?_)
  have quiet₁ := (silent_events silent₁).2.2
  have quiet₂ := (silent_events silent₂).2.2
  cases ready with
  | false =>
    rw [if_neg Bool.false_ne_true]
    refine .bind (.lift fun _ _ _ _ _ => .bind ((Sees.only silent_release).mono fun es₃ _ _ silent₃ => .pure ?_))
    have quiet₃ := (silent_events silent₃).2.2
    simp only [copiedBy_append, quiet₁, quiet₂, quiet₃]
    refine ⟨by omega, ?_⟩
    change ((0 : ℕ) : ℤ) ≤ max n 0
    omega
  | true =>
    rw [if_pos rfl]
    refine .bind (takeAll_length.mono fun es₃ bytes _ took => ?_)
    refine .bind ((Sees.only (silent_wakeup _)).mono fun es₄ _ _ silent₄ => .bind (.lift fun _ r _ _ _ => ?_))
    refine .bind ((Sees.only silent_release).mono fun es₅ _ _ silent₅ => .pure ?_)
    obtain ⟨quiet₃, most⟩ := took
    have quiet₄ := (silent_events silent₄).2.2
    have quiet₅ := (silent_events silent₅).2.2
    have report : copiedBy [(⟨.op (.returns n bytes.length bytes), r⟩ : PipeEvent)] = bytes := List.append_nil _
    simp only [copiedBy_append, quiet₁, quiet₂, quiet₃, quiet₄, quiet₅, report, List.nil_append, List.append_nil]
    rw [List.length_nil, Nat.zero_add] at most
    omega

end Pipes

/-! ### The console -/

namespace Console

open Monitor
open Proc (Slot)

variable {t : Thread} {p : Slot} {s : Monitor.State console} {dst : ℕ → Bool}
  {env : Monitor.State console → Monitor.State console → Prop}

abbrev ConsoleEvent : Type := Threads.Event (Act console) Monitor.Res

/-- The bytes that a `consoleread` has copied out. -/
def copiedOut (es : List ConsoleEvent) : List UInt8 :=
  es.filterMap fun e => match e.1 with
    | .op (.copyout _ c) => some c
    | _ => none

theorem copiedOut_append {es es' : List ConsoleEvent} : copiedOut (es ++ es') = copiedOut es ++ copiedOut es' :=
  List.filterMap_append ..

/-- An action that copies nothing out. -/
def Silent : Act console → Prop
  | .op (.copyout _ _) => False
  | _ => True

theorem copiedOut_silent {es : List ConsoleEvent} (silent : ∀ e ∈ es, Silent e.1) : copiedOut es = [] := by
  refine List.filterMap_eq_nil_iff.mpr fun e mem => ?_
  have quiet := silent e mem
  obtain ⟨a, r⟩ := e
  dsimp only at quiet ⊢
  split
  · exact quiet.elim
  · rfl

theorem silent_sleep (c : Chan) : (Monitor.sleep (O := console) p c).Only Silent := by
  unfold Monitor.sleep
  iterate 8 refine Only.bind ⟨trivial, fun _ => trivial⟩ fun _ => ?_
  exact ⟨trivial, fun _ => trivial⟩

theorem silent_awaitInput (fuel : ℕ) : (awaitInput p fuel).Only Silent := by
  induction fuel with
  | zero => exact ⟨trivial, fun e => nomatch e⟩
  | succ fuel ih =>
    unfold awaitInput
    refine Only.bind ⟨trivial, fun _ => trivial⟩ fun _ => .ite ?_ trivial
    exact Only.bind ⟨trivial, fun _ => trivial⟩ fun _ => .ite trivial ((silent_sleep _).bind fun _ => ih)

theorem readLine_copied {id target fuel n : ℕ} :
    Sees env (Monitor.exec t) (readLine p id dst target fuel n) s fun es _ _ =>
    (copiedOut es).length ≤ n := by
  induction n generalizing s with
  | zero => exact .pure le_rfl
  | succ n ih =>
    unfold readLine
    refine .bind ((Sees.only (silent_awaitInput fuel)).mono fun es₁ ready _ silent => ?_)
    have quiet := copiedOut_silent silent
    by_cases idle : ready = true
    · rw [if_pos idle]
      refine .bind (.lift fun _ (c : UInt8) _ _ _ => ?_)
      have took : copiedOut [(⟨.op .take, c⟩ : ConsoleEvent)] = [] := rfl
      by_cases ends : c = endOfFile
      · rw [if_pos ends]
        by_cases later : n + 1 < target
        · rw [if_pos later]
          refine .bind (.lift fun _ r _ _ _ => .pure ?_)
          have last : copiedOut [(⟨.op .putBack, r⟩ : ConsoleEvent)] = [] := rfl
          simp only [copiedOut_append, quiet, took, last]
          exact Nat.zero_le _
        · rw [if_neg later]
          refine .bind (.lift fun _ r _ _ _ => .pure ?_)
          have last : copiedOut [(⟨.op (.eof id), r⟩ : ConsoleEvent)] = [] := rfl
          simp only [copiedOut_append, quiet, took, last]
          exact Nat.zero_le _
      · rw [if_neg ends]
        by_cases reached : dst (target - (n + 1)) = true
        · rw [if_pos reached]
          refine .bind (.lift fun _ r _ _ _ => ?_)
          have one : copiedOut [(⟨.op (.copyout id c), r⟩ : ConsoleEvent)] = [c] := rfl
          by_cases line : c = newline
          · rw [if_pos line]
            refine .pure ?_
            simp only [copiedOut_append, quiet, took, one]
            exact Nat.succ_le_succ (Nat.zero_le _)
          · rw [if_neg line]
            refine ih.mono fun es₂ _ _ most => ?_
            simp only [copiedOut_append, quiet, took, one, List.nil_append, List.length_append, List.length_singleton]
            omega
        · rw [if_neg reached]
          refine .pure ?_
          simp only [copiedOut_append, quiet, took]
          exact Nat.zero_le _
    · rw [if_neg idle]
      refine .pure ?_
      simp only [copiedOut_append, quiet]
      exact Nat.zero_le _

theorem consoleread_bounded {n : ℤ} {fuel : ℕ} : Sees env (Monitor.exec t) (consoleread p dst n fuel) s fun es r _ =>
    r ≤ max n 0 ∧ ((copiedOut es).length : ℤ) ≤ max n 0 := by
  unfold consoleread
  refine .bind (.lift fun _ r₁ _ _ _ => .bind (.lift fun _ (id : ℕ) _ _ _ =>
    .bind (readLine_copied.mono fun es left _ most => ?_)))
  have first : copiedOut [(⟨.acquire .cond, r₁⟩ : ConsoleEvent)] = [] := rfl
  have second : copiedOut [(⟨.op .begins, id⟩ : ConsoleEvent)] = [] := rfl
  cases left with
  | none =>
    refine .bind (.lift fun _ r₃ _ _ _ => .bind (.lift fun _ r₄ _ _ _ => .pure ?_))
    have third : copiedOut [(⟨.op (.returns id (-1)), r₃⟩ : ConsoleEvent)] = [] := rfl
    have fourth : copiedOut [(⟨.release .cond, r₄⟩ : ConsoleEvent)] = [] := rfl
    simp only [copiedOut_append, first, second, third, fourth, List.nil_append, List.append_nil]
    omega
  | some left =>
    refine .bind (.lift fun _ r₃ _ _ _ => .bind (.lift fun _ r₄ _ _ _ => .pure ?_))
    have third : copiedOut [(⟨.op (.returns id (n.toNat - left : ℕ)), r₃⟩ : ConsoleEvent)] = [] := rfl
    have fourth : copiedOut [(⟨.release .cond, r₄⟩ : ConsoleEvent)] = [] := rfl
    simp only [copiedOut_append, first, second, third, fourth, List.nil_append, List.append_nil]
    omega

end Console

/-! ### Inodes -/

namespace Fs

/-- How many of the `m` bytes at `dst + tot` a `copyout` stores before a page is not mapped. -/
def stores (pages : Pages) (dst : UInt64) (tot m : ℕ) : ℕ :=
  ((List.range m).find? fun k => (pages (pgrounddown (dst + UInt64.ofNat (tot + k)))).isNone).getD m

/-- The loop of `readi`: its result, and the number of bytes that it has stored. -/
def storeLoop (pages : Pages) (dst : UInt64) (n : ℕ) : ℕ → ℕ → ℕ → ℕ × ℕ
  | 0, _, tot => (tot, tot)
  | fuel + 1, off, tot =>
    if tot < n then
      let m := chunk off n tot
      if stores pages dst tot m = m then storeLoop pages dst n fuel (off + m) (tot + m)
        else (tot, tot + stores pages dst tot m)
    else
      (tot, tot)

/-- `readi` of a file of `size` bytes, as far as user memory sees it. -/
def readiStores (pages : Pages) (dst : UInt64) (size off n : UInt32) : ℕ × ℕ :=
  if size < off ∨ off + n < off then (0, 0)
  else
    let n := if size < off + n then size - off else n
    storeLoop pages dst n.toNat n.toNat off.toNat 0

variable {sb : Superblock} {t : Tid} {s : Kernel} {i : Fin ninode} {f : Fin nfile} {pages : Pages} {dst : UInt64}
  {size off n : UInt32} {env : Kernel → Kernel → Prop}

theorem stores_le {tot m : ℕ} : stores pages dst tot m ≤ m := by
  unfold stores
  cases found : (List.range m).find? fun k => (pages (pgrounddown (dst + UInt64.ofNat (tot + k)))).isNone with
  | none => exact le_rfl
  | some k => exact (List.mem_range.mp (List.mem_of_find?_eq_some found)).le

theorem stores_eq_iff {tot m : ℕ} : stores pages dst tot m = m ↔ (Pages.dest pages dst) tot m = true := by
  unfold stores Pages.dest
  rw [decide_eq_true_iff]
  cases found : (List.range m).find? fun k => (pages (pgrounddown (dst + UInt64.ofNat (tot + k)))).isNone with
  | none =>
    refine iff_of_true rfl fun k below unmapped => ?_
    have mapped := List.find?_eq_none.mp found k (List.mem_range.mpr below)
    exact mapped (by rw [unmapped]; rfl)
  | some k =>
    have below := List.mem_range.mp (List.mem_of_find?_eq_some found)
    refine iff_of_false below.ne fun mapped => mapped k below ?_
    have unmapped := List.find?_some found
    exact Option.isNone_iff_eq_none.mp unmapped

/-- Something is stored if the first page is mapped. -/
theorem stores_pos {m : ℕ} (some : 0 < m) : 0 < stores pages dst 0 m ↔ pages (pgrounddown dst) ≠ none := by
  obtain ⟨m, rfl⟩ := Nat.exists_eq_add_of_lt some
  have first : dst + UInt64.ofNat (0 + 0) = dst := UInt64.add_zero dst
  have range : List.range (0 + m + 1) = 0 :: (List.range m).map Nat.succ := by
    rw [Nat.zero_add, List.range_succ_eq_map]
  unfold stores
  rw [range, List.find?_cons, first]
  cases pages (pgrounddown dst) with
  | none => simp
  | some page =>
    refine iff_of_true ?_ (by simp)
    simp only [Option.isNone_some]
    cases found : ((List.range m).map Nat.succ).find? fun k =>
      (pages (pgrounddown (dst + UInt64.ofNat (0 + k)))).isNone with
    | none => exact some
    | some k =>
      obtain ⟨j, -, rfl⟩ := List.mem_map.mp (List.mem_of_find?_eq_some found)
      exact Nat.succ_pos j

theorem readLoop_sees {n fuel off tot : ℕ} {data : List UInt8} :
    Sees env (exec sb t) (readLoop sb i (Pages.dest pages dst) n fuel off tot data) s fun _ r _ =>
      r.1 = (storeLoop pages dst n fuel off tot).1 := by
  induction fuel generalizing s off tot data with
  | zero => exact .pure rfl
  | succ fuel ih =>
    unfold readLoop storeLoop
    by_cases more : tot < n
    · rw [if_pos more, if_pos more]
      refine .last fun b m₁ => .last fun d m₂ => ?_
      by_cases whole : stores pages dst tot (chunk off n tot) = chunk off n tot
      · rw [if_pos (stores_eq_iff.mp whole), if_pos whole]
        exact ih
      · rw [if_neg fun all => whole (stores_eq_iff.mpr all), if_neg whole]
        exact .pure rfl
    · rw [if_neg more, if_neg more]
      exact .pure rfl

theorem readi_sees : Sees env (exec sb t) (readi sb i (Pages.dest pages dst) off n) s fun _ r _ =>
    ∃ size, r.1 = (readiStores pages dst size off n).1 := by
  unfold readi
  refine .last fun (ip : Inode) m => ?_
  by_cases beyond : ip.size < off ∨ off + n < off
  · rw [if_pos beyond]
    refine .pure ⟨ip.size, ?_⟩
    rw [readiStores, if_pos beyond]
  · rw [if_neg beyond]
    refine readLoop_sees.mono fun _ r _ same => ⟨ip.size, ?_⟩
    rw [readiStores, if_neg beyond]
    exact same

/-- Whatever others do meanwhile, a `read` of an inode returns what `readiStores` says for the offset and the size
that it finds. -/
theorem fileread_sees {n : Int32} {other : ℤ} :
    Sees env (exec sb t) (fileread sb f (Pages.dest pages dst) n other) s fun _ r _ =>
    r = -1 ∨ r = other ∨ ∃ size off, r = (readiStores pages dst size off n.toUInt32).1 := by
  unfold fileread
  refine .last fun (x : File) m => ?_
  by_cases closed : x.readable = false
  · rw [if_pos closed]
    exact .pure (.inl rfl)
  rw [if_neg closed]
  cases x.type with
  | none => exact .last fun _ _ => .pure (.inl rfl)
  | pipe => exact .pure (.inr (.inl rfl))
  | device =>
    refine .pure ?_
    by_cases known : x.major.toNat < ndev
    · exact .inr (.inl (if_pos known))
    · exact .inl (if_neg known)
  | inode =>
    refine .last fun _ m₁ => .bind ?_
    unfold readFile
    refine .last fun (y : File) m₂ => .bind (readi_sees.mono fun _ r _ same => .last fun _ m₃ =>
      .pure (.last fun _ m₄ => .pure ?_))
    obtain ⟨size, same⟩ := same
    exact .inr (.inr ⟨size, y.off, congrArg Nat.cast same⟩)

theorem storeLoop_bounds (pages : Pages) (dst : UInt64) (fuel off : ℕ) {n tot : ℕ} (before : tot ≤ n) :
    tot ≤ (storeLoop pages dst n fuel off tot).1 ∧
      (storeLoop pages dst n fuel off tot).1 ≤ (storeLoop pages dst n fuel off tot).2 ∧
      (storeLoop pages dst n fuel off tot).2 ≤ n := by
  induction fuel generalizing off tot with
  | zero => exact ⟨le_rfl, le_rfl, before⟩
  | succ fuel ih =>
    have chunked : tot + chunk off n tot ≤ n := by
      have := Nat.min_le_left (n - tot) (bsize - off % bsize)
      unfold chunk
      omega
    unfold storeLoop
    by_cases more : tot < n
    · rw [if_pos more]
      by_cases whole : stores pages dst tot (chunk off n tot) = chunk off n tot
      · rw [if_pos whole]
        exact ⟨(Nat.le_add_right _ _).trans (ih _ chunked).1, (ih _ chunked).2⟩
      · rw [if_neg whole]
        exact ⟨le_rfl, Nat.le_add_right _ _, (Nat.add_le_add_left stores_le tot).trans chunked⟩
    · rw [if_neg more]
      exact ⟨le_rfl, le_rfl, before⟩

/-- The first page decides whether anything is stored. -/
theorem storeLoop_pos {n fuel off : ℕ} (some : 0 < n) :
    0 < (storeLoop pages dst n (fuel + 1) off 0).2 ↔ pages (pgrounddown dst) ≠ none := by
  have room : off % bsize < bsize := Nat.mod_lt _ (by decide)
  have chunked : 0 < chunk off n 0 := by
    unfold chunk
    omega
  rw [← stores_pos chunked]
  unfold storeLoop
  rw [if_pos some]
  by_cases whole : stores pages dst 0 (chunk off n 0) = chunk off n 0
  · rw [if_pos whole, whole]
    have fits : 0 + chunk off n 0 ≤ n := by
      unfold chunk
      omega
    refine iff_of_true (chunked.trans_le ?_) chunked
    obtain ⟨least, below, -⟩ := storeLoop_bounds pages dst fuel (off + chunk off n 0) fits
    omega
  · rw [if_neg whole]
    simp

/-! ### What a `read` may do -/

inductive Kind where
  | pipe
  | console
  | inode (size off : UInt32)

/-- The result and the number of bytes stored are at most `max n 0`. -/
def Bounded (pages : Pages) (dst : UInt64) (n : Int32) : Kind → Prop
  | .pipe => ∀ (env : Monitor.State Pipes.pipe → Monitor.State Pipes.pipe → Prop) t p s reached fuel,
      Sees env (Monitor.exec t) (Pipes.piperead p reached n.toInt fuel) s fun es r _ =>
        r ≤ max n.toInt 0 ∧ ((Pipes.copiedBy es).length : ℤ) ≤ max n.toInt 0
  | .console => ∀ (env : Monitor.State Console.console → Monitor.State Console.console → Prop) t p s reached fuel,
      Sees env (Monitor.exec t) (Console.consoleread p reached n.toInt fuel) s fun es r _ =>
        r ≤ max n.toInt 0 ∧ ((Console.copiedOut es).length : ℤ) ≤ max n.toInt 0
  | .inode size off =>
    ((readiStores pages dst size off n.toUInt32).1 : ℤ) ≤ max n.toInt 0 ∧
      ((readiStores pages dst size off n.toUInt32).2 : ℤ) ≤ max n.toInt 0

/-- A negative count that reaches below the start of a file. -/
def Kind.Overruns (n : Int32) : Kind → Prop
  | .inode size off => n.toInt < 0 ∧ (off.toNat : ℤ) + n.toInt < 0 ∧ off < size
  | _ => False

theorem toNat_toUInt32 (n : Int32) : (n.toUInt32.toNat : ℤ) = if n.toInt < 0 then n.toInt + 2 ^ 32 else n.toInt := by
  have word : n.toUInt32.toNat = n.toBitVec.toNat := rfl
  have signed : n.toInt = n.toBitVec.toInt := rfl
  have small := n.toBitVec.isLt
  rw [word, signed, BitVec.toInt_eq_toNat_cond]
  split_ifs <;> omega

/-- The bytes that are asked for and there are, of a range that does not wrap. -/
theorem readiStores_eq (inside : off.toNat ≤ size.toNat) (fits : off.toNat + n.toNat < 2 ^ 32) :
    readiStores pages dst size off n =
      storeLoop pages dst (min n.toNat (size.toNat - off.toNat))
        (min n.toNat (size.toNat - off.toNat)) off.toNat 0 := by
  have sum : (off + n).toNat = off.toNat + n.toNat := by
    rw [UInt32.toNat_add, Nat.mod_eq_of_lt fits]
  have within : ¬ (size < off ∨ off + n < off) := by
    rw [UInt32.lt_iff_toNat_lt, UInt32.lt_iff_toNat_lt, sum]
    omega
  have count : (if size < off + n then size - off else n).toNat = min n.toNat (size.toNat - off.toNat) := by
    by_cases cut : size < off + n
    · rw [if_pos cut, UInt32.toNat_sub_of_le _ _ (UInt32.le_iff_toNat_le.mpr inside)]
      rw [UInt32.lt_iff_toNat_lt, sum] at cut
      omega
    · rw [if_neg cut]
      rw [UInt32.lt_iff_toNat_lt, sum] at cut
      omega
  rw [readiStores, if_neg within]
  simp only [count]

theorem readiStores_beyond (beyond : ¬ (off.toNat ≤ size.toNat ∧ off.toNat + n.toNat < 2 ^ 32)) :
    readiStores pages dst size off n = (0, 0) := by
  have small := off.toNat_lt
  have small' := n.toNat_lt
  refine if_pos ?_
  rw [UInt32.lt_iff_toNat_lt, UInt32.lt_iff_toNat_lt, UInt32.toNat_add]
  omega

theorem readiStores_le (pages : Pages) (dst : UInt64) (size off n : UInt32) :
    (readiStores pages dst size off n).1 ≤ (readiStores pages dst size off n).2 ∧
      (readiStores pages dst size off n).2 ≤ n.toNat := by
  by_cases within : off.toNat ≤ size.toNat ∧ off.toNat + n.toNat < 2 ^ 32
  · rw [readiStores_eq within.1 within.2]
    obtain ⟨-, below, most⟩ := storeLoop_bounds pages dst (min n.toNat (size.toNat - off.toNat)) off.toNat
      (Nat.zero_le (min n.toNat (size.toNat - off.toNat)))
    exact ⟨below, most.trans (Nat.min_le_left _ _)⟩
  · rw [readiStores_beyond within]
    exact ⟨le_rfl, Nat.zero_le _⟩

/-- Something is stored. -/
theorem readiStores_pos (pages : Pages) (dst : UInt64) (size off : UInt32) (some : 0 < n.toNat) :
    0 < (readiStores pages dst size off n).2 ↔
    (off.toNat < size.toNat ∧ off.toNat + n.toNat < 2 ^ 32) ∧ pages (pgrounddown dst) ≠ none := by
  by_cases within : off.toNat ≤ size.toNat ∧ off.toNat + n.toNat < 2 ^ 32
  · rw [readiStores_eq within.1 within.2]
    by_cases more : off.toNat < size.toNat
    · obtain ⟨k, count⟩ : ∃ k, min n.toNat (size.toNat - off.toNat) = k + 1 := Nat.exists_eq_succ_of_ne_zero (by omega)
      rw [count, storeLoop_pos (Nat.succ_pos k)]
      exact (and_iff_right ⟨more, within.2⟩).symm
    · have count : min n.toNat (size.toNat - off.toNat) = 0 := by omega
      rw [count]
      exact iff_of_false (Nat.lt_irrefl 0) fun all => more all.1.1
  · rw [readiStores_beyond within]
    exact iff_of_false (Nat.lt_irrefl 0) fun all => within ⟨all.1.1.le, all.1.2⟩

/-- `readi` takes the count for unsigned. What a `read` of an inode returns is what `readiStores` says, also when
others run. -/
theorem read_bounded_iff {n : Int32} {k : Kind} :
    (Bounded pages dst n k ↔ ¬ (k.Overruns n ∧ pages (pgrounddown dst) ≠ none)) ∧
      ∀ env sb t f s (other : ℤ), Sees env (exec sb t) (fileread sb f (Pages.dest pages dst) n other) s fun _ r _ =>
        r = -1 ∨ r = other ∨ ∃ size off, r = (readiStores pages dst size off n.toUInt32).1 := by
  refine ⟨?_, fun _ _ _ _ _ _ => fileread_sees⟩
  cases k with
  | pipe => exact iff_of_true (fun _ _ _ _ _ _ => Pipes.piperead_bounded) fun overruns => overruns.1
  | console => exact iff_of_true (fun _ _ _ _ _ _ => Console.consoleread_bounded) fun overruns => overruns.1
  | inode size off =>
    obtain ⟨below, most⟩ := readiStores_le pages dst size off n.toUInt32
    have count := toNat_toUInt32 n
    have small := off.toNat_lt
    change (((readiStores pages dst size off n.toUInt32).1 : ℤ) ≤ max n.toInt 0 ∧
      ((readiStores pages dst size off n.toUInt32).2 : ℤ) ≤ max n.toInt 0) ↔
      ¬ ((n.toInt < 0 ∧ (off.toNat : ℤ) + n.toInt < 0 ∧ off < size) ∧ _)
    by_cases negative : n.toInt < 0
    · rw [if_pos negative] at count
      have least := n.le_toInt
      have positive := readiStores_pos pages dst size off (n := n.toUInt32) (by omega)
      have reaches : (off.toNat : ℤ) + n.toInt < 0 ↔ off.toNat + n.toUInt32.toNat < 2 ^ 32 := by omega
      have none : (((readiStores pages dst size off n.toUInt32).1 : ℤ) ≤ max n.toInt 0 ∧
          ((readiStores pages dst size off n.toUInt32).2 : ℤ) ≤ max n.toInt 0) ↔
          ¬ 0 < (readiStores pages dst size off n.toUInt32).2 := by
        rw [max_eq_right negative.le]
        omega
      rw [none, positive, reaches, UInt32.lt_iff_toNat_lt]
      tauto
    · rw [if_neg negative] at count
      refine iff_of_true ⟨?_, ?_⟩ fun overruns => negative overruns.1.1
      · omega
      · omega

/-- `read(fd, buf, -1)` at the start of a file of one byte stores it. -/
theorem read_negative : ¬ Bounded (fun _ => some fun _ => 0) 0 (-1) (.inode 1 0) := by
  have stored : readiStores (fun _ => some fun _ => 0) 0 1 0 (-1 : Int32).toUInt32 = (1, 1) := by decide
  have most : max (-1 : Int32).toInt 0 = 0 := by decide
  intro bounded
  dsimp only [Bounded] at bounded
  rw [stored, most] at bounded
  exact absurd bounded.1 (by decide)

end Fs

end Xv6Labs
