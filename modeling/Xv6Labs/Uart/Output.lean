import Xv6Labs.Lib.Window
import Xv6Labs.Monitor.Robust
import Xv6Labs.Uart.Code

/-!
# Output keeps its order

The two indices are the numbers of characters taken and stored, and one slot of the ring stays empty. While the lock
is free, processes sleep on `&uart_tx_r` only if the buffer is full.
-/

namespace Xv6Labs.Uart

open Threads Prog Monitor
open Proc (Slot)
open Window (Shows window)

variable {tx tx' : Tx} {w w' : Waits uart} {t : Thread} {p : Slot} {c : ℤ} {ch : UInt8}

structure Buffered (tx : Tx) : Prop where
  r : tx.r = tx.taken.length % uartTxBufSize
  w : tx.w = tx.stored.length % uartTxBufSize
  least : tx.taken.length ≤ tx.stored.length
  most : tx.stored.length < tx.taken.length + uartTxBufSize
  taken : tx.taken <+: tx.stored
  ring : Shows cell tx.buf tx.stored tx.taken.length
  sent : tx.sent <+: tx.taken
  hand : tx.taken.length ≤ tx.sent.length + 1

theorem cell_mod (n : ℕ) : cell (n % uartTxBufSize) = cell n := Fin.ext (Nat.mod_mod _ _)

theorem cell_add (n i : ℕ) : cell (n % uartTxBufSize + i) = cell (n + i) := Fin.ext (Nat.mod_add_mod ..)

theorem cell_ne {i j : ℕ} (lt : i < j) (near : j < i + uartTxBufSize) : cell i ≠ cell j := by
  intro same
  have same := congrArg Fin.val same
  simp only [cell, uartTxBufSize] at same near
  omega

theorem Buffered.full_iff (buffered : Buffered tx) :
    tx.full = true ↔ tx.stored.length + 1 = tx.taken.length + uartTxBufSize := by
  have := buffered.least
  have := buffered.most
  simp only [Tx.full, beq_iff_eq, buffered.r, buffered.w, uartTxBufSize] at *
  omega

theorem Buffered.empty_iff (buffered : Buffered tx) : tx.empty = true ↔ tx.stored.length = tx.taken.length := by
  have := buffered.least
  have := buffered.most
  simp only [Tx.empty, beq_iff_eq, buffered.r, buffered.w, uartTxBufSize] at *
  omega

theorem Buffered.store (buffered : Buffered tx) (room : tx.full = false) : Buffered (tx.store c) := by
  have least := buffered.least
  have most := buffered.most
  have more : ¬ tx.stored.length + 1 = tx.taken.length + uartTxBufSize := by
    rw [← buffered.full_iff, room]
    exact Bool.false_ne_true
  have longer : (tx.store c).stored.length = tx.stored.length + 1 := List.length_append
  refine ⟨buffered.r, ?_, ?_, ?_, buffered.taken.trans (List.prefix_append ..), ?_, buffered.sent, buffered.hand⟩
  · rw [longer]
    simp only [Tx.store, buffered.w, Nat.mod_add_mod]
  · rw [longer]
    exact Nat.le_succ_of_le least
  · rw [longer]
    change tx.stored.length + 1 < tx.taken.length + uartTxBufSize
    omega
  · have pushed := buffered.ring.push (x := UInt8.ofInt c) fun i within less => cell_ne less (by omega)
    simp only [Tx.store, buffered.w, cell_mod]
    exact pushed

theorem Buffered.take (buffered : Buffered tx) (some : tx.empty = false) (sent : tx.sent = tx.taken) :
    Buffered tx.take := by
  have least := buffered.least
  have most := buffered.most
  have more : ¬ tx.stored.length = tx.taken.length := by
    rw [← buffered.empty_iff, some]
    exact Bool.false_ne_true
  have longer : tx.take.taken.length = tx.taken.length + 1 := List.length_append
  have next := buffered.ring.next (by omega)
  rw [← cell_mod, ← buffered.r] at next
  refine ⟨?_, buffered.w, ?_, ?_, Window.prefix_concat buffered.taken next, ?_,
    buffered.sent.trans (List.prefix_append ..), ?_⟩
  · rw [longer]
    simp only [Tx.take, buffered.r, Nat.mod_add_mod]
  · rw [longer]
    change tx.taken.length + 1 ≤ tx.stored.length
    omega
  · rw [longer]
    change tx.stored.length < tx.taken.length + 1 + uartTxBufSize
    omega
  · exact buffered.ring.from_later (by rw [longer]; exact Nat.le_succ _)
  · rw [longer, ← sent]
    rfl

/-! ### The contract -/

structure Orderly (tx : Tx) (w : Waits uart) : Prop where
  waits : ∀ q, w q = some Chan.uartTxR → tx.full = true
  sent : tx.sent = tx.taken

/-- What the device and a panic may change. -/
def Noise (tx tx' : Tx) : Prop := ∃ idle panicked, tx' = { tx with idle := idle, panicked := panicked }

theorem Buffered.noise (buffered : Buffered tx) (noise : Noise tx tx') : Buffered tx' := by
  obtain ⟨idle, panicked, rfl⟩ := noise
  exact ⟨buffered.r, buffered.w, buffered.least, buffered.most, buffered.taken, buffered.ring, buffered.sent,
    buffered.hand⟩

theorem Orderly.noise (orderly : Orderly tx w) (noise : Noise tx tx') : Orderly tx' w := by
  obtain ⟨idle, panicked, rfl⟩ := noise
  exact ⟨orderly.waits, orderly.sent⟩

theorem Orderly.sub (orderly : Orderly tx w) (sub : Sub w' w) : Orderly tx w' :=
  ⟨fun q there => orderly.waits q (sub q _ there), orderly.sent⟩

def duty : Duty uart where
  always := Buffered
  inv := Orderly
  shrink orderly sub := orderly.sub sub
  drift := Noise
  drift_refl tx := ⟨tx.idle, tx.panicked, rfl⟩
  drift_trans := by
    rintro tx _ _ ⟨idle, panicked, rfl⟩ ⟨idle', panicked', rfl⟩
    exact ⟨idle', panicked', rfl⟩
  view _ _ _ := True
  view_refl _ _ := trivial
  view_trans _ _ _ _ _ _ := trivial
  drift_view _ _ _ _ := trivial
  ok _ _ _ := True

theorem robust_orderly : Robust duty Orderly :=
  ⟨fun _ _ _ noise orderly => orderly.noise noise, fun _ _ _ sub orderly => orderly.sub sub⟩

theorem blind_full (tx tx' : Tx) (noise : Noise tx tx') : tx'.full = tx.full := by
  obtain ⟨idle, panicked, rfl⟩ := noise
  rfl

theorem blind_empty (tx tx' : Tx) (noise : Noise tx tx') : tx'.empty = tx.empty := by
  obtain ⟨idle, panicked, rfl⟩ := noise
  rfl

/-! ### The calls -/

/-- The character that `uartstart` has in hand. -/
def Handing (ch : UInt8) (tx : Tx) (_ : Waits uart) : Prop := tx.taken = tx.sent ++ [ch]

theorem robust_handing : Robust duty (Handing ch) := by
  refine ⟨?_, fun _ _ _ _ => id⟩
  rintro tx _ w ⟨idle, panicked, rfl⟩ handing
  exact handing

theorem triple_take :
    Triple duty t (Knows t [.cond] fun tx w => Orderly tx w ∧ tx.empty = false) (look .take) fun c : UInt8 =>
      Knows t [.cond] (Handing c) := by
  have robust : Robust duty fun tx w => Orderly tx w ∧ tx.empty = false :=
    robust_orderly.and fun tx tx' noise empty => (blind_empty tx tx' noise).trans empty
  refine triple_op robust.lasts (fun _ => robust_handing.lasts) fun tx w buffered fact => ⟨trivial, fun r tx' ran => ?_⟩
  cases ran
  refine ⟨buffered.take fact.2 fact.1.sent, fun _ _ => trivial, ?_⟩
  change tx.taken ++ [_] = tx.sent ++ [_]
  rw [fact.1.sent]

theorem triple_thr :
    Triple duty t (Knows t [.cond] fun tx w => Handing ch tx w ∧ ∀ q, w q ≠ some Chan.uartTxR) (look (.thr ch)) fun _ =>
      Knows t [.cond] Orderly := by
  refine triple_op robust_handing.awake.lasts (fun _ => robust_orderly.lasts) fun tx w buffered fact =>
    ⟨trivial, fun r tx' ran => ?_⟩
  cases ran
  obtain ⟨handing, awake⟩ := fact
  refine ⟨⟨buffered.r, buffered.w, buffered.least, buffered.most, buffered.taken, buffered.ring, ?_, ?_⟩,
    fun _ _ => trivial, fun q there => absurd there (awake q), handing.symm⟩
  · change tx.sent ++ [ch] <+: tx.taken
    rw [handing]
  · change tx.taken.length ≤ (tx.sent ++ [ch]).length + 1
    rw [handing]
    exact Nat.le_succ _

theorem triple_uartstart (rounds : ℕ) :
    Triple duty t (Knows t [.cond] Orderly) (uartstart rounds) fun _ => Knows t [.cond] Orderly := by
  induction rounds with
  | zero => exact triple_cut
  | succ rounds ih =>
    unfold uartstart
    refine (triple_looks (O := uart) .empty Tx.empty (fun _ _ => rfl)
      (fun _ => trivial) blind_empty robust_orderly).bind
      fun empty => ?_
    have looked : Robust duty fun tx w => Orderly tx w ∧ tx.empty = empty :=
      robust_orderly.and fun tx tx' noise same => (blind_empty tx tx' noise).trans same
    cases empty with
    | true => exact (triple_keep looked).mono (fun _ _ knows => knows) fun _ _ _ knows => knows.imp fun _ _ => And.left
    | false =>
      refine (triple_glance (O := uart) .idle Tx.idle (fun _ _ => rfl) (fun _ => trivial) looked).bind fun idle => ?_
      cases idle with
      | true =>
        exact triple_take.bind fun ch => (triple_wakeup robust_handing.lasts).bind fun _ => triple_thr.bind fun _ => ih
      | false => exact (triple_keep looked).mono (fun _ _ knows => knows) fun _ _ _ knows =>
          knows.imp fun _ _ => And.left

theorem triple_store :
    Triple duty t (Knows t [.cond] fun tx w => Orderly tx w ∧ tx.full = false) (look (.store c)) fun _ =>
      Knows t [.cond] Orderly := by
  have robust : Robust duty fun tx w => Orderly tx w ∧ tx.full = false :=
    robust_orderly.and fun tx tx' noise full => (blind_full tx tx' noise).trans full
  refine triple_op robust.lasts (fun _ => robust_orderly.lasts) fun tx w buffered fact => ⟨trivial, fun r tx' ran => ?_⟩
  cases ran
  obtain ⟨orderly, room⟩ := fact
  refine ⟨buffered.store room, fun _ _ => trivial, fun q there => ?_, orderly.sent⟩
  exact absurd (room.symm.trans (orderly.waits q there)) Bool.false_ne_true

theorem triple_putWithRoom (rounds fuel : ℕ) :
    Triple duty (.proc p) (Knows (.proc p) [.cond] Orderly) (putWithRoom p c rounds fuel) fun _ =>
      Outside (.proc p) := by
  induction fuel with
  | zero => exact triple_cut
  | succ fuel ih =>
    unfold putWithRoom
    refine (triple_looks (O := uart) .full Tx.full (fun _ _ => rfl) (fun _ => trivial) blind_full robust_orderly).bind
      fun full => ?_
    cases full with
    | true =>
      have looked : Robust duty fun tx w => Orderly tx w ∧ tx.full = true :=
        robust_orderly.and fun tx tx' noise same => (blind_full tx tx' noise).trans same
      refine (triple_rest (V := fun _ => True) (fun _ _ _ => id) looked robust_orderly (fun tx w _ fact => ?_)
        (fun _ _ _ => trivial)
        fun _ _ _ orderly _ => orderly).bind fun _ => ih
      exact ⟨fun _ _ => fact.2, fact.1.sent⟩
    | false =>
      exact triple_store.bind fun _ => (triple_uartstart rounds).bind fun _ =>
        triple_leave robust_orderly fun _ _ _ orderly => orderly

theorem triple_locked : Triple duty t (Outside t) (acquire .cond) fun _ => Knows t [.cond] Orderly :=
  triple_enter robust_orderly fun _ _ _ orderly => orderly

theorem triple_uartputc (rounds fuel : ℕ) :
    Triple duty (.proc p) (Outside (.proc p)) (uartputc p c rounds fuel) fun _ => Outside (.proc p) := by
  unfold uartputc
  refine triple_locked.bind fun _ =>
    (triple_glance (O := uart) .panicked Tx.panicked (fun _ _ => rfl) (fun _ => trivial) robust_orderly).bind
      fun panicked => ?_
  cases panicked with
  | true => exact triple_cut
  | false => exact triple_putWithRoom rounds fuel

theorem triple_uartintr (rounds : ℕ) : Triple duty t (Outside t) (uartintr rounds) fun _ => Outside t :=
  triple_locked.bind fun _ => (triple_uartstart rounds).bind fun _ =>
    triple_leave robust_orderly fun _ _ _ orderly => orderly

/-- What the device does, and a panic, at any time. -/
theorem triple_noise {x : Op} (noise : ∀ tx r tx', perform x tx = some (r, tx') → Noise tx tx') :
    Triple duty t (Outside t) (look x) fun _ => Outside t := by
  have drifts : Triple duty t (Knows t [] fun _ _ => True) (op (O := uart) x) fun _ => Knows t [] fun _ _ => True := by
    refine triple_drift (fun _ _ _ => id) (fun _ _ _ _ => id) fun tx w buffered _ => ⟨trivial, fun r tx' ran => ?_⟩
    have drift := noise tx r tx' ran
    exact ⟨buffered.noise drift, drift, fun orderly => orderly.noise drift, trivial⟩
  exact drifts

theorem triple_idles (b : Bool) : Triple duty t (Outside t) (look (.idles b)) fun _ => Outside t := by
  refine triple_noise fun tx r tx' ran => ?_
  cases ran
  exact ⟨b, tx.panicked, rfl⟩

theorem triple_panics : Triple duty t (Outside t) (look .panics) fun _ => Outside t := by
  refine triple_noise fun tx r tx' ran => ?_
  cases ran
  exact ⟨tx.idle, true, rfl⟩

/-! ### Runs -/

theorem menu_keeps : menu.Keeps duty fun _ _ => True where
  stable _ _ _ _ := id
  calls := by
    intro t k s offered inv idle
    have kept : Triple duty t (Outside t) (menu.body t k) fun _ => Outside t := by
      cases k with
      | uartputc c rounds fuel =>
        cases t with
        | proc p => exact triple_uartputc rounds fuel
        | intr n => cases offered
      | uartintr rounds => cases t <;> exact triple_uartintr rounds
      | idles b => cases t <;> exact triple_idles b
      | panics => cases t <;> exact triple_panics
      | kill target => cases t <;> exact triple_kill target (Lasts.outside fun _ _ _ => id)
    exact kept s inv idle

theorem buffered_boot : Buffered {} :=
  ⟨rfl, rfl, le_rfl, by decide, List.nil_prefix, fun _ _ _ there => (by cases there), List.nil_prefix, Nat.zero_le _⟩

variable {s : Conf Thread (Act uart) Monitor.Res (Monitor.State uart)}

theorem kept_of_runs (run : menu.machine.Runs boot s) : s.Kept (terms duty) exec (Menu.Idle fun _ _ => True) :=
  menu_keeps.runs buffered_boot ⟨fun _ there => (by cases there), rfl⟩ (fun _ => trivial) run

/-- The characters in the buffer, as they lie in the ring. -/
def Tx.buffered (tx : Tx) : List UInt8 := window cell tx.buf tx.r ((tx.w + uartTxBufSize - tx.r) % uartTxBufSize)

theorem Buffered.split (buffered : Buffered tx) : tx.stored = tx.taken ++ tx.buffered := by
  have least := buffered.least
  have most := buffered.most
  have count : (tx.w + uartTxBufSize - tx.r) % uartTxBufSize = tx.stored.length - tx.taken.length := by
    simp only [buffered.r, buffered.w, uartTxBufSize] at *
    omega
  have shifted : tx.buffered = window cell tx.buf tx.taken.length (tx.stored.length - tx.taken.length) := by
    rw [Tx.buffered, count]
    apply List.map_congr_left
    intro i _
    rw [buffered.r, cell_add]
  rw [shifted, buffered.ring.window_eq least]
  obtain ⟨rest, split⟩ := buffered.taken
  rw [← split, List.drop_left]

/-- What has been handed to THR, with the character that `uartstart` may have in hand and the characters in the
buffer, is what has been stored. -/
theorem output_in_order (run : menu.machine.Runs boot s) :
    (∃ hand, s.shared.data.stored = s.shared.data.sent ++ hand ++ s.shared.data.buffered ∧ hand.length ≤ 1 ∧
      (s.shared.owner .cond = none → hand = [])) ∧
    s.shared.data.sent <+: s.shared.data.stored ∧
    s.shared.data.buffered.length ≤ uartTxBufSize - 1 ∧
    (s.shared.owner .cond = none → ∀ q, s.shared.state q = .SLEEPING → s.shared.chan q = some Chan.uartTxR →
      s.shared.data.full = true) := by
  have kept := kept_of_runs run
  have buffered : Buffered s.shared.data := kept.1.1
  have orderly (free : s.shared.owner .cond = none) : Orderly s.shared.data s.shared.waits := kept.1.2.1 free
  refine ⟨?_, buffered.sent.trans buffered.taken, ?_, fun free q asleep chan => ?_⟩
  · obtain ⟨hand, split⟩ := buffered.sent
    refine ⟨hand, ?_, ?_, fun free => ?_⟩
    · rw [split]
      exact buffered.split
    · have most := buffered.hand
      rw [← split, List.length_append] at most
      omega
    · rw [← (orderly free).sent] at split
      exact List.append_right_eq_self.mp split
  · rw [Tx.buffered, window, List.length_map, List.length_range]
    exact Nat.le_sub_one_of_lt (Nat.mod_lt _ (by decide))
  · exact (orderly free).waits q (waits_of_kept kept asleep chan)

def acts (p : Slot) (n : ℕ) : List (Move Thread (Thread × Call)) := List.replicate n (.act (.proc p))

/-- Process 0 writes two characters; the device is busy at the second. -/
def twoChars : List (Move Thread (Thread × Call)) :=
  .call (.proc 0) (.proc 0, .uartputc 65 2 1) :: acts 0 202 ++ .call (.intr 0) (.intr 0, .idles false) ::
    .act (.intr 0) ::
    .call (.proc 0) (.proc 0, .uartputc 66 2 1) :: acts 0 7

theorem output_in_order_two : ∃ c, menu.machine.Runs boot c ∧
    c.shared.data.stored = [65, 66] ∧ c.shared.data.sent = [65] ∧ c.shared.data.sent <+: c.shared.data.stored ∧
    c.shared.data.buffered.length ≤ uartTxBufSize - 1 := by
  have found : ((menu.machine.play twoChars boot).any fun c =>
      decide (c.shared.data.stored = [65, 66] ∧ c.shared.data.sent = [65])) = true := by
    decide +kernel
  obtain ⟨c, run, got⟩ := Machine.exists_of_play found
  obtain ⟨stored, sent⟩ := of_decide_eq_true got
  have order := output_in_order run
  exact ⟨c, run, stored, sent, order.2.1, order.2.2.1⟩

end Xv6Labs.Uart
