import Xv6Labs.Virtio.Calls

/-!
# The driver and the device agree

The device gets each request once, as its caller wrote it; the driver clears `disk` once for each request that the
device has completed, in the order of the used ring; a call returns after that. Nobody sleeps who could go on.
-/

namespace Xv6Labs.Virtio

open Threads Prog Monitor
open Proc (Slot)

variable {Buf : Type} [DecidableEq Buf] {c : Conf Thread (Act (virtio Buf)) Monitor.Res (Monitor.State (virtio Buf))}

theorem menu_keeps : (menu Buf).Keeps (duty Buf) Resting where
  stable _ := stable_resting
  calls := by
    intro t k s offered inv idle
    have killed (target : Option Slot) :
        Triple (duty Buf) t (Knows t [] fun d _ => Resting t d) (kill target) fun _ => Knows t [] fun d _ =>
          Resting t d :=
      triple_kill target (Lasts.outside stable_resting)
    cases t with
    | intr n =>
      cases k with
      | virtioDiskRw b blockno write fuel => cases offered
      | virtioDiskIntr fuel => exact triple_virtioDiskIntr fuel s inv idle
      | takes => exact triple_takes s inv idle
      | completes n => exact triple_completes s inv idle
      | kill target => exact killed target s inv idle
    | proc p =>
      cases k with
      | virtioDiskRw b blockno write fuel =>
        have ran : Triple (duty Buf) (.proc p) (Knows (.proc p) [] fun d _ => Rests p d)
            (look (.uses b) >>= fun _ => virtioDiskRw p b blockno write fuel) fun _ => Knows (.proc p) [] fun d _ =>
              Resting (.proc p) d := by
          refine (triple_uses.bind fun _ => triple_virtioDiskRw fuel).mono
            (fun _ _ knows => knows) fun _ _ _ knows => ?_
          refine knows.imp fun d _ rests q same => ?_
          cases same
          exact rests
        exact ran s inv ⟨idle.owns, idle.running, idle.fact p rfl⟩
      | virtioDiskIntr fuel => exact triple_virtioDiskIntr fuel s inv idle
      | takes => exact triple_takes s inv idle
      | completes n => exact triple_completes s inv idle
      | kill target => exact killed target s inv idle

omit [DecidableEq Buf] in
theorem sound_boot : Sound ({} : Disk Buf) where
  status _ := rfl
  avail := rfl
  seen := rfl
  id := rfl
  took := List.prefix_rfl
  ring := fun _ _ _ there => by cases there
  once := List.nodup_nil
  served := fun _ mem => by cases mem
  elems := fun _ _ _ there => by cases there
  clears := fun _ _ there => by cases there
  ended := fun _ mem => by cases mem
  waiting := fun _ _ there => by cases there
  finished := fun _ _ live => by cases live.1
  formatted := fun _ _ live => by cases live.1
  apart := fun _ _ _ _ live => by cases live.1

theorem inside_boot : Inside [] none Idx ({} : Disk Buf) fun _ => none where
  taken i _ := by
    refine iff_of_false (by simp) ?_
    rintro (mem | ⟨n, r, live, -⟩)
    · cases mem
    · cases live.1
  spare _ mem := by cases mem
  nodup := List.nodup_nil
  bufs _ _ there := by cases there
  frees _ there := by cases there
  fact := rfl

theorem kept_of_runs (run : (menu Buf).machine.Runs (boot Buf) c) :
    c.Kept (terms (duty Buf)) exec (Menu.Idle Resting) :=
  menu_keeps.runs sound_boot inside_boot (fun _ _ _ _ _ there => by cases there) run

theorem disk_protocol (run : (menu Buf).machine.Runs (boot Buf) c) :
    (∀ n r, Live c.shared.data n r → r.idx.Nodup ∧ ∀ m s, Live c.shared.data m s → n ≠ m → r.idx.Disjoint s.idx) ∧
    (c.shared.owner .cond = none → ∀ i < num, c.shared.data.free i = false ↔
      ∃ n r, Live c.shared.data n r ∧ i ∈ r.idx) ∧
    c.shared.data.device.took <+: c.shared.data.requests.map (fun r => (r.i0, r.chain)) ∧
    (c.shared.data.device.served.map Prod.fst).Nodup ∧
    (∀ (j : ℕ) b, c.shared.data.clears[j]? = some b →
      ∃ (e : ℕ × ℕ) (r : Request Buf), c.shared.data.device.served[j]? = some e ∧
      c.shared.data.requests[e.1]? = some r ∧ r.buf = b) ∧
    (∀ p, c.code (.proc p) = .ret () → ∀ (n : ℕ) (r : Request Buf), c.shared.data.requests[n]? = some r → r.caller = p →
      n ∈ c.shared.data.cleared) ∧
    ∀ t k, c.code t ≠ .act (.op .panic) k := by
  have kept := kept_of_runs run
  have sound : Sound c.shared.data := kept.1.1
  refine ⟨fun n r live => ⟨(sound.formatted n r live).nodup, fun m s live' ne => (sound.apart n r m s live live' ne).1⟩,
    fun free i bound => ?_, sound.took, sound.once, sound.clears, fun p done n r there caller => ?_,
    fun t k point => ?_⟩
  · have inside : Inside [] none Idx c.shared.data c.shared.waits := kept.1.2.1 free
    refine (inside.taken i bound).trans (or_iff_right ?_)
    exact List.not_mem_nil
  · have idle : Menu.Idle Resting (.proc p) c.shared := kept.ready done
    exact sound.ended n (idle.fact p rfl n r there caller)
  · have fine : Op.fine (Op.panic : Op Buf) = true := kept.ok point
    cases fine

def acts (t : Thread) (n : ℕ) : List (Move Thread (Thread × Call Bool)) := List.replicate n (.act t)

def begin (t : Thread) (k : Call Bool) : Move Thread (Thread × Call Bool) := .call t (t, k)

/-- A read of one block, from the call to the return. -/
def readBlock : List (Move Thread (Thread × Call Bool)) :=
  begin (.proc 0) (.virtioDiskRw true 5 false 2) :: acts (.proc 0) 19 ++ begin (.intr 0) .takes :: acts (.intr 0) 1 ++
    begin (.intr 0) (.completes 0) :: acts (.intr 0) 1 ++ begin (.intr 1) (.virtioDiskIntr 2) :: acts (.intr 1) 202 ++
    acts (.proc 0) 592

theorem disk_protocol_read : ∃ c, (menu Bool).machine.Runs (boot Bool) c ∧
    c.shared.data.ended = [0] ∧ c.shared.data.clears = [true] ∧ ∃ (e : ℕ × ℕ) (r : Request Bool),
      c.shared.data.device.served[0]? = some e ∧ c.shared.data.requests[e.1]? = some r ∧ r.buf = true := by
  have found : (((menu Bool).machine.play readBlock (boot Bool)).any fun c =>
      decide (c.shared.data.ended = [0] ∧ c.shared.data.clears = [true])) = true := by
    decide +kernel
  obtain ⟨c, run, now⟩ := Machine.exists_of_play found
  obtain ⟨ended, clears⟩ := of_decide_eq_true now
  obtain ⟨-, -, -, -, completed, -⟩ := disk_protocol run
  exact ⟨c, run, ended, clears, completed 0 true (by rw [clears]; rfl)⟩

theorem sleepers_wait (run : (menu Buf).machine.Runs (boot Buf) c) {q : Slot} (free : c.shared.owner .cond = none)
    (asleep : c.shared.state q = .SLEEPING) :
    (c.shared.chan q = some Chan.free → count c.shared.data < 3) ∧
    ∀ b, c.shared.chan q = some (Chan.buf b) → c.shared.data.disk b = true := by
  have kept := kept_of_runs run
  have inside : Inside [] none Idx c.shared.data c.shared.waits := kept.1.2.1 free
  refine ⟨fun chan => ?_, fun b chan => ?_⟩
  · exact inside.frees q (waits_of_kept kept asleep chan) (by simp)
  · exact inside.bufs q b (waits_of_kept kept asleep chan) (by simp)

theorem sleepers_wait_block : ∃ c, (menu Bool).machine.Runs (boot Bool) c ∧
    c.shared.state 0 = .SLEEPING ∧ c.shared.data.disk true = true := by
  have found : (((menu Bool).machine.play (begin (.proc 0) (.virtioDiskRw true 5 false 2) :: acts (.proc 0) 19)
    (boot Bool)).any
      fun c => decide (c.shared.owner .cond = none ∧ c.shared.state 0 = .SLEEPING ∧
        c.shared.chan 0 = some (Chan.buf true))) = true := by
    decide +kernel
  obtain ⟨c, run, now⟩ := Machine.exists_of_play found
  obtain ⟨free, asleep, chan⟩ := of_decide_eq_true now
  exact ⟨c, run, asleep, (sleepers_wait run free asleep).2 true chan⟩

end Xv6Labs.Virtio
