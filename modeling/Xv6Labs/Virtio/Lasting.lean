import Xv6Labs.Monitor.Robust
import Xv6Labs.Virtio.Inv

/-!
# What lasts without the lock

The device goes on, and calls begin to use buffers, while a thread has `vdisk_lock`; and the requests of a process
are its own while it has not.
-/

namespace Xv6Labs.Virtio

open Threads Prog Monitor
open Proc (Slot)
open Window (Shows)

variable {Buf : Type} {d d' : Disk Buf} {r s : Request Buf} {n m i : ℕ} {b : Buf} {p : Slot} {t : Thread} {L : List ℕ}
  {V V' : Disk Buf → Prop}

/-- What the device, and a call that begins to use a buffer, may change. -/
def Drift (d d' : Disk Buf) : Prop :=
  ∃ e u, d' = { d with device := e, user := u } ∧ d.device.took <+: e.took ∧ d.device.served <+: e.served ∧
    ∀ b p, d.user b = some p → u b = some p

/-- What is up to the process `p`. -/
structure Own (p : Slot) (d d' : Disk Buf) : Prop where
  user : ∀ b, d.user b = some p → d'.user b = some p
  requests : ∀ (n : ℕ) (r : Request Buf), d.requests[n]? = some r → d'.requests[n]? = some r
  mine : ∀ (n : ℕ) (r : Request Buf), d'.requests[n]? = some r → r.caller = p → d.requests[n]? = some r
  ended : ∀ (n : ℕ) (r : Request Buf), d.requests[n]? = some r → r.caller = p → (n ∈ d.ended ↔ n ∈ d'.ended)

theorem Own.same (user : d'.user = d.user) (requests : d'.requests = d.requests) (ended : d'.ended = d.ended) :
    Own p d d' where
  user b there := by rwa [user]
  requests n r there := by rwa [requests]
  mine n r there _ := by rwa [← requests]
  ended n r _ _ := by rw [ended]

theorem Drift.own (drift : Drift d d') : Own p d d' := by
  obtain ⟨e, u, rfl, -, -, kept⟩ := drift
  exact ⟨fun b there => kept b p there, fun _ _ => id, fun _ _ there _ => there, fun _ _ _ _ => Iff.rfl⟩

def Lasting (V : Disk Buf → Prop) : Prop := ∀ d d', Drift d d' → V d → V d'

theorem Lasting.and (lasting : Lasting V) (lasting' : Lasting V') : Lasting fun d => V d ∧ V' d :=
  fun d d' drift fact => ⟨lasting d d' drift fact.1, lasting' d d' drift fact.2⟩

/-- What the driver alone writes. -/
theorem Lasting.driver {α : Sort*} (f : Disk Buf → α) (a : α)
    (blind : ∀ d e u, f { d with device := e, user := u } = f d) :
    Lasting fun d => f d = a := by
  rintro d _ ⟨e, u, rfl, -⟩ fact
  exact (blind d e u).trans fact

/-! ### Descriptors -/

def count (d : Disk Buf) : ℕ := ((List.range num).filter d.free).length

def Idx (d : Disk Buf) : Prop := d.usedIdx = cell d.clears.length

theorem lasting_idx : Lasting fun d : Disk Buf => Idx d := by
  rintro d _ ⟨e, u, rfl, -⟩ fact
  exact fact

theorem length_filter_update {l : List ℕ} {f : ℕ → Bool} (nodup : l.Nodup) (mem : i ∈ l) :
    (l.filter (Function.update f i true)).length = (l.filter (Function.update f i false)).length + 1 := by
  have perm := List.perm_cons_erase mem
  have rest (v : Bool) : (l.erase i).filter (Function.update f i v) = (l.erase i).filter f := by
    refine List.filter_congr fun j there => Function.update_of_ne ?_ ..
    rintro rfl
    exact nodup.not_mem_erase there
  rw [(perm.filter _).length_eq, (perm.filter _).length_eq, List.filter_cons_of_pos (by simp),
    List.filter_cons_of_neg (by simp), rest, rest, List.length_cons]

theorem count_alloc (bound : i < num) (free : d.free i = true) :
    count { d with free := Function.update d.free i false } + 1 = count d := by
  have step := length_filter_update (f := d.free) List.nodup_range (List.mem_range.mpr bound)
  have same : Function.update d.free i true = d.free := by rw [← free, Function.update_eq_self]
  rw [same] at step
  exact step.symm

theorem count_setFree (bound : i < num) (used : d.free i = false) : count (d.setFree i) = count d + 1 := by
  have step := length_filter_update (f := d.free) List.nodup_range (List.mem_range.mpr bound)
  have same : Function.update d.free i false = d.free := by rw [← used, Function.update_eq_self]
  rw [same] at step
  exact step

theorem link_setFree (d : Disk Buf) (i j : ℕ) : (d.setFree i).link j = d.link j := by
  by_cases same : j = i
  · subst same
    simp [Disk.link, Disk.setFree]
  · simp only [Disk.link, Disk.setFree, Function.update_of_ne same]

theorem not_live_of_free (sound : Sound d) (free : d.free i = true) (live : Live d n r) : i ∉ r.idx := fun mem =>
  Bool.noConfusion (free.symm.trans ((sound.formatted n r live).used i mem))

theorem sound_alloc (sound : Sound d) (free : d.free i = true) : Sound
    { d with free := Function.update d.free i false } := by
  refine sound.rewrites (fun n r live => ?_) fun _ _ _ => rfl
  refine (sound.formatted n r live).congr (fun _ _ => rfl) rfl rfl fun j mem => Function.update_of_ne ?_ ..
  rintro rfl
  exact not_live_of_free sound free live mem

theorem sound_setFree (sound : Sound d) (spare : ∀ n r, Live d n r → i ∉ r.idx) : Sound (d.setFree i) := by
  refine sound.rewrites (fun n r live => ?_) fun _ _ _ => rfl
  have other {j : ℕ} (mem : j ∈ r.idx) : j ≠ i := by
    rintro rfl
    exact spare n r live mem
  exact (sound.formatted n r live).congr (fun j mem => Function.update_of_ne (other mem) ..) rfl rfl
    fun j mem => Function.update_of_ne (other mem) ..

/-- The descriptors of a chain, each with the next one. -/
def Linked (d : Disk Buf) : List ℕ → Prop
  | [] => True
  | [i] => d.link i = none
  | i :: j :: rest => d.link i = some j ∧ Linked d (j :: rest)

theorem Linked.congr (same : ∀ i, d'.link i = d.link i) : Linked d L → Linked d' L := by
  induction L with
  | nil => exact id
  | cons i rest ih =>
    cases rest with
    | nil => exact fun last => (same i).trans last
    | cons j rest => exact fun linked => ⟨(same i).trans linked.1, ih linked.2⟩

theorem lasting_linked : Lasting fun d : Disk Buf => Linked d L := by
  rintro d _ ⟨e, u, rfl, -⟩
  exact Linked.congr fun _ => rfl

theorem Formatted.linked (formatted : Formatted d r) : Linked d r.idx := by
  refine ⟨?_, ?_, ?_⟩
  · rw [Disk.link, formatted.first, if_pos r.first_next]
    rfl
  · rw [Disk.link, formatted.second, if_pos r.second_next]
    rfl
  · change d.link r.i2 = none
    rw [Disk.link, formatted.third, if_neg r.third_last]

/-! ### The requests of a process -/

/-- All requests of the process are over. -/
def Rests (p : Slot) (d : Disk Buf) : Prop := ∀ (n : ℕ) (r : Request Buf), d.requests[n]? = some r →
    r.caller = p → n ∈ d.ended

def Uses (p : Slot) (b : Buf) (d : Disk Buf) : Prop := Rests p d ∧ d.user b = some p

/-- The only request of its caller that is not over. -/
def Pending (n : ℕ) (r : Request Buf) (d : Disk Buf) : Prop :=
  Live d n r ∧ ∀ (m : ℕ) (s : Request Buf), d.requests[m]? = some s → s.caller = r.caller → m ≠ n → m ∈ d.ended

theorem Own.rests (own : Own p d d') (rests : Rests p d) : Rests p d' := by
  intro n r there caller
  have before := own.mine n r there caller
  exact (own.ended n r before caller).mp (rests n r before caller)

theorem Own.uses (own : Own p d d') (uses : Uses p b d) : Uses p b d' := ⟨own.rests uses.1, own.user b uses.2⟩

theorem Own.pending (own : Own r.caller d d') (pending : Pending n r d) : Pending n r d' := by
  obtain ⟨⟨there, not⟩, others⟩ := pending
  refine ⟨⟨own.requests n r there, fun mem => not ((own.ended n r there rfl).mpr mem)⟩, fun m s here caller ne => ?_⟩
  have before := own.mine m s here caller
  exact (own.ended m s before caller).mp (others m s before caller ne)

theorem lasting_rests : Lasting fun d : Disk Buf => Rests p d := fun _ _ drift => drift.own.rests

theorem lasting_uses : Lasting (Uses p b) := fun _ _ drift => drift.own.uses

theorem lasting_pending : Lasting (Pending n r) := fun _ _ drift => drift.own.pending

/-- Nobody else has a request for the buffer. -/
theorem Uses.apart (uses : Uses p b d) (sound : Sound d) (live : Live d n r) : b ≠ r.buf := by
  rintro rfl
  have same : r.caller = p := Option.some.inj ((sound.formatted n r live).user.symm.trans uses.2)
  exact live.2 (uses.1 n r live.1 same)

/-- What a thread knows when it is in no call. -/
def Resting (t : Thread) (d : Disk Buf) : Prop := ∀ p, t = .proc p → Rests p d

theorem lasting_resting : Lasting fun d : Disk Buf => Resting t d :=
  fun _ _ drift rests p same => drift.own.rests (rests p same)

/-! ### A request on its way -/

def Entered (i : ℕ) (d : Disk Buf) : Prop :=
  Shows cell d.ring (d.requests.map Request.i0 ++ [i]) d.device.took.length

theorem lasting_entered : Lasting fun d : Disk Buf => Entered i d := by
  rintro d _ ⟨e, u, rfl, took, -⟩ entered
  exact entered.from_later took.length_le

/-- All that is written before the device is told. -/
structure Written (r : Request Buf) (d : Disk Buf) : Prop where
  first : d.desc r.i0 = r.first
  second : d.desc r.i1 = r.second
  third : d.desc r.i2 = r.third
  disk : d.disk r.buf = true
  info : d.info r.i0 = some r.buf
  entered : Entered r.i0 d

theorem lasting_written : Lasting (Written r) := by
  intro d d' drift written
  have entered := lasting_entered d d' drift written.entered
  obtain ⟨e, u, rfl, -⟩ := drift
  exact ⟨written.first, written.second, written.third, written.disk, written.info, entered⟩

theorem Own.publish (other : r.caller ≠ p) : Own p d (d.publish r) where
  user _ there := there
  requests n s there := (List.getElem?_append_left (List.getElem?_eq_some_iff.mp there).1).trans there
  mine n s there caller := by
    rcases Nat.lt_or_ge n d.requests.length with less | last
    · exact (List.getElem?_append_left less).symm.trans there
    · have here : (d.requests ++ [r])[n]? = some s := there
      rw [List.getElem?_append_right last, List.getElem?_singleton] at here
      split at here
      · cases here
        exact absurd caller other
      · cases here
  ended _ _ _ _ := Iff.rfl

/-! ### A request on its way back -/

/-- The next request in the used ring, which is in the element `id`. -/
def Next (id : ℕ) (d : Disk Buf) : Prop :=
  ∃ (e : ℕ × ℕ) (r : Request Buf), d.device.served[d.clears.length]? = some e ∧ d.requests[e.1]? = some r ∧ r.i0 = id

theorem lasting_next : Lasting fun d : Disk Buf => Next i d := by
  rintro d _ ⟨e, u, rfl, -, ⟨rest, served⟩, -⟩ ⟨x, r, there, request, id⟩
  refine ⟨x, r, ?_, request, id⟩
  change e.served[d.clears.length]? = some x
  rw [← served, List.getElem?_append_left (List.getElem?_eq_some_iff.mp there).1]
  exact there

theorem Next.live (next : Next i d) (sound : Sound d) : ∃ n r, Live d n r ∧ r.i0 = i := by
  obtain ⟨e, r, there, request, id⟩ := next
  exact ⟨e.1, r, sound.live request (sound.not_cleared there), id⟩

/-- The driver is about to clear `disk` for the buffer of the next request. -/
def NextBuf (b : Buf) (d : Disk Buf) : Prop :=
  ∃ (e : ℕ × ℕ) (r : Request Buf), d.device.served[d.clears.length]? = some e ∧ d.requests[e.1]? = some r ∧ r.buf = b

theorem lasting_nextBuf : Lasting (NextBuf b) := by
  rintro d _ ⟨e, u, rfl, -, ⟨rest, served⟩, -⟩ ⟨x, r, there, request, buf⟩
  refine ⟨x, r, ?_, request, buf⟩
  change e.served[d.clears.length]? = some x
  rw [← served, List.getElem?_append_left (List.getElem?_eq_some_iff.mp there).1]
  exact there

/-- `disk.used_idx` is one behind. -/
def Behind (d : Disk Buf) : Prop := cell (d.usedIdx + 1) = cell d.clears.length

theorem lasting_behind : Lasting fun d : Disk Buf => Behind d := by
  rintro d _ ⟨e, u, rfl, -⟩ fact
  exact fact

/-! ### The device -/

theorem drift_takes (ran : d.takes = some d') : Drift d d' := by
  simp only [Disk.takes] at ran
  split at ran
  · cases ran
  · cases ran
    exact ⟨_, d.user, rfl, List.prefix_append .., List.prefix_rfl, fun _ _ => id⟩

theorem drift_completes (ran : d.completes n = some d') : Drift d d' := by
  simp only [Disk.completes] at ran
  split at ran
  · cases ran
  · split at ran
    · cases ran
    · split at ran
      · cases ran
      · cases ran
        exact ⟨_, d.user, rfl, List.prefix_rfl, List.prefix_append .., fun _ _ => id⟩

end Xv6Labs.Virtio
