import Xv6Labs.Lib.Window
import Xv6Labs.Virtio.Code

/-!
# What holds of the rings

The device has taken the first requests of the avail ring, each with its whole chain, and completed some of them; the
driver has cleared `disk` for the first of those. A request whose call has not let go of its descriptors is live: its
three descriptors are its own and say what the call wants.
-/

namespace Xv6Labs.Virtio

open Proc (Slot)
open Window (Shows)

variable {Buf : Type} {d d' : Disk Buf} {r s : Request Buf} {n m i : ℕ} {b : Buf} {p : Slot}

def Live (d : Disk Buf) (n : ℕ) (r : Request Buf) : Prop := d.requests[n]? = some r ∧ n ∉ d.ended

/-- The requests for which the driver has cleared `disk`. -/
def Disk.cleared (d : Disk Buf) : List ℕ := (d.device.served.take d.clears.length).map Prod.fst

def Request.chain (r : Request Buf) : List (Desc Buf) := [r.first, r.second, r.third]

structure Formatted (d : Disk Buf) (r : Request Buf) : Prop where
  first : d.desc r.i0 = r.first
  second : d.desc r.i1 = r.second
  third : d.desc r.i2 = r.third
  info : d.info r.i0 = some r.buf
  user : d.user r.buf = some r.caller
  bound : ∀ i ∈ r.idx, i < num
  used : ∀ i ∈ r.idx, d.free i = false
  nodup : r.idx.Nodup

structure Sound (d : Disk Buf) : Prop where
  status : ∀ i, d.device.status i = 0
  avail : d.avail = wrap d.requests.length
  seen : d.device.seen = wrap d.device.took.length
  id : d.device.id = wrap d.device.served.length
  took : d.device.took <+: d.requests.map fun r => (r.i0, r.chain)
  ring : Shows cell d.ring (d.requests.map Request.i0) d.device.took.length
  once : (d.device.served.map Prod.fst).Nodup
  served : ∀ e ∈ d.device.served, ∃ c, d.device.took[e.1]? = some (e.2, c)
  elems : Shows cell d.device.elems (d.device.served.map Prod.snd) d.clears.length
  clears : ∀ (j : ℕ) (b : Buf), d.clears[j]? = some b →
    ∃ (e : ℕ × ℕ) (r : Request Buf), d.device.served[j]? = some e ∧ d.requests[e.1]? = some r ∧ r.buf = b
  ended : ∀ n ∈ d.ended, n ∈ d.cleared
  waiting : ∀ n r, d.requests[n]? = some r → n ∉ d.cleared → d.disk r.buf = true
  finished : ∀ n r, Live d n r → n ∈ d.cleared → d.disk r.buf = false
  formatted : ∀ n r, Live d n r → Formatted d r
  apart : ∀ n r m s, Live d n r → Live d m s → n ≠ m → r.idx.Disjoint s.idx ∧ r.buf ≠ s.buf

theorem cell_wrap (n : ℕ) : cell (wrap n) = cell n := by
  simp only [cell, wrap, num]
  omega

theorem wrap_succ (n : ℕ) : wrap (wrap n + 1) = wrap (n + 1) := by
  simp only [wrap]
  omega

theorem cell_ne {i j : ℕ} (less : i < j) (near : j < i + num) : cell i ≠ cell j := by
  simp only [cell, num] at *
  omega

theorem Request.first_next (r : Request Buf) : r.first.flags &&& descFNext ≠ 0 := by
  change descFNext &&& descFNext ≠ 0
  decide

theorem Request.second_next (r : Request Buf) : r.second.flags &&& descFNext ≠ 0 := by
  change ((if r.write then 0 else descFWrite) ||| descFNext) &&& descFNext ≠ 0
  cases r.write <;> decide

theorem Request.third_last (r : Request Buf) : ¬ r.third.flags &&& descFNext ≠ 0 := by
  change ¬ descFWrite &&& descFNext ≠ 0
  decide

theorem Request.mem_idx (r : Request Buf) : r.i0 ∈ r.idx ∧ r.i1 ∈ r.idx ∧ r.i2 ∈ r.idx := by simp [Request.idx]

theorem Formatted.congr (formatted : Formatted d r) (desc : ∀ i ∈ r.idx, d'.desc i = d.desc i)
    (info : d'.info r.i0 = d.info r.i0)
    (user : d'.user r.buf = d.user r.buf) (free : ∀ i ∈ r.idx, d'.free i = d.free i) : Formatted d' r := by
  obtain ⟨m0, m1, m2⟩ := r.mem_idx
  exact ⟨(desc _ m0).trans formatted.first, (desc _ m1).trans formatted.second, (desc _ m2).trans formatted.third,
    info.trans formatted.info, user.trans formatted.user, formatted.bound,
    fun i mem => (free i mem).trans (formatted.used i mem), formatted.nodup⟩

theorem Formatted.chain_eq (formatted : Formatted d r) : chain d.desc num r.i0 = r.chain := by
  simp only [num, chain, formatted.first, if_pos r.first_next, Request.chain]
  rw [show r.first.next = r.i1 from rfl, formatted.second, if_pos r.second_next, show r.second.next = r.i2 from rfl,
    formatted.third, if_neg r.third_last]

theorem served_of_cleared (mem : n ∈ d.cleared) : n ∈ d.device.served.map Prod.fst :=
  List.map_subset _ (List.take_subset ..) mem

theorem Live.publish_cases (live : Live (d.publish r) n s) : Live d n s ∨ n = d.requests.length ∧ s = r := by
  rcases Nat.lt_or_ge n d.requests.length with less | last
  · have there : (d.requests ++ [r])[n]? = some s := live.1
    rw [List.getElem?_append_left less] at there
    exact .inl ⟨there, live.2⟩
  · right
    have there : (d.requests ++ [r])[n]? = some s := live.1
    rw [List.getElem?_append_right last, List.getElem?_singleton] at there
    split at there
    case isTrue zero =>
      cases there
      exact ⟨by omega, rfl⟩
    case isFalse => cases there

theorem cleared_done [DecidableEq Buf] {e : ℕ × ℕ} (next : d.device.served[d.clears.length]? = some e) :
    (d.done b).cleared = d.cleared ++ [e.1] := by
  have within := (List.getElem?_eq_some_iff.mp next)
  obtain ⟨less, value⟩ := within
  simp only [Disk.cleared, Disk.done, List.length_append, List.length_singleton]
  rw [List.take_add_one, next, List.map_append]
  rfl

namespace Sound

variable (sound : Sound d)
include sound

theorem clears_le : d.clears.length ≤ d.device.served.length := by
  by_contra more
  obtain ⟨e, -, there, -⟩ := sound.clears d.device.served.length _ (List.getElem?_eq_getElem (by omega))
  rw [List.getElem?_eq_none le_rfl] at there
  cases there

theorem took_le : d.device.took.length ≤ d.requests.length := by
  simpa using sound.took.length_le

theorem taken_chain {head : ℕ} {c : List (Desc Buf)} (there : d.device.took[n]? = some (head, c)) :
    ∃ r, d.requests[n]? = some r ∧ head = r.i0 ∧ c = r.chain := by
  have within := (List.getElem?_eq_some_iff.mp there).1
  have same := sound.took.getElem within
  have here := List.getElem_of_getElem? there
  obtain ⟨_, value⟩ := here
  rw [value, List.getElem_map] at same
  have less : n < d.requests.length := lt_of_lt_of_le within sound.took_le
  obtain ⟨rfl, rfl⟩ := Prod.mk.inj same
  exact ⟨_, List.getElem?_eq_getElem less, rfl, rfl⟩

theorem served_request {e : ℕ × ℕ} (mem : e ∈ d.device.served) : ∃ r, d.requests[e.1]? = some r ∧ e.2 = r.i0 := by
  obtain ⟨c, there⟩ := sound.served e mem
  obtain ⟨r, request, head, -⟩ := sound.taken_chain there
  exact ⟨r, request, head⟩

theorem live (there : d.requests[n]? = some r) (not : n ∉ d.cleared) : Live d n r :=
  ⟨there, fun ended => not (sound.ended n ended)⟩

theorem lt_of_served (mem : n ∈ d.device.served.map Prod.fst) : n < d.device.took.length := by
  obtain ⟨e, there, rfl⟩ := List.mem_map.mp mem
  obtain ⟨c, took⟩ := sound.served e there
  exact (List.getElem?_eq_some_iff.mp took).1

/-- There are not enough descriptors for more than two requests. -/
theorem few {l : List ℕ} (nodup : l.Nodup) (all : ∀ n ∈ l, ∃ r, Live d n r) : 3 * l.length ≤ num := by
  let idx (n : ℕ) : List ℕ := ((d.requests[n]?).map Request.idx).getD []
  have idx_eq {n : ℕ} {r : Request Buf} (live : Live d n r) : idx n = r.idx := by simp [idx, live.1]
  have length : (l.flatMap idx).length = 3 * l.length := by
    have each : ∀ n ∈ l, (idx n).length = 3 := by
      intro n mem
      obtain ⟨r, live⟩ := all n mem
      rw [idx_eq live]
      rfl
    rw [List.length_flatMap, List.map_congr_left each, List.map_const', List.sum_replicate, smul_eq_mul, mul_comm]
  have distinct : (l.flatMap idx).Nodup := by
    refine List.nodup_flatMap.mpr ⟨fun n mem => ?_, nodup.imp_of_mem fun {n m} mem mem' ne => ?_⟩
    · obtain ⟨r, live⟩ := all n mem
      rw [idx_eq live]
      exact (sound.formatted n r live).nodup
    · obtain ⟨r, live⟩ := all n mem
      obtain ⟨s, live'⟩ := all m mem'
      change (idx n).Disjoint (idx m)
      rw [idx_eq live, idx_eq live']
      exact (sound.apart n r m s live live' ne).1
  have within : l.flatMap idx ⊆ List.range num := by
    intro i mem
    obtain ⟨n, mem, there⟩ := List.mem_flatMap.mp mem
    obtain ⟨r, live⟩ := all n mem
    rw [idx_eq live] at there
    exact List.mem_range.mpr ((sound.formatted n r live).bound i there)
  have le := (distinct.subperm within).length_le
  rwa [length, List.length_range] at le

/-- Nearly all requests have been taken. -/
theorem in_flight : d.requests.length ≤ d.device.took.length + 2 := by
  have le := sound.few (l := List.range' d.device.took.length (d.requests.length - d.device.took.length))
    List.nodup_range'
    fun n mem => ?_
  · rw [List.length_range'] at le
    have : num = 8 := rfl
    omega
  · obtain ⟨least, most⟩ := List.mem_range'_1.mp mem
    have within : n < d.requests.length := by omega
    refine ⟨_, sound.live (List.getElem?_eq_getElem within) fun cleared => ?_⟩
    have := sound.lt_of_served (served_of_cleared cleared)
    omega

theorem nodup_split : (d.cleared ++ (d.device.served.drop d.clears.length).map Prod.fst).Nodup := by
  rw [Disk.cleared, ← List.map_append, List.take_append_drop]
  exact sound.once

theorem live_of_drop (mem : n ∈ (d.device.served.drop d.clears.length).map Prod.fst) : ∃ r, Live d n r := by
  have not : n ∉ d.cleared := fun cleared => (List.nodup_append.mp sound.nodup_split).2.2 n cleared n mem rfl
  obtain ⟨e, there, rfl⟩ := List.mem_map.mp mem
  obtain ⟨r, request, -⟩ := sound.served_request (List.drop_subset _ _ there)
  exact ⟨r, sound.live request not⟩

/-- Nearly all completed requests have been cleared. -/
theorem completed : d.device.served.length ≤ d.clears.length + 2 := by
  have le := sound.few (List.nodup_append.mp sound.nodup_split).2.1 fun n mem => sound.live_of_drop mem
  rw [List.length_map, List.length_drop] at le
  have : num = 8 := rfl
  omega

/-! ### The driver -/

/-- Writes of the driver outside the rings. -/
theorem rewrites {desc : ℕ → Desc Buf} {free : ℕ → Bool} {usedIdx : ℕ} {info : ℕ → Option Buf} {disk : Buf → Bool}
    {user : Buf → Option Slot}
    (formatted : ∀ n r, Live d n r → Formatted { d with desc, free, usedIdx, info, disk, user } r)
    (same : ∀ n r, Live d n r → disk r.buf = d.disk r.buf) :
    Sound { d with desc, free, usedIdx, info, disk, user } where
  status := sound.status
  avail := sound.avail
  seen := sound.seen
  id := sound.id
  took := sound.took
  ring := sound.ring
  once := sound.once
  served := sound.served
  elems := sound.elems
  clears := sound.clears
  ended := sound.ended
  waiting n r there not := (same n r (sound.live there not)).trans (sound.waiting n r there not)
  finished n r live cleared := (same n r live).trans (sound.finished n r live cleared)
  formatted := formatted
  apart := sound.apart

theorem clearStatus {i : ℕ} :
    Sound { d with device := { d.device with status := Function.update d.device.status i 0 } } :=
  { sound with
    status := fun j => by
      by_cases same : j = i
      · subst same
        exact Function.update_self ..
      · exact (Function.update_of_ne same ..).trans (sound.status j)
    formatted := fun n r live => (sound.formatted n r live).congr (fun _ _ => rfl) rfl rfl fun _ _ => rfl }

theorem ring_push (x : ℕ) : Shows cell (Function.update d.ring (cell d.avail) x) (d.requests.map Request.i0 ++ [x])
    d.device.took.length := by
  have near := sound.in_flight
  have length : (d.requests.map Request.i0).length = d.requests.length := List.length_map ..
  have pushed := sound.ring.push (x := x) fun i least most => cell_ne most ?_
  · rwa [length, ← cell_wrap, ← sound.avail] at pushed
  · have : num = 8 := rfl
    omega

theorem setRing {x : ℕ} : Sound { d with ring := Function.update d.ring (cell d.avail) x } :=
  { sound with
    ring := Shows.of_prefix (sound.ring_push x) (List.prefix_append ..)
    formatted := fun n r live => (sound.formatted n r live).congr (fun _ _ => rfl) rfl rfl fun _ _ => rfl }

theorem lt_of_ended (mem : n ∈ d.ended) : n < d.requests.length :=
  lt_of_lt_of_le (sound.lt_of_served (served_of_cleared (sound.ended n mem))) sound.took_le

theorem publish (formatted : Formatted d r) (disk : d.disk r.buf = true)
    (ring : Shows cell d.ring (d.requests.map Request.i0 ++ [r.i0]) d.device.took.length)
    (apart : ∀ n s, Live d n s → r.idx.Disjoint s.idx ∧ r.buf ≠ s.buf) : Sound (d.publish r) where
  status := sound.status
  avail := by simp only [Disk.publish, sound.avail, wrap_succ, List.length_append, List.length_singleton]
  seen := sound.seen
  id := sound.id
  took := by
    refine sound.took.trans ?_
    simp only [Disk.publish, List.map_append]
    exact List.prefix_append ..
  ring := by
    simp only [Disk.publish, List.map_append, List.map_singleton]
    exact ring
  once := sound.once
  served := sound.served
  elems := sound.elems
  clears j b there := by
    obtain ⟨e, s, served, request, buf⟩ := sound.clears j b there
    refine ⟨e, s, served, ?_, buf⟩
    simp only [Disk.publish]
    rw [List.getElem?_append_left (List.getElem?_eq_some_iff.mp request).1]
    exact request
  ended := sound.ended
  waiting n s there not := by
    rcases Nat.lt_or_ge n d.requests.length with less | last
    · simp only [Disk.publish, List.getElem?_append_left less] at there
      exact sound.waiting n s there not
    · have fresh : n ∉ d.ended := fun mem => by
        have := sound.lt_of_ended mem
        omega
      rcases Live.publish_cases (d := d) ⟨there, fresh⟩ with live | ⟨-, rfl⟩
      · exact sound.waiting n s live.1 not
      · exact disk
  finished n s live cleared := by
    rcases live.publish_cases with live | ⟨rfl, rfl⟩
    · exact sound.finished n s live cleared
    · have := sound.lt_of_served (served_of_cleared cleared)
      have := sound.took_le
      omega
  formatted n s live := by
    rcases live.publish_cases with live | ⟨rfl, rfl⟩
    · exact (sound.formatted n s live).congr (fun _ _ => rfl) rfl rfl fun _ _ => rfl
    · exact formatted.congr (fun _ _ => rfl) rfl rfl fun _ _ => rfl
  apart n s m s' live live' ne := by
    rcases live.publish_cases with old | ⟨rfl, rfl⟩ <;> rcases live'.publish_cases with old' | ⟨rfl, rfl⟩
    · exact sound.apart n s m s' old old' ne
    · obtain ⟨disjoint, buf⟩ := apart n s old
      exact ⟨disjoint.symm, buf.symm⟩
    · exact apart m s' old'
    · exact absurd rfl ne

theorem forget [DecidableEq Buf] (live : Live d n r) (cleared : n ∈ d.cleared) : Sound (d.forget n r.i0 r.buf) := by
  have before {m : ℕ} {s : Request Buf} (live' : Live (d.forget n r.i0 r.buf) m s) : Live d m s ∧ m ≠ n := by
    have not : m ∉ d.ended ++ [n] := live'.2
    exact ⟨⟨live'.1, fun mem => not (List.mem_append_left _ mem)⟩, fun same => not (by simp [same])⟩
  refine { sound with
    ended := fun m mem => ?_
    finished := fun m s live' cleared' => sound.finished m s (before live').1 cleared'
    formatted := fun m s live' => ?_
    apart := fun m s m' s' here there ne => sound.apart m s m' s' (before here).1 (before there).1 ne }
  · rcases List.mem_append.mp mem with mem | mem
    · exact sound.ended m mem
    · cases List.mem_singleton.mp mem
      exact cleared
  · obtain ⟨live', ne⟩ := before live'
    obtain ⟨disjoint, buf⟩ := sound.apart m s n r live' live ne
    have other : s.i0 ≠ r.i0 := fun same => disjoint s.mem_idx.1 (same ▸ r.mem_idx.1)
    exact (sound.formatted m s live').congr (fun _ _ => rfl) (Function.update_of_ne other ..)
      (Function.update_of_ne buf ..)
      fun _ _ => rfl

/-- The request that the driver is looking at has not been cleared. -/
theorem not_cleared {e : ℕ × ℕ} (next : d.device.served[d.clears.length]? = some e) : e.1 ∉ d.cleared := by
  intro mem
  refine (List.nodup_append.mp sound.nodup_split).2.2 _ mem e.1 (List.mem_map_of_mem ?_) rfl
  rw [List.mem_iff_getElem?]
  exact ⟨0, by rw [List.getElem?_drop, Nat.add_zero, next]⟩

theorem done [DecidableEq Buf] {e : ℕ × ℕ} (next : d.device.served[d.clears.length]? = some e)
    (request : d.requests[e.1]? = some r) :
    Sound (d.done r.buf) := by
  have cleared := cleared_done (b := r.buf) next
  have live : Live d e.1 r := sound.live request (sound.not_cleared next)
  have self : (d.done r.buf).disk r.buf = false := Function.update_self ..
  have other {b : Buf} (ne : b ≠ r.buf) : (d.done r.buf).disk b = d.disk b := Function.update_of_ne ne ..
  refine { sound with
    elems := sound.elems.from_later (by simp [Disk.done])
    clears := fun j b there => ?_
    ended := fun n mem => ?_
    waiting := fun n s there not => ?_
    finished := fun n s live' mem => ?_
    formatted := fun n s live => (sound.formatted n s live).congr (fun _ _ => rfl) rfl rfl fun _ _ => rfl }
  · rcases Nat.lt_or_ge j d.clears.length with less | last
    · simp only [Disk.done, List.getElem?_append_left less] at there
      exact sound.clears j b there
    · simp only [Disk.done, List.getElem?_append_right last, List.getElem?_singleton] at there
      split at there
      case isTrue zero =>
        cases there
        have same : j = d.clears.length := by omega
        subst same
        exact ⟨e, r, next, request, rfl⟩
      case isFalse => cases there
  · rw [cleared]
    exact List.mem_append_left _ (sound.ended n mem)
  · rw [cleared, List.mem_append, List.mem_singleton, not_or] at not
    rw [other (sound.apart n s e.1 r (sound.live there not.1) live not.2).2]
    exact sound.waiting n s there not.1
  · by_cases same : s.buf = r.buf
    · rw [same]
      exact self
    · rw [cleared, List.mem_append, List.mem_singleton] at mem
      rcases mem with mem | rfl
      · rw [other same]
        exact sound.finished n s live' mem
      · cases request.symm.trans live'.1
        exact absurd rfl same

/-! ### The device -/

theorem takes (ran : d.takes = some d') : Sound d' := by
  simp only [Disk.takes] at ran
  split at ran
  · cases ran
  case isFalse more =>
    have less : d.device.took.length < d.requests.length := by
      by_contra all
      have same : d.device.took.length = d.requests.length := le_antisymm sound.took_le (by omega)
      exact more (by rw [sound.seen, sound.avail, same])
    have there := List.getElem?_eq_getElem less
    have head : d.ring (cell d.device.seen) = d.requests[d.device.took.length].i0 := by
      rw [sound.seen, cell_wrap]
      exact sound.ring _ _ le_rfl (by rw [List.getElem?_map, there, Option.map_some])
    have live : Live d d.device.took.length d.requests[d.device.took.length] := by
      refine sound.live there fun cleared => ?_
      exact lt_irrefl _ (sound.lt_of_served (served_of_cleared cleared))
    have chain := (sound.formatted _ _ live).chain_eq
    cases ran
    refine { sound with
      seen := ?_
      took := Window.prefix_concat sound.took ?_
      ring := sound.ring.from_later (by simp)
      served := fun e mem => ?_
      formatted := fun n r live => (sound.formatted n r live).congr (fun _ _ => rfl) rfl rfl fun _ _ => rfl }
    · simp only [sound.seen, wrap_succ, List.length_append, List.length_singleton]
    · rw [List.getElem?_map, there, Option.map_some, head, chain]
    · obtain ⟨c, took⟩ := sound.served e mem
      exact ⟨c, (List.getElem?_append_left (List.getElem?_eq_some_iff.mp took).1).trans took⟩

theorem completes (ran : d.completes n = some d') : Sound d' := by
  simp only [Disk.completes] at ran
  split at ran
  · cases ran
  case _ head c there =>
    split at ran
    · cases ran
    case _ i place =>
      split at ran
      · cases ran
      case isFalse fresh =>
        have few := sound.completed
        have eight : num = 8 := rfl
        have length : (d.device.served.map Prod.snd).length = d.device.served.length := List.length_map ..
        have pushed := sound.elems.push (x := head) fun j least most => cell_ne most (by omega)
        rw [length, ← cell_wrap, ← sound.id] at pushed
        cases ran
        have cleared : ((d.device.served ++ [(n, head)]).take d.clears.length).map Prod.fst = d.cleared := by
          rw [List.take_append_of_le_length sound.clears_le, Disk.cleared]
        refine { sound with
          status := fun j => ?_
          id := ?_
          once := ?_
          served := fun e mem => ?_
          elems := ?_
          clears := fun j b there => ?_
          ended := fun m mem => ?_
          waiting := fun m s request not => ?_
          finished := fun m s live mem => ?_
          formatted := fun m s live => (sound.formatted m s live).congr (fun _ _ => rfl) rfl rfl fun _ _ => rfl }
        · by_cases same : j = i
          · subst same
            exact Function.update_self ..
          · exact (Function.update_of_ne same ..).trans (sound.status j)
        · simp only [sound.id, wrap_succ, List.length_append, List.length_singleton]
        · rw [List.map_append, List.map_singleton]
          rw [← List.concat_eq_append]
          exact sound.once.concat fresh
        · rcases List.mem_append.mp mem with mem | mem
          · exact sound.served e mem
          · cases List.mem_singleton.mp mem
            exact ⟨c, there⟩
        · rw [List.map_append, List.map_singleton]
          exact pushed
        · obtain ⟨e, r, served, request, buf⟩ := sound.clears j b there
          exact ⟨e, r, (List.getElem?_append_left (List.getElem?_eq_some_iff.mp served).1).trans served, request, buf⟩
        · rw [Disk.cleared, cleared]
          exact sound.ended m mem
        · rw [Disk.cleared, cleared] at not
          exact sound.waiting m s request not
        · rw [Disk.cleared, cleared] at mem
          exact sound.finished m s live mem

end Sound

end Xv6Labs.Virtio
