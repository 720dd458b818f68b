import Xv6Labs.Virtio.Lasting

/-!
# Every call keeps to the protocol

While `vdisk_lock` is free, exactly the descriptors of the live requests are in use. Whoever has the lock may have
some more of its own, and leave processes asleep on one channel that it is going to wake.
-/

namespace Xv6Labs.Virtio

open Threads Prog Monitor
open Proc (Slot)
open Window (Shows)

variable {Buf : Type} [DecidableEq Buf] {d d' : Disk Buf} {w w' : Waits (virtio Buf)} {r s : Request Buf}
  {n m i : ℕ} {b : Buf} {p : Slot} {t : Thread} {L : List ℕ} {out : Option (Chan Buf)} {V V' : Disk Buf → Prop}

/-- With `vdisk_lock`, and the descriptors `L`. -/
structure Inside (L : List ℕ) (out : Option (Chan Buf)) (V : Disk Buf → Prop) (d : Disk Buf)
    (w : Waits (virtio Buf)) : Prop where
  taken : ∀ i < num, d.free i = false ↔ i ∈ L ∨ ∃ n r, Live d n r ∧ i ∈ r.idx
  spare : ∀ i ∈ L, i < num ∧ ∀ n r, Live d n r → i ∉ r.idx
  nodup : L.Nodup
  bufs : ∀ q b, w q = some (Chan.buf b) → out ≠ some (Chan.buf b) → d.disk b = true
  frees : ∀ q, w q = some Chan.free → out ≠ some Chan.free → count d + L.length < 3
  fact : V d

theorem Inside.sub (inside : Inside L out V d w) (sub : Sub w' w) : Inside L out V d w' :=
  { inside with
    bufs := fun q b there => inside.bufs q b (sub q _ there)
    frees := fun q there => inside.frees q (sub q _ there) }

theorem Inside.imp (inside : Inside L out V d w) (weaker : V d → V' d) : Inside L out V' d w :=
  { inside with fact := weaker inside.fact }

/-- Whoever has the lock may owe a wakeup. -/
theorem Inside.owing (inside : Inside L none V d w) : Inside L out V d w :=
  { inside with
    bufs := fun q b there _ => inside.bufs q b there (Option.some_ne_none _).symm
    frees := fun q there _ => inside.frees q there (Option.some_ne_none _).symm }

theorem Inside.woken {c : Chan Buf} (inside : Inside L (some c) V d w) (awake : ∀ q, w q ≠ some c) :
    Inside L none V d w :=
  { inside with
    bufs := fun q b there _ => inside.bufs q b there fun same => awake q (there.trans same.symm)
    frees := fun q there _ => inside.frees q there fun same => awake q (there.trans same.symm) }

def Op.fine : Op Buf → Bool
  | .panic => false
  | _ => true

variable (Buf) in
def duty : Duty (virtio Buf) where
  always := Sound
  inv := Inside [] none Idx
  shrink := Inside.sub
  drift := Drift
  drift_refl d := ⟨d.device, d.user, rfl, List.prefix_rfl, List.prefix_rfl, fun _ _ => id⟩
  drift_trans := by
    rintro d _ _ ⟨e, u, rfl, took, served, kept⟩ ⟨e', u', rfl, took', served', kept'⟩
    exact ⟨e', u', rfl, took.trans took', served.trans served', fun b p there => kept' b p (kept b p there)⟩
  view t d d' := ∀ p, t = .proc p → Own p d d'
  view_refl _ _ _ _ := .same rfl rfl rfl
  view_trans t d d' d'' own own' p mine :=
    have before := own p mine
    have after := own' p mine
    { user := fun b there => after.user b (before.user b there)
      requests := fun n r there => after.requests n r (before.requests n r there)
      mine := fun n r there caller => before.mine n r (after.mine n r there caller) caller
      ended := fun n r there caller => (before.ended n r there caller).trans
        (after.ended n r (before.requests n r there) caller) }
  drift_view _ _ _ drift _ _ := drift.own
  ok _ x _ := x.fine = true

theorem robust_inside (lasting : Lasting V) : Robust (duty Buf) (Inside L out V) where
  drift d d' w drift inside := by
    have fact := lasting d d' drift inside.fact
    obtain ⟨e, u, rfl, -⟩ := drift
    exact ⟨inside.taken, inside.spare, inside.nodup, inside.bufs, inside.frees, fact⟩
  sub _ _ _ sub inside := inside.sub sub

theorem triple_absurd {α : Type} {pre : Monitor.State (virtio Buf) → Prop} {code : Code (virtio Buf) α}
    {post : α → Monitor.State (virtio Buf) → Prop} (never : ∀ s, (terms (duty Buf)).inv s → ¬ pre s) :
    Triple (duty Buf) t pre code post := fun s inv start => absurd start (never s inv)

/-! ### Descriptors -/

theorem Inside.used (inside : Inside L out V d w) (mem : i ∈ L) : i < num ∧ d.free i = false := by
  have bound := (inside.spare i mem).1
  exact ⟨bound, (inside.taken i bound).mpr (.inl mem)⟩

theorem Inside.alloc (inside : Inside L none V d w) (sound : Sound d) (bound : i < num) (free : d.free i = true)
    (fact : V { d with free := Function.update d.free i false }) :
    Inside (L ++ [i]) none V { d with free := Function.update d.free i false } w where
  taken j less := by
    by_cases same : j = i
    · subst same
      simp
    · rw [List.mem_append, List.mem_singleton, or_iff_left same]
      exact (iff_of_eq (congrArg (· = false) (Function.update_of_ne same ..))).trans (inside.taken j less)
  spare j mem := by
    rcases List.mem_append.mp mem with mem | mem
    · exact inside.spare j mem
    · cases List.mem_singleton.mp mem
      exact ⟨bound, fun n r live => not_live_of_free sound free live⟩
  nodup := by
    rw [← List.concat_eq_append]
    refine inside.nodup.concat fun mem => ?_
    exact Bool.noConfusion (free.symm.trans (inside.used mem).2)
  bufs := inside.bufs
  frees q there out := by
    have less := inside.frees q there out
    have step := count_alloc bound free
    rw [List.length_append, List.length_singleton]
    omega
  fact := fact

theorem Inside.setFree (inside : Inside (i :: L) (some Chan.free) V d w) (fact : V' (d.setFree i)) :
    Inside L (some Chan.free) V' (d.setFree i) w where
  taken j less := by
    by_cases same : j = i
    · subst same
      have apart := (inside.spare j List.mem_cons_self).2
      have notMem := (List.nodup_cons.mp inside.nodup).1
      refine iff_of_false (by simp [Disk.setFree]) fun there => ?_
      rcases there with mem | ⟨n, r, live, mem⟩
      · exact notMem mem
      · exact apart n r live mem
    · have before := inside.taken j less
      rw [List.mem_cons, or_iff_right same] at before
      exact (iff_of_eq (congrArg (· = false) (Function.update_of_ne same ..))).trans before
  spare j mem := inside.spare j (List.mem_cons_of_mem _ mem)
  nodup := (List.nodup_cons.mp inside.nodup).2
  bufs := inside.bufs
  frees _ _ out := absurd rfl out
  fact := fact

theorem triple_allocDesc (lasting : Lasting V)
    (blind : ∀ d i, V d → V { d with free := Function.update d.free i false }) :
    Triple (duty Buf) t (Knows t [.cond] (Inside L none V)) (look .allocDesc) fun r : Option ℕ => Knows t [.cond]
      (r.elim (Inside L none fun d => V d ∧ count d = 0) fun i => Inside (L ++ [i]) none V) := by
  have robust (r : Option ℕ) : Robust (duty Buf)
      (r.elim (Inside L none fun d => V d ∧ count d = 0) fun i => Inside (L ++ [i]) none V) := by
    cases r with
    | none => exact robust_inside (lasting.and (.driver count 0 fun _ _ _ => rfl))
    | some i => exact robust_inside lasting
  refine triple_op (robust_inside lasting).lasts (fun r => (robust r).lasts) fun d w sound inside =>
    ⟨rfl, fun r d' ran => ?_⟩
  cases found : d.firstFree with
  | none =>
    simp only [perform, found] at ran
    cases ran
    have none (i : ℕ) (mem : i ∈ List.range num) : ¬ d.free i = true := List.find?_eq_none.mp found i mem
    have zero : count d = 0 := by
      unfold count
      rw [List.filter_eq_nil_iff.mpr none, List.length_nil]
    exact ⟨sound, fun u _ => (duty Buf).view_refl u d, inside.imp fun fact => ⟨fact, zero⟩⟩
  | some i =>
    simp only [perform, found] at ran
    cases ran
    have free : d.free i = true := List.find?_some found
    have bound : i < num := List.mem_range.mp (List.mem_of_find?_eq_some found)
    exact ⟨sound_alloc sound free, fun u _ p _ => .same rfl rfl rfl,
      inside.alloc sound bound free (blind d i inside.fact)⟩

theorem triple_freeDesc (lasting : Lasting V) (lasting' : Lasting V')
    (blind : ∀ d, i < num → d.free i = false → V d → V' (d.setFree i)) :
    Triple (duty Buf) t (Knows t [.cond] (Inside (i :: L) (some Chan.free) V)) (freeDesc i) fun _ =>
      Knows t [.cond] (Inside L none V') := by
  intro s inv knows
  have bound : ¬ num ≤ i := Nat.not_le.mpr (knows.fact.used List.mem_cons_self).1
  unfold freeDesc
  rw [if_neg bound]
  refine Triple.bind (triple_looks (O := virtio Buf) (.isFree i) (fun d => d.free i) (fun _ _ => rfl) (fun _ => rfl) ?_
    (robust_inside lasting)) (fun free => ?_) s inv knows
  · rintro d _ ⟨e, u, rfl, -⟩
    rfl
  cases free with
  | true =>
    refine triple_absurd fun s _ knows => ?_
    exact Bool.noConfusion (knows.fact.2.symm.trans (knows.fact.1.used List.mem_cons_self).2)
  | false =>
    have freed : Triple (duty Buf) t (Knows t [.cond] (Inside (i :: L) (some Chan.free) V)) (look (.setFree i)) fun _ =>
        Knows t [.cond] (Inside L (some Chan.free) V') := by
      refine triple_op (robust_inside lasting).lasts (fun _ => (robust_inside lasting').lasts) fun d w sound inside =>
        ⟨rfl, fun r d' ran => ?_⟩
      cases ran
      obtain ⟨less, used⟩ := inside.used List.mem_cons_self
      exact ⟨sound_setFree sound (inside.spare i List.mem_cons_self).2, fun u _ p _ => .same rfl rfl rfl,
        inside.setFree (blind d less used inside.fact)⟩
    refine ((freed.mono (fun _ _ knows => knows.imp fun _ _ => And.left) fun _ _ _ there => there).bind fun _ =>
      triple_wakeup (robust_inside lasting').lasts).mono (fun _ _ there => there) fun _ _ _ knows => ?_
    exact knows.imp fun _ _ fact => fact.1.woken fact.2

theorem triple_freeDescs (lasting : Lasting V) (blind : ∀ d i, V d → V (d.setFree i)) :
    Triple (duty Buf) t (Knows t [.cond] (Inside L none fun d => V d ∧ count d + L.length < 3)) (freeDescs L) fun _ =>
      Knows t [.cond] (Inside [] none fun d => V d ∧ count d < 3) := by
  have counts (k : ℕ) : Lasting fun d : Disk Buf => count d + k < 3 := by
    rintro d _ ⟨e, u, rfl, -⟩ less
    exact less
  induction L with
  | nil => exact triple_keep (robust_inside (lasting.and (counts 0)))
  | cons i rest ih =>
    refine Triple.bind ?_ fun _ => ih
    refine (triple_freeDesc (lasting.and (counts (i :: rest).length)) (lasting.and (counts rest.length)) ?_).mono
      (fun _ _ knows => knows.imp fun _ _ inside => inside.owing) fun _ _ _ there => there
    intro d bound used fact
    refine ⟨blind d i fact.1, ?_⟩
    have less := fact.2
    rw [List.length_cons] at less
    rw [count_setFree bound used]
    omega

theorem triple_allocDescs (left : ℕ) (rounds : L.length + left = 3) (lasting : Lasting V)
    (taking : ∀ d i, V d → V { d with free := Function.update d.free i false })
    (giving : ∀ d i, V d → V (d.setFree i)) :
    Triple (duty Buf) t (Knows t [.cond] (Inside L none V)) (allocDescs left L) fun r => Knows t [.cond]
      (r.elim (Inside [] none fun d => V d ∧ count d < 3) fun idx => Inside idx none fun d => V d ∧
        idx.length = 3) := by
  induction left generalizing L with
  | zero =>
    refine Triple.pure (stable_knows (robust_inside lasting).lasts) fun s _ knows => ?_
    exact knows.imp fun _ _ inside => inside.imp fun fact => ⟨fact, rounds⟩
  | succ left ih =>
    unfold allocDescs
    refine (triple_allocDesc lasting taking).bind fun i => ?_
    cases i with
    | none =>
      have few : Lasting fun d => V d ∧ count d < 3 := by
        refine lasting.and ?_
        rintro d _ ⟨e, u, rfl, -⟩ less
        exact less
      refine Triple.bind (Triple.mono (triple_freeDescs lasting giving) (fun _ _ knows => ?_) fun _ _ _ there =>
        there) fun _ =>
        Triple.pure (stable_knows (robust_inside few).lasts) fun _ _ knows => knows
      refine knows.imp fun d _ inside => inside.imp fun fact => ⟨fact.1, ?_⟩
      rw [fact.2]
      omega
    | some i =>
      refine ih ?_
      rw [List.length_append, List.length_singleton]
      omega

/-! ### The calls of a process -/

theorem triple_awaitDescs (fuel : ℕ) :
    Triple (duty Buf) (.proc p) (Knows (.proc p) [.cond] (Inside [] none fun d => Uses p b d ∧ Idx d))
    (awaitDescs p fuel)
      fun idx => Knows (.proc p) [.cond] (Inside idx none fun d => (Uses p b d ∧ Idx d) ∧ idx.length = 3) := by
  have lasting : Lasting fun d => Uses p b d ∧ Idx d := lasting_uses.and lasting_idx
  have few : Lasting fun d => (Uses p b d ∧ Idx d) ∧ count d < 3 := by
    refine lasting.and ?_
    rintro d _ ⟨e, u, rfl, -⟩ less
    exact less
  induction fuel with
  | zero => exact triple_cut
  | succ fuel ih =>
    unfold awaitDescs alloc3Desc
    refine (triple_allocDescs 3 rfl lasting (fun _ _ fact => fact) fun _ _ fact => fact).bind fun idx => ?_
    cases idx with
    | some idx =>
      exact Triple.pure (stable_knows (robust_inside (lasting.and fun _ _ _ fact => fact)).lasts) fun _ _ knows => knows
    | none =>
      refine (triple_rest (V := Uses p b) (fun d d' view uses => (view p rfl).uses uses) (robust_inside few)
        (robust_inside lasting) (fun d w _ inside => ?_) (fun _ _ inside => inside.fact.1.1) fun d w _ inside uses =>
          ?_).bind
        fun _ => ih
      · obtain ⟨⟨-, idx⟩, less⟩ := inside.fact
        refine { inside with bufs := fun q b there => ?_, frees := fun _ _ _ => less, fact := idx }
        by_cases same : q = p
        · subst same
          rw [Function.update_self] at there
          cases there
        · rw [Function.update_of_ne same] at there
          exact inside.bufs q b there
      · exact inside.imp fun idx => ⟨uses, idx⟩

/-- A write that the device does not look at yet. -/
theorem triple_setDesc {v : Desc Buf} (lasting : Lasting V) (mem : i ∈ L)
    (blind : ∀ d, V d → V { d with desc := Function.update d.desc i v }) :
    Triple (duty Buf) t (Knows t [.cond] (Inside L none V)) (look (.setDesc i v)) fun _ =>
      Knows t [.cond] (Inside L none fun d => V d ∧ d.desc i = v) := by
  have written : Lasting fun d : Disk Buf => d.desc i = v := .driver (fun d => d.desc i) v fun _ _ _ => rfl
  refine triple_op (robust_inside lasting).lasts (fun _ => (robust_inside (lasting.and written)).lasts)
    fun d w sound inside =>
    ⟨rfl, fun r d' ran => ?_⟩
  cases ran
  refine ⟨sound.rewrites (fun n r live => ?_) fun _ _ _ => rfl, fun u _ p _ => .same rfl rfl rfl,
    ⟨inside.taken, inside.spare, inside.nodup, inside.bufs, inside.frees, blind d inside.fact, Function.update_self ..⟩⟩
  refine (sound.formatted n r live).congr (fun j there => Function.update_of_ne ?_ ..) rfl rfl fun _ _ => rfl
  rintro rfl
  exact (inside.spare j mem).2 n r live there

/-- Another write that neither the device nor other processes look at. -/
theorem triple_clearStatus (lasting : Lasting V) (blind : ∀ d e, V d → V { d with device := e }) :
    Triple (duty Buf) t (Knows t [.cond] (Inside L none V)) (look (.clearStatus i)) fun _ =>
      Knows t [.cond] (Inside L none V) := by
  refine triple_op (robust_inside lasting).lasts (fun _ => (robust_inside lasting).lasts) fun d w sound inside =>
    ⟨rfl, fun r d' ran => ?_⟩
  cases ran
  exact ⟨sound.clearStatus, fun u _ p _ => .same rfl rfl rfl,
    ⟨inside.taken, inside.spare, inside.nodup, inside.bufs, inside.frees, blind d _ inside.fact⟩⟩

theorem triple_setDisk (lasting : Lasting V) (uses : ∀ d, V d → Uses p b d)
    (blind : ∀ d, V d → V { d with disk := Function.update d.disk b true }) :
    Triple (duty Buf) t (Knows t [.cond] (Inside L none V)) (look (.setDisk b)) fun _ =>
      Knows t [.cond] (Inside L none fun d => V d ∧ d.disk b = true) := by
  have written : Lasting fun d : Disk Buf => d.disk b = true := .driver (fun d => d.disk b) true fun _ _ _ => rfl
  refine triple_op (robust_inside lasting).lasts (fun _ => (robust_inside (lasting.and written)).lasts)
    fun d w sound inside =>
    ⟨rfl, fun r d' ran => ?_⟩
  cases ran
  have other (n : ℕ) (r : Request Buf) (live : Live d n r) : Function.update d.disk b true r.buf = d.disk r.buf :=
    Function.update_of_ne ((uses d inside.fact).apart sound live).symm ..
  refine ⟨sound.rewrites (fun n r live => ?_) other, fun u _ p _ => .same rfl rfl rfl,
    ⟨inside.taken, inside.spare, inside.nodup, fun q c there out => ?_, inside.frees, blind d inside.fact,
      Function.update_self ..⟩⟩
  · exact (sound.formatted n r live).congr (fun _ _ => rfl) rfl rfl fun _ _ => rfl
  · by_cases same : c = b
    · subst same
      exact Function.update_self ..
    · exact (Function.update_of_ne same ..).trans (inside.bufs q c there out)

theorem triple_setInfo (lasting : Lasting V) (mem : i ∈ L)
    (blind : ∀ d, V d → V { d with info := Function.update d.info i (some b) }) :
    Triple (duty Buf) t (Knows t [.cond] (Inside L none V)) (look (.setInfo i b)) fun _ =>
      Knows t [.cond] (Inside L none fun d => V d ∧ d.info i = some b) := by
  have written : Lasting fun d : Disk Buf => d.info i = some b := .driver (fun d => d.info i) _ fun _ _ _ => rfl
  refine triple_op (robust_inside lasting).lasts (fun _ => (robust_inside (lasting.and written)).lasts)
    fun d w sound inside =>
    ⟨rfl, fun r d' ran => ?_⟩
  cases ran
  refine ⟨sound.rewrites (fun n r live => ?_) fun _ _ _ => rfl, fun u _ p _ => .same rfl rfl rfl,
    ⟨inside.taken, inside.spare, inside.nodup, inside.bufs, inside.frees, blind d inside.fact, Function.update_self ..⟩⟩
  refine (sound.formatted n r live).congr (fun _ _ => rfl) (Function.update_of_ne ?_ ..) rfl fun _ _ => rfl
  intro same
  exact (inside.spare i mem).2 n r live (same ▸ r.mem_idx.1)

theorem triple_setRing (lasting : Lasting V) (blind : ∀ d f, V d → V { d with ring := f }) :
    Triple (duty Buf) t (Knows t [.cond] (Inside L none V)) (look (.setRing i)) fun _ =>
      Knows t [.cond] (Inside L none fun d => V d ∧ Entered i d) := by
  refine triple_op (robust_inside lasting).lasts (fun _ => (robust_inside (lasting.and lasting_entered)).lasts)
    fun d w sound inside => ⟨rfl, fun r d' ran => ?_⟩
  cases ran
  exact ⟨sound.setRing, fun u _ p _ => .same rfl rfl rfl,
    ⟨inside.taken, inside.spare, inside.nodup, inside.bufs, inside.frees, blind d _ inside.fact, sound.ring_push i⟩⟩

theorem triple_publish : Triple (duty Buf) (.proc r.caller)
    (Knows (.proc r.caller) [.cond] (Inside r.idx none fun d => (Uses r.caller r.buf d ∧ Idx d) ∧ Written r d))
    (look (.publish r)) fun n : ℕ => Knows (.proc r.caller) [.cond]
      (Inside [] none fun d => Pending n r d ∧ Idx d) := by
  refine triple_op (robust_inside ((lasting_uses.and lasting_idx).and lasting_written)).lasts
    (fun n => (robust_inside (lasting_pending.and lasting_idx)).lasts) fun d w sound inside => ⟨rfl, fun n d' ran => ?_⟩
  cases ran
  obtain ⟨⟨uses, idx⟩, written⟩ := inside.fact
  have formatted : Formatted d r := ⟨written.first, written.second, written.third, written.info, uses.2,
    fun i mem => (inside.used mem).1, fun i mem => (inside.used mem).2, inside.nodup⟩
  have apart (n : ℕ) (s : Request Buf) (live : Live d n s) : r.idx.Disjoint s.idx ∧ r.buf ≠ s.buf :=
    ⟨fun i mem mem' => (inside.spare i mem).2 n s live mem', uses.apart sound live⟩
  have fresh : d.requests.length ∉ d.ended := fun mem => lt_irrefl _ (sound.lt_of_ended mem)
  have new : Live (d.publish r) d.requests.length r := ⟨List.getElem?_concat_length .., fresh⟩
  have old {n : ℕ} {s : Request Buf} (live : Live d n s) : Live (d.publish r) n s :=
    ⟨(List.getElem?_append_left (List.getElem?_eq_some_iff.mp live.1).1).trans live.1, live.2⟩
  refine ⟨sound.publish formatted written.disk written.entered apart, fun u ne p same => .publish ?_,
    ⟨fun i bound => ?_, fun i mem => absurd mem List.not_mem_nil, List.nodup_nil, inside.bufs, fun q there out => ?_,
    ⟨new, fun m s there caller ne => ?_⟩, idx⟩⟩
  · rintro rfl
    exact ne same
  · refine (inside.taken i bound).trans ⟨?_, ?_⟩
    · rintro (mem | ⟨n, s, live, mem⟩)
      · exact .inr ⟨_, r, new, mem⟩
      · exact .inr ⟨n, s, old live, mem⟩
    · rintro (mem | ⟨n, s, live, mem⟩)
      · exact absurd mem List.not_mem_nil
      · rcases live.publish_cases with live | ⟨rfl, rfl⟩
        · exact .inr ⟨n, s, live, mem⟩
        · exact .inl mem
  · have less := inside.frees q there out
    have three : r.idx.length = 3 := rfl
    omega
  · have before : d.requests[m]? = some s := by
      rcases Nat.lt_or_ge m d.requests.length with less | last
      · exact (List.getElem?_append_left less).symm.trans there
      · have within := (List.getElem?_eq_some_iff.mp there).1
        have length : (d.publish r).requests.length = d.requests.length + 1 := List.length_append
        omega
    exact uses.1 m s before caller

theorem triple_submit : Triple (duty Buf) (.proc r.caller)
    (Knows (.proc r.caller) [.cond] (Inside r.idx none fun d => Uses r.caller r.buf d ∧ Idx d)) (submit r) fun n : ℕ =>
      Knows (.proc r.caller) [.cond] (Inside [] none fun d => Pending n r d ∧ Idx d) := by
  intro s inv knows
  obtain ⟨m0, m1, m2⟩ := r.mem_idx
  have nodup : [r.i0, r.i1, r.i2].Nodup := knows.fact.nodup
  simp only [List.nodup_cons, List.mem_cons, List.not_mem_nil, or_false, not_or] at nodup
  obtain ⟨⟨ne01, ne02⟩, ne12, -⟩ := nodup
  have last0 : Lasting fun d => Uses r.caller r.buf d ∧ Idx d := lasting_uses.and lasting_idx
  have last1 := last0.and (.driver (fun d => d.desc r.i0) r.first fun _ _ _ => rfl)
  have last2 := last1.and (.driver (fun d => d.desc r.i1) r.second fun _ _ _ => rfl)
  have last3 := last2.and (.driver (fun d => d.desc r.i2) r.third fun _ _ _ => rfl)
  have last4 := last3.and (.driver (fun d => d.disk r.buf) true fun _ _ _ => rfl)
  have last5 := last4.and (.driver (fun d => d.info r.i0) (some r.buf) fun _ _ _ => rfl)
  have other (d : Disk Buf) {i j : ℕ} {v v' : Desc Buf} (ne : j ≠ i) (there : d.desc j = v) :
    Function.update d.desc i v' j = v :=
    (Function.update_of_ne ne ..).trans there
  refine ((triple_setDesc last0 m0 fun _ fact => fact).bind fun _ =>
    (triple_setDesc last1 m1 fun d fact => ⟨fact.1, other d ne01 fact.2⟩).bind fun _ =>
    (triple_clearStatus last2 fun _ _ fact => fact).bind fun _ =>
    (triple_setDesc last2 m2 fun d fact => ⟨⟨fact.1.1, other d ne02 fact.1.2⟩, other d ne12 fact.2⟩).bind fun _ =>
    (triple_setDisk last3 (fun d fact => fact.1.1.1.1) fun _ fact => fact).bind fun _ =>
    (triple_setInfo last4 m0 fun _ fact => fact).bind fun _ =>
    (triple_setRing last5 fun _ _ fact => fact).bind fun _ =>
      triple_publish.mono (fun s _ knows => ?_) fun _ _ _ there => there) s inv knows
  refine knows.imp fun d w inside => inside.imp fun fact => ?_
  obtain ⟨⟨⟨⟨⟨⟨fact, first⟩, second⟩, third⟩, disk⟩, info⟩, entered⟩ := fact
  exact ⟨fact, first, second, third, disk, info, entered⟩

theorem triple_awaitDisk (fuel : ℕ) : Triple (duty Buf) (.proc r.caller)
    (Knows (.proc r.caller) [.cond] (Inside [] none fun d => Pending n r d ∧ Idx d))
    (awaitDisk r.caller r.buf fuel) fun _ =>
      Knows (.proc r.caller) [.cond] (Inside [] none fun d => (Pending n r d ∧ Idx d) ∧ d.disk r.buf = false) := by
  have lasting : Lasting fun d => Pending n r d ∧ Idx d := lasting_pending.and lasting_idx
  induction fuel with
  | zero => exact triple_cut
  | succ fuel ih =>
    unfold awaitDisk
    refine (triple_looks (O := virtio Buf) (.onDisk r.buf) (fun d => d.disk r.buf) (fun _ _ => rfl) (fun _ => rfl) ?_
      (robust_inside lasting)).bind fun disk => ?_
    · rintro d _ ⟨e, u, rfl, -⟩
      rfl
    have looked : Lasting fun d => (Pending n r d ∧ Idx d) ∧ d.disk r.buf = disk :=
      lasting.and (.driver (fun d => d.disk r.buf) disk fun _ _ _ => rfl)
    have joined (d : Disk Buf) (w : Waits (virtio Buf)) (fact : Inside [] none (fun d => Pending n r d ∧ Idx d) d w ∧
        d.disk r.buf = disk) : Inside [] none (fun d => (Pending n r d ∧ Idx d) ∧ d.disk r.buf = disk) d w :=
      fact.1.imp fun now => ⟨now, fact.2⟩
    cases disk with
    | false =>
      refine Triple.mono (triple_keep (robust_inside looked))
        (fun _ _ knows => knows.imp joined) fun _ _ _ knows => knows
    | true =>
      refine ((triple_rest (V := Pending n r) (fun d d' view pending => (view _ rfl).pending pending)
        (robust_inside looked)
        (robust_inside lasting) (fun d w _ inside => ?_) (fun _ _ inside => inside.fact.1.1)
          fun d w _ inside pending => ?_).mono
        (fun _ _ knows => knows.imp joined) fun _ _ _ knows => knows).bind fun _ => ih
      · refine { inside with bufs := fun q b there out => ?_, frees := fun q there out => ?_, fact := inside.fact.1.2 }
        · by_cases same : q = r.caller
          · subst same
            rw [Function.update_self] at there
            cases there
            exact inside.fact.2
          · rw [Function.update_of_ne same] at there
            exact inside.bufs q b there out
        · by_cases same : q = r.caller
          · subst same
            rw [Function.update_self] at there
            cases there
          · rw [Function.update_of_ne same] at there
            exact inside.frees q there out
      · exact inside.imp fun idx => ⟨pending, idx⟩

theorem triple_freeChain (fuel : ℕ) (lasting : Lasting V) (blind : ∀ d i, V d → V (d.setFree i)) :
    Triple (duty Buf) t (Knows t [.cond] (Inside (i :: L) (some Chan.free) fun d => V d ∧ Linked d (i :: L)))
    (freeChain fuel i)
      fun _ => Knows t [.cond] (Inside [] none V) := by
  induction fuel generalizing i L with
  | zero => exact triple_cut
  | succ fuel ih =>
    have all : Lasting fun d => V d ∧ Linked d (i :: L) := lasting.and lasting_linked
    unfold freeChain
    refine (triple_freeDesc all all fun d _ _ fact => ⟨blind d i fact.1, fact.2.congr (link_setFree d i)⟩).bind
      fun _ => ?_
    refine (triple_looks (O := virtio Buf) (.link i) (fun d => d.link i) (fun _ _ => rfl) (fun _ => rfl) ?_
      (robust_inside all)).bind
      fun next => ?_
    · rintro d _ ⟨e, u, rfl, -⟩
      rfl
    cases L with
    | nil =>
      cases next with
      | none =>
        refine Triple.mono (triple_keep (robust_inside all))
          (fun _ _ knows => knows.imp fun _ _ => And.left) fun _ _ _ knows => ?_
        exact knows.imp fun _ _ inside => inside.imp And.left
      | some j =>
        refine triple_absurd fun s _ knows => ?_
        have last : s.data.link i = none := knows.fact.1.fact.2
        cases last.symm.trans knows.fact.2
    | cons j rest =>
      cases next with
      | none =>
        refine triple_absurd fun s _ knows => ?_
        have more : s.data.link i = some j := knows.fact.1.fact.2.1
        cases more.symm.trans knows.fact.2
      | some k =>
        have onwards : Triple (duty Buf) t
            (fun s => k = j ∧ Knows t [.cond] (Inside (j :: rest) none fun d => V d ∧ Linked d (j :: rest)) s)
            (freeChain fuel k) fun _ => Knows t [.cond] (Inside [] none V) := by
          refine Triple.and fun same => ?_
          subst same
          exact ih.mono (fun _ _ knows => knows.imp fun _ _ inside => inside.owing) fun _ _ _ there => there
        refine onwards.mono (fun s _ knows => ⟨?_, ?_⟩) fun _ _ _ there => there
        · have more : s.data.link i = some j := knows.fact.1.fact.2.1
          exact (Option.some.inj (more.symm.trans knows.fact.2)).symm
        · exact knows.imp fun _ _ fact => fact.1.imp fun now => ⟨now.1, now.2.2⟩

theorem Own.forget (request : d.requests[n]? = some r) (user : d.user r.buf = some r.caller) (other : r.caller ≠ p) :
    Own p d (d.forget n r.i0 r.buf) where
  user b there := by
    refine (Function.update_of_ne ?_ ..).trans there
    rintro rfl
    exact other (Option.some.inj (user.symm.trans there))
  requests _ _ there := there
  mine _ _ there _ := there
  ended m s there caller := by
    refine ⟨fun mem => List.mem_append_left _ mem, fun mem => ?_⟩
    rcases List.mem_append.mp mem with mem | mem
    · exact mem
    · cases List.mem_singleton.mp mem
      cases request.symm.trans there
      exact absurd caller other

theorem triple_forget : Triple (duty Buf) (.proc r.caller)
    (Knows (.proc r.caller) [.cond] (Inside [] none fun d => (Pending n r d ∧ Idx d) ∧ d.disk r.buf = false))
    (look (.forget n r.i0 r.buf)) fun _ => Knows (.proc r.caller) [.cond]
      (Inside r.idx (some Chan.free) fun d => (Rests r.caller d ∧ Idx d) ∧ Linked d r.idx) := by
  have before : Lasting fun d : Disk Buf => (Pending n r d ∧ Idx d) ∧ d.disk r.buf = false :=
    (lasting_pending.and lasting_idx).and (.driver (fun d => d.disk r.buf) false fun _ _ _ => rfl)
  have after : Lasting fun d : Disk Buf => (Rests r.caller d ∧ Idx d) ∧ Linked d r.idx :=
    (lasting_rests.and lasting_idx).and lasting_linked
  refine triple_op (robust_inside before).lasts (fun _ => (robust_inside after).lasts) fun d w sound inside =>
    ⟨rfl, fun _ d' ran => ?_⟩
  cases ran
  obtain ⟨⟨⟨live, others⟩, idx⟩, disk⟩ := inside.fact
  have formatted := sound.formatted n r live
  have cleared : n ∈ d.cleared := by
    by_contra not
    exact Bool.noConfusion (disk.symm.trans (sound.waiting n r live.1 not))
  have old {m : ℕ} {s : Request Buf} (live' : Live (d.forget n r.i0 r.buf) m s) : Live d m s ∧ m ≠ n := by
    have not : m ∉ d.ended ++ [n] := live'.2
    exact ⟨⟨live'.1, fun mem => not (List.mem_append_left _ mem)⟩, fun same => not (by simp [same])⟩
  refine ⟨sound.forget live cleared, fun u ne p same => .forget live.1 formatted.user ?_,
    ⟨fun i bound => ?_, fun i mem => ?_,
    formatted.nodup, inside.owing.bufs, fun _ _ out => absurd rfl out, ⟨fun m s there caller => ?_, idx⟩,
    formatted.linked.congr fun _ => rfl⟩⟩
  · rintro rfl
    exact ne same
  · refine (inside.taken i bound).trans ⟨?_, ?_⟩
    · rintro (mem | ⟨m, s, live', mem⟩)
      · exact absurd mem List.not_mem_nil
      · by_cases same : m = n
        · subst same
          cases live.1.symm.trans live'.1
          exact .inl mem
        · exact .inr ⟨m, s,
            ⟨live'.1, fun there => live'.2 ((List.mem_append.mp there).resolve_right (by simpa using same))⟩, mem⟩
    · rintro (mem | ⟨m, s, live', mem⟩)
      · exact .inr ⟨n, r, live, mem⟩
      · exact .inr ⟨m, s, (old live').1, mem⟩
  · refine ⟨formatted.bound i mem, fun m s live' mem' => ?_⟩
    obtain ⟨live', ne⟩ := old live'
    exact (sound.apart m s n r live' live ne).1 mem' mem
  · by_cases same : m = n
    · exact List.mem_append_right _ (by simp [same])
    · exact List.mem_append_left _ (others m s there caller same)

theorem triple_virtioDiskRw {blockno : ℕ} {write : Bool} (fuel : ℕ) :
    Triple (duty Buf) (.proc p) (Knows (.proc p) [] fun d _ => Uses p b d)
    (virtioDiskRw p b blockno write fuel) fun _ =>
      Knows (.proc p) [] fun d _ => Rests p d := by
  have entered : Triple (duty Buf) (.proc p) (Knows (.proc p) [] fun d _ => Uses p b d) (acquire .cond) fun _ =>
      Knows (.proc p) [.cond] (Inside [] none fun d => Uses p b d ∧ Idx d) := by
    have robust : Robust (duty Buf) (Inside [] none fun d => Uses p b d ∧ Idx d) :=
      robust_inside (lasting_uses.and lasting_idx)
    refine (triple_acquire fun d d' view uses => (view p rfl).uses uses).mono
      (fun _ _ knows => knows) fun _ s _ inside => ?_
    obtain ⟨d, w, ⟨-, inv, uses⟩, inside⟩ := inside
    refine inside.imp fun d' w' now => ?_
    exact robust.drift _ _ _ now.1 (robust.sub _ _ _ now.2 (Inside.imp inv fun idx => ⟨uses, idx⟩))
  have rests : Lasting fun d : Disk Buf => Rests p d ∧ Idx d := lasting_rests.and lasting_idx
  unfold virtioDiskRw
  refine entered.bind fun _ => (triple_awaitDescs fuel).bind fun idx => ?_
  intro s inv knows
  obtain ⟨i0, i1, i2, rfl⟩ := List.length_eq_three.mp knows.fact.fact.2
  let r : Request Buf := ⟨p, b, write, sector blockno, i0, i1, i2⟩
  have submitted : Triple (duty Buf) (.proc p) (Knows (.proc p) [.cond] (Inside [i0, i1, i2] none fun d =>
      (Uses p b d ∧ Idx d) ∧ [i0, i1, i2].length = 3)) (submit r) fun n : ℕ =>
        Knows (.proc p) [.cond] (Inside [] none fun d => Pending n r d ∧ Idx d) :=
    (triple_submit (r := r)).mono (fun _ _ knows => knows.imp fun _ _ inside => inside.imp And.left)
      fun _ _ _ there => there
  refine (submitted.bind fun n => (triple_awaitDisk (r := r) fuel).bind fun _ => (triple_forget (r := r)).bind fun _ =>
    (triple_freeChain num rests fun _ _ fact => fact).bind fun _ => ?_) s inv knows
  exact triple_release (fun d d' view fact => (view p rfl).rests fact) (robust_inside rests).lasts
    (fun d w _ inside => inside.imp And.right) fun _ _ inside => inside.fact.1

/-! ### Interrupts -/

theorem stable_resting (d d' : Disk Buf) (view : (duty Buf).view t d d') (rests : Resting t d) : Resting t d' :=
  fun p same => (view p same).rests (rests p same)

theorem triple_more : Triple (duty Buf) t (Knows t [.cond] (Inside [] none fun d => Resting t d ∧ Idx d)) (look .more)
    fun more : Bool => Knows t [.cond]
      (Inside [] none fun d => (Resting t d ∧ Idx d) ∧ (more = true → d.clears.length < d.device.served.length)) := by
  have lasting : Lasting fun d : Disk Buf => Resting t d ∧ Idx d := lasting_resting.and lasting_idx
  have more (r : Bool) : Lasting fun d : Disk Buf => r = true → d.clears.length < d.device.served.length := by
    rintro d _ ⟨e, u, rfl, -, served, -⟩ less found
    exact lt_of_lt_of_le (less found) served.length_le
  refine triple_op (robust_inside lasting).lasts (fun r => (robust_inside (lasting.and (more r))).lasts)
    fun d w sound inside =>
    ⟨rfl, fun r d' ran => ?_⟩
  cases ran
  refine ⟨sound, fun u _ => (duty Buf).view_refl u d, inside.imp fun fact => ⟨fact, fun found => ?_⟩⟩
  refine lt_of_le_of_ne sound.clears_le fun same => ?_
  have idx : d.usedIdx = cell d.clears.length := fact.2
  rw [idx, sound.id, cell_wrap, same] at found
  simp [cell] at found

theorem triple_elem : Triple (duty Buf) t
    (Knows t [.cond] (Inside [] none fun d => (Resting t d ∧ Idx d) ∧
      (true = true → d.clears.length < d.device.served.length)))
    (look .elem) fun id : ℕ => Knows t [.cond] (Inside [] none fun d => (Resting t d ∧ Idx d) ∧ Next id d) := by
  have lasting : Lasting fun d : Disk Buf => Resting t d ∧ Idx d := lasting_resting.and lasting_idx
  have more : Lasting fun d : Disk Buf => true = true → d.clears.length < d.device.served.length := by
    rintro d _ ⟨e, u, rfl, -, served, -⟩ less found
    exact lt_of_lt_of_le (less found) served.length_le
  refine triple_op (robust_inside (lasting.and more)).lasts (fun r => (robust_inside (lasting.and lasting_next)).lasts)
    fun d w sound inside => ⟨rfl, fun r d' ran => ?_⟩
  cases ran
  refine ⟨sound, fun u _ => (duty Buf).view_refl u d, inside.imp fun fact => ⟨fact.1, ?_⟩⟩
  have less := fact.2 rfl
  have there := List.getElem?_eq_getElem less
  obtain ⟨r, request, head⟩ := sound.served_request (List.getElem_mem less)
  refine ⟨_, r, there, request, ?_⟩
  have idx : d.usedIdx = cell d.clears.length := fact.1.2
  rw [idx]
  refine head.symm.trans (sound.elems d.clears.length _ le_rfl ?_).symm
  rw [List.getElem?_map, there, Option.map_some]

theorem triple_badStatus (lasting : Lasting V) :
    Triple (duty Buf) t (Knows t [.cond] (Inside L none V)) (look (.badStatus i)) fun bad : Bool =>
      Knows t [.cond] (Inside L none fun d => V d ∧ bad = false) := by
  refine triple_op (robust_inside lasting).lasts (fun r => (robust_inside (lasting.and fun _ _ _ fact => fact)).lasts)
    fun d w sound inside => ⟨rfl, fun r d' ran => ?_⟩
  cases ran
  refine ⟨sound, fun u _ => (duty Buf).view_refl u d, inside.imp fun fact => ⟨fact, ?_⟩⟩
  rw [sound.status]
  rfl

theorem triple_bufOf (lasting : Lasting V) :
    Triple (duty Buf) t (Knows t [.cond] (Inside [] none fun d => V d ∧ Next i d))
    (look (.bufOf i)) fun b : Option Buf =>
      Knows t [.cond] (Inside [] none fun d => V d ∧ ∃ b', b = some b' ∧ NextBuf b' d) := by
  have found (b : Option Buf) : Lasting fun d : Disk Buf => ∃ b', b = some b' ∧ NextBuf b' d := by
    rintro d d' drift ⟨b', same, next⟩
    exact ⟨b', same, lasting_nextBuf d d' drift next⟩
  refine triple_op (robust_inside (lasting.and lasting_next)).lasts
    (fun r => (robust_inside (lasting.and (found r))).lasts)
    fun d w sound inside => ⟨rfl, fun r d' ran => ?_⟩
  cases ran
  refine ⟨sound, fun u _ => (duty Buf).view_refl u d, inside.imp fun fact => ⟨fact.1, ?_⟩⟩
  obtain ⟨e, r, there, request, rfl⟩ := fact.2
  have live := sound.live request (sound.not_cleared there)
  exact ⟨r.buf, (sound.formatted _ r live).info, e, r, there, request, rfl⟩

theorem triple_doneBuf : Triple (duty Buf) t
    (Knows t [.cond] (Inside [] none fun d => (Resting t d ∧ Idx d) ∧ NextBuf b d)) (look (.done b)) fun _ =>
      Knows t [.cond] (Inside [] (some (Chan.buf b)) fun d => Resting t d ∧ Behind d) := by
  have before : Lasting fun d : Disk Buf => (Resting t d ∧ Idx d) ∧ NextBuf b d :=
    (lasting_resting.and lasting_idx).and lasting_nextBuf
  refine triple_op (robust_inside before).lasts (fun _ => (robust_inside (lasting_resting.and lasting_behind)).lasts)
    fun d w sound inside => ⟨rfl, fun _ d' ran => ?_⟩
  cases ran
  obtain ⟨⟨rests, idx⟩, e, r, there, request, rfl⟩ := inside.fact
  refine ⟨sound.done there request, fun u _ p _ => .same rfl rfl rfl, ⟨inside.taken, inside.spare, inside.nodup,
    fun q c there out => ?_, fun q there _ => inside.frees q there (Option.some_ne_none _).symm, rests, ?_⟩⟩
  · refine (Function.update_of_ne ?_ ..).trans (inside.bufs q c there (Option.some_ne_none _).symm)
    rintro rfl
    exact out rfl
  · have same : d.usedIdx = cell d.clears.length := idx
    change cell (d.usedIdx + 1) = cell (d.clears ++ [r.buf]).length
    rw [same, List.length_append, List.length_singleton]
    exact Nat.mod_add_mod ..

theorem triple_advance : Triple (duty Buf) t (Knows t [.cond] (Inside [] none fun d => Resting t d ∧ Behind d))
    (look .advance)
    fun _ => Knows t [.cond] (Inside [] none fun d => Resting t d ∧ Idx d) := by
  refine triple_op (robust_inside (lasting_resting.and lasting_behind)).lasts
    (fun _ => (robust_inside (lasting_resting.and lasting_idx)).lasts) fun d w sound inside => ⟨rfl, fun _ d' ran => ?_⟩
  cases ran
  refine ⟨sound.rewrites (fun n r live => ?_) fun _ _ _ => rfl, fun u _ p _ => .same rfl rfl rfl,
    ⟨inside.taken, inside.spare, inside.nodup, inside.bufs, inside.frees, inside.fact⟩⟩
  exact (sound.formatted n r live).congr (fun _ _ => rfl) rfl rfl fun _ _ => rfl

theorem triple_finish (fuel : ℕ) : Triple (duty Buf) t
    (Knows t [.cond] (Inside [] none fun d => Resting t d ∧ Idx d)) (finish fuel)
    fun _ => Knows t [.cond] (Inside [] none fun d => Resting t d ∧ Idx d) := by
  have lasting : Lasting fun d : Disk Buf => Resting t d ∧ Idx d := lasting_resting.and lasting_idx
  induction fuel with
  | zero => exact triple_cut
  | succ fuel ih =>
    unfold finish
    refine triple_more.bind fun more => ?_
    cases more with
    | false =>
      refine Triple.mono (triple_keep (robust_inside lasting)) (fun _ _ knows => ?_) fun _ _ _ there => there
      exact knows.imp fun _ _ inside => inside.imp And.left
    | true =>
      refine triple_elem.bind fun id : ℕ => (triple_badStatus (lasting.and lasting_next)).bind fun bad : Bool => ?_
      cases bad with
      | true => exact triple_absurd fun _ _ knows => Bool.noConfusion knows.fact.fact.2
      | false =>
        refine ((triple_bufOf lasting).mono (fun _ _ knows => knows.imp fun _ _ inside => inside.imp And.left)
          fun _ _ _ there => there).bind
          fun b : Option Buf => ?_
        cases b with
        | none =>
          refine triple_absurd fun _ _ knows => ?_
          obtain ⟨-, b, same, -⟩ := knows.fact.fact
          cases same
        | some b =>
          refine (triple_doneBuf.mono (fun _ _ knows => ?_) fun _ _ _ there => there).bind fun _ =>
            ((triple_wakeup (robust_inside (lasting_resting.and lasting_behind)).lasts).mono (fun _ _ there => there)
              fun _ _ _ knows => knows.imp fun _ _ fact => fact.1.woken fact.2).bind fun _ =>
                triple_advance.bind fun _ => ih
          refine knows.imp fun _ _ inside => inside.imp fun fact => ⟨fact.1, ?_⟩
          obtain ⟨b', same, next⟩ := fact.2
          cases same
          exact next

theorem triple_virtioDiskIntr (fuel : ℕ) :
    Triple (duty Buf) t (Knows t [] fun d _ => Resting t d) (virtioDiskIntr fuel) fun _ => Knows t [] fun d _ =>
      Resting t d := by
  have lasting : Lasting fun d : Disk Buf => Resting t d ∧ Idx d := lasting_resting.and lasting_idx
  have entered : Triple (duty Buf) t (Knows t [] fun d _ => Resting t d) (acquire .cond) fun _ =>
      Knows t [.cond] (Inside [] none fun d => Resting t d ∧ Idx d) := by
    have robust : Robust (duty Buf) (Inside [] none fun d => Resting t d ∧ Idx d) := robust_inside lasting
    refine (triple_acquire stable_resting).mono (fun _ _ knows => knows) fun _ s _ inside => ?_
    obtain ⟨d, w, ⟨-, inv, rests⟩, inside⟩ := inside
    refine inside.imp fun d' w' now => ?_
    exact robust.drift _ _ _ now.1 (robust.sub _ _ _ now.2 (Inside.imp inv fun idx => ⟨rests, idx⟩))
  refine entered.bind fun _ => (triple_finish fuel).bind fun _ => ?_
  exact triple_release stable_resting (robust_inside lasting).lasts (fun d w _ inside => inside.imp And.right)
    fun _ _ inside => inside.fact.1

/-! ### The device -/

theorem triple_device {x : Op Buf} (fine : x.fine = true)
    (sound : ∀ t d r d', Sound d → perform t x d = some (r, d') → Sound d')
    (drift : ∀ t d r d', perform t x d = some (r, d') → Drift d d') :
    Triple (duty Buf) t (Knows t [] fun d _ => Resting t d) (look x) fun _ => Knows t [] fun d _ => Resting t d := by
  have drifts : Triple (duty Buf) t (Knows t [] fun d _ => Resting t d) (op (O := virtio Buf) x) fun _ =>
      Knows t [] fun d _ => Resting t d := by
    refine triple_drift stable_resting (fun _ => stable_resting) fun d w always rests => ⟨fine, fun r d' ran => ?_⟩
    have moved := drift t d r d' ran
    exact ⟨sound t d r d' always ran, moved, fun inv => (robust_inside lasting_idx).drift d d' w moved inv,
      lasting_resting d d' moved rests⟩
  exact drifts

theorem triple_takes : Triple (duty Buf) t (Knows t [] fun d _ => Resting t d) (look .takes) fun _ =>
    Knows t [] fun d _ => Resting t d := by
  refine triple_device rfl (fun t d r d' sound ran => ?_) fun t d r d' ran => ?_ <;>
    obtain ⟨d'', ran, same⟩ := Option.map_eq_some_iff.mp ran <;> cases same
  · exact sound.takes ran
  · exact drift_takes ran

theorem triple_completes : Triple (duty Buf) t (Knows t [] fun d _ => Resting t d) (look (.completes n)) fun _ =>
    Knows t [] fun d _ => Resting t d := by
  refine triple_device rfl (fun t d r d' sound ran => ?_) fun t d r d' ran => ?_ <;>
    obtain ⟨d'', ran, same⟩ := Option.map_eq_some_iff.mp ran <;> cases same
  · exact sound.completes ran
  · exact drift_completes ran

/-- A call may begin to use a buffer that no other call uses. -/
theorem triple_uses : Triple (duty Buf) (.proc p) (Knows (.proc p) [] fun d _ => Rests p d) (look (.uses b)) fun _ =>
    Knows (.proc p) [] fun d _ => Uses p b d := by
  have drifts : Triple (duty Buf) (.proc p) (Knows (.proc p) [] fun d _ => Rests p d)
    (op (O := virtio Buf) (.uses b)) fun _ =>
      Knows (.proc p) [] fun d _ => Uses p b d := by
    refine triple_drift (fun d d' view rests => (view p rfl).rests rests)
      (fun _ d d' view uses => (view p rfl).uses uses)
      fun d w sound rests => ⟨rfl, fun r d' ran => ?_⟩
    simp only [perform] at ran
    split at ran
    case isFalse => cases ran
    case isTrue unused =>
      cases ran
      have other {c : Buf} {q : Slot} (there : d.user c = some q) : Function.update d.user b (some p) c = some q := by
        refine (Function.update_of_ne ?_ ..).trans there
        rintro rfl
        cases unused.symm.trans there
      have moved : Drift d { d with user := Function.update d.user b (some p) } :=
        ⟨d.device, _, rfl, List.prefix_rfl, List.prefix_rfl, fun c q there => other there⟩
      refine ⟨sound.rewrites (fun n r live => ?_) fun _ _ _ => rfl, moved,
        fun inv => (robust_inside lasting_idx).drift _ _ w moved inv, moved.own.rests rests, Function.update_self ..⟩
      have formatted := sound.formatted n r live
      exact formatted.congr (fun _ _ => rfl) rfl ((other formatted.user).trans formatted.user.symm) fun _ _ => rfl
  exact drifts

end Xv6Labs.Virtio
