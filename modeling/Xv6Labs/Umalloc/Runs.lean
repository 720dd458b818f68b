import Xv6Labs.Umalloc.Malloc

/-!
# Runs of a program over its heap

A program calls `malloc` and `free`, each for what `malloc` returned and it has not given back, and writes to its
blocks. Whatever it does, the heap keeps its invariant, and both functions return.
-/

namespace Xv6Labs.Umalloc

open Tiling Circular

variable {base : ℕ} {xs : List ℕ} {w w' : World} {s : Heap} {n : ℕ} {sbrk : ℕ → Option ℕ}

/-- The bytes of the headers outside the blocks that are in use. -/
def World.Outside (w : World) (x : ℕ) : Prop := ∀ b ∈ w.live, x + unit ≤ b.ap ∨ w.heap.stop b.header ≤ x

inductive Step (base : ℕ) : World → World → Prop where
  | malloc {w : World} {n fuel ap : ℕ} {sbrk : ℕ → Option ℕ} {s : Heap} (small : n < 2 ^ 32)
      (fresh : w.heap.Fresh base sbrk) (ran : w.heap.malloc base sbrk fuel n = some (ap, s)) :
      Step base w ⟨s, if ap = 0 then w.live else ⟨ap, n⟩ :: w.live⟩
  | free {w : World} {b : Block} {fuel : ℕ} {s : Heap} (live : b ∈ w.live) (ran : w.heap.free fuel b.ap = some s) :
      Step base w ⟨s, w.live.erase b⟩
  | store {w : World} {mem : ℕ → Header} (outside : ∀ x, w.Outside x → mem x = w.heap.mem x) :
      Step base w ⟨{ w.heap with mem := mem }, w.live⟩

/-- `freep` and the memory it has got are zero when the program starts. -/
def start (mem : ℕ → Header) : World := ⟨⟨mem, 0, []⟩, []⟩

def Reachable (base : ℕ) (w : World) : Prop := ∃ mem, Relation.ReflTransGen (Step base) (start mem) w

def World.Good (base : ℕ) (w : World) : Prop :=
  w.heap.freep = 0 ∧ w.heap.got = [] ∧ w.live = [] ∨ ∃ xs, w.Inv base xs

namespace World.Inv

theorem nonzero (inv : w.Inv base xs) (root : 0 < base) : w.heap.freep ≠ 0 := by
  have low := inv.ring.base_le inv.freep
  omega

theorem tiles_headers (inv : w.Inv base xs) :
    Tiles (xs.map w.heap.region ++ (w.live.map Block.header).map w.heap.region) w.heap.got := by
  rw [List.map_map]
  exact inv.tiles

theorem headers_pos (inv : w.Inv base xs) : ∀ h ∈ w.live.map Block.header, 0 < w.heap.size h := by
  rintro h mem
  obtain ⟨b, inside, rfl⟩ := List.mem_map.mp mem
  exact inv.live_pos inside

/-- The empty heap, once `base` is set up. -/
theorem init (got : s.got = []) (freep : s.freep = 0) : World.Inv base [base] ⟨s.init base, []⟩ := by
  have ptr : (s.init base).ptr base = base := by simp [Heap.init, freep, Heap.ptr_setSize]
  have size : (s.init base).size base = 0 := by simp [Heap.init, freep]
  have got' : (s.init base).got = [] := by
    rw [Heap.init, if_pos freep]
    exact got
  have freep' : (s.init base).freep = base := by
    rw [Heap.init, if_pos freep]
    rfl
  refine ⟨⟨?_, rfl, List.pairwise_singleton .., size, fun x mem root => absurd (List.mem_singleton.mp mem) root⟩, ?_,
    nofun, ⟨List.pairwise_singleton .., fun x => ?_⟩, ?_⟩
  · exact Path.cons_cons.mpr ⟨ptr, .singleton base⟩
  · rw [freep']
    exact List.mem_singleton_self base
  · simp [got', Heap.region, size, Region.Has, Region.stop]
  · simp [got']

theorem malloc (inv : w.Inv base xs) (root : 0 < base) (small : n < 2 ^ 32) (fresh : w.heap.Fresh base sbrk) :
    ∃ N ap s', (∀ fuel, Heap.search sbrk (units n) fuel w.heap.freep (w.heap.ptr w.heap.freep) w.heap = none ∨
        Heap.search sbrk (units n) fuel w.heap.freep (w.heap.ptr w.heap.freep) w.heap = some (ap, s')) ∧
      (∀ fuel, N ≤ fuel →
        Heap.search sbrk (units n) fuel w.heap.freep (w.heap.ptr w.heap.freep) w.heap = some (ap, s')) ∧
      ∃ xs', World.Inv base xs' ⟨s', if ap = 0 then w.live else ⟨ap, n⟩ :: w.live⟩ := by
  have units : units n = (n + unit - 1) / unit + 1 := by
    unfold Umalloc.units
    apply Nat.mod_eq_of_lt
    rw [unit]
    omega
  have positive : 0 < Umalloc.units n := by
    rw [units]
    exact Nat.succ_pos _
  rcases inv.ring.search inv.freep root positive inv.headers_pos inv.tiles_headers inv.got fresh with
    ⟨N, ap, s', all, many, ⟨rfl, rfl⟩ | ⟨⟨xs', carved⟩, size, got⟩⟩
  · exact ⟨N, 0, w.heap, all, many, xs, by rw [if_pos rfl]; exact inv⟩
  · refine ⟨N, ap, s', all, many, xs', ?_⟩
    have after := carved.after
    have positive : ap ≠ 0 := by
      rw [unit] at after
      omega
    rw [if_neg positive]
    refine ⟨carved.ring, carved.freep, fun b mem => ?_, ?_, got⟩
    · rcases List.mem_cons.mp mem with rfl | mem
      · refine ⟨after, ?_⟩
        change n + unit ≤ s'.size (ap - unit) * unit
        rw [carved.size, units, unit]
        omega
      · change unit ≤ b.ap ∧ b.nbytes + unit ≤ s'.size b.header * unit
        rw [size b.header (List.mem_map_of_mem mem)]
        exact inv.room b mem
    · refine carved.tiles.perm ?_
      rw [List.map_map]
      exact List.perm_middle

theorem free {b : Block} (inv : w.Inv base xs) (mem : b ∈ w.live) :
    ∃ N s', (∀ fuel, w.heap.free fuel b.ap = none ∨ w.heap.free fuel b.ap = some s') ∧
      (∀ fuel, N ≤ fuel → w.heap.free fuel b.ap = some s') ∧ ∃ xs', World.Inv base xs' ⟨s', w.live.erase b⟩ := by
  have perm : w.live.Perm (b :: w.live.erase b) := List.perm_cons_erase mem
  have tiles : Tiles (w.heap.region b.header ::
      (xs.map w.heap.region ++ (w.live.erase b).map fun c => w.heap.region c.header)) w.heap.got := by
    refine inv.tiles.perm (List.perm_middle.symm.trans (List.Perm.append_left _ ?_))
    exact (perm.map fun c => w.heap.region c.header).symm
  have low := inv.live_ge mem
  rw [unit] at low
  have above : base < b.header := by omega
  obtain ⟨k, -, s', found, xs', ring, freep, tiles', got, -, size, -⟩ := inv.ring.free inv.freep above
    (inv.live_pos mem) tiles fun g inside => (inv.got g inside).2.trans (by decide)
  have place : b.header + unit = b.ap := Nat.sub_add_cancel (inv.room b mem).1
  rw [place] at found
  have other (c : Block) (inside : c ∈ w.live.erase b) : s'.size c.header = w.heap.size c.header := by
    have mem' := List.mem_of_mem_erase inside
    refine size _ ?_
    simp only [List.mem_cons, not_or]
    refine ⟨fun same => ?_, inv.header_notMem mem'⟩
    have apart := List.rel_of_pairwise_cons tiles.apart
      (List.mem_append_right _ (List.mem_map.mpr ⟨c, inside, rfl⟩))
    rw [same] at apart
    have has : (w.heap.region b.header).Has b.header :=
      ⟨le_rfl, Nat.lt_add_of_pos_right (Heap.region_length_pos (inv.live_pos mem))⟩
    exact apart _ has has
  refine ⟨k + 1, s', fun fuel => ?_, fun fuel enough => ?_, xs', ring, freep, fun c inside => ?_, ?_, ?_⟩
  · rw [found]
    split
    · exact .inl rfl
    · exact .inr rfl
  · rw [found, if_neg (by omega)]
  · rw [other c inside]
    exact inv.room c (List.mem_of_mem_erase inside)
  · have same : (w.live.erase b).map (fun c => s'.region c.header) =
        (w.live.erase b).map fun c => w.heap.region c.header :=
      List.map_congr_left fun c inside => by rw [Heap.region, other c inside, Heap.region]
    rw [same]
    exact tiles'
  · rw [got]
    exact inv.got

theorem live_apart (inv : w.Inv base xs) {b c : Block} (mem : b ∈ w.live) (mem' : c ∈ w.live) (other : b ≠ c) :
    w.heap.stop b.header ≤ c.header ∨ w.heap.stop c.header ≤ b.header := by
  have pairs := List.pairwise_map.mp (List.pairwise_append.mp inv.tiles.apart).2.1
  have symmetric : Std.Symm fun b c : Block => (w.heap.region b.header).Apart (w.heap.region c.header) :=
    ⟨fun _ _ h => h.symm⟩
  have apart := pairs.forall mem mem' other
  exact apart.le_or_le (Heap.region_length_pos (inv.live_pos mem)) (Heap.region_length_pos (inv.live_pos mem'))

theorem header_add (inv : w.Inv base xs) {b : Block} (mem : b ∈ w.live) : b.header + unit = b.ap :=
  Nat.sub_add_cancel (inv.room b mem).1

/-- The program cannot write to the headers. -/
theorem outside_free {x : ℕ} (inv : w.Inv base xs) (mem : x ∈ xs) : w.Outside x := by
  intro b live
  have place := inv.header_add live
  by_cases root : x = base
  · have low := inv.live_ge live
    left
    omega
  · have full := inv.ring.full x mem root
    have apart := (List.pairwise_append.mp inv.tiles.apart).2.2 _ (List.mem_map_of_mem mem) _
      (List.mem_map.mpr ⟨b, live, rfl⟩)
    have one := apart.le_or_le (Heap.region_length_pos full) (Heap.region_length_pos (inv.live_pos live))
    simp only [Heap.region, Region.stop, unit] at one place
    unfold Heap.stop unit
    omega

theorem outside_live {b : Block} (inv : w.Inv base xs) (mem : b ∈ w.live) : w.Outside b.header := by
  intro c live
  have place := inv.header_add mem
  have place' := inv.header_add live
  by_cases same : c = b
  · subst same
    left
    omega
  · have full := inv.live_pos mem
    have one := inv.live_apart mem live (Ne.symm same)
    unfold Heap.stop at *
    rw [unit] at *
    omega

theorem store {mem : ℕ → Header} (inv : w.Inv base xs) (outside : ∀ x, w.Outside x → mem x = w.heap.mem x) :
    World.Inv base xs ⟨{ w.heap with mem := mem }, w.live⟩ := by
  set s : Heap := { w.heap with mem := mem } with stored
  have same (x : ℕ) (inside : x ∈ xs) : s.ptr x = w.heap.ptr x ∧ s.size x = w.heap.size x := by
    have header : s.mem x = w.heap.mem x := outside x (inv.outside_free inside)
    rw [Heap.ptr, Heap.size, header]
    exact ⟨rfl, rfl⟩
  have same' (b : Block) (live : b ∈ w.live) : s.size b.header = w.heap.size b.header := by
    have header : s.mem b.header = w.heap.mem b.header := outside _ (inv.outside_live live)
    rw [Heap.size, header, Heap.size]
  refine ⟨⟨?_, inv.ring.lowest, ?_, ?_, ?_⟩, inv.freep, fun b live => ?_, ?_, inv.got⟩
  · exact inv.ring.path.congr fun x inside => (same x inside).1
  · refine inv.ring.sorted.imp_of_mem fun {x y} inside _ less => ?_
    rwa [Heap.stop, (same x inside).2]
  · rw [(same base inv.ring.base_mem).2]
    exact inv.ring.empty
  · intro x inside root
    rw [(same x inside).2]
    exact inv.ring.full x inside root
  · rw [same' b live]
    exact inv.room b live
  · have live : w.live.map (fun b => s.region b.header) = w.live.map fun b => w.heap.region b.header :=
      List.map_congr_left fun b live => by rw [Heap.region, same' b live, Heap.region]
    change Tiles (xs.map s.region ++ w.live.map fun b => s.region b.header) w.heap.got
    rw [Heap.map_region fun x inside => (same x inside).2, live]
    exact inv.tiles

end World.Inv

/-! ### The invariant -/

theorem World.Good.malloc (good : w.Good base) (root : 0 < base) (small : n < 2 ^ 32) (fresh : w.heap.Fresh base sbrk) :
    ∃ N ap s', (∀ fuel, w.heap.malloc base sbrk fuel n = none ∨ w.heap.malloc base sbrk fuel n = some (ap, s')) ∧
      (∀ fuel, N ≤ fuel → w.heap.malloc base sbrk fuel n = some (ap, s')) ∧
      World.Good base ⟨s', if ap = 0 then w.live else ⟨ap, n⟩ :: w.live⟩ := by
  rcases good with ⟨freep, got, live⟩ | ⟨xs, inv⟩
  · have fresh' : (w.heap.init base).Fresh base sbrk := by
      rw [Heap.init, if_pos freep]
      exact fresh
    obtain ⟨N, ap, s', all, many, inv'⟩ := (World.Inv.init got freep).malloc root small fresh'
    rw [live]
    exact ⟨N, ap, s', all, many, .inr inv'⟩
  · obtain ⟨N, ap, s', all, many, inv'⟩ := inv.malloc root small fresh
    unfold Heap.malloc
    rw [Heap.init, if_neg (inv.nonzero root)]
    exact ⟨N, ap, s', all, many, .inr inv'⟩

theorem World.Good.free {b : Block} (good : w.Good base) (mem : b ∈ w.live) :
    ∃ N s', (∀ fuel, w.heap.free fuel b.ap = none ∨ w.heap.free fuel b.ap = some s') ∧
      (∀ fuel, N ≤ fuel → w.heap.free fuel b.ap = some s') ∧ World.Good base ⟨s', w.live.erase b⟩ := by
  rcases good with ⟨-, -, none⟩ | ⟨xs, inv⟩
  · rw [none] at mem
    cases mem
  · obtain ⟨N, s', all, many, inv'⟩ := inv.free mem
    exact ⟨N, s', all, many, .inr inv'⟩

theorem World.Good.step (good : w.Good base) (root : 0 < base) (h : Step base w w') : w'.Good base := by
  cases h with
  | @malloc n fuel ap sbrk s small fresh ran =>
    obtain ⟨N, ap', s', all, -, good'⟩ := good.malloc root small fresh
    rcases all fuel with none | same
    · exact nomatch ran.symm.trans none
    · cases ran.symm.trans same
      exact good'
  | @free b fuel s live ran =>
    obtain ⟨N, s', all, -, good'⟩ := good.free live
    rcases all fuel with none | same
    · exact nomatch ran.symm.trans none
    · cases ran.symm.trans same
      exact good'
  | store outside =>
    rcases good with ⟨freep, got, live⟩ | ⟨xs, inv⟩
    · exact .inl ⟨freep, got, live⟩
    · exact .inr ⟨xs, inv.store outside⟩

theorem Reachable.good (root : 0 < base) (h : Reachable base w) : w.Good base := by
  obtain ⟨mem, run⟩ := h
  induction run with
  | refl => exact .inl ⟨rfl, rfl, rfl⟩
  | tail _ step ih => exact ih.step root step

/-- The heap is empty, or the free list is a circle in address order from `base` on, with room between its blocks, and
with the live blocks these tile the memory from `sbrk`; each live block has its bytes to itself, and both functions
return. -/
theorem heap_invariant (root : 0 < base) (h : Reachable base w) :
    (w.heap.freep = 0 ∧ w.heap.got = [] ∧ w.live = [] ∨
      ∃ bs, Circle w.heap.ptr base bs ∧ ((base :: bs).Pairwise fun a b => w.heap.stop a < b) ∧
      w.heap.freep ∈ base :: bs ∧
        Tiles (bs.map w.heap.region ++ w.live.map fun b => w.heap.region b.header) w.heap.got) ∧
    (∀ b ∈ w.live, b.header + unit = b.ap ∧ b.ap + b.nbytes ≤ w.heap.stop b.header) ∧
    (w.live.Pairwise fun a b => w.heap.stop a.header ≤ b.header ∨ w.heap.stop b.header ≤ a.header) ∧
    (∀ n sbrk, n < 2 ^ 32 → w.heap.Fresh base sbrk →
      ∃ N ap s, ∀ fuel, N ≤ fuel → w.heap.malloc base sbrk fuel n = some (ap, s)) ∧
    ∀ b ∈ w.live, ∃ N s, ∀ fuel, N ≤ fuel → w.heap.free fuel b.ap = some s := by
  have good := h.good root
  refine ⟨?_, ?_, ?_, fun n sbrk small fresh => ?_, fun b live => ?_⟩
  · rcases good with empty | ⟨xs, inv⟩
    · exact .inl empty
    · right
      obtain ⟨bs, rfl⟩ := inv.ring.eq_cons
      refine ⟨bs, inv.ring.path, inv.ring.sorted, inv.freep, ?_⟩
      have zero : w.heap.region base = ⟨base, 0⟩ := by rw [Heap.region, inv.ring.empty, Nat.zero_mul]
      have tiles := inv.tiles
      rw [List.map_cons, List.cons_append, zero] at tiles
      exact tiles.tail
  · rcases good with ⟨-, -, none⟩ | ⟨xs, inv⟩
    · intro b live
      rw [none] at live
      cases live
    · intro b live
      have place := inv.header_add live
      have room := (inv.room b live).2
      refine ⟨place, ?_⟩
      unfold Heap.stop
      omega
  · rcases good with ⟨-, -, none⟩ | ⟨xs, inv⟩
    · rw [none]
      exact .nil
    · refine (List.pairwise_map.mp (List.pairwise_append.mp inv.tiles.apart).2.1).imp_of_mem
        fun {a b} mem mem' apart => ?_
      exact apart.le_or_le (Heap.region_length_pos (inv.live_pos mem)) (Heap.region_length_pos (inv.live_pos mem'))
  · obtain ⟨N, ap, s, -, many, -⟩ := good.malloc root small fresh
    exact ⟨N, ap, s, many⟩
  · obtain ⟨N, s, -, many, -⟩ := good.free live
    exact ⟨N, s, many⟩

def someMemory : ℕ → Option ℕ := fun n => if n ≤ 65536 then some 4096 else none

theorem fresh_someMemory (got : s.got = []) : s.Fresh 64 someMemory := by
  intro n a answer
  unfold someMemory at answer
  split at answer
  case isFalse => cases answer
  case isTrue small =>
    cases answer
    rw [got, unit]
    exact ⟨by omega, by rintro _ ⟨⟩, by omega⟩

/-- The heap of a program that asks for 100 and for 200 bytes, frees both blocks, and asks for 300. The second `free`
puts the two next to each other together, and the last block is made of what they had. -/
def mergingCalls : Option ((ℕ × ℕ × ℕ) × Heap) :=
  ((start fun _ => ⟨0, 0⟩).heap.malloc 64 someMemory 10 100).bind fun a =>
    (a.2.malloc 64 (fun _ => none) 10 200).bind fun b =>
      (b.2.free 10 a.1).bind fun s =>
        (s.free 10 b.1).bind fun s => (s.malloc 64 (fun _ => none) 10 300).map fun c => ((a.1, b.1, c.1), c.2)

theorem fresh_none {base : ℕ} : s.Fresh base fun _ => none := by
  intro n a answer
  cases answer

/-- With `base` at 64. -/
theorem heap_invariant_merging : ∃ s, mergingCalls = some ((69520, 69296, 69328), s) ∧ Reachable 64
    ⟨s, [⟨69328, 300⟩]⟩ ∧
    69328 + 300 ≤ s.stop 69312 ∧ ∃ N s', ∀ fuel, N ≤ fuel → s.free fuel 69328 = some s' := by
  have places : mergingCalls.map Prod.fst = some (69520, 69296, 69328) := by decide
  obtain ⟨⟨_, s⟩, ran, rfl⟩ := Option.map_eq_some_iff.mp places
  obtain ⟨⟨a, s₁⟩, ran₁, rest⟩ := Option.bind_eq_some_iff.mp ran
  obtain ⟨⟨b, s₂⟩, ran₂, rest⟩ := Option.bind_eq_some_iff.mp rest
  obtain ⟨s₃, ran₃, rest⟩ := Option.bind_eq_some_iff.mp rest
  obtain ⟨s₄, ran₄, rest⟩ := Option.bind_eq_some_iff.mp rest
  obtain ⟨⟨c, s₅⟩, ran₅, same⟩ := Option.map_eq_some_iff.mp rest
  cases same
  have first : Step 64 (start fun _ => ⟨0, 0⟩) ⟨s₁, [⟨69520, 100⟩]⟩ :=
    Step.malloc (show 100 < 2 ^ 32 by decide) (fresh_someMemory rfl) ran₁
  have second : Step 64 ⟨s₁, [⟨69520, 100⟩]⟩ ⟨s₂, [⟨69296, 200⟩, ⟨69520, 100⟩]⟩ :=
    Step.malloc (w := ⟨s₁, [⟨69520, 100⟩]⟩) (show 200 < 2 ^ 32 by decide) fresh_none ran₂
  have third : Step 64 ⟨s₂, [⟨69296, 200⟩, ⟨69520, 100⟩]⟩ ⟨s₃, [⟨69296, 200⟩]⟩ :=
    .free (b := ⟨69520, 100⟩) (.tail _ (.head _)) ran₃
  have fourth : Step 64 ⟨s₃, [⟨69296, 200⟩]⟩ ⟨s₄, []⟩ := .free (b := ⟨69296, 200⟩) (.head _) ran₄
  have fifth : Step 64 ⟨s₄, []⟩ ⟨s₅, [⟨69328, 300⟩]⟩ :=
    Step.malloc (w := ⟨s₄, []⟩) (show 300 < 2 ^ 32 by decide) fresh_none ran₅
  have reached : Reachable 64 ⟨s₅, [⟨69328, 300⟩]⟩ :=
    ⟨_, ((((Relation.ReflTransGen.single first).tail second).tail third).tail fourth).tail fifth⟩
  obtain ⟨-, room, -, -, frees⟩ := heap_invariant (by decide) reached
  exact ⟨s₅, ran, reached, (room ⟨69328, 300⟩ (.head _)).2, frees ⟨69328, 300⟩ (.head _)⟩

end Xv6Labs.Umalloc
