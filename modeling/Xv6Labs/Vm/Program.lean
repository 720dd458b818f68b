import Xv6Labs.Vm.Arguments
import Xv6Labs.Vm.Room
import Xv6Labs.Vm.Share

/-!
# What `exec` makes of a file

`exec` returns -1 with the memory as it was, or the process has the image of the file and its arguments, also after its
old page table has been freed.
-/

namespace Xv6Labs.Vm

open Faults

variable {m₀ m m' : Memory} {root old n sz : ℕ} {perm : ℕ → ℕ} {f g : ℕ → UInt8} {file path : List UInt8}
  {argv : List (List UInt8)} {ptrs : List ℕ} {p : Running} {img : Loaded}

/-- The user memory of a process, as it sees it. -/
structure Sees (m m' : Memory) (root n : ℕ) : Prop where
  at_ : ∀ b, b < n * pgsize → m'.at root b = m.at root b
  user : ∀ b, m'.User root b ↔ m.User root b

/-- Freeing the old page table leaves the new one, which is made of pages that were free. -/
theorem Holding.free_old (holding : Holding m₀ m root n perm f) (whole : Whole m₀ old (pagesOf sz)) :
    Returns (procFreepagetable old sz) m fun _ m' => Sees m m' root n := by
  obtain ⟨bytes, built⟩ := holding.built
  have positive : 0 < pgsize := by decide
  have table := whole.space.table
  have agree : ∀ x ∈ m₀.nodes old, m.page x = m₀.page x := fun x mem => built.others (table.owned x mem)
  have before := whole.agree agree built.image fun x mem => built.free_sub mem
  have apart : ∀ x ∈ m.owns root n, x ∉ m.owns old (pagesOf sz) := by
    rintro x mem (node | frame)
    · rw [nodes_agree agree] at node
      exact table.owned x node (built.owns mem)
    · obtain ⟨b, low, rfl⟩ := frames_owned frame
      have free := built.owns mem
      rw [Memory.frame, pte_agree agree] at free
      exact whole.space.owned.used b (by omega) low free
  refine (procFreepagetable_spec before).mono ?_
  rintro - m' ⟨freed, done⟩
  have same : ∀ x ∈ m.nodes root, m'.page x = m.page x := fun x mem => done.others x (apart x (.inl mem))
  have pte (b : ℕ) : m'.pte root b = m.pte root b := pte_agree same
  refine ⟨fun b low => ?_, fun b => ?_⟩
  · have frame : m'.frame root b = m.frame root b := by
      rw [Memory.frame, pte]
      rfl
    rw [Memory.at, frame, done.others _ (apart _ (.inr (mem_frames (by omega) low)))]
    rfl
  · exact ⟨fun h => ⟨h.below, pte b ▸ h.valid, pte b ▸ h.user⟩,
      fun h => ⟨h.below, (pte b).symm ▸ h.valid, (pte b).symm ▸ h.user⟩⟩

theorem guard_not_user (holding : Holding m₀ m root (n + 2) (guarded n) f) {b : ℕ} (page : b / pgsize = n) :
    ¬ m.User root b := by
  obtain ⟨bytes, built⟩ := holding.built
  intro user
  have low : b < (n + 2) * pgsize := (Nat.div_lt_iff_lt_mul (by decide)).mp (by omega)
  have flags := user.user
  rw [(built.page low).1, page, guarded, if_pos rfl, entry_user (by decide) (by decide)] at flags
  exact flags rfl

/-- The new program is there, with its arguments: `g` is its memory. -/
structure Started (m : Memory) (file : List UInt8) (img : Loaded) (argv : List (List UInt8)) (sp : ℕ) : Prop where
  held : ∃ g ptrs, (∀ b, b < img.sz → m.at img.pagetable b = g b) ∧
    (∀ b, b < img.sz - pgsize → g b = imageOf file
      (segments file (elfhdr (readi file 0 elfhdrSize)).phnum
        (uint (elfhdr (readi file 0 elfhdrSize)).phoff)).reverse b) ∧
    Placed g (sp + (argv.length + 1) * 8) img.sz argv ptrs ∧ Text g sp ((ptrs ++ [0]).flatMap word)
  aligned : sp % 16 = 0
  inside : img.sz - pgsize ≤ sp
  room : 2 * pgsize ≤ img.sz ∧ img.sz ≤ Vm.trapframe ∧ img.sz % pgsize = 0
  user : ∀ b, b < img.sz → (m.User img.pagetable b ↔ b / pgsize ≠ img.sz / pgsize - 2)

theorem exec_spec (free : m.Free) (whole : Whole m p.pagetable (pagesOf p.sz)) (size : file.length < 2 ^ 32)
    (path : List UInt8) (argv : List (List UInt8)) :
    Returns (exec p path file argv) m fun r m' => ∃ loaded m₁, loadImage p.trapframe file m = .ok (loaded, m₁) ∧
      (loaded = none ∧ r = (-1, p) ∧ Back m m' ∨ ∃ img, loaded = some img ∧ Ready m m₁ file img ∧
        (r = (-1, p) ∧ Back m m' ∧ (maxarg < argv.length ∨ (∃ arg ∈ argv, pgsize ≤ arg.length) ∨ pgsize < need argv) ∨
          need argv ≤ pgsize ∧ ∃ sp, r = ((argv.length : ℤ), { p with
            pagetable := img.pagetable, sz := img.sz, a1 := sp, epc := img.entry, sp, name :=
              safestrcpy (lastElement path path) }) ∧
            Started m' file img argv sp)) := by
  rcases loadImage_spec free size p.trapframe with ⟨loaded, m₁, ran, ⟨rfl, back⟩ | ⟨img, rfl, ready⟩⟩
  · unfold exec
    exact .bind ⟨none, m₁, ran, .pure ⟨none, m₁, ran, .inl ⟨rfl, rfl, back⟩⟩⟩
  unfold exec
  refine .bind ⟨some img, m₁, ran, ?_⟩
  have positive : 0 < pgsize := by decide
  obtain ⟨n, total⟩ : ∃ n, img.sz = (n + 2) * pgsize := by
    obtain ⟨k, eq⟩ := Nat.dvd_of_mod_eq_zero ready.aligned
    have big := ready.big
    refine ⟨k - 2, ?_⟩
    have : 2 ≤ k := by
      rw [eq, Nat.mul_comm] at big
      exact Nat.le_of_mul_le_mul_left big positive
    rw [Nat.sub_add_cancel this, eq, Nat.mul_comm]
  have pages : img.sz / pgsize - 2 = n := by rw [total, Nat.mul_div_cancel _ positive, Nat.add_sub_cancel]
  have base : img.sz - pgsize = (n + 1) * pgsize := by
    have : (n + 2) * pgsize = (n + 1) * pgsize + pgsize := Nat.succ_mul ..
    omega
  have holding := ready.holding
  rw [pages, total, pagesOf_mul] at holding
  have limit := holding.space.bound
  have small : trapframe < 2 ^ 64 := by decide
  have aligned : (n + 2) * pgsize % 16 = 0 := by
    have : pgsize = 256 * 16 := rfl
    rw [this, ← Nat.mul_assoc]
    exact Nat.mul_mod_left ..
  have step : (n + 2) * pgsize = (n + 1) * pgsize + pgsize := Nat.succ_mul ..
  have pushed := @pushArgs_spec _ _ _ _ _ 0 _ argv [] aligned (by omega) le_rfl (Nat.zero_le _) rfl holding
  rw [← base, ← total, Nat.zero_add] at pushed
  refine .bind (pushed.mono ?_)
  rintro r m₂ ⟨g, after, ⟨rfl, reason⟩ | ⟨same, fits, sp, ptrs, rfl, mod, inside, placed, array⟩⟩
  · have discard : Holding m m₂ img.pagetable (pagesOf img.sz) (guarded n) g := by
      rw [total, pagesOf_mul]
      exact after
    refine .bind ((discard.discard free).mono fun _ m' back =>
      .pure ⟨some img, m₁, ran, .inr ⟨img, rfl, ready, .inl ⟨rfl, back, ?_⟩⟩⟩)
    refine reason.imp_right (Or.imp_right fun more => ?_)
    rw [need]
    omega
  · refine .bind ((after.free_old whole).mono fun _ m' sees =>
      .pure ⟨some img, m₁, ran, .inr ⟨img, rfl, ready, .inr ⟨?_, sp, rfl, ?_⟩⟩⟩)
    · rw [need]
      omega
    · refine ⟨⟨g, ptrs, fun b low => ?_, fun b low => ?_, placed, array⟩, mod, inside,
        ⟨ready.big, by omega, ready.aligned⟩, fun b low => ?_⟩
      · rw [total] at low
        rw [sees.at_ b low]
        exact after.held b low
      · exact same b (.inl low)
      · rw [sees.user, pages]
        rw [total] at low
        refine ⟨fun user page => guard_not_user after page user, fun page => after.isUser low ?_⟩
        rw [guarded, if_neg page]
        decide

/-! ### The arguments -/

/-- What `main(argc, argv)` finds: `argv` is an array of addresses at `sp`, and the strings are above it. -/
structure Passed (m : Memory) (p : Running) (argv : List (List UInt8)) (ptrs : List ℕ) : Prop where
  count : ptrs.length = argv.length
  register : p.a1 = p.sp
  aligned : p.sp % 16 = 0
  page : p.sz - pgsize ≤ p.sp ∧ p.sp + (argv.length + 1) * 8 ≤ p.sz
  user : ∀ b, p.sz - pgsize ≤ b → b < p.sz → m.User p.pagetable b
  array : ∀ i (h : i < ptrs.length), number (m.bytes p.pagetable (p.sp + i * 8) 8) = ptrs[i]
  null : number (m.bytes p.pagetable (p.sp + argv.length * 8) 8) = 0
  string : ∀ i (h : i < argv.length) (h' : i < ptrs.length), p.sz - pgsize ≤ ptrs[i] ∧
    ptrs[i] + (argv[i].length + 1) ≤ p.sz ∧
    m.bytes p.pagetable ptrs[i] (argv[i].length + 1) = argv[i] ++ [0]
  above : ∀ i (h : i < ptrs.length), p.sp + (argv.length + 1) * 8 ≤ ptrs[i]
  apart : ∀ i j (less : i < j) (h : j < argv.length) (h' : j < ptrs.length), ptrs[j] + (argv[j].length + 1) ≤ ptrs[i]

theorem Text.bytes {va : ℕ} {xs : List UInt8} (text : Text g va xs)
    (held : ∀ b, va ≤ b → b < va + xs.length → m.at root b = g b) :
    m.bytes root va xs.length = xs := by
  apply List.ext_getElem
  · rw [Memory.bytes, List.length_map, List.length_range]
  · intro i less less'
    simp only [Memory.bytes, List.getElem_map, List.getElem_range]
    rw [held (va + i) (Nat.le_add_right ..) (by omega)]
    exact text i less'

theorem Started.passed {sp : ℕ} (started : Started m file img argv sp) (pagetable : p.pagetable = img.pagetable)
    (size : p.sz = img.sz) (top : p.sp = sp) (register : p.a1 = sp) : ∃ ptrs, Passed m p argv ptrs := by
  obtain ⟨⟨g, ptrs, held, -, placed, array⟩, aligned, inside, ⟨big, bound, whole⟩, user⟩ := started
  have positive : 0 < pgsize := by decide
  have small : Vm.trapframe < 2 ^ 64 := by decide
  have count := placed.length
  have low := placed.low_le
  have word (i : ℕ) (less : i < (ptrs ++ [0]).length) (fits : (ptrs ++ [0])[i] < 2 ^ 64) :
      number (m.bytes img.pagetable (sp + i * 8) 8) = (ptrs ++ [0])[i] := by
    have text := array.word i less
    rw [List.length_append, List.length_singleton] at less
    have bytes := text.bytes fun b from_ to_ => held b (by rw [word_length] at to_; omega)
    rw [word_length] at bytes
    rw [bytes, number_word fits]
  refine ⟨ptrs, count, register.trans top.symm, ?_, ?_, fun b from_ to_ => ?_, fun i less => ?_, ?_,
    fun i h h' => ?_, fun i less => ?_, fun i j less h h' => placed.apart less h h'⟩
  · rw [top]
    exact aligned
  · rw [top, size]
    exact ⟨inside, low⟩
  · rw [size] at from_ to_
    rw [pagetable, user b to_]
    have pages := Nat.div_mul_cancel (Nat.dvd_of_mod_eq_zero whole)
    generalize img.sz / pgsize = k at pages ⊢
    have page : k - 1 ≤ b / pgsize := by
      rw [Nat.le_div_iff_mul_le positive, Nat.sub_mul, Nat.one_mul]
      omega
    have two : 2 ≤ k := Nat.le_of_mul_le_mul_right (by omega : 2 * pgsize ≤ k * pgsize) positive
    omega
  · have := (placed.string i (by omega) less).2.1
    have longer : i < (ptrs ++ [0]).length := by
      rw [List.length_append]
      omega
    have inner : (ptrs ++ [0])[i] = ptrs[i] := List.getElem_append_left less
    rw [pagetable, top, word i longer (by omega), inner]
  · have longer : argv.length < (ptrs ++ [0]).length := by
      rw [List.length_append, count]
      exact Nat.lt_succ_self _
    have last : (ptrs ++ [0])[argv.length] = 0 := by simp [← count]
    rw [pagetable, top, word argv.length longer (by omega), last]
  · obtain ⟨above, below, text⟩ := placed.string i h h'
    have length : (argv[i] ++ [0]).length = argv[i].length + 1 := List.length_append
    have bytes := text.bytes fun b from_ to_ => held b (by omega)
    rw [length] at bytes
    rw [pagetable, size]
    exact ⟨by omega, below, bytes⟩
  · rw [top]
    exact (placed.string i (by omega) less).1

theorem lt_need {arg : List UInt8} (mem : arg ∈ argv) : arg.length < need argv := by
  have one := List.single_le_sum (by simp) _ (List.mem_map_of_mem
    (f := fun arg : List UInt8 => round16 (arg.length + 1)) mem)
  have := @le_round16 (arg.length + 1)
  rw [need, strings]
  omega

/-- With enough pages, and arguments that fit into one, `exec` starts the program. -/
theorem exec_starts {top : ℕ} (good : WellFormed file top) (free : m.Free) (gives : m.Gives (5 + 3 * (pagesOf top + 2)))
    (whole : Whole m p.pagetable (pagesOf p.sz)) (path : List UInt8) (few : argv.length ≤ maxarg)
    (fit : need argv ≤ pgsize) :
    Returns (exec p path file argv) m fun r _ => r.1 = argv.length := by
  obtain ⟨_, m₁, ran, img, rfl⟩ := loadImage_gives (n := 0) good free (by rwa [Nat.zero_add]) p.trapframe
  refine (exec_spec free whole good.size path argv).mono ?_
  rintro r m' ⟨loaded, m₂, ran', ⟨rfl, -, -⟩ | ⟨img', rfl, -, ⟨-, -, reason⟩ | ⟨-, sp, rfl, -⟩⟩⟩
  · cases ran.symm.trans ran'
  · rcases reason with many | ⟨arg, mem, long⟩ | more
    · omega
    · have := lt_need mem
      omega
    · omega
  · rfl

/-- Pages for a few processes. -/
def roomyMemory : Memory where
  image := blankMemory.image
  page _ _ := 0
  free := (List.range 32).map fun i => 0x87f00000 + i * pgsize
  refuse _ := false

/-- A process without user memory, and 27 free pages. -/
theorem roomyMemory_process : ∃ m root, m.Free ∧ m.Gives 27 ∧ Whole m root (pagesOf 0) := by
  have free : roomyMemory.Free := ⟨by decide, by decide, by decide, by decide⟩
  have gives : roomyMemory.Gives (27 + 5) := by
    rintro k less (refused | few)
    · exact Bool.false_ne_true refused
    · have length : roomyMemory.free.length = 32 := rfl
      omega
  rcases (procPagetable_spec free 0x80110000).and_ends (procPagetable_gives gives) with
    ⟨root, m, -, ⟨rfl, -⟩ | ⟨-, tables, made⟩, nonzero, left⟩
  · exact absurd rfl nonzero
  · exact ⟨m, root, made.list, left, made.whole⟩

/-- Two segments of a file, the higher one first. -/
def twoSegments : List UInt8 :=
  [0x7F, 0x45, 0x4C, 0x46] ++ List.replicate 20 0 ++ word 0x1000 ++ word 64 ++ List.replicate 16 0 ++ [2] ++
    List.replicate 7 0 ++
    ([1, 0, 0, 0, 0, 0, 0, 0] ++ word 176 ++ word 0x1000 ++ word 0 ++ word 2 ++ word 4 ++ word 0) ++
    ([1, 0, 0, 0, 0, 0, 0, 0] ++ word 178 ++ word 0 ++ word 0 ++ word 3 ++ word 3 ++ word 0) ++ [1, 2, 3, 4, 5]

theorem twoSegments_length : twoSegments.length = 181 := by simp [twoSegments, word_length]

theorem twoSegments_elf : elfhdr (readi twoSegments 0 elfhdrSize) = ⟨elfMagic, 0x1000, 64, 2⟩ := by
  rw [readi, twoSegments_length]
  rfl

theorem twoSegments_segments : segments twoSegments 2 64 = [⟨1, 176, 0x1000, 2, 4⟩, ⟨1, 178, 0, 3, 3⟩] := by
  simp only [segments, readi, twoSegments_length]
  rfl

theorem twoSegments_wellFormed : WellFormed twoSegments 0x1004 := by
  refine ⟨?_, ?_, ?_, ?_, ?_, by decide⟩
  · rw [twoSegments_length]
    decide
  · rw [twoSegments_length]
    decide
  · rw [twoSegments_elf]
  · rw [twoSegments_elf]
    exact ⟨readi_inside (by rw [twoSegments_length]; decide) (by rw [twoSegments_length]; decide),
      readi_inside (by rw [twoSegments_length]; decide) (by rw [twoSegments_length]; decide), trivial⟩
  · rw [twoSegments_elf]
    change ∀ ph ∈ segments twoSegments 2 64, _
    rw [twoSegments_segments]
    intro ph mem
    rw [List.mem_cons, List.mem_singleton] at mem
    rcases mem with rfl | rfl
    · exact ⟨by decide, by decide, by decide, by decide, by rw [twoSegments_length]; decide⟩
    · exact ⟨by decide, by decide, by decide, by decide, by rw [twoSegments_length]; decide⟩

theorem exec_arguments (free : m.Free) (whole : Whole m p.pagetable (pagesOf p.sz)) (size : file.length < 2 ^ 32)
    (path : List UInt8) (few : argv.length < maxarg) (short : ∀ arg ∈ argv, arg.length < pgsize) :
    Returns (exec p path file argv) m fun r m' => ∃ loaded m₁, loadImage p.trapframe file m = .ok (loaded, m₁) ∧
      (loaded = none → r = (-1, p)) ∧
      ∀ img, loaded = some img →
        (r.1 = -1 ↔ pgsize < need argv) ∧ (r.1 = -1 → r.2 = p) ∧
        (r.1 ≠ -1 → r.1 = argv.length ∧ r.2.pagetable = img.pagetable ∧ r.2.sz = img.sz ∧
          ∃ ptrs, Passed m' r.2 argv ptrs) := by
  refine (exec_spec free whole size path argv).mono ?_
  rintro r m' ⟨loaded, m₁, ran, ⟨rfl, rfl, -⟩ | ⟨img, rfl, -, ⟨rfl, -, reason⟩ | ⟨enough, sp, rfl, started⟩⟩⟩
  · exact ⟨none, m₁, ran, fun _ => rfl, fun img some => absurd some (by simp)⟩
  · refine ⟨some img, m₁, ran, fun none => absurd none (by simp), fun img' same => ?_⟩
    rcases reason with many | ⟨arg, mem, long⟩ | more
    · exact absurd few (by omega)
    · exact absurd (short arg mem) (by omega)
    · exact ⟨iff_of_true rfl more, fun _ => rfl, fun fine => absurd rfl fine⟩
  · refine ⟨some img, m₁, ran, fun none => absurd none (by simp), fun img' same => ?_⟩
    obtain rfl := Option.some_inj.mp same
    have count : (argv.length : ℤ) ≠ -1 := by omega
    exact ⟨iff_of_false count (Nat.not_lt.mpr enough), fun failed => absurd failed count,
      fun _ => ⟨rfl, rfl, rfl, started.passed rfl rfl rfl rfl⟩⟩

/-- `echo hi` -/
theorem exec_arguments_echo : ∃ m root, m.Free ∧ Whole m root (pagesOf 0) ∧
    Returns (exec ⟨root, 0, 0x80110000, 0, 0, 0, []⟩ [101, 99, 104, 111] twoSegments [[101, 99, 104, 111],
      [104, 105]]) m
      fun r m' => r.1 = 2 ∧ ∃ ptrs, Passed m' r.2 [[101, 99, 104, 111], [104, 105]] ptrs := by
  obtain ⟨m, root, free, gives, whole⟩ := roomyMemory_process
  obtain ⟨_, m₁, loaded, img, rfl⟩ :=
    loadImage_gives (n := 0) twoSegments_wellFormed free (gives.le (by decide)) 0x80110000
  have run := @exec_arguments m twoSegments [[101, 99, 104, 111], [104, 105]] ⟨root, 0, 0x80110000, 0, 0, 0,
    []⟩ free whole
    twoSegments_wellFormed.size [101, 99, 104, 111] (by decide) (by decide)
  refine ⟨m, root, free, whole, run.mono ?_⟩
  rintro r m' ⟨_, m₂, loaded', -, started⟩
  cases loaded.symm.trans loaded'
  obtain ⟨iff, -, there⟩ := started img rfl
  have fine : r.1 ≠ -1 := fun bad => absurd (iff.mp bad) (by decide)
  obtain ⟨count, -, -, passed⟩ := there fine
  exact ⟨count, passed⟩

/-! ### The segments -/

def header (file : List UInt8) : Elfhdr := elfhdr (piece file 0 elfhdrSize)

/-- The segments that a file describes. -/
def loads (file : List UInt8) : List Proghdr :=
  ((List.range (header file).phnum).map fun i => proghdr
    (piece file ((header file).phoff + i * proghdrSize) proghdrSize)).filter
    fun ph => ph.type = elfProgLoad

theorem segments_eq {todo off : ℕ} (size : file.length < 2 ^ 32) (complete : Complete file todo off) :
    segments file todo off = ((List.range todo).map fun i =>
      proghdr (piece file (off + i * proghdrSize) proghdrSize)).filter
      fun ph => ph.type = elfProgLoad := by
  induction todo generalizing off with
  | zero => rfl
  | succ todo ih =>
    obtain ⟨whole, rest⟩ := complete
    obtain ⟨inside, read⟩ := readi_whole (by decide) whole
    have next : uint (off + proghdrSize) = off + proghdrSize := Nat.mod_eq_of_lt (by omega)
    rw [next] at rest
    have first : piece file (off + 0 * proghdrSize) proghdrSize = readi file off proghdrSize := by
      rw [Nat.zero_mul, Nat.add_zero, read]
      rfl
    have later (i : ℕ) : off + (i + 1) * proghdrSize = off + proghdrSize + i * proghdrSize := by
      rw [Nat.succ_mul]
      omega
    rw [segments, next, ih rest, List.range_succ_eq_map, List.map_cons, List.map_map, List.filter_cons, first]
    simp only [Function.comp_def, Nat.succ_eq_add_one, later, decide_eq_true_eq]

theorem Ready.loads_eq {m₁ : Memory} (ready : Ready m m₁ file img) (size : file.length < 2 ^ 32)
    (offset : (header file).phoff < 2 ^ 32) :
    segments file (elfhdr (readi file 0 elfhdrSize)).phnum (uint (elfhdr (readi file 0 elfhdrSize)).phoff) =
      loads file ∧
      elfhdr (readi file 0 elfhdrSize) = header file := by
  have same : elfhdr (readi file 0 elfhdrSize) = header file := congrArg elfhdr (readi_whole (by decide) ready.elf).2
  have complete := ready.complete
  have small : uint (header file).phoff = (header file).phoff := Nat.mod_eq_of_lt offset
  rw [same, small] at complete ⊢
  exact ⟨segments_eq size complete, rfl⟩

/-- The ranges of two segments have no address in common. -/
def Apart (a b : Proghdr) : Prop := ∀ x, ¬ (a.vaddr ≤ x ∧ x < a.vaddr + a.memsz ∧ b.vaddr ≤ x ∧ x < b.vaddr + b.memsz)

instance apart_symm : Std.Symm Apart :=
  ⟨fun _ _ apart x inside => apart x ⟨inside.2.2.1, inside.2.2.2, inside.1, inside.2.1⟩⟩

/-- In the part of a segment that comes from the file. -/
theorem imageOf_segment {done : List Proghdr} {ph : Proghdr} {i : ℕ} (fits : ∀ ph ∈ done, Fits file sz ph)
    (apart : done.Pairwise Apart)
    (mem : ph ∈ done) (less : i < ph.filesz) : imageOf file done (ph.vaddr + i) = file.getD (uint ph.off + i) 0 := by
  induction done with
  | nil => exact absurd mem List.not_mem_nil
  | cons first done ih =>
    obtain ⟨others, apart⟩ := List.pairwise_cons.mp apart
    rcases List.mem_cons.mp mem with rfl | mem
    · have whole := (fits ph List.mem_cons_self).whole
      have short : i < (piece file (uint ph.off) ph.filesz).length := by omega
      rw [imageOf, overlay, if_pos ⟨Nat.le_add_right .., by omega⟩, Nat.add_sub_cancel_left,
        List.getD_eq_getElem _ _ short]
      simp only [piece, List.getElem_take, List.getElem_drop]
      rw [List.getD_eq_getElem]
    · have here := fits ph (List.mem_cons_of_mem _ mem)
      have head := fits first List.mem_cons_self
      rw [imageOf, overlay, if_neg fun inside => ?_]
      · exact ih (fun ph' mem' => fits ph' (List.mem_cons_of_mem _ mem')) apart mem
      · have part := head.part
        have part' := here.part
        have whole := head.whole
        exact others ph mem (ph.vaddr + i) ⟨inside.1, by omega, Nat.le_add_right .., by omega⟩

/-- The process has the image that the file describes. -/
structure Imaged (m : Memory) (p : Running) (file : List UInt8) : Prop where
  stored : ∀ ph ∈ loads file, ∀ i < ph.filesz, m.at p.pagetable (ph.vaddr + i) = file.getD (ph.off + i) 0 ∧
    ph.off + i < file.length
  cleared : ∀ ph ∈ loads file, ∀ i, ph.filesz ≤ i → i < ph.memsz → m.at p.pagetable (ph.vaddr + i) = 0
  within : ∀ ph ∈ loads file, ph.vaddr + ph.memsz ≤ p.sz - 2 * pgsize
  rest : ∀ b, b < p.sz - 2 * pgsize → (∀ ph ∈ loads file, ¬ (ph.vaddr ≤ b ∧ b < ph.vaddr + ph.memsz)) →
    m.at p.pagetable b = 0
  user : ∀ b, b < p.sz - 2 * pgsize → m.User p.pagetable b
  aligned : p.sz % pgsize = 0
  guard : 2 * pgsize ≤ p.sz ∧ ∀ b, p.sz - 2 * pgsize ≤ b → b < p.sz - pgsize → ¬ m.User p.pagetable b
  entry : p.epc = (header file).entry

theorem exec_image (free : m.Free) (whole : Whole m p.pagetable (pagesOf p.sz)) (size : file.length < 2 ^ 32)
    (path : List UInt8)
    (argv : List (List UInt8)) (apart : (loads file).Pairwise Apart) (phoff : (header file).phoff < 2 ^ 32)
    (offsets : ∀ ph ∈ loads file, ph.off < 2 ^ 32) :
    Returns (exec p path file argv) m fun r m' => r = (-1, p) ∨ Imaged m' r.2 file := by
  refine (exec_spec free whole size path argv).mono ?_
  rintro r m' ⟨loaded, m₁, ran, ⟨rfl, rfl, -⟩ | ⟨img, rfl, ready, ⟨rfl, -, -⟩ | ⟨-, sp, rfl, started⟩⟩⟩
  · exact .inl rfl
  · exact .inl rfl
  right
  obtain ⟨⟨g, ptrs, held, image, -, -⟩, -, -, ⟨big, bound, aligned⟩, user⟩ := started
  obtain ⟨list, hdr⟩ := ready.loads_eq size phoff
  have fits := ready.fits
  have entry := ready.entry
  rw [hdr] at entry
  rw [list] at fits image
  have positive : 0 < pgsize := by decide
  have pages := Nat.div_mul_cancel (Nat.dvd_of_mod_eq_zero aligned)
  have two : 2 ≤ img.sz / pgsize :=
    Nat.le_of_mul_le_mul_right (by omega : 2 * pgsize ≤ img.sz / pgsize * pgsize) positive
  have sub (k : ℕ) : (img.sz / pgsize - k) * pgsize = img.sz - k * pgsize := by rw [Nat.sub_mul, pages]
  have content {b : ℕ} (low : b < img.sz - 2 * pgsize) : m'.at img.pagetable b = imageOf file (loads file).reverse b :=
    (held b (by omega)).trans (image b (by omega))
  have fits' : ∀ ph ∈ (loads file).reverse, Fits file (img.sz - 2 * pgsize) ph :=
    fun ph mem => fits ph (List.mem_reverse.mp mem)
  have apart' : (loads file).reverse.Pairwise Apart :=
    List.pairwise_reverse.mpr (apart.imp fun apart => Std.Symm.symm _ _ apart)
  refine ⟨fun ph mem i less => ?_, fun ph mem i from_ to_ => ?_, fun ph mem => (fits ph mem).within,
    fun b (low : b < img.sz - 2 * pgsize) out => ?_, fun b (low : b < img.sz - 2 * pgsize) => ?_, aligned,
    ⟨big, fun b (from_ : img.sz - 2 * pgsize ≤ b) (to_ : b < img.sz - pgsize) => ?_⟩, entry⟩
  · obtain ⟨part, within, length⟩ := fits ph mem
    have offset : uint ph.off = ph.off := Nat.mod_eq_of_lt (offsets ph mem)
    have stored := imageOf_segment fits' apart' (List.mem_reverse.mpr mem) less
    rw [offset] at stored length
    rw [piece, List.length_take, List.length_drop] at length
    exact ⟨(content (by omega)).trans stored, by omega⟩
  · have within := (fits ph mem).within
    rw [content (by omega)]
    refine imageOf_zero fun ph' mem' inside => ?_
    obtain ⟨part, -, length⟩ := fits' ph' mem'
    by_cases same : ph' = ph
    · rw [same] at inside length
      omega
    · have := apart.forall (List.mem_reverse.mp mem') mem same
      exact this (ph.vaddr + i) ⟨inside.1, by omega, Nat.le_add_right .., by omega⟩
  · rw [content low]
    refine imageOf_zero fun ph mem inside => ?_
    obtain ⟨part, within, length⟩ := fits' ph mem
    exact out ph (List.mem_reverse.mp mem) ⟨inside.1, by omega⟩
  · refine (user b (by omega)).mpr ?_
    have := (Nat.div_lt_iff_lt_mul positive).mpr (by rwa [sub] : b < (img.sz / pgsize - 2) * pgsize)
    omega
  · have low : img.sz / pgsize - 2 ≤ b / pgsize := by
      rw [Nat.le_div_iff_mul_le positive, sub]
      exact from_
    have high : b / pgsize < img.sz / pgsize - 1 := by
      rw [Nat.div_lt_iff_lt_mul positive, sub, Nat.one_mul]
      exact to_
    exact fun there => (user b (by omega)).mp there (by omega)

theorem loads_twoSegments : loads twoSegments = [⟨1, 176, 0x1000, 2, 4⟩, ⟨1, 178, 0, 3, 3⟩] := rfl

theorem exec_image_two : ∃ m root, m.Free ∧ Whole m root (pagesOf 0) ∧
    Returns (exec ⟨root, 0, 0x80110000, 0, 0, 0, []⟩ [97] twoSegments []) m fun r m' =>
      r.1 = 0 ∧ Imaged m' r.2 twoSegments := by
  obtain ⟨m, root, free, gives, whole⟩ := roomyMemory_process
  have run := @exec_image m twoSegments ⟨root, 0, 0x80110000, 0, 0, 0,
    []⟩ free whole twoSegments_wellFormed.size [97] []
    (by rw [loads_twoSegments]; simp [Apart]; omega) (by decide) (by rw [loads_twoSegments]; decide)
  have starts := @exec_starts m twoSegments [] ⟨root, 0, 0x80110000, 0, 0, 0, []⟩ _ twoSegments_wellFormed free
    (gives.le (by decide)) whole [97] (by decide) (by decide)
  refine ⟨m, root, free, whole, (run.and starts).mono ?_⟩
  rintro r m' ⟨rfl | image, started⟩
  · exact absurd (show (-1 : ℤ) = 0 from started) (by decide)
  · exact ⟨started, image⟩

end Xv6Labs.Vm
