import Xv6Labs.Vm.Exec

/-!
# Loading a program

What the user pages hold while `exec` loads the segments of a file, as a function of their addresses.
-/

namespace Xv6Labs.Vm

open Faults

variable {m₀ m m' : Memory} {root n va b i sz newsz fuel off offset : ℕ} {perm : ℕ → ℕ} {f g : ℕ → UInt8}
  {bytes : ℕ → Page} {xs file : List UInt8}

/-! ### `readi` -/

theorem uint_lt : uint n < 2 ^ 32 := Nat.mod_lt _ (by decide)

theorem readi_length_le : (readi file off n).length ≤ n := by
  unfold readi
  split
  · exact Nat.zero_le _
  · split
    · rw [List.length_take]
      omega
    · exact List.length_take_le _ _

theorem readi_whole (positive : 0 < n) (length : (readi file off n).length = n) :
    off + n ≤ file.length ∧ readi file off n = (file.drop off).take n := by
  unfold readi at length ⊢
  split at length
  · exact absurd length positive.ne
  · rename_i inside
    rw [if_neg inside]
    split at length
    · rw [List.length_take, List.length_drop] at length
      omega
    · rename_i enough
      rw [if_neg enough]
      exact ⟨by omega, rfl⟩

/-! ### The contents of the user pages -/

/-- Since `m₀`, a page table has been made whose first `n` pages hold `f`. -/
structure Holding (m₀ m : Memory) (root n : ℕ) (perm : ℕ → ℕ) (f : ℕ → UInt8) : Prop where
  built : ∃ bytes, Built m₀ m root n perm bytes
  held : ∀ b, b < n * pgsize → m.at root b = f b

theorem Built.at (built : Built m₀ m root n perm bytes) (low : b < n * pgsize) :
    m.at root b = byte (bytes (b / pgsize)) (b % pgsize) :=
  congrArg (byte · (b % pgsize)) (built.page low).2

theorem Holding.congr (holding : Holding m₀ m root n perm f) (same : ∀ b, b < n * pgsize → f b = g b) :
    Holding m₀ m root n perm g :=
  ⟨holding.built, fun b low => (holding.held b low).trans (same b low)⟩

theorem Holding.users (holding : Holding m₀ m root n perm f) : Users m root := by
  obtain ⟨bytes, built⟩ := holding.built
  exact built.users

theorem Holding.space (holding : Holding m₀ m root n perm f) : Space m root n := by
  obtain ⟨bytes, built⟩ := holding.built
  exact built.space

theorem user_of_perm {f p : ℕ} (user : p &&& pteU ≠ 0) : entry f p &&& pteU ≠ 0 := by
  rw [entry, Nat.and_or_distrib_right, Nat.and_or_distrib_right]
  intro zero
  rw [Nat.or_eq_zero_iff, Nat.or_eq_zero_iff] at zero
  exact user zero.1.2

theorem Holding.isUser (holding : Holding m₀ m root n perm f) (low : b < n * pgsize)
    (user : perm (b / pgsize) &&& pteU ≠ 0) :
    m.User root b := by
  obtain ⟨bytes, built⟩ := holding.built
  have bound := built.space.bound
  have high : trapframe ≤ maxva := by decide
  refine ⟨by omega, built.space.owned.mapped b (by omega) low, ?_⟩
  rw [(built.page low).1]
  exact user_of_perm user

theorem Holding.uvmalloc (holding : Holding m₀ m root (pagesOf sz) (fun _ => userPerm) f) (grow : sz ≤ newsz)
    (zero : ∀ b, pagesOf sz * pgsize ≤ b → f b = 0) :
    Returns (uvmalloc root sz newsz) m fun r m' =>
      r = newsz ∧ Holding m₀ m' root (pagesOf newsz) (fun _ => userPerm) f ∨
      r = 0 ∧ Holding m₀ m' root (pagesOf sz) (fun _ => userPerm) f := by
  obtain ⟨bytes, built⟩ := holding.built
  refine (built.uvmalloc grow).mono ?_
  rintro r m' (⟨rfl, grown⟩ | ⟨rfl, same⟩)
  · refine .inl ⟨rfl, ⟨_, grown⟩, fun b low => ?_⟩
    rw [grown.at low, follow]
    by_cases old : b < pagesOf sz * pgsize
    · rw [if_pos ((Nat.div_lt_iff_lt_mul (by decide)).mpr old), ← built.at old]
      exact holding.held b old
    · rw [if_neg (mt (Nat.div_lt_iff_lt_mul (by decide)).mp old), byte_zero, zero b (Nat.le_of_not_lt old)]
  · refine .inr ⟨rfl, ⟨_, same⟩, fun b low => ?_⟩
    rw [same.at low, ← built.at low]
    exact holding.held b low

/-- What is there after `xs` has been written at `va`. -/
def overlay (va : ℕ) (xs : List UInt8) (f : ℕ → UInt8) (b : ℕ) : UInt8 :=
  if va ≤ b ∧ b < va + xs.length then xs.getD (b - va) 0 else f b

theorem Holding.put (holding : Holding m₀ m root n perm f) (put : Put m m' root va xs) :
    Holding m₀ m' root n perm (overlay va xs f) := by
  obtain ⟨bytes, built⟩ := holding.built
  have within {i : ℕ} (less : i < xs.length) : va + i < n * pgsize := built.user (put.user i less)
  have writes : Rewrites m m' root n :=
    ⟨put.image, put.free, fun x off => put.others x fun i less => off (va + i) (within less)⟩
  refine ⟨⟨_, built.rewrite writes⟩, fun b low => ?_⟩
  rw [Memory.at, put.frame built.users, overlay]
  split
  · rename_i inside
    obtain ⟨i, rfl⟩ := Nat.exists_eq_add_of_le inside.1
    have less : i < xs.length := by omega
    rw [put.there i less, Nat.add_sub_cancel_left, List.getD_eq_getElem _ _ less]
  · rename_i outside
    rw [put.kept _ _ (Nat.mod_lt _ (by decide)) fun i less same => ?_]
    · exact holding.held b low
    · have page := built.space.owned.distinct b (va + i) (by omega) low (by omega) (within less) same.1
      have := Nat.div_add_mod' b pgsize
      have := Nat.div_add_mod' (va + i) pgsize
      rw [page, same.2] at *
      omega

/-! ### `loadseg` -/

/-- `n` bytes of a file. -/
def piece (file : List UInt8) (offset n : ℕ) : List UInt8 := (file.drop offset).take n

theorem piece_append (n l : ℕ) : piece file offset (n + l) = piece file offset n ++ piece file (offset + n) l := by
  rw [piece, List.take_add, List.drop_drop]
  rfl

theorem loadsegFrom_spec (users : Users m₀ root) (user : ∀ i, i < sz → m₀.User root (va + i))
    (aligned : va % pgsize = 0)
    (size : file.length < 2 ^ 32) (offset_lt : offset < 2 ^ 32) (small : sz ≤ 2 ^ 31) (whole : i % pgsize = 0)
    (enough : sz - i < fuel)
    (start : i < sz → i = 0 ∨ offset + i ≤ file.length) (length : (piece file offset (min i sz)).length = min i sz)
    (put : Put m₀ m root va (piece file offset (min i sz))) :
    Returns (loadsegFrom root va file offset sz fuel i) m fun r m' =>
      r = 0 ∧ (piece file offset sz).length = sz ∧ Put m₀ m' root va (piece file offset sz) ∨
      r = -1 ∧ ∃ xs, xs.length ≤ sz ∧ Put m₀ m' root va xs := by
  induction fuel generalizing i m with
  | zero => exact absurd enough (Nat.not_lt_zero _)
  | succ fuel ih =>
    unfold loadsegFrom
    by_cases more : i < sz
    · rw [if_pos more]
      rw [min_eq_left more.le] at length put
      have here := user i more
      have limit : maxva < 2 ^ 64 := by decide
      have below := here.below
      have page : (va + i) % pgsize = 0 := by rw [Nat.add_mod, aligned, whole]; rfl
      have down : pgrounddown (va + i) = va + i := Nat.div_mul_cancel (Nat.dvd_of_mod_eq_zero page)
      have address : wrap (va + i) = va + i := Nat.mod_eq_of_lt (by omega)
      have users' := users.put put
      have here' := (put.isUser users).mpr here
      rw [address]
      refine .bind (walkaddr_eq.mono ?_)
      rintro pa m₁ ⟨rfl, rfl⟩
      rcases userPa_down (va + i) users'.nonzero with ⟨-, found, nonzero⟩ | ⟨gone, -⟩
      · rw [down] at found
        rw [found]
        refine .bind ?_
        rw [panicIf, onlyIf, if_neg nonzero]
        refine .pure ?_
        have offset' : uint (offset + i) = offset + i := by
          have := start more
          exact Nat.mod_eq_of_lt (by omega)
        rw [offset']
        generalize count : (if sz - i < pgsize then sz - i else pgsize) = n
        have some : 0 < n ∧ n ≤ pgsize ∧ i + n ≤ sz ∧ (i + n < sz → n = pgsize) := by
          rw [← count]
          unfold pgsize
          split <;> omega
        refine .bind (.writes ?_)
        have short := @readi_length_le n (offset + i) file
        have first := put_page (readi file (offset + i) n) here' (by rw [page]; omega)
        rw [page] at first
        have both := put.trans users (by rw [length]; exact first)
        by_cases full : (readi file (offset + i) n).length = n
        · rw [if_neg (not_not.mpr full)]
          obtain ⟨inside, read⟩ := readi_whole some.1 full
          have joined : piece file offset i ++ readi file (offset + i) n = piece file offset (i + n) := by
            rw [read, piece_append]
            rfl
          have total : (piece file offset (i + n)).length = i + n := by
            rw [← joined, List.length_append, length, full]
          rw [joined] at both
          have next : uint (i + pgsize) = i + pgsize := by
            refine Nat.mod_eq_of_lt ?_
            unfold pgsize
            omega
          rw [next]
          have upto : min (i + pgsize) sz = i + n := by omega
          refine ih ?_ (by omega) (fun again => .inr (by omega)) (by rw [upto, total]) (by rwa [upto])
          rw [Nat.add_mod, whole]
          rfl
        · rw [if_pos full]
          exact .pure (.inr ⟨rfl, _, by rw [List.length_append, length]; omega, both⟩)
      · exact absurd here' gone
    · rw [if_neg more]
      rw [min_eq_right (Nat.le_of_not_lt more)] at length put
      exact .pure (.inl ⟨rfl, length, put⟩)

theorem loadseg_spec (users : Users m root) (user : ∀ i, i < sz → m.User root (va + i)) (aligned : va % pgsize = 0)
    (size : file.length < 2 ^ 32) (offset_lt : offset < 2 ^ 32) (small : sz ≤ 2 ^ 31) :
    Returns (loadseg root va file offset sz) m fun r m' =>
      r = 0 ∧ (piece file offset sz).length = sz ∧ Put m m' root va (piece file offset sz) ∨
      r = -1 ∧ ∃ xs, xs.length ≤ sz ∧ Put m m' root va xs := by
  have none : piece file offset (min 0 sz) = [] := by rw [Nat.zero_min]; rfl
  unfold loadseg
  refine .bind ?_
  rw [panicIf, onlyIf, if_neg (not_not.mpr aligned)]
  refine .pure (loadsegFrom_spec users user aligned size offset_lt small rfl ?_ (fun _ => .inl rfl) ?_ ?_)
  · rw [rounds]
    omega
  · rw [none, Nat.zero_min]
    rfl
  · rw [none]
    exact put_nil

/-! ### The loop over the program headers -/

theorem number_lt (n : ℕ) (length : xs.length ≤ n) : number xs < 256 ^ n := by
  refine (Nat.ofDigits_lt_base_pow_length (by decide) fun d mem => ?_).trans_le (Nat.pow_le_pow_right (by decide) ?_)
  · obtain ⟨x, -, rfl⟩ := List.mem_map.mp mem
    exact x.toNat_lt
  · rwa [List.length_map]

theorem field_lt (n : ℕ) : field xs off n < 256 ^ n := number_lt n (List.length_take_le _ _)

/-- The segments of a file that are loaded, in the order of their headers. -/
def segments (file : List UInt8) : (todo off : ℕ) → List Proghdr
  | 0, _ => []
  | todo + 1, off =>
    if (proghdr (readi file off proghdrSize)).type = elfProgLoad then
      proghdr (readi file off proghdrSize) :: segments file todo (uint (off + proghdrSize))
    else segments file todo (uint (off + proghdrSize))

/-- The program headers are all in the file. -/
def Complete (file : List UInt8) : (todo off : ℕ) → Prop
  | 0, _ => True
  | todo + 1, off => (readi file off proghdrSize).length = proghdrSize ∧ Complete file todo (uint (off + proghdrSize))

/-- The user memory after some segments, the last one first. -/
def imageOf (file : List UInt8) : List Proghdr → ℕ → UInt8
  | [], _ => 0
  | ph :: before, b => overlay ph.vaddr (piece file (uint ph.off) ph.filesz) (imageOf file before) b

/-- A segment that has been loaded into the first `sz` bytes. -/
structure Fits (file : List UInt8) (sz : ℕ) (ph : Proghdr) : Prop where
  part : ph.filesz ≤ ph.memsz
  within : ph.vaddr + ph.memsz ≤ sz
  whole : (piece file (uint ph.off) ph.filesz).length = ph.filesz

theorem Fits.mono {ph : Proghdr} (fits : Fits file sz ph) (le : sz ≤ newsz) : Fits file newsz ph :=
  ⟨fits.part, fits.within.trans le, fits.whole⟩

theorem imageOf_zero {done : List Proghdr}
    (out : ∀ ph ∈ done, ¬ (ph.vaddr ≤ b ∧ b < ph.vaddr + (piece file (uint ph.off) ph.filesz).length)) :
    imageOf file done b = 0 := by
  induction done with
  | nil => rfl
  | cons ph done ih =>
    rw [imageOf, overlay, if_neg (out ph List.mem_cons_self)]
    exact ih fun ph' mem => out ph' (List.mem_cons_of_mem _ mem)

theorem imageOf_above {done : List Proghdr} (fits : ∀ ph ∈ done, Fits file sz ph) (above : sz ≤ b) :
    imageOf file done b = 0 := by
  refine imageOf_zero fun ph mem inside => ?_
  obtain ⟨part, within, whole⟩ := fits ph mem
  omega

theorem Holding.mono_of_lt (holding : Holding m₀ m root (pagesOf sz) (fun _ => userPerm) f) (less : newsz < sz) :
    Returns (Vm.uvmalloc root sz newsz) m fun r m' => r = sz ∧
      Holding m₀ m' root (pagesOf sz) (fun _ => userPerm) f := by
  unfold Vm.uvmalloc
  rw [if_pos less]
  exact .pure ⟨rfl, holding⟩

/-- `uvmalloc` for a segment, which may end below `sz`. -/
theorem Holding.extend (holding : Holding m₀ m root (pagesOf sz) (fun _ => userPerm) f)
    (zero : ∀ b, sz ≤ b → f b = 0) (newsz : ℕ) :
    Returns (Vm.uvmalloc root sz newsz) m fun r m' =>
      r ≠ 0 ∧ sz ≤ r ∧ newsz ≤ r ∧ Holding m₀ m' root (pagesOf r) (fun _ => userPerm) f ∨
      r = 0 ∧ Holding m₀ m' root (pagesOf sz) (fun _ => userPerm) f := by
  by_cases grow : sz ≤ newsz
  · refine (holding.uvmalloc grow fun b above => zero b (le_pagesOf.trans above)).mono ?_
    rintro r m' (⟨rfl, grown⟩ | ⟨rfl, same⟩)
    · by_cases none : r = 0
      · have empty : sz = r := by omega
        exact .inr ⟨none, empty ▸ grown⟩
      · exact .inl ⟨none, grow, le_rfl, grown⟩
    · exact .inr ⟨rfl, same⟩
  · refine (holding.mono_of_lt (Nat.lt_of_not_le grow)).mono ?_
    rintro r m' ⟨rfl, same⟩
    exact .inl ⟨by omega, le_rfl, by omega, same⟩

theorem loadSegments_spec {todo : ℕ} {before : List Proghdr} (size : file.length < 2 ^ 32)
    (holding : Holding m₀ m root (pagesOf sz) (fun _ => userPerm) (imageOf file before))
    (fits : ∀ ph ∈ before, Fits file sz ph) :
    Returns (loadSegments root file todo off sz) m fun r m' =>
      r.1 = false ∧ (∃ f, Holding m₀ m' root (pagesOf r.2) (fun _ => userPerm) f) ∨
      r.1 = true ∧ Holding m₀ m' root (pagesOf r.2) (fun _ => userPerm)
        (imageOf file ((segments file todo off).reverse ++ before)) ∧
        (∀ ph ∈ (segments file todo off).reverse ++ before, Fits file r.2 ph) ∧ Complete file todo off := by
  induction todo generalizing off sz m before with
  | zero => exact .pure (.inr ⟨rfl, holding, fits, trivial⟩)
  | succ todo ih =>
    unfold loadSegments segments Complete
    dsimp only
    generalize header : proghdr (readi file off proghdrSize) = ph
    split
    · exact .pure (.inl ⟨rfl, _, holding⟩)
    rename_i whole
    rw [eq_true (not_not.mp whole), true_and]
    by_cases loads : ph.type = elfProgLoad
    swap
    · rw [if_pos loads, if_neg loads]
      exact ih holding fits
    rw [if_neg (not_not.mpr loads), if_pos loads, List.reverse_cons, List.append_assoc, List.singleton_append]
    split
    · exact .pure (.inl ⟨rfl, _, holding⟩)
    rename_i part
    split
    · exact .pure (.inl ⟨rfl, _, holding⟩)
    rename_i unwrapped
    have vaddr : ph.vaddr < 2 ^ 64 := by rw [← header]; exact field_lt 8
    have memsz : ph.memsz < 2 ^ 64 := by rw [← header]; exact field_lt 8
    have sum : wrap (ph.vaddr + ph.memsz) = ph.vaddr + ph.memsz := by
      unfold wrap at unwrapped ⊢
      omega
    rw [sum]
    refine .bind ((holding.extend (fun b => imageOf_above fits) _).mono ?_)
    rintro r m₁ (⟨some, grow, reach, grown⟩ | ⟨rfl, same⟩)
    · rw [if_neg some]
      split
      · exact .pure (.inl ⟨rfl, _, grown⟩)
      rename_i aligned
      have ram := grown.space.owned.fits_ram
      have upto := @le_pagesOf r
      have room : Vm.phystop - kernbase ≤ 2 ^ 31 := by decide
      have filesz : uint ph.filesz = ph.filesz := Nat.mod_eq_of_lt (by omega)
      rw [filesz]
      refine .bind ((loadseg_spec grown.users (fun i less => grown.isUser (by omega) (by decide))
        (not_not.mp aligned) size
        uint_lt (by omega)).mono ?_)
      rintro r' m₂ (⟨rfl, length, put⟩ | ⟨rfl, xs, le, put⟩)
      · rw [if_neg (by decide)]
        have loaded : Holding m₀ m₂ root (pagesOf r) (fun _ => userPerm) (imageOf file (ph :: before)) := grown.put put
        refine ih loaded fun ph' mem => ?_
        rcases List.mem_cons.mp mem with rfl | mem
        · exact ⟨Nat.le_of_not_lt part, reach, length⟩
        · exact (fits ph' mem).mono grow
      · rw [if_pos (by decide)]
        exact .pure (.inl ⟨rfl, _, grown.put put⟩)
    · rw [if_pos rfl]
      exact .pure (.inl ⟨rfl, _, same⟩)

/-! ### The guard page -/

def guardPerm : ℕ := pteW ||| pteX ||| pteR

/-- The permissions of user pages of which page `j` is not for the user. -/
def guarded (j i : ℕ) : ℕ := if i = j then guardPerm else userPerm

theorem clear_user {f : ℕ} (bound : f < 2 ^ 64) : entry f userPerm &&& (2 ^ 64 - 1 - pteU) = entry f guardPerm := by
  have aligned : pa2pte f = f / 4096 * 1024 := by rw [pa2pte, Nat.shiftRight_eq_div_pow, Nat.shiftLeft_eq]
  have clear : pa2pte f &&& pteU = 0 := by
    have mod : pa2pte f % 32 = pa2pte f &&& (2 ^ 5 - 1) := (Nat.and_two_pow_sub_one_eq_mod _ 5).symm
    have low : pteU = (2 ^ 5 - 1) &&& pteU := by decide
    rw [low, ← Nat.and_assoc, ← mod, aligned]
    have zero : f / 4096 * 1024 % 32 = 0 := by omega
    rw [zero, Nat.zero_and]
  have high : pa2pte f &&& (2 ^ 64 - 1) = pa2pte f := by
    rw [Nat.and_two_pow_sub_one_eq_mod, aligned]
    exact Nat.mod_eq_of_lt (by omega)
  have split : 2 ^ 64 - 1 - pteU = (2 ^ 64 - 1) ^^^ pteU := by decide
  have address : pa2pte f &&& (2 ^ 64 - 1 - pteU) = pa2pte f := by
    rw [split, Nat.and_xor_distrib_left, high, clear, Nat.xor_zero]
  rw [entry, entry, Nat.and_or_distrib_right, Nat.and_or_distrib_right, address]
  rfl

/-- The permissions of one page change. -/
theorem Added.repermit {m₁ : Memory} {j p : ℕ} {taken : List ℕ} (added : Added m₁ m root 0 n perm bytes taken)
    (below : j < n)
    (writes : Writes m m' root [] fun b => if b / pgsize = j then some (entry (m.frame root (j * pgsize)) p) else none)
    (leaf : LeafPerm p) : Added m₁ m' root 0 n (fun i => if i = j then p else perm i) bytes taken := by
  have owned := added.space.owned
  have top := added.space.bound
  have high : trapframe ≤ maxva := by decide
  have positive : 0 < pgsize := by decide
  have inside : j * pgsize < n * pgsize := Nat.mul_lt_mul_of_pos_right below positive
  have page : j * pgsize / pgsize = j := Nat.mul_div_cancel _ positive
  have here {b : ℕ} (low : b < n * pgsize) (same : b / pgsize = j) : m'.pte root b = entry (m.frame root b) p := by
    rw [writes.ptes b (by omega), if_pos same, Option.getD_some, frame_page (page.trans same.symm)]
  have other {b : ℕ} (bound : b < maxva) (off : b / pgsize ≠ j) : m'.pte root b = m.pte root b := by
    rw [writes.ptes b bound, if_neg off]
    rfl
  have real {b : ℕ} (low : b < n * pgsize) : m.frame root b < 2 ^ 64 := by
    have small : Vm.phystop < 2 ^ 64 := by decide
    have := owned.phystop b (by omega) low
    omega
  have frame {b : ℕ} (low : b < n * pgsize) : m'.frame root b = m.frame root b := by
    by_cases same : b / pgsize = j
    · rw [Memory.frame, here low same]
      exact entry_pa leaf.small pa_aligned (real low)
    · rw [Memory.frame, other (by omega) same]
      rfl
  have free : m'.free = m.free := writes.free.symm
  have nodes : m'.nodes root = m.nodes root := by rw [writes.nodes]; simp
  have pages {x : ℕ} (off : x ∉ m.nodes root) : m'.page x = m.page x ∨ x ∈ m.free := by
    by_cases mem : x ∈ m.free
    · exact .inr mem
    · exact .inl (writes.others x off mem)
  refine ⟨⟨writes.table, ⟨fun b from_ low => ?_, fun a b from_ low from' low' eq => ?_, fun b from_ low => ?_,
    fun b from_ low => ?_, fun b from_ low => ?_, fun b from_ low => ?_⟩, fun b from_ under => ?_, top⟩, ?_,
    writes.image.trans added.image, ?_, ?_, fun b bound out => ?_, fun b from_ low => ⟨?_, ?_⟩, fun x off out => ?_,
    fun i up => (writes.low i up).trans (added.low i up)⟩
  · by_cases same : b / pgsize = j
    · rw [here low same]
      exact leaf.entry.1
    · rw [other (by omega) same]
      exact owned.mapped b from_ low
  · rw [frame low, frame low'] at eq
    exact owned.distinct a b from_ low from' low' eq
  · rw [frame low, nodes]
    exact owned.apart b from_ low
  · rw [frame low, free]
    exact owned.used b from_ low
  · rw [frame low, writes.image]
    exact owned.kend b from_ low
  · rw [frame low]
    exact owned.phystop b from_ low
  · rw [other (by omega) fun same => ?_]
    · exact added.space.unmapped b from_ under
    · have := Nat.div_add_mod' b pgsize
      have : n * pgsize ≤ b := from_
      have := Nat.mod_lt b positive
      have : (j + 1) * pgsize ≤ n * pgsize := Nat.mul_le_mul_right _ below
      rw [same, Nat.succ_mul] at *
      omega
  · have same : ([] ++ m'.free).Perm m.free := by rw [List.nil_append, free]
    exact added.list.of_perm same writes.image
  · rw [free, Memory.frames, List.map_congr_left fun i mem => ?_]
    · exact added.free
    · obtain ⟨-, less⟩ := List.mem_range'_1.mp mem
      exact frame (Nat.mul_lt_mul_of_pos_right (by omega) positive)
  · rw [nodes]
    exact added.nodes
  · rw [other bound fun same => ?_]
    · exact added.kept b bound out
    · refine out ⟨by omega, ?_⟩
      exact (Nat.div_lt_iff_lt_mul positive).mp (same ▸ below)
  · rw [frame low]
    by_cases same : b / pgsize = j
    · rw [if_pos same]
      exact here low same
    · rw [if_neg same, other (by omega) same]
      exact (added.fresh b from_ low).1
  · rw [frame low, ← (added.fresh b from_ low).2]
    exact (pages (owned.apart b from_ low)).resolve_right (owned.used b from_ low)
  · obtain ⟨off', out', -⟩ := added.outside off out
    rw [writes.others x off' out', added.others x off out]

theorem guardPerm_leaf : LeafPerm guardPerm := ⟨by decide, by decide⟩

/-- `uvmclear` takes page `j` from the user. -/
theorem Holding.uvmclear {j : ℕ} (holding : Holding m₀ m root n (fun _ => userPerm) f) (below : j < n) :
    Returns (Vm.uvmclear root (j * pgsize)) m fun _ m' => Holding m₀ m' root n (guarded j) f := by
  obtain ⟨bytes, built⟩ := holding.built
  have positive : 0 < pgsize := by decide
  have high : trapframe ≤ maxva := by decide
  have top := built.space.bound
  have inside : j * pgsize < n * pgsize := Nat.mul_lt_mul_of_pos_right below positive
  have page : j * pgsize / pgsize = j := Nat.mul_div_cancel _ positive
  have owned := built.space.owned
  have real : m.frame root (j * pgsize) < 2 ^ 64 := (owned.phystop _ (by omega) inside).trans (by decide)
  obtain ⟨x, found⟩ := node_of_valid (owned.mapped _ (by omega) inside)
  have value : m.page x (px 0 (j * pgsize)) &&& (2 ^ 64 - 1 - pteU) = entry (m.frame root (j * pgsize)) guardPerm := by
    rw [← pte_of_node found, (built.page inside).1]
    exact clear_user real
  unfold Vm.uvmclear
  refine .bind ((walk_look (by omega)).mono ?_)
  rintro r m₁ ⟨rfl, look⟩
  rw [look, found]
  refine .bind (.reads (.writes ?_))
  rw [value]
  have writes := built.space.table.writes (e := entry (m₁.frame root (j * pgsize)) guardPerm) found (by omega) fun _ =>
    guardPerm_leaf.entry.2
  rw [page] at writes
  obtain ⟨m₂, tables, taken, made, added⟩ := built
  have after := added.repermit below writes guardPerm_leaf
  have built' : Built m₀ (m₁.store (x, px 0 (j * pgsize)) (entry (m₁.frame root (j * pgsize)) guardPerm)) root n
    (guarded j) bytes :=
    ⟨m₂, tables, taken, made, after⟩
  refine ⟨⟨bytes, built'⟩, fun b low => ?_⟩
  rw [built'.at low, ← holding.held b low]
  exact (Built.at ⟨m₂, tables, taken, made, added⟩ low).symm

/-! ### `exec` as far as the stack -/

/-- A program has been loaded: its segments, a guard page, and an empty stack page. -/
structure Ready (m₀ m : Memory) (file : List UInt8) (img : Loaded) : Prop where
  big : 2 * pgsize ≤ img.sz
  aligned : img.sz % pgsize = 0
  elf : (readi file 0 elfhdrSize).length = elfhdrSize
  complete : Complete file (elfhdr (readi file 0 elfhdrSize)).phnum (uint (elfhdr (readi file 0 elfhdrSize)).phoff)
  entry : img.entry = (elfhdr (readi file 0 elfhdrSize)).entry
  holding : Holding m₀ m img.pagetable (pagesOf img.sz) (guarded (img.sz / pgsize - 2))
    (imageOf file (segments file (elfhdr (readi file 0 elfhdrSize)).phnum
      (uint (elfhdr (readi file 0 elfhdrSize)).phoff)).reverse)
  fits : ∀ ph ∈ segments file (elfhdr (readi file 0 elfhdrSize)).phnum (uint (elfhdr (readi file 0 elfhdrSize)).phoff),
    Fits file (img.sz - 2 * pgsize) ph
  nonzero : img.pagetable ≠ 0

theorem Holding.discard (holding : Holding m₀ m root (pagesOf sz) perm f) (free : m₀.Free) :
    Returns (procFreepagetable root sz) m fun _ m' => Back m₀ m' := by
  obtain ⟨bytes, built⟩ := holding.built
  exact built.discard free

theorem Back.refl : Back m m := ⟨rfl, List.Perm.refl _, fun _ _ => rfl⟩

theorem loadImage_spec (free : m.Free) (size : file.length < 2 ^ 32) (frame : ℕ) :
    Returns (loadImage frame file) m fun r m' => r = none ∧ Back m m' ∨ ∃ img, r = some img ∧ Ready m m' file img := by
  unfold loadImage
  dsimp only
  split
  · exact .pure (.inl ⟨rfl, .refl⟩)
  rename_i header
  split
  · exact .pure (.inl ⟨rfl, .refl⟩)
  generalize elf : elfhdr (readi file 0 elfhdrSize) = hdr
  refine .bind ((procPagetable_spec free frame).mono ?_)
  rintro root m₁ (⟨rfl, back, -⟩ | ⟨nonzero, tables, made⟩)
  · rw [if_pos rfl]
    exact .pure (.inl ⟨rfl, back⟩)
  rw [if_neg nonzero]
  have empty : Holding m m₁ root (pagesOf 0) (fun _ => userPerm) (imageOf file []) :=
    ⟨⟨fun _ => filled 0, made.built⟩, fun b low => absurd low (Nat.not_lt_zero b)⟩
  refine .bind ((loadSegments_spec size empty fun _ mem => absurd mem List.not_mem_nil).mono ?_)
  rintro ⟨done, sz⟩ m₂ (⟨rfl, f, holding⟩ | ⟨rfl, holding, fits, complete⟩)
  · dsimp only
    rw [if_pos rfl]
    exact .bind ((holding.discard free).mono fun _ m₃ back => .pure (.inl ⟨rfl, back⟩))
  dsimp only at holding fits ⊢
  rw [if_neg (by decide), pgroundup_pages holding.space.size_le]
  rw [List.append_nil] at holding fits
  have ram := holding.space.owned.fits_ram
  have room : Vm.phystop - kernbase < 2 ^ 31 := by decide
  have pg : pgsize = 4096 := rfl
  generalize count : pagesOf sz = n at *
  have upto : sz ≤ n * pgsize := count ▸ le_pagesOf
  have next : wrap (n * pgsize + 2 * pgsize) = (n + 2) * pgsize := by
    rw [Nat.add_mul]
    exact Nat.mod_eq_of_lt (by omega)
  have grow : n * pgsize ≤ (n + 2) * pgsize := Nat.mul_le_mul_right _ (by omega)
  have rounded : Holding m m₂ root (pagesOf (n * pgsize)) (fun _ => userPerm)
      (imageOf file (segments file hdr.phnum (uint hdr.phoff)).reverse) := by
    rw [pagesOf_mul]
    exact holding
  rw [next]
  refine .bind ((rounded.uvmalloc grow fun b above => ?_).mono ?_)
  · rw [pagesOf_mul] at above
    exact imageOf_above fits (upto.trans above)
  rintro r m₃ (⟨rfl, grown⟩ | ⟨rfl, same⟩)
  · rw [if_neg (Nat.mul_ne_zero (by omega) (by decide))]
    rw [pagesOf_mul] at grown
    have below : (n + 2) * pgsize - 2 * pgsize = n * pgsize := by rw [Nat.add_mul, Nat.add_sub_cancel]
    rw [below]
    refine .bind ((grown.uvmclear (by omega)).mono fun _ m₄ ready => .pure (.inr ⟨_, rfl, ?_⟩))
    have guard : (n + 2) * pgsize / pgsize - 2 = n := by rw [Nat.mul_div_cancel _ (by decide), Nat.add_sub_cancel]
    refine ⟨Nat.mul_le_mul_right _ (by omega), Nat.mul_mod_left .., not_not.mp header, ?_, ?_, ?_, ?_, nonzero⟩
    · rw [elf]
      exact complete
    · rw [elf]
    · dsimp only
      rw [guard, pagesOf_mul, elf]
      exact ready
    · dsimp only
      rw [below, elf]
      exact fun ph mem => (fits ph (List.mem_reverse.mpr mem)).mono upto
  · rw [if_pos rfl]
    exact .bind ((same.discard free).mono fun _ m₄ back => .pure (.inl ⟨rfl, back⟩))

end Xv6Labs.Vm
