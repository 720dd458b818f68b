import Xv6Labs.Monitor.Run

/-!
# The disk driver

`virtio_disk.c`: the descriptors, the two rings and the driver's own bookkeeping, `virtio_disk_rw` and
`virtio_disk_intr` over `vdisk_lock`, and a device that takes chains from the avail ring and completes them in any
order. Indices in the rings are 16-bit. A loop that goes on for longer than its `fuel` is cut off.
-/

namespace Xv6Labs.Virtio

open Threads Prog Monitor
open Proc (Slot)

/-- `NUM` -/
def num : ℕ := 8

def bsize : ℕ := 1024

def descFNext : ℕ := 1

def descFWrite : ℕ := 2

/-- `&disk.free[0]`, and the buffers. -/
inductive Chan (Buf : Type) where
  | free
  | buf (b : Buf)
deriving DecidableEq

/-- What the address in a descriptor points at: `buf0` with its type and sector, `b->data`, or
`&disk.info[i].status`. -/
inductive Addr (Buf : Type) where
  | null
  | header (type sector : ℕ)
  | data (b : Buf)
  | status (i : ℕ)
deriving DecidableEq

/-- `struct VRingDesc` -/
structure Desc (Buf : Type) where
  addr : Addr Buf := .null
  len : ℕ := 0
  flags : ℕ := 0
  next : ℕ := 0
deriving DecidableEq

/-- A call of `virtio_disk_rw` that has told the device. -/
structure Request (Buf : Type) where
  caller : Slot
  buf : Buf
  write : Bool
  sector : ℕ
  i0 : ℕ
  i1 : ℕ
  i2 : ℕ

/-- What the device writes: the used ring and the status bytes. `seen` is how far it has looked in the avail ring.
The history is the chains that it took, each with its first index, and the requests that it completed, each with the
index it returned. -/
structure Device (Buf : Type) where
  id : ℕ := 0
  elems : ℕ → ℕ := fun _ => 0
  status : ℕ → ℕ := fun _ => 0
  seen : ℕ := 0
  took : List (ℕ × List (Desc Buf)) := []
  served : List (ℕ × ℕ) := []

/-- `avail` is `avail[1]`, and `ring` the entries after it; `disk` is `b->disk`. The history is the call that uses a
buffer, the requests in the order of the avail ring, the buffers whose `disk` was cleared, and the requests whose
calls are about to return. -/
structure Disk (Buf : Type) where
  desc : ℕ → Desc Buf := fun _ => {}
  avail : ℕ := 0
  ring : ℕ → ℕ := fun _ => 0
  device : Device Buf := {}
  free : ℕ → Bool := fun _ => true
  usedIdx : ℕ := 0
  info : ℕ → Option Buf := fun _ => none
  disk : Buf → Bool := fun _ => false
  user : Buf → Option Slot := fun _ => none
  requests : List (Request Buf) := []
  clears : List Buf := []
  ended : List ℕ := []

/-- `takes` and `completes` are the device. `uses` waits until no other call uses the buffer: callers hold its
sleep-lock. -/
inductive Op (Buf : Type) where
  | uses (b : Buf)
  | allocDesc
  | isFree (i : ℕ)
  | setFree (i : ℕ)
  | link (i : ℕ)
  | setDesc (i : ℕ) (v : Desc Buf)
  | clearStatus (i : ℕ)
  | setDisk (b : Buf)
  | setInfo (i : ℕ) (b : Buf)
  | setRing (i : ℕ)
  | publish (r : Request Buf)
  | onDisk (b : Buf)
  | forget (n i : ℕ) (b : Buf)
  | more
  | elem
  | badStatus (i : ℕ)
  | bufOf (i : ℕ)
  | done (b : Buf)
  | advance
  | takes
  | completes (n : ℕ)
  | panic

def Op.Res {Buf : Type} : Op Buf → Type
  | .allocDesc | .link _ => Option ℕ
  | .isFree _ | .onDisk _ | .more | .badStatus _ => Bool
  | .publish _ | .elem => ℕ
  | .bufOf _ => Option Buf
  | _ => Unit

/-- The values of `uint16`. -/
def wrap (n : ℕ) : ℕ := n % 2 ^ 16

def cell (n : ℕ) : ℕ := n % num

variable {Buf : Type}

/-- The chain of descriptors from `i` on, at most `fuel` of them. -/
def chain (desc : ℕ → Desc Buf) : (fuel i : ℕ) → List (Desc Buf)
  | 0, _ => []
  | fuel + 1, i => desc i :: if (desc i).flags &&& descFNext ≠ 0 then chain desc fuel (desc i).next else []

namespace Disk

variable [DecidableEq Buf] (d : Disk Buf)

/-- The loop of `alloc_desc`. -/
def firstFree : Option ℕ := (List.range num).find? d.free

/-- `disk.desc[i].addr = 0; disk.free[i] = 1` -/
def setFree (i : ℕ) : Disk Buf :=
  { d with desc := Function.update d.desc i { d.desc i with addr := .null }, free := Function.update d.free i true }

/-- The descriptor that follows in the chain. -/
def link (i : ℕ) : Option ℕ := if (d.desc i).flags &&& descFNext ≠ 0 then some (d.desc i).next else none

/-- `disk.avail[1] = disk.avail[1] + 1` -/
def publish (r : Request Buf) : Disk Buf := { d with avail := wrap (d.avail + 1), requests := d.requests ++ [r] }

/-- `disk.info[i].b = 0` -/
def forget (n i : ℕ) (b : Buf) : Disk Buf :=
  { d with info := Function.update d.info i none, user := Function.update d.user b none, ended := d.ended ++ [n] }

/-- `b->disk = 0` -/
def done (b : Buf) : Disk Buf := { d with disk := Function.update d.disk b false, clears := d.clears ++ [b] }

/-- The device takes the next chain, if there is one. -/
def takes : Option (Disk Buf) :=
  if d.device.seen = d.avail then none
  else
    let head := d.ring (cell d.device.seen)
    some { d with device := { d.device with
      seen := wrap (d.device.seen + 1)
      took := d.device.took ++ [(head, chain d.desc num head)] } }

/-- Where the device puts the status of a chain. -/
def statusOf (c : List (Desc Buf)) : Option ℕ :=
  match c.getLast? with
  | some ⟨.status i, _, _, _⟩ => some i
  | _ => none

/-- The device completes a chain that it took and has not completed. -/
def completes (n : ℕ) : Option (Disk Buf) :=
  match d.device.took[n]? with
  | none => none
  | some (head, c) =>
    match statusOf c with
    | none => none
    | some i =>
      if n ∈ d.device.served.map Prod.fst then none
      else some { d with device := { d.device with
        status := Function.update d.device.status i 0
        elems := Function.update d.device.elems (cell d.device.id) head
        id := wrap (d.device.id + 1)
        served := d.device.served ++ [(n, head)] } }

end Disk

def perform [DecidableEq Buf] : Thread → (x : Op Buf) → Disk Buf → Option (Op.Res x × Disk Buf)
  | t, .uses b, d =>
    match t with
    | .proc p => if d.user b = none then some ((), { d with user := Function.update d.user b (some p) }) else none
    | .intr _ => none
  | _, .allocDesc, d =>
    match d.firstFree with
    | none => some (none, d)
    | some i => some (some i, { d with free := Function.update d.free i false })
  | _, .isFree i, d => some (d.free i, d)
  | _, .setFree i, d => some ((), d.setFree i)
  | _, .link i, d => some (d.link i, d)
  | _, .setDesc i v, d => some ((), { d with desc := Function.update d.desc i v })
  | _, .clearStatus i,
      d => some ((), { d with device := { d.device with status := Function.update d.device.status i 0 } })
  | _, .setDisk b, d => some ((), { d with disk := Function.update d.disk b true })
  | _, .setInfo i b, d => some ((), { d with info := Function.update d.info i (some b) })
  | _, .setRing i, d => some ((), { d with ring := Function.update d.ring (cell d.avail) i })
  | _, .publish r, d => some (d.requests.length, d.publish r)
  | _, .onDisk b, d => some (d.disk b, d)
  | _, .forget n i b, d => some ((), d.forget n i b)
  | _, .more, d => some (cell d.usedIdx != cell d.device.id, d)
  | _, .elem, d => some (d.device.elems d.usedIdx, d)
  | _, .badStatus i, d => some (d.device.status i != 0, d)
  | _, .bufOf i, d => some (d.info i, d)
  | _, .done b, d => some ((), d.done b)
  | _, .advance, d => some ((), { d with usedIdx := cell (d.usedIdx + 1) })
  | _, .takes, d => d.takes.map ((), ·)
  | _, .completes n, d => (d.completes n).map ((), ·)
  | _, .panic, _ => none

variable (Buf) in
abbrev virtio [DecidableEq Buf] : Object where
  Data := Disk Buf
  Chan := Chan Buf
  decEq := inferInstance
  Op := Op Buf
  Res := Op.Res
  perform t x d _ := perform t x d

variable [DecidableEq Buf]

def look (x : Op Buf) : Code (virtio Buf) (Op.Res x) := op (O := virtio Buf) x

def panic {α : Type} : Code (virtio Buf) α := look .panic >>= fun _ => cut

def freeDesc (i : ℕ) : Code (virtio Buf) Unit :=
  if num ≤ i then panic
  else do
    let free : Bool ← look (.isFree i)
    if free = true then panic
    else
      look (.setFree i)
      wakeup (O := virtio Buf) Chan.free

def freeChain : (fuel i : ℕ) → Code (virtio Buf) Unit
  | 0, _ => cut
  | fuel + 1, i => do
    freeDesc i
    let next : Option ℕ ← look (.link i)
    match next with
    | none => pure ()
    | some next => freeChain fuel next

def freeDescs : List ℕ → Code (virtio Buf) Unit
  | [] => pure ()
  | i :: rest => do
    freeDesc i
    freeDescs rest

/-- The loop of `alloc3_desc`, with `left` rounds to go. -/
def allocDescs : (left : ℕ) → (idx : List ℕ) → Code (virtio Buf) (Option (List ℕ))
  | 0, idx => pure (some idx)
  | left + 1, idx => do
    let i : Option ℕ ← look .allocDesc
    match i with
    | none => do
      freeDescs idx
      pure none
    | some i => allocDescs left (idx ++ [i])

def alloc3Desc : Code (virtio Buf) (Option (List ℕ)) := allocDescs 3 []

/-- The first `while` of `virtio_disk_rw`. -/
def awaitDescs (p : Slot) : ℕ → Code (virtio Buf) (List ℕ)
  | 0 => cut
  | fuel + 1 => do
    let idx ← alloc3Desc
    match idx with
    | some idx => pure idx
    | none => do
      sleep (O := virtio Buf) p Chan.free
      awaitDescs p fuel

/-- The second one. -/
def awaitDisk (p : Slot) (b : Buf) : ℕ → Code (virtio Buf) Unit
  | 0 => cut
  | fuel + 1 => do
    let disk : Bool ← look (.onDisk b)
    if disk = true then
      sleep (O := virtio Buf) p (Chan.buf b)
      awaitDisk p b fuel
    else
      pure ()

namespace Request

variable (r : Request Buf)

def idx : List ℕ := [r.i0, r.i1, r.i2]

def first : Desc Buf := ⟨.header (if r.write then 1 else 0) r.sector, 16, descFNext, r.i1⟩

def second : Desc Buf := ⟨.data r.buf, bsize, (if r.write then 0 else descFWrite) ||| descFNext, r.i2⟩

def third : Desc Buf := ⟨.status r.i0, 1, descFWrite, 0⟩

end Request

def submit (r : Request Buf) : Code (virtio Buf) ℕ := do
  look (.setDesc r.i0 r.first)
  look (.setDesc r.i1 r.second)
  look (.clearStatus r.i0)
  look (.setDesc r.i2 r.third)
  look (.setDisk r.buf)
  look (.setInfo r.i0 r.buf)
  look (.setRing r.i0)
  look (.publish r)

/-- `b->blockno * (BSIZE / 512)` is a `uint`. -/
def sector (blockno : ℕ) : ℕ := blockno * (bsize / 512) % 2 ^ 32

def virtioDiskRw (p : Slot) (b : Buf) (blockno : ℕ) (write : Bool) (fuel : ℕ) : Code (virtio Buf) Unit := do
  acquire .cond
  let idx ← awaitDescs p fuel
  let r : Request Buf := ⟨p, b, write, sector blockno, idx.getD 0 0, idx.getD 1 0, idx.getD 2 0⟩
  let n : ℕ ← submit r
  awaitDisk p b fuel
  look (.forget n r.i0 b)
  freeChain num r.i0
  release .cond

/-- The `while` of `virtio_disk_intr`. -/
def finish : ℕ → Code (virtio Buf) Unit
  | 0 => cut
  | fuel + 1 => do
    let more : Bool ← look .more
    if more = true then
      let id : ℕ ← look .elem
      let bad : Bool ← look (.badStatus id)
      if bad = true then panic
      else
        let b : Option Buf ← look (.bufOf id)
        match b with
        | none => panic
        | some b => do
          look (.done b)
          wakeup (O := virtio Buf) (Chan.buf b)
          look .advance
          finish fuel
    else
      pure ()

def virtioDiskIntr (fuel : ℕ) : Code (virtio Buf) Unit := do
  acquire .cond
  finish fuel
  release .cond

inductive Call (Buf : Type) where
  | virtioDiskRw (b : Buf) (blockno : ℕ) (write : Bool) (fuel : ℕ)
  | virtioDiskIntr (fuel : ℕ)
  | takes
  | completes (n : ℕ)
  | kill (target : Option Slot)

variable (Buf) in
/-- Only processes call `virtio_disk_rw`; everything else may happen at any time. -/
def menu : Menu (virtio Buf) where
  Call := Call Buf
  body
    | .proc p, .virtioDiskRw b blockno write fuel => do
      look (.uses b)
      virtioDiskRw p b blockno write fuel
    | .intr _, .virtioDiskRw _ _ _ _ => pure ()
    | _, .virtioDiskIntr fuel => virtioDiskIntr fuel
    | _, .takes => look .takes
    | _, .completes n => look (.completes n)
    | _, .kill target => Monitor.kill target
  offers
    | .intr _, .virtioDiskRw _ _ _ _, _ => false
    | _, _, _ => true

variable (Buf) in
def boot : Conf Thread (Act (virtio Buf)) Monitor.Res (Monitor.State (virtio Buf)) := Menu.start {}

end Xv6Labs.Virtio
