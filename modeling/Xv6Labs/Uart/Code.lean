import Xv6Labs.Monitor.Run

/-!
# The transmit side of the UART driver

`uart.c`: the buffer with its two indices, and `uartputc`, `uartstart` and the end of `uartintr` over `uart_tx_lock`.
The input loop of `uartintr` does not touch the buffer. The device sets its idle bit as it likes, and any thread may
panic. A loop that goes on for longer than its `fuel` is cut off.
-/

namespace Xv6Labs.Uart

open Threads Prog Monitor
open Proc (Slot)

def uartTxBufSize : ℕ := 32

/-- `&uart_tx_r` -/
inductive Chan where
  | uartTxR
deriving DecidableEq

/-- `idle` is LSR_TX_IDLE. The history is every character stored, every character taken from the buffer, and every
character that `uartstart` has handed to THR. -/
structure Tx where
  buf : Fin uartTxBufSize → UInt8 := fun _ => 0
  w : ℕ := 0
  r : ℕ := 0
  idle : Bool := true
  panicked : Bool := false
  stored : List UInt8 := []
  taken : List UInt8 := []
  sent : List UInt8 := []

/-- `idles` is the device, and `panics` another CPU. -/
inductive Op where
  | panicked
  | full
  | empty
  | idle
  | store (c : ℤ)
  | take
  | thr (c : UInt8)
  | idles (b : Bool)
  | panics

def Op.Res : Op → Type
  | .panicked | .full | .empty | .idle => Bool
  | .take => UInt8
  | _ => Unit

def cell (n : ℕ) : Fin uartTxBufSize := ⟨n % uartTxBufSize, Nat.mod_lt _ (by decide)⟩

namespace Tx

variable (tx : Tx)

def full : Bool := (tx.w + 1) % uartTxBufSize == tx.r

def empty : Bool := tx.w == tx.r

/-- `uart_tx_buf[uart_tx_w] = c` and the new `uart_tx_w`. -/
def store (c : ℤ) : Tx :=
  { tx with
    buf := Function.update tx.buf (cell tx.w) (UInt8.ofInt c)
    w := (tx.w + 1) % uartTxBufSize
    stored := tx.stored ++ [UInt8.ofInt c] }

/-- `c = uart_tx_buf[uart_tx_r]` and the new `uart_tx_r`. -/
def take : Tx := { tx with r := (tx.r + 1) % uartTxBufSize, taken := tx.taken ++ [tx.buf (cell tx.r)] }

/-- `WriteReg(THR, c)` -/
def thr (c : UInt8) : Tx := { tx with sent := tx.sent ++ [c] }

end Tx

def perform : (x : Op) → Tx → Option (Op.Res x × Tx)
  | .panicked, tx => some (tx.panicked, tx)
  | .full, tx => some (tx.full, tx)
  | .empty, tx => some (tx.empty, tx)
  | .idle, tx => some (tx.idle, tx)
  | .store c, tx => some ((), tx.store c)
  | .take, tx => some (tx.buf (cell tx.r), tx.take)
  | .thr c, tx => some ((), tx.thr c)
  | .idles b, tx => some ((), { tx with idle := b })
  | .panics, tx => some ((), { tx with panicked := true })

abbrev uart : Object where
  Data := Tx
  Chan := Chan
  decEq := inferInstance
  Op := Op
  Res := Op.Res
  perform _ x tx _ := perform x tx

def look (x : Op) : Code uart (Op.Res x) := op (O := uart) x

def uartstart : ℕ → Code uart Unit
  | 0 => cut
  | fuel + 1 => do
    let empty : Bool ← look .empty
    if empty = true then
      pure ()
    else
      let idle : Bool ← look .idle
      if idle = true then
        let c : UInt8 ← look .take
        wakeup (O := uart) Chan.uartTxR
        look (.thr c)
        uartstart fuel
      else
        pure ()

/-- The `while` of `uartputc`. -/
def putWithRoom (p : Slot) (c : ℤ) (rounds : ℕ) : ℕ → Code uart Unit
  | 0 => cut
  | fuel + 1 => do
    let full : Bool ← look .full
    if full = true then
      sleep (O := uart) p Chan.uartTxR
      putWithRoom p c rounds fuel
    else
      look (.store c)
      uartstart rounds
      release .cond

/-- After a panic the caller spins, with the lock. -/
def uartputc (p : Slot) (c : ℤ) (rounds fuel : ℕ) : Code uart Unit := do
  acquire .cond
  let panicked : Bool ← look .panicked
  if panicked = true then cut else putWithRoom p c rounds fuel

def uartintr (rounds : ℕ) : Code uart Unit := do
  acquire .cond
  uartstart rounds
  release .cond

inductive Call where
  | uartputc (c : ℤ) (rounds fuel : ℕ)
  | uartintr (rounds : ℕ)
  | idles (b : Bool)
  | panics
  | kill (target : Option Slot)

/-- `uartputc` may sleep: only processes call it. -/
def menu : Menu uart where
  Call := Call
  body
    | .proc p, .uartputc c rounds fuel => uartputc p c rounds fuel
    | .intr _, .uartputc _ _ _ => pure ()
    | _, .uartintr rounds => uartintr rounds
    | _, .idles b => look (.idles b)
    | _, .panics => look .panics
    | _, .kill target => Monitor.kill target
  offers
    | .intr _, .uartputc _ _ _, _ => false
    | _, _, _ => true

def boot : Conf Thread (Act uart) Monitor.Res (Monitor.State uart) := Menu.start {}

end Xv6Labs.Uart
