import Xv6Mlfq.Rings.Mailbox
import Xv6Mlfq.Runs.Run

/-!
# The transmit buffer of the UART (`uart.c`)

Processes put bytes into the buffer and handlers on any hart send them, each with `uart_tx_lock`; `ι` is whatever runs
the code. The device sends the byte in its holding register at any time and then raises an interrupt.
-/

namespace Xv6Mlfq.Uart

open Rings

abbrev UART_TX_BUF_SIZE : Nat := 32

/-- Where an agent is in `uartputc` or at the end of `uartintr`. -/
inductive Call where
  | out
  | putAcquire (c : UInt8)
  | putTest (c : UInt8)
  | asleep (c : UInt8)
  | intrAcquire
  | start
  /-- `uartstart` has taken a byte from the buffer and not written it to `THR` yet. -/
  | sending (c : UInt8)
  deriving DecidableEq

structure System (ι : Type*) where
  buf : Fin UART_TX_BUF_SIZE → UInt8
  w : BitVec 64
  r : BitVec 64
  lock : Option ι
  call : ι → Call
  /-- The holding register `THR`; `LSR_TX_IDLE` is set if it is empty. -/
  thr : Option UInt8
  /-- The device has raised an interrupt that no handler has taken. -/
  irq : Bool
  line : List UInt8

inductive Event (ι : Type*) where
  | uartputc (p : ι) (c : UInt8)
  | uartintr (p : ι)
  | acquire (p : ι)
  | sleep (p : ι)
  | put (p : ι) (c : UInt8)
  /-- A turn of `uartstart` that finds a byte and an idle device. -/
  | take (p : ι)
  | write (p : ι)
  | ret (p : ι)
  | kill (p : ι)
  /-- The device sends the byte that it has. -/
  | transmit

/-- `wakeup(&uart_tx_r)`, or a `kill`. -/
def Call.awake : Call → Call
  | .asleep c => .putAcquire c
  | c => c

namespace System

variable {ι : Type*} [DecidableEq ι]

def setCall (s : System ι) (p : ι) (c : Call) : System ι := { s with call := Function.update s.call p c }

def step (e : Event ι) (s : System ι) : Option (System ι) :=
  match e with
  | .uartputc p c => if s.call p = .out then some (s.setCall p (.putAcquire c)) else none
  | .uartintr p => if s.call p = .out then some { s.setCall p .intrAcquire with irq := false } else none
  | .acquire p =>
      if s.lock.isNone then
        match s.call p with
        | .putAcquire c => some { s.setCall p (.putTest c) with lock := some p }
        | .intrAcquire => some { s.setCall p .start with lock := some p }
        | _ => none
      else none
  | .sleep p =>
      match s.call p with
      | .putTest c => if s.w = s.r + 32 then some { s.setCall p (.asleep c) with lock := none } else none
      | _ => none
  | .put p c =>
      if s.call p = .putTest c ∧ s.w ≠ s.r + 32 then
        some { s.setCall p .start with buf := Function.update s.buf (entry UART_TX_BUF_SIZE s.w) c, w := s.w + 1 }
      else none
  | .take p =>
      if s.call p = .start ∧ s.w ≠ s.r ∧ s.thr = none then
        some { s with call := Function.update (fun q => (s.call q).awake) p
                        (.sending (s.buf (entry UART_TX_BUF_SIZE s.r))),
                      r := s.r + 1 }
      else none
  | .write p =>
      match s.call p with
      | .sending c => some { s.setCall p .start with thr := some c }
      | _ => none
  | .ret p =>
      if s.call p = .start ∧ (s.w = s.r ∨ s.thr ≠ none) then some { s.setCall p .out with lock := none } else none
  | .kill p => some (s.setCall p (s.call p).awake)
  | .transmit => s.thr.map fun c => { s with thr := none, irq := true, line := s.line ++ [c] }

def boot (buf : Fin UART_TX_BUF_SIZE → UInt8) : System ι where
  buf := buf
  w := 0
  r := 0
  lock := none
  call := fun _ => .out
  thr := none
  irq := false
  line := []

end System

end Xv6Mlfq.Uart
