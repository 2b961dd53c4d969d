import Xv6Mlfq.Runs.Run
import Xv6Mlfq.Scan.Proc

/-!
# One hart of the scanning kernel (`scheduler`, `sched`, `trap.c`, `main.c`)

The machine is the shared state with the place of the scan and `c->proc`. Its steps are the system calls of the
running process, the traps, and one slot of the scan, each atomic: between two slots the scheduler has interrupts
on. A step that ends in `sched` leaves the hart in its scheduler loop, where `c->proc` is null.
-/

namespace Xv6Mlfq.Scan

open Queue Runs
open Kernel (Chan LOG_SIZE INT_MAX)

structure Machine where
  kernel : State
  /-- The slot that the scan looks at next. -/
  p : Slot
  /-- `c->proc`. -/
  cproc : Option Slot

/-! ## The scheduler -/

/-- The `p++` of the scan, which starts again after the last slot. -/
def nextSlot (p : Slot) : Slot := if h : (p : Nat) + 1 < NPROC then ⟨p + 1, h⟩ else 0

/-- The logging of `scheduler`. -/
def logDispatch (k : State) (p : Slot) : State :=
  if k.logCount < LOG_SIZE ∧
      ¬ (k.logCount ≠ 0 ∧ (k.schedlog (k.logCount - 1)).pid = (k.proc p).pid) then
    { k with
      schedlog := Function.update k.schedlog k.logCount { pid := (k.proc p).pid, time := k.time }
      logCount := k.logCount + 1 }
  else k

/-- `scheduler` from `p->state = RUNNING` to its `swtch`. -/
def run (k : State) (p : Slot) : State :=
  let k := k.modify p fun p => { p with state := .running }
  logDispatch k p

/-- The scan hands the hart to `p`, and will go on with the slot after it. A process that gave up the hart in
`sleep` first ends that call. -/
def dispatch (k : State) (p : Slot) : Machine :=
  { kernel := (run k p).modify p sleepResume, p := nextSlot p, cproc := some p }

/-- One slot of the scan of `scheduler`. -/
def scheduler (m : Machine) : Machine :=
  if (m.kernel.proc m.p).state = .runnable then dispatch m.kernel m.p
  else { m with p := nextSlot m.p }

/-! ## Traps -/

def clockintr (k : State) (cur : Option Slot) : State :=
  wakeup { k with ticks := (k.ticks + 1) % 2 ^ 32 } cur (some .ticks)

inductive Event where
  | fork (trapframe pagetable copy : Bool)
  | exit (status : Int)
  | wait (copyout : Bool)
  | sleep (chan : Chan)
  | wakeup (chan : Chan)
  | kill (pid : Int)
  | nice (inc : Int)
  | startlog
  | getlog (copyout : Bool)
  /-- A timer interrupt in user mode. -/
  | usertrap
  /-- A timer interrupt in the kernel: in a system call or in the scheduler's loop. -/
  | kerneltrap
  /-- One slot of the scan of `scheduler`. -/
  | schedule
  deriving DecidableEq, Repr

/-- The caller of `yield` and the state in which it calls, for the steps that get there. -/
def atYield (m : Machine) : Event → Option (Slot × State)
  | .usertrap => m.cproc.bind fun p =>
      let k := clockintr m.kernel m.cproc
      if (k.proc p).killed then none else some (p, k)
  | .kerneltrap => m.cproc.bind fun p =>
      let k := clockintr m.kernel m.cproc
      if (k.proc p).state = .running then some (p, k) else none
  | _ => none

/-- A step of the hart; `none` if the event cannot happen in this state, or ends in a panic. -/
def step (e : Event) (m : Machine) : Option Machine :=
  match atYield m e with
  | some (p, k) => some { m with kernel := yield k p, cproc := none }
  | none =>
      match e, m.cproc with
      | .fork trapframe pagetable copy, some p =>
          some { m with kernel := (fork m.kernel p trapframe pagetable copy).2 }
      | .exit status, some p =>
          (exit m.kernel p status).map fun k => { m with kernel := k, cproc := none }
      | .wait copyout, some p =>
          match wait m.kernel p copyout with
          | (some _, k) => some { m with kernel := k }
          | (none, k) => some { m with kernel := k, cproc := none }
      | .sleep chan, some p => some { m with kernel := sleep m.kernel p chan, cproc := none }
      | .wakeup chan, cur => some { m with kernel := wakeup m.kernel cur (some chan) }
      | .kill pid, some _ => some { m with kernel := (kill m.kernel pid).2 }
      | .nice inc, some p => some { m with kernel := (sysNice m.kernel p inc).2 }
      | .startlog, some _ => some { m with kernel := (sysStartlog m.kernel).2 }
      | .getlog _, some _ => some m
      | .usertrap, some p =>
          -- the process has been killed
          (exit (clockintr m.kernel m.cproc) p (-1)).map fun k => { m with kernel := k, cproc := none }
      | .kerneltrap, cur => some { m with kernel := clockintr m.kernel cur }
      | .schedule, none => some (scheduler m)
      | _, _ => none

/-! ## Boot -/

/-- The static variables: zero but for their initialisers. -/
def static : State where
  proc := fun _ => Proc.zero
  time := 0
  ticks := 0
  nextpid := 1
  initproc := none
  schedlog := fun _ => ⟨0, 0⟩
  logCount := INT_MAX

/-- `userinit`, with the allocations it relies on. -/
def userinit (k : State) : State :=
  match allocproc k true true with
  | (none, k) => k
  | (some p, k) => { k with initproc := some p }.modify p fun p => { p with state := .runnable }

/-- The hart as `main` enters `scheduler`. -/
def boot : Machine := { kernel := userinit static, p := 0, cproc := none }

end Xv6Mlfq.Scan
