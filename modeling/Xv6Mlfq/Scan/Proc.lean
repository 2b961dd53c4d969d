import Xv6Mlfq.Kernel.Proc

/-!
# Processes of the scanning kernel (`project_1b`: `proc.h`, `proc.c`, `log.h`)

This kernel has no run queues: a process is ready if its state says so. The enumeration of states, the addresses
that processes sleep on and the constants are those of `Kernel`. Each function is one atomic step that stops where
it calls `sched`.
-/

namespace Xv6Mlfq.Scan

open Queue
open Kernel (ProcState Chan LOG_SIZE INT_MAX NICE_MIN NICE_MAX findSlot)

structure Proc where
  state : ProcState
  chan : Option Chan
  killed : Bool
  xstate : Int
  pid : Int
  parent : Option Slot
  nice : Int
  deriving DecidableEq, Repr

/-- A slot of the zero-initialised `proc` array. -/
def Proc.zero : Proc where
  state := .unused
  chan := none
  killed := false
  xstate := 0
  pid := 0
  parent := none
  nice := 0

/-- `struct logentry`. -/
structure LogEntry where
  pid : Int
  time : Int
  deriving DecidableEq, Repr

/-- The variables that all harts share. -/
structure State where
  proc : Slot → Proc
  /-- The clock of `yield`. -/
  time : Int
  /-- The clock of `clockintr`. -/
  ticks : Nat
  nextpid : Int
  initproc : Option Slot
  schedlog : Int → LogEntry
  logCount : Int

namespace State

def modify (k : State) (i : Slot) (f : Proc → Proc) : State :=
  { k with proc := Function.update k.proc i (f (k.proc i)) }

end State

/-! ## Creation and release of a process -/

def freeproc (p : Proc) : Proc :=
  { p with
    pid := 0
    parent := none
    chan := none
    killed := false
    xstate := 0
    state := .unused
    nice := 0 }

/-- `trapframe` and `pagetable` say whether the two allocations succeed. -/
def allocproc (k : State) (trapframe pagetable : Bool) : Option Slot × State :=
  match findSlot fun i => (k.proc i).state = .unused with
  | none => (none, k)
  | some i =>
      let pid := k.nextpid
      let k := { k with nextpid := int32 (k.nextpid + 1) }
      let k := k.modify i fun p => { p with pid := pid, state := .used }
      if !trapframe then (none, k.modify i freeproc)
      else if !pagetable then (none, k.modify i freeproc)
      else (some i, k)

/-- `copy` says whether `uvmcopy` succeeds. -/
def fork (k : State) (p : Slot) (trapframe pagetable copy : Bool) : Int × State :=
  match allocproc k trapframe pagetable with
  | (none, k) => (-1, k)
  | (some np, k) =>
      if !copy then (-1, k.modify np freeproc)
      else
        let pid := (k.proc np).pid
        let k := k.modify np fun q => { q with parent := some p }
        (pid, k.modify np fun q => { q with state := .runnable })

/-! ## Sleep, wakeup and kill -/

/-- `sleep` up to its `sched`. -/
def sleep (k : State) (p : Slot) (chan : Chan) : State :=
  k.modify p fun p => { p with chan := some chan, state := .sleeping }

/-- What `sleep` does after its `sched`. -/
def sleepResume (p : Proc) : Proc := { p with chan := none }

/-- One round of the loop of `wakeup`. -/
def wakeupSlot (cur : Option Slot) (chan : Option Chan) (k : State) (i : Slot) : State :=
  if some i ≠ cur then
    if (k.proc i).state = .sleeping ∧ (k.proc i).chan = chan then
      k.modify i fun p => { p with state := .runnable }
    else k
  else k

def wakeup (k : State) (cur : Option Slot) (chan : Option Chan) : State :=
  (List.finRange NPROC).foldl (wakeupSlot cur chan) k

def kill (k : State) (pid : Int) : Int × State :=
  match findSlot fun i => (k.proc i).pid = pid with
  | none => (-1, k)
  | some i =>
      let k := k.modify i fun p => { p with killed := true }
      (0, if (k.proc i).state = .sleeping then k.modify i fun p => { p with state := .runnable } else k)

/-! ## Exit and wait -/

/-- One round of the loop of `reparent`. -/
def reparentSlot (p : Slot) (k : State) (pp : Slot) : State :=
  if (k.proc pp).parent = some p then
    wakeup (k.modify pp fun q => { q with parent := k.initproc }) (some p) (k.initproc.map .proc)
  else k

def reparent (k : State) (p : Slot) : State := (List.finRange NPROC).foldl (reparentSlot p) k

/-- `exit` from `acquire(&wait_lock)` to its `sched`; `none` is `panic("init exiting")`. -/
def exit (k : State) (p : Slot) (status : Int) : Option State :=
  if k.initproc = some p then none
  else
    let k := reparent k p
    let k := wakeup k (some p) ((k.proc p).parent.map .proc)
    some (k.modify p fun q => { q with xstate := status, state := .zombie })

/-- One pass of the loop of `wait`: the value it returns, or `none` if it goes to sleep. `copyout` says
whether the status reaches the user's address (or there is none). -/
def wait (k : State) (p : Slot) (copyout : Bool) : Option Int × State :=
  match findSlot fun np => (k.proc np).parent = some p ∧ (k.proc np).state = .zombie with
  | some np =>
      if !copyout then (some (-1), k) else (some (k.proc np).pid, k.modify np freeproc)
  | none =>
      let havekids := (findSlot fun np => (k.proc np).parent = some p).isSome
      if !havekids || (k.proc p).killed then (some (-1), k)
      else (none, sleep k p (.proc p))

/-! ## Yield and the system calls of the scheduler -/

/-- `yield` up to its `sched`. -/
def yield (k : State) (p : Slot) : State :=
  let k := k.modify p fun p => { p with state := .runnable }
  { k with time := int32 (k.time + 1) }

def sysNice (k : State) (p : Slot) (inc : Int) : Int × State :=
  let k := k.modify p fun p => { p with nice := max (min (int32 (p.nice + inc)) NICE_MAX) NICE_MIN }
  ((k.proc p).nice, k)

def sysStartlog (k : State) : Int × State :=
  if k.logCount ≠ INT_MAX then (-1, k) else (0, { k with logCount := 0 })

/-- The return value of `sys_getlog`, a `uint64`; `copyout` says whether the log reaches the user's address. -/
def sysGetlog (k : State) (copyout : Bool) : Nat := if copyout then (k.logCount % 2 ^ 64).toNat else 2 ^ 64 - 1

end Xv6Mlfq.Scan
