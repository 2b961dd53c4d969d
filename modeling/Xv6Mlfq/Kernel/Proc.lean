import Mathlib.Data.Fintype.Basic
import Mathlib.Data.List.FinRange
import Xv6Mlfq.Queue.Table

/-!
# Processes and the functions on them (`proc.h`, `proc.c`, `log.h`)

A function that runs on behalf of the current process takes its slot `p`, and `cur` is what `myproc()`
returns. A function stops where it calls `sched`; the code after that call is in `Machine`. Locks are not
modelled here: each function is one atomic step.
-/

namespace Xv6Mlfq.Kernel

open Access Queue

abbrev LOG_SIZE : Int := 100
abbrev INT_MAX : Int := 2 ^ 31 - 1
abbrev NICE_MIN : Int := -20
abbrev NICE_MAX : Int := 19

/-- `enum procstate`. -/
inductive ProcState where
  | unused
  | used
  | sleeping
  | runnable
  | running
  | zombie
  deriving DecidableEq, Repr

/-- The addresses that processes sleep on: a `struct proc` (`wait`), `ticks`, or any other object. -/
inductive Chan where
  | proc (i : Slot)
  | ticks
  | other (n : Nat)
  deriving DecidableEq, Repr

/-- The fields of `struct proc` that the scheduler and the process protocol use. -/
structure Proc where
  state : ProcState
  chan : Option Chan
  killed : Bool
  xstate : Int
  pid : Int
  parent : Option Slot
  nice : Int
  runtime : Int
  queue : Level
  pass : Nat
  deriving DecidableEq, Repr

/-- A slot of the zero-initialised `proc` array. -/
def Proc.zero : Proc where
  state := .unused
  chan := none
  killed := false
  xstate := 0
  pid := 0
  parent := none
  nice := 0
  runtime := 0
  queue := 0
  pass := 0

/-- `struct logentry`. -/
structure LogEntry where
  pid : Int
  time : Int
  queue : Int
  priorityBoost : Int
  deriving DecidableEq, Repr

/-- The variables that all harts share. -/
structure State where
  qtable : QTable
  proc : Slot → Proc
  pKicked : Bool
  /-- The scheduler's clock. -/
  time : Int
  /-- The clock of `clockintr`. -/
  ticks : Nat
  nextpid : Int
  initproc : Option Slot
  schedlog : Int → LogEntry
  logCount : Int

namespace State

def setProc (k : State) (i : Slot) (p : Proc) : State :=
  { k with proc := Function.update k.proc i p }

def modify (k : State) (i : Slot) (f : Proc → Proc) : State := k.setProc i (f (k.proc i))

end State

/-! ## The macros of `queue.h` -/

def priority (p : Proc) : Level :=
  if p.nice > 10 then QUEUE_LOW else if p.nice > -10 then QUEUE_MEDIUM else QUEUE_HIGH

def quantum (p : Proc) : Int :=
  if p.queue = QUEUE_HIGH then 1 else if p.queue = QUEUE_MEDIUM then 10 else 15

def addToQueue (k : State) (i : Slot) : State :=
  { k with qtable := ((enqueueBack (k.proc i).queue i DEFAULT_PASS).exec k.qtable).2 }

/-- `MAX(QUEUE_LOW, queue - 1)`. -/
def lower (q : Level) : Level :=
  ⟨(max ((QUEUE_LOW : Nat) : Int) ((q : Nat) - 1)).toNat, by have := q.isLt; simp only [NUM_QUEUES] at *; omega⟩

/-! ## Creation and release of a process -/

def makeRunnable (k : State) (i : Slot) : State :=
  addToQueue (k.modify i fun p => { p with state := .runnable }) i

def freeproc (p : Proc) : Proc :=
  { p with
    pid := 0
    parent := none
    chan := none
    killed := false
    xstate := 0
    state := .unused
    nice := 0
    runtime := 0
    queue := 0
    pass := DEFAULT_PASS }

/-- The first slot in table order that passes the test. -/
def findSlot (test : Slot → Bool) : Option Slot := (List.finRange NPROC).find? test

/-- `trapframe` and `pagetable` say whether the two allocations succeed. -/
def allocproc (k : State) (trapframe pagetable : Bool) : Option Slot × State :=
  match findSlot fun i => (k.proc i).state = .unused with
  | none => (none, k)
  | some i =>
      let pid := k.nextpid
      let k := { k with nextpid := int32 (k.nextpid + 1) }
      let k := k.modify i fun p => { p with pid := pid, state := .used }
      if !trapframe then (none, k.modify i freeproc)
      else if !pagetable then (none, k.modify i freeproc)
      else (some i, k.modify i fun p => { p with queue := priority p, pass := DEFAULT_PASS })

/-- `copy` says whether `uvmcopy` succeeds. -/
def fork (k : State) (p : Slot) (trapframe pagetable copy : Bool) : Int × State :=
  match allocproc k trapframe pagetable with
  | (none, k) => (-1, k)
  | (some np, k) =>
      if !copy then (-1, k.modify np freeproc)
      else
        let pid := (k.proc np).pid
        let k := k.modify np fun q => { q with parent := some p }
        (pid, makeRunnable k np)

/-! ## Sleep, wakeup and kill -/

/-- `sleep` up to its `sched`. -/
def sleep (k : State) (p : Slot) (chan : Chan) : State :=
  k.modify p fun p => { p with chan := some chan, state := .sleeping }

/-- What `sleep` does after its `sched`, before it lets go of the lock of its process. -/
def sleepResume (p : Proc) : Proc := { p with chan := none }

/-- One round of the loop of `wakeup`. -/
def wakeupSlot (cur : Option Slot) (chan : Option Chan) (k : State) (i : Slot) : State :=
  if some i ≠ cur then
    if (k.proc i).state = .sleeping ∧ (k.proc i).chan = chan then makeRunnable k i else k
  else k

def wakeup (k : State) (cur : Option Slot) (chan : Option Chan) : State :=
  (List.finRange NPROC).foldl (wakeupSlot cur chan) k

def kill (k : State) (pid : Int) : Int × State :=
  match findSlot fun i => (k.proc i).pid = pid with
  | none => (-1, k)
  | some i =>
      let k := k.modify i fun p => { p with killed := true }
      (0, if (k.proc i).state = .sleeping then makeRunnable k i else k)

/-! ## Exit and wait -/

/-- One round of the loop of `reparent`. -/
def reparentSlot (p : Slot) (k : State) (pp : Slot) : State :=
  if (k.proc pp).parent = some p then
    wakeup (k.modify pp fun q => { q with parent := k.initproc }) (some p) (k.initproc.map .proc)
  else k

def reparent (k : State) (p : Slot) : State := (List.finRange NPROC).foldl (reparentSlot p) k

/-- `exit` from `acquire(&wait_lock)` to its `sched`; `none` is `panic("init exiting")`. -/
def exit (k : State) (p : Slot) (status : Int) : Option State :=
  if k.initproc = some p then none
  else
    let k := reparent k p
    let k := wakeup k (some p) ((k.proc p).parent.map .proc)
    some (k.modify p fun q => { q with xstate := status, state := .zombie })

/-- One pass of the loop of `wait`: the value it returns, or `none` if it goes to sleep. `copyout` says
whether the status reaches the user's address (or there is none). -/
def wait (k : State) (p : Slot) (copyout : Bool) : Option Int × State :=
  match findSlot fun np => (k.proc np).parent = some p ∧ (k.proc np).state = .zombie with
  | some np =>
      if !copyout then (some (-1), k) else (some (k.proc np).pid, k.modify np freeproc)
  | none =>
      let havekids := (findSlot fun np => (k.proc np).parent = some p).isSome
      if !havekids || (k.proc p).killed then (some (-1), k)
      else (none, sleep k p (.proc p))

/-! ## Yield and the priority boost -/

/-- One round of the loop of the boost. -/
def boostSlot (k : State) (i : Slot) : State :=
  if (k.proc i).state = .runnable then
    addToQueue (k.modify i fun p => { p with queue := priority p, runtime := 0 }) i
  else k

def logBoost (k : State) : State :=
  if k.logCount < LOG_SIZE then
    { k with
      schedlog := Function.update k.schedlog k.logCount
        { k.schedlog k.logCount with priorityBoost := 1, time := k.time }
      logCount := k.logCount + 1 }
  else k

def boost (k : State) (p : Slot) : State :=
  let k := logBoost k
  let k := { k with qtable := ((initializeQtable NUM_QUEUES).exec k.qtable).2 }
  let k := k.modify p fun p => { p with runtime := 0 }
  let k := { k with pKicked := true }
  (List.finRange NPROC).foldl boostSlot k

/-- The test of the boost branch. -/
def boostDue (k : State) : Prop := k.time.tmod 60 = 0

instance (k : State) : Decidable (boostDue k) := inferInstanceAs (Decidable (_ = _))

/-- `yield` before the boost: the tick is charged, and the process is demoted and queued or kept. -/
def chargeTick (k : State) (p : Slot) : State :=
  let k := k.modify p fun p => if p.state ≠ .unused then { p with runtime := p.runtime + 1 } else p
  let k := k.modify p fun p => { p with state := .runnable }
  if (k.proc p).runtime ≥ quantum (k.proc p) then
    let k := k.modify p fun p => { p with queue := lower p.queue }
    let k := k.modify p fun p => { p with runtime := 0 }
    addToQueue k p
  else { k with pKicked := false }

/-- `yield` up to its `sched`. -/
def yield (k : State) (p : Slot) : State :=
  let k := chargeTick k p
  if boostDue k then boost k p else k

/-! ## System calls of the scheduler -/

/-- `sys_nice` before its call of `yield`. -/
def sysNice (k : State) (p : Slot) (inc : Int) : State :=
  let k := k.modify p fun p => { p with nice := max (min (int32 (p.nice + inc)) NICE_MAX) NICE_MIN }
  let k := k.modify p fun p => { p with queue := priority p }
  let k := k.modify p fun p => { p with runtime := 0 }
  { k with pKicked := true }

def sysStartlog (k : State) : State := { k with logCount := 0 }

end Xv6Mlfq.Kernel
