import Xv6Mlfq.Kernel.Proc
import Xv6Mlfq.Runs.Run

/-!
# One hart (`scheduler`, `sched`, `trap.c`, `main.c`)

The machine is the shared state with the scheduler's local `p` and `c->proc`. Its steps are the system
calls of the running process, the traps, and one iteration of `scheduler`, each atomic. A step that ends
in `sched` leaves the hart in its scheduler loop, where `c->proc` is null.
-/

namespace Xv6Mlfq.Kernel

open Access Queue Runs

/-- What an iteration of the scheduler does when all three lists are empty: nothing, as the comment of
`dequeue` promises, or what `dequeue` really does. -/
inductive Idle where
  | asPromised
  | asWritten
  deriving DecidableEq, Repr

structure Machine where
  kernel : State
  /-- The local variable `p` of `scheduler`. -/
  p : Option Slot
  /-- `c->proc`. -/
  cproc : Option Slot

/-! ## The scheduler -/

/-- The logging of `scheduler`. -/
def logDispatch (k : State) (p : Slot) : State :=
  if k.logCount < LOG_SIZE ∧ ¬ (k.logCount ≠ 0 ∧
      (k.schedlog (k.logCount - 1)).pid = (k.proc p).pid ∧
      (k.schedlog (k.logCount - 1)).queue = ((k.proc p).queue : Nat)) then
    { k with
      schedlog := Function.update k.schedlog k.logCount
        { pid := (k.proc p).pid
          time := k.time
          queue := ((k.proc p).queue : Nat)
          priorityBoost := 0 }
      logCount := k.logCount + 1 }
  else k

/-- `scheduler` from `p->state = RUNNING` to its `swtch`. -/
def run (k : State) (p : Slot) : State :=
  let k := k.modify p fun p => { p with state := .running }
  let k := logDispatch k p
  { k with pKicked := true }

/-- The iteration hands the hart to `p`. A process that gave up the hart in `sleep` first ends that
call; one that comes from `yield` or `forkret` has no channel to clear. -/
def dispatch (k : State) (p : Slot) : Machine :=
  { kernel := (run k p).modify p sleepResume, p := some p, cproc := some p }

/-- `isempty` holds for the three levels. -/
def NoneReady (t : QTable) : Prop := ∀ q : Level, ¬ t (gethead q, .next) < NPROC

instance (t : QTable) : Decidable (NoneReady t) := inferInstanceAs (Decidable (∀ _ : Level, _))

theorem toNat_lt {n : Int} (h : 0 ≤ n ∧ n < (NPROC : Nat)) : n.toNat < NPROC := by
  omega

/-- One iteration of the loop of `scheduler`. It has no outcome if `dequeue` does not return, if the
subscript is outside `proc` or if `p` is null. -/
def scheduler (idle : Idle) (m : Machine) : Option Machine :=
  if m.kernel.pKicked then
    if idle = .asPromised ∧ NoneReady m.kernel.qtable then some m
    else
      match dequeue.exec m.kernel.qtable with
      | (none, _) => none
      | (some processId, t) =>
          let k := { m.kernel with qtable := t }
          if processId = EMPTY then some { m with kernel := k }
          else if h : 0 ≤ processId ∧ processId < (NPROC : Nat) then
            some (dispatch k ⟨processId.toNat, toNat_lt h⟩)
          else none
  else m.p.map (dispatch m.kernel)

/-! ## Traps -/

def clockintr (k : State) (cur : Option Slot) : State :=
  wakeup { k with ticks := (k.ticks + 1) % 2 ^ 32 } cur (some .ticks)

def advanceTime (k : State) : State := { k with time := int32 (k.time + 1) }

inductive Event where
  | fork (trapframe pagetable copy : Bool)
  | exit (status : Int)
  | wait (copyout : Bool)
  | sleep (chan : Chan)
  | wakeup (chan : Chan)
  | kill (pid : Int)
  | nice (inc : Int)
  | startlog
  /-- A timer interrupt in user mode. -/
  | usertrap
  /-- A timer interrupt in the kernel: in a system call or in the scheduler's loop. -/
  | kerneltrap
  /-- An iteration of `scheduler`. -/
  | schedule
  deriving DecidableEq, Repr

/-- The caller of `yield` and the state in which it calls, for the steps that get there. -/
def atYield (m : Machine) : Event → Option (Slot × State)
  | .nice inc => m.cproc.map fun p => (p, sysNice m.kernel p inc)
  | .usertrap => m.cproc.bind fun p =>
      let k := clockintr m.kernel m.cproc
      if (k.proc p).killed then none else some (p, advanceTime k)
  | .kerneltrap => m.cproc.bind fun p =>
      let k := advanceTime (clockintr m.kernel m.cproc)
      if (k.proc p).state = .running then some (p, k) else none
  | _ => none

/-- A step of the hart; `none` if the event cannot happen in this state, or ends in a panic. -/
def step (idle : Idle) (e : Event) (m : Machine) : Option Machine :=
  match atYield m e with
  | some (p, k) => some { m with kernel := yield k p, cproc := none }
  | none =>
      match e, m.cproc with
      | .fork trapframe pagetable copy, some p =>
          some { m with kernel := (fork m.kernel p trapframe pagetable copy).2 }
      | .exit status, some p =>
          (exit m.kernel p status).map fun k => { m with kernel := k, cproc := none }
      | .wait copyout, some p =>
          match wait m.kernel p copyout with
          | (some _, k) => some { m with kernel := k }
          | (none, k) => some { m with kernel := k, cproc := none }
      | .sleep chan, some p => some { m with kernel := sleep m.kernel p chan, cproc := none }
      | .wakeup chan, cur => some { m with kernel := wakeup m.kernel cur (some chan) }
      | .kill pid, some _ => some { m with kernel := (kill m.kernel pid).2 }
      | .startlog, some _ => some { m with kernel := sysStartlog m.kernel }
      | .usertrap, some p =>
          -- the process has been killed: it exits before the scheduler's clock moves
          (exit (clockintr m.kernel m.cproc) p (-1)).map fun k => { m with kernel := k, cproc := none }
      | .kerneltrap, cur => some { m with kernel := advanceTime (clockintr m.kernel cur) }
      | .schedule, none => scheduler idle m
      | _, _ => none

/-! ## Boot -/

/-- The static variables: zero but for their initialisers. What lies around `qtable` is not known. -/
def static (outside : QTable) : State where
  qtable := fun a => if a.1 < QTABLE_SIZE then 0 else outside a
  proc := fun _ => Proc.zero
  pKicked := true
  time := 0
  ticks := 0
  nextpid := 1
  initproc := none
  schedlog := fun _ => ⟨0, 0, 0, 0⟩
  logCount := INT_MAX

def procinit (k : State) : State :=
  { k with qtable := ((initializeQtable NUM_QUEUES).exec k.qtable).2 }

/-- `userinit`, with the allocations it relies on. -/
def userinit (k : State) : State :=
  match allocproc k true true with
  | (none, k) => k
  | (some p, k) => makeRunnable { k with initproc := some p } p

/-- The hart as `main` enters `scheduler`. -/
def boot (outside : QTable) : Machine :=
  { kernel := userinit (procinit (static outside)), p := none, cproc := none }

/-- Some run from boot leads to the state. -/
def Reachable (idle : Idle) (m : Machine) : Prop :=
  ∃ outside tr, Run (step idle) (boot outside) tr m

end Xv6Mlfq.Kernel
