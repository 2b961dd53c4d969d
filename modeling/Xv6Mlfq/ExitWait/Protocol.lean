import Xv6Mlfq.Kernel.Machine

/-!
# Exit and wait between their locks (`fork`, `exit`, `wait`, `sleep`, `wakeup`, `kill`)

Here a process stands somewhere in these functions. A step is what it does under the lock of one slot, or under
`wait_lock` alone: `wait_lock` is held over many steps. The lock of a slot is held over the end of a step only by
its own process, which has let go of `wait_lock` in that step and is on its way to `sched`. The scheduler may take
any RUNNABLE process, and leaves some run queue.
-/

namespace Xv6Mlfq.ExitWait

open Access Queue Kernel

/-- What a call has returned. A successful `wait` returns a pid, and the status if there is an address for it. -/
inductive Ret
  | value (v : Int)
  | waited (pid : Int) (status : Option Int)
  deriving DecidableEq

inductive Call
  | fork
  | exit (status : Int)
  | wait (addr : Nat)
  | wakeup (chan : Chan)
  | kill (pid : Int)

/-- Where a process stands. The lists are the slots that a loop over `proc` has still to visit. -/
inductive Pc
  /-- Outside, after a call that returned `r`. -/
  | user (r : Ret)
  /-- In the loop of `allocproc`. -/
  | alloc (slots : List Slot)
  | adopt (np : Slot) (pid : Int)
  | launch (np : Slot) (pid : Int)
  | exitLock (status : Int)
  | reparent (slots : List Slot) (status : Int)
  /-- In the loop of `wakeup(initproc)`; `slots` are for the loop of `reparent`. -/
  | wakeInit (wake slots : List Slot) (status : Int)
  /-- In the loop of `wakeup(p->parent)`. -/
  | wakeParent (parent : Option Slot) (wake : List Slot) (status : Int)
  | zombie (status : Int)
  /-- Before `sched`, with the lock of the slot. -/
  | exiting
  | dead
  | waitLock (addr : Nat)
  | scan (slots : List Slot) (havekids : Bool) (addr : Nat)
  | toSleep (addr : Nat)
  /-- In `sleep(p, &wait_lock)` before `sched`, with the lock of the slot. -/
  | handOver (addr : Nat)
  /-- In `sleep(p, &wait_lock)` after `sched`. -/
  | asleep (addr : Nat)
  | wakeup (chan : Chan) (slots : List Slot)
  | kill (pid : Int) (slots : List Slot)
  deriving DecidableEq

/-- The process holds the lock of its own slot. -/
def Pc.owns : Pc → Bool
  | .exiting | .handOver _ => true
  | _ => false

structure System where
  kernel : State
  waitLock : Option Slot
  pc : Slot → Pc

abbrev slots : List Slot := List.finRange NPROC

namespace System

def Locked (s : System) (i : Slot) : Prop := (s.pc i).owns = true

instance (s : System) (i : Slot) : Decidable (s.Locked i) := inferInstanceAs (Decidable (_ = _))

/-- Process `p` goes on at `pc`. -/
def put (s : System) (p : Slot) (k : State) (lock : Option Slot) (pc : Pc) : System where
  kernel := k
  waitLock := lock
  pc := Function.update s.pc p pc

end System

/-! ## Fork -/

/-- `fork` from the slot `i` that `allocproc` has found to `release(&np->lock)`. `ok` says whether the
allocations and `uvmcopy` succeed. -/
def create (s : System) (p i : Slot) (ok : Bool) : System :=
  let pid := s.kernel.nextpid
  let k := { s.kernel with nextpid := int32 (s.kernel.nextpid + 1) }
  let k := k.modify i fun q => { q with pid := pid, state := .used }
  if ok then
    let k := k.modify i fun q => { q with queue := priority q, pass := DEFAULT_PASS }
    -- the child starts in `forkret`
    { s with pc := Function.update s.pc i (.user (.value 0)) }.put p k s.waitLock (.adopt i pid)
  else s.put p (k.modify i freeproc) s.waitLock (.user (.value (-1)))

def forkStep (s : System) (p : Slot) (ok : Bool) : Pc → Option System
  | .alloc [] => some (s.put p s.kernel s.waitLock (.user (.value (-1))))
  | .alloc (i :: rest) =>
      if s.Locked i then none
      else if (s.kernel.proc i).state = .unused then some (create s p i ok)
      else some (s.put p s.kernel s.waitLock (.alloc rest))
  | .adopt np pid =>
      if s.waitLock = none then
        some (s.put p (s.kernel.modify np fun q => { q with parent := some p }) none (.launch np pid))
      else none
  | .launch np pid =>
      if s.Locked np then none
      else some (s.put p (makeRunnable s.kernel np) s.waitLock (.user (.value pid)))
  | _ => none

/-! ## Wakeup and kill -/

/-- One round of `wakeup`, which does not touch the lock of its own process. -/
def wakeupStep (s : System) (p : Slot) (chan : Option Chan) (i : Slot) : Option State :=
  if i ≠ p ∧ s.Locked i then none else some (wakeupSlot (some p) chan s.kernel i)

/-- One round of `kill` at the slot that it looks for. -/
def killSlot (k : State) (i : Slot) : State :=
  let k := k.modify i fun q => { q with killed := true }
  if (k.proc i).state = .sleeping then makeRunnable k i else k

def signalStep (s : System) (p : Slot) : Pc → Option System
  | .wakeup _ [] => some (s.put p s.kernel s.waitLock (.user (.value 0)))
  | .wakeup chan (i :: rest) =>
      (wakeupStep s p (some chan) i).map fun k => s.put p k s.waitLock (.wakeup chan rest)
  | .kill _ [] => some (s.put p s.kernel s.waitLock (.user (.value (-1))))
  | .kill pid (i :: rest) =>
      if s.Locked i then none
      else if (s.kernel.proc i).pid = pid then
        some (s.put p (killSlot s.kernel i) s.waitLock (.user (.value 0)))
      else some (s.put p s.kernel s.waitLock (.kill pid rest))
  | _ => none

/-! ## Exit -/

def exitStep (s : System) (p : Slot) : Pc → Option System
  | .exitLock status =>
      if s.waitLock = none then some (s.put p s.kernel (some p) (.reparent slots status)) else none
  | .reparent [] status =>
      some (s.put p s.kernel s.waitLock (.wakeParent (s.kernel.proc p).parent slots status))
  | .reparent (i :: rest) status =>
      if (s.kernel.proc i).parent = some p then
        some (s.put p (s.kernel.modify i fun q => { q with parent := s.kernel.initproc }) s.waitLock
          (.wakeInit slots rest status))
      else some (s.put p s.kernel s.waitLock (.reparent rest status))
  | .wakeInit [] rest status => some (s.put p s.kernel s.waitLock (.reparent rest status))
  | .wakeInit (i :: wake) rest status =>
      (wakeupStep s p (s.kernel.initproc.map .proc) i).map fun k =>
        s.put p k s.waitLock (.wakeInit wake rest status)
  | .wakeParent _ [] status => some (s.put p s.kernel s.waitLock (.zombie status))
  | .wakeParent parent (i :: wake) status =>
      (wakeupStep s p (parent.map .proc) i).map fun k =>
        s.put p k s.waitLock (.wakeParent parent wake status)
  | .zombie status =>
      some (s.put p (s.kernel.modify p fun q => { q with xstate := status, state := .zombie }) none .exiting)
  -- the scheduler releases the lock of the slot
  | .exiting => some (s.put p s.kernel s.waitLock .dead)
  | _ => none

/-! ## Wait -/

/-- The status that `copyout` writes, if there is an address for it. -/
def copied (addr : Nat) (xstate : Int) : Option Int := if addr ≠ 0 then some xstate else none

/-- `ok` says whether `copyout` succeeds. -/
def waitStep (s : System) (p : Slot) (ok : Bool) : Pc → Option System
  | .waitLock addr =>
      if s.waitLock = none then some (s.put p s.kernel (some p) (.scan slots false addr)) else none
  | .scan (i :: rest) havekids addr =>
      if (s.kernel.proc i).parent = some p then
        if s.Locked i then none
        else if (s.kernel.proc i).state = .zombie then
          if addr ≠ 0 ∧ ok = false then some (s.put p s.kernel none (.user (.value (-1))))
          else
            some (s.put p (s.kernel.modify i freeproc) none
              (.user (.waited (s.kernel.proc i).pid (copied addr (s.kernel.proc i).xstate))))
        else some (s.put p s.kernel s.waitLock (.scan rest true addr))
      else some (s.put p s.kernel s.waitLock (.scan rest havekids addr))
  | .scan [] havekids addr =>
      if havekids = false ∨ (s.kernel.proc p).killed = true then
        some (s.put p s.kernel none (.user (.value (-1))))
      else some (s.put p s.kernel s.waitLock (.toSleep addr))
  -- `acquire(&p->lock)` and `release(lk)`
  | .toSleep addr => some (s.put p s.kernel none (.handOver addr))
  | .handOver addr => some (s.put p (sleep s.kernel p (.proc p)) s.waitLock (.asleep addr))
  -- `acquire(lk)`, and the next turn of the loop
  | .asleep addr =>
      if s.waitLock = none then some (s.put p s.kernel (some p) (.scan slots false addr)) else none
  | _ => none

/-! ## Steps -/

def advance (s : System) (p : Slot) (ok : Bool) : Option System :=
  forkStep s p ok (s.pc p) <|> signalStep s p (s.pc p) <|> exitStep s p (s.pc p) <|> waitStep s p ok (s.pc p)

def enter (s : System) (p : Slot) : Call → Option System
  | .fork => some (s.put p s.kernel s.waitLock (.alloc slots))
  | .exit status =>
      -- `panic("init exiting")`
      if s.kernel.initproc = some p then none else some (s.put p s.kernel s.waitLock (.exitLock status))
  | .wait addr => some (s.put p s.kernel s.waitLock (.waitLock addr))
  | .wakeup chan => some (s.put p s.kernel s.waitLock (.wakeup chan slots))
  | .kill pid => some (s.put p s.kernel s.waitLock (.kill pid slots))

inductive Event
  | call (p : Slot) (c : Call)
  | go (p : Slot) (ok : Bool)
  /-- `sleep` with another lock than `wait_lock`. -/
  | sleep (p : Slot) (chan : Chan)
  | dispatch (p : Slot) (qtable : QTable)
  | yield (p : Slot)
  /-- One round of a `wakeup` that an interrupt calls. -/
  | interrupt (cur : Option Slot) (chan : Chan) (i : Slot)

/-- A step; `none` if the event cannot happen in this state. A process that holds a lock is not interrupted. -/
def step (e : Event) (s : System) : Option System :=
  match e with
  | .call p c =>
      match s.pc p with
      | .user _ => if (s.kernel.proc p).state = .running then enter s p c else none
      | _ => none
  | .go p ok => if (s.kernel.proc p).state = .running ∨ s.pc p = .exiting then advance s p ok else none
  | .sleep p chan =>
      match s.pc p with
      | .user _ =>
          if (s.kernel.proc p).state = .running then some { s with kernel := Kernel.sleep s.kernel p chan } else none
      | _ => none
  | .dispatch p qtable =>
      if (s.kernel.proc p).state = .runnable ∧ ¬ s.Locked p then
        some { s with kernel := (Kernel.dispatch { s.kernel with qtable := qtable } p).kernel }
      else none
  | .yield p =>
      if (s.kernel.proc p).state = .running ∧ s.waitLock ≠ some p ∧ ¬ s.Locked p then
        some { s with kernel := Kernel.yield s.kernel p }
      else none
  | .interrupt cur chan i =>
      if s.Locked i then none else some { s with kernel := wakeupSlot cur (some chan) s.kernel i }

/-- `main` has set up the first process. -/
def boot (outside : QTable) : System where
  kernel := (Kernel.boot outside).kernel
  waitLock := none
  pc _ := .user (.value 0)

end Xv6Mlfq.ExitWait
