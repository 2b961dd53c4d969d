import Xv6Mlfq.Kernel.Machine

/-!
# Several harts (`scheduler`, `main.c`)

All harts share the kernel's state, with `qtable` and `p_kicked`; each has its own `p` and its own `cpu`
struct. An iteration of `scheduler` is two steps here: the look at `p_kicked` with the `dequeue`, and the
dispatch after `acquire`. What the running process does up to its `sched` is one step.
-/

namespace Xv6Mlfq.Harts

open Access Queue Runs Kernel

abbrev NCPU : Nat := 8

structure Hart where
  /-- The local variable `p` of `scheduler`. -/
  p : Option Slot
  /-- `c->proc`. -/
  cproc : Option Slot
  /-- The hart is between its choice and `acquire(&p->lock)`. -/
  chosen : Bool
  /-- Not in the code: the process that was the last to yield here with quantum left, until the hart chooses
  again or a boost queues the process. -/
  kept : Option Slot
  deriving DecidableEq, Repr

structure System (n : Nat) where
  kernel : State
  hart : Fin n → Hart

variable {n : Nat}

namespace System

def set (s : System n) (h : Fin n) (k : State) (x : Hart) : System n where
  kernel := k
  hart := Function.update s.hart h x

/-- What one hart sees. -/
def view (s : System n) (h : Fin n) : Machine where
  kernel := s.kernel
  p := (s.hart h).p
  cproc := (s.hart h).cproc

end System

/-! ## The scheduler -/

/-- From the top of the loop to the call of `acquire`. -/
def choose (h : Fin n) (s : System n) : Option (System n) :=
  if s.kernel.pKicked then
    if NoneReady s.kernel.qtable then some s
    else
      match dequeue.exec s.kernel.qtable with
      | (none, _) => none
      | (some processId, t) =>
          let k := { s.kernel with qtable := t }
          if processId = EMPTY then some { s with kernel := k }
          else if hlt : 0 ≤ processId ∧ processId < (NPROC : Nat) then
            some (s.set h k { s.hart h with
              p := some ⟨processId.toNat, toNat_lt hlt⟩
              chosen := true
              kept := none })
          else none
  else some (s.set h s.kernel { s.hart h with chosen := true, kept := none })

/-- From `acquire` to `swtch`, and the end of the `sleep` that the process was in. There is no outcome if
`p` is null. -/
def dispatch (h : Fin n) (s : System n) : Option (System n) :=
  (s.hart h).p.map fun p =>
    s.set h ((run s.kernel p).modify p sleepResume) { s.hart h with cproc := some p, chosen := false }

/-! ## The running process, and interrupts -/

/-- `devintr` for a timer interrupt: only hart 0 calls `clockintr`. -/
def devintr (h : Fin n) (s : System n) : State :=
  if (h : Nat) = 0 then clockintr s.kernel (s.hart h).cproc else s.kernel

/-- The caller of `yield` and the state in which it calls, for the steps that get there. -/
def atYield (h : Fin n) (s : System n) : Kernel.Event → Option (Slot × State)
  | .nice inc => (s.hart h).cproc.map fun p => (p, sysNice s.kernel p inc)
  | .usertrap => (s.hart h).cproc.bind fun p =>
      let k := devintr h s
      if (k.proc p).killed then none else some (p, advanceTime k)
  | .kerneltrap => (s.hart h).cproc.bind fun p =>
      let k := advanceTime (devintr h s)
      if (k.proc p).state = .running then some (p, k) else none
  | _ => none

/-- The tick leaves the process a part of its quantum, and no boost queues it. -/
def Keeps (k : State) (p : Slot) : Prop := (k.proc p).runtime + 1 < quantum (k.proc p) ∧ ¬ boostDue k

instance (k : State) (p : Slot) : Decidable (Keeps k p) := inferInstanceAs (Decidable (_ ∧ _))

/-- The process of the hart calls `yield` in state `k`. -/
def yieldOn (h : Fin n) (s : System n) (p : Slot) (k : State) : System n where
  kernel := yield k p
  hart g :=
    if g = h then { s.hart h with cproc := none, kept := if Keeps k p then some p else none }
    else if boostDue k then { s.hart g with kept := none }
    else s.hart g

inductive Event where
  | choose
  | dispatch
  /-- An event that a single hart can have, too. -/
  | on (e : Kernel.Event)
  deriving DecidableEq, Repr

/-- A step of hart `h` that is neither in the scheduler nor a call of `yield`. -/
def call (h : Fin n) (s : System n) : Kernel.Event → Option (System n)
  | .schedule => none
  | .nice _ => none
  | .usertrap => (s.hart h).cproc.bind fun p =>
      (exit (devintr h s) p (-1)).map fun k => s.set h k { s.hart h with cproc := none }
  | .kerneltrap => some { s with kernel := advanceTime (devintr h s) }
  | e => (Kernel.step .asPromised e (s.view h)).map fun m =>
      s.set h m.kernel { s.hart h with cproc := m.cproc }

/-- A step of one hart. -/
def step (e : Fin n × Event) (s : System n) : Option (System n) :=
  match e with
  | (h, .choose) => if (s.hart h).cproc = none ∧ (s.hart h).chosen = false then choose h s else none
  | (h, .dispatch) => if (s.hart h).chosen = true then dispatch h s else none
  | (h, .on e) =>
      match atYield h s e with
      | some (p, k) => some (yieldOn h s p k)
      | none => call h s e

/-- All harts enter `scheduler` after `main` has set up the first process. -/
def boot (n : Nat) (outside : QTable) : System n where
  kernel := (Kernel.boot outside).kernel
  hart _ := { p := none, cproc := none, chosen := false, kept := none }

end Xv6Mlfq.Harts
