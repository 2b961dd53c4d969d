import Xv6Mlfq.Queue.Table
import Xv6Mlfq.Rings.Window
import Xv6Mlfq.Runs.Run

/-!
# Processes on a pipe (`pipe.c`)

Any number of processes read and write; a step is one turn of a loop, and the lock is held from turn to turn. What
`copyin` and `copyout` do with the memory of the process is part of the event.
-/

namespace Xv6Mlfq.Pipes

open Rings Runs
open Queue (Slot)

abbrev PIPESIZE : Nat := 512

/-- `struct pipe` without its lock. -/
structure Pipe where
  data : Fin PIPESIZE → UInt8
  nread : UInt32
  nwrite : UInt32
  readopen : Bool
  writeopen : Bool

/-- Where a process is in `pipewrite` or `piperead`, with the variables `i` and `n`. -/
inductive Call where
  | out
  | writeAcquire (i n : Int)
  | writeLoop (i n : Int)
  /-- Behind the test of `readopen` and `killed`. -/
  | writeTested (i n : Int)
  | writeAsleep (i n : Int)
  | readAcquire (n : Int)
  /-- At the test of the `while` of `piperead`. -/
  | readHead (n : Int)
  /-- The pipe is empty, and `killed` was not set. -/
  | readTested (n : Int)
  | readLoop (i n : Int)
  | readAsleep (n : Int)
  deriving DecidableEq

structure System where
  pipe : Pipe
  lock : Option Slot
  call : Slot → Call
  killed : Slot → Bool

inductive Event where
  | pipewrite (p : Slot) (n : Int)
  | piperead (p : Slot) (n : Int)
  | acquire (p : Slot)
  | test (p : Slot)
  | store (p : Slot) (ch : UInt8)
  /-- `copyin` fails, and `pipewrite` returns. -/
  | faultIn (p : Slot) (i : Int)
  /-- `piperead` goes on to its second loop. -/
  | proceed (p : Slot)
  | load (p : Slot) (ch : UInt8)
  /-- `copyout` fails, and `piperead` returns. -/
  | faultOut (p : Slot) (ch : UInt8) (i : Int)
  | sleep (p : Slot)
  | ret (p : Slot) (value : Int)
  | kill (p : Slot)
  /-- The slot is freed, and a new process gets it. -/
  | reuse (p : Slot)
  | pipeclose (writable : Bool)

namespace Pipe

def full (pi : Pipe) : Bool := pi.nwrite = pi.nread + 512

def empty (pi : Pipe) : Bool := pi.nread = pi.nwrite

/-- `pi->data[pi->nwrite++ % PIPESIZE] = ch` -/
def put (pi : Pipe) (ch : UInt8) : Pipe :=
  { pi with data := Function.update pi.data (place PIPESIZE pi.nwrite) ch, nwrite := pi.nwrite + 1 }

/-- `pi->data[pi->nread % PIPESIZE]` -/
def front (pi : Pipe) : UInt8 := pi.data (place PIPESIZE pi.nread)

def contents (pi : Pipe) : List UInt8 := window pi.data pi.nread pi.nwrite

end Pipe

/-- `wakeup(&pi->nread)` -/
def wakeReaders (call : Slot → Call) : Slot → Call := fun p =>
  match call p with
  | .readAsleep n => .readAcquire n
  | c => c

/-- `wakeup(&pi->nwrite)` -/
def wakeWriters (call : Slot → Call) : Slot → Call := fun p =>
  match call p with
  | .writeAsleep i n => .writeAcquire i n
  | c => c

/-- A process that is killed does not stay asleep. -/
def Call.awake : Call → Call
  | .writeAsleep i n => .writeAcquire i n
  | .readAsleep n => .readAcquire n
  | c => c

namespace System

def setCall (s : System) (p : Slot) (c : Call) : System := { s with call := Function.update s.call p c }

/-- The lock is released and the call is over, or waits. -/
def release (s : System) (p : Slot) (c : Call) : System := { s.setCall p c with lock := none }

def step (e : Event) (s : System) : Option System :=
  match e with
  | .pipewrite p n => if s.call p = .out then some (s.setCall p (.writeAcquire 0 n)) else none
  | .piperead p n => if s.call p = .out then some (s.setCall p (.readAcquire n)) else none
  | .acquire p =>
      if s.lock = none then
        match s.call p with
        | .writeAcquire i n => some { s.setCall p (.writeLoop i n) with lock := some p }
        | .readAcquire n => some { s.setCall p (.readHead n) with lock := some p }
        | _ => none
      else none
  | .test p =>
      match s.call p with
      | .writeLoop i n =>
          if i < n ∧ s.pipe.readopen = true ∧ s.killed p = false then some (s.setCall p (.writeTested i n)) else none
      | .readHead n =>
          if s.pipe.empty = true ∧ s.pipe.writeopen = true ∧ s.killed p = false then some (s.setCall p (.readTested n))
          else none
      | _ => none
  | .store p ch =>
      match s.call p with
      | .writeTested i n =>
          if s.pipe.full = false then some { s.setCall p (.writeLoop (i + 1) n) with pipe := s.pipe.put ch } else none
      | _ => none
  | .faultIn p value =>
      match s.call p with
      | .writeTested i _ =>
          if s.pipe.full = false ∧ value = i then some ({ s with call := wakeReaders s.call }.release p .out) else none
      | _ => none
  | .proceed p =>
      match s.call p with
      | .readHead n =>
          if s.pipe.empty = true ∧ s.pipe.writeopen = true then none else some (s.setCall p (.readLoop 0 n))
      | _ => none
  | .load p ch =>
      match s.call p with
      | .readLoop i n =>
          if i < n ∧ s.pipe.empty = false ∧ s.pipe.front = ch then
            some { s.setCall p (.readLoop (i + 1) n) with pipe := { s.pipe with nread := s.pipe.nread + 1 } }
          else none
      | _ => none
  | .faultOut p ch value =>
      match s.call p with
      | .readLoop i n =>
          if i < n ∧ s.pipe.empty = false ∧ s.pipe.front = ch ∧ value = i then
            some ({ s with call := wakeWriters s.call,
                           pipe := { s.pipe with nread := s.pipe.nread + 1 } }.release p .out)
          else none
      | _ => none
  | .sleep p =>
      match s.call p with
      | .writeTested i n =>
          if s.pipe.full = true then some ({ s with call := wakeReaders s.call }.release p (.writeAsleep i n)) else none
      | .readTested n => some (s.release p (.readAsleep n))
      | _ => none
  | .ret p value =>
      match s.call p with
      | .writeLoop i n =>
          if i < n then
            if (s.pipe.readopen = false ∨ s.killed p = true) ∧ value = -1 then some (s.release p .out) else none
          else if value = i then some ({ s with call := wakeReaders s.call }.release p .out)
          else none
      | .readHead _ =>
          if s.pipe.empty = true ∧ s.pipe.writeopen = true ∧ s.killed p = true ∧ value = -1 then
            some (s.release p .out)
          else none
      | .readLoop i n =>
          if (¬ i < n ∨ s.pipe.empty = true) ∧ value = i then
            some ({ s with call := wakeWriters s.call }.release p .out)
          else none
      | _ => none
  | .kill p => some { s.setCall p (s.call p).awake with killed := Function.update s.killed p true }
  | .reuse p => if s.call p = .out then some { s with killed := Function.update s.killed p false } else none
  | .pipeclose writable =>
      if s.lock = none then
        if writable then some { s with pipe := { s.pipe with writeopen := false }, call := wakeReaders s.call }
        else some { s with pipe := { s.pipe with readopen := false }, call := wakeWriters s.call }
      else none

/-- A pipe from `pipealloc`; the page holds whatever was there. -/
def fresh (data : Fin PIPESIZE → UInt8) : System where
  pipe := ⟨data, 0, 0, true, true⟩
  lock := none
  call := fun _ => .out
  killed := fun _ => false

end System

/-- What a step can be. -/
inductive Stepped (s : System) : Event → System → Prop
  | pipewrite {p n} (hp : s.call p = .out) : Stepped s (.pipewrite p n) (s.setCall p (.writeAcquire 0 n))
  | piperead {p n} (hp : s.call p = .out) : Stepped s (.piperead p n) (s.setCall p (.readAcquire n))
  | acquireWrite {p i n} (hp : s.call p = .writeAcquire i n) (hfree : s.lock = none) :
      Stepped s (.acquire p) { s.setCall p (.writeLoop i n) with lock := some p }
  | acquireRead {p n} (hp : s.call p = .readAcquire n) (hfree : s.lock = none) :
      Stepped s (.acquire p) { s.setCall p (.readHead n) with lock := some p }
  | testWrite {p i n} (hp : s.call p = .writeLoop i n) (hopen : s.pipe.readopen = true) (hlive : s.killed p = false) :
      Stepped s (.test p) (s.setCall p (.writeTested i n))
  | testRead {p n} (hp : s.call p = .readHead n) (hempty : s.pipe.empty = true) (hopen : s.pipe.writeopen = true) :
      Stepped s (.test p) (s.setCall p (.readTested n))
  | store {p ch i n} (hp : s.call p = .writeTested i n) (hroom : s.pipe.full = false) :
      Stepped s (.store p ch) { s.setCall p (.writeLoop (i + 1) n) with pipe := s.pipe.put ch }
  | faultIn {p i n} (hp : s.call p = .writeTested i n) (hroom : s.pipe.full = false) :
      Stepped s (.faultIn p i) ({ s with call := wakeReaders s.call }.release p .out)
  | proceed {p n} (hp : s.call p = .readHead n) : Stepped s (.proceed p) (s.setCall p (.readLoop 0 n))
  | load {p i n} (hp : s.call p = .readLoop i n) (hsome : s.pipe.empty = false) :
      Stepped s (.load p s.pipe.front)
        { s.setCall p (.readLoop (i + 1) n) with pipe := { s.pipe with nread := s.pipe.nread + 1 } }
  | faultOut {p i n} (hp : s.call p = .readLoop i n) (hsome : s.pipe.empty = false) :
      Stepped s (.faultOut p s.pipe.front i)
        ({ s with call := wakeWriters s.call, pipe := { s.pipe with nread := s.pipe.nread + 1 } }.release p .out)
  | sleepWrite {p i n} (hp : s.call p = .writeTested i n) (hfull : s.pipe.full = true) :
      Stepped s (.sleep p) ({ s with call := wakeReaders s.call }.release p (.writeAsleep i n))
  | sleepRead {p n} (hp : s.call p = .readTested n) : Stepped s (.sleep p) (s.release p (.readAsleep n))
  | retBroken {p i n} (hp : s.call p = .writeLoop i n) (hbroken : s.pipe.readopen = false ∨ s.killed p = true) :
      Stepped s (.ret p (-1)) (s.release p .out)
  | retWrite {p i n} (hp : s.call p = .writeLoop i n) :
      Stepped s (.ret p i) ({ s with call := wakeReaders s.call }.release p .out)
  | retKilled {p n} (hp : s.call p = .readHead n) : Stepped s (.ret p (-1)) (s.release p .out)
  | retRead {p i n} (hp : s.call p = .readLoop i n) :
      Stepped s (.ret p i) ({ s with call := wakeWriters s.call }.release p .out)
  | kill {p : Slot} : Stepped s (.kill p) { s.setCall p (s.call p).awake with killed := Function.update s.killed p true }
  | reuse {p} (hp : s.call p = .out) : Stepped s (.reuse p) { s with killed := Function.update s.killed p false }
  | closeWrite (hfree : s.lock = none) : Stepped s (.pipeclose true)
      { s with pipe := { s.pipe with writeopen := false }, call := wakeReaders s.call }
  | closeRead (hfree : s.lock = none) : Stepped s (.pipeclose false)
      { s with pipe := { s.pipe with readopen := false }, call := wakeWriters s.call }

variable {s s' : System} {e : Event} {p q : Slot} {c : Call}

@[simp] theorem setCall_self : (s.setCall p c).call p = c := Function.update_self ..

theorem setCall_of_ne (h : q ≠ p) : (s.setCall p c).call q = s.call q := Function.update_of_ne h ..

@[simp] theorem setCall_pipe : (s.setCall p c).pipe = s.pipe := rfl

@[simp] theorem setCall_lock : (s.setCall p c).lock = s.lock := rfl

@[simp] theorem setCall_killed : (s.setCall p c).killed = s.killed := rfl

@[simp] theorem release_self : (s.release p c).call p = c := Function.update_self ..

theorem release_of_ne (h : q ≠ p) : (s.release p c).call q = s.call q := Function.update_of_ne h ..

@[simp] theorem release_pipe : (s.release p c).pipe = s.pipe := rfl

@[simp] theorem release_lock : (s.release p c).lock = none := rfl

theorem step_stepped (h : System.step e s = some s') : Stepped s e s' := by
  cases e with
  | pipewrite p n =>
      simp only [System.step, Option.ite_none_right_eq_some, Option.some.injEq] at h
      obtain ⟨hp, rfl⟩ := h
      exact .pipewrite hp
  | piperead p n =>
      simp only [System.step, Option.ite_none_right_eq_some, Option.some.injEq] at h
      obtain ⟨hp, rfl⟩ := h
      exact .piperead hp
  | acquire p =>
      simp only [System.step, Option.ite_none_right_eq_some] at h
      obtain ⟨hfree, h⟩ := h
      split at h
      · obtain rfl := Option.some.inj h
        exact .acquireWrite ‹_› hfree
      · obtain rfl := Option.some.inj h
        exact .acquireRead ‹_› hfree
      · cases h
  | test p =>
      simp only [System.step] at h
      split at h
      · simp only [Option.ite_none_right_eq_some, Option.some.injEq] at h
        obtain ⟨⟨-, hopen, hlive⟩, rfl⟩ := h
        exact .testWrite ‹_› hopen hlive
      · simp only [Option.ite_none_right_eq_some, Option.some.injEq] at h
        obtain ⟨⟨hempty, hopen, -⟩, rfl⟩ := h
        exact .testRead ‹_› hempty hopen
      · cases h
  | store p ch =>
      simp only [System.step] at h
      split at h
      · simp only [Option.ite_none_right_eq_some, Option.some.injEq] at h
        obtain ⟨hroom, rfl⟩ := h
        exact .store ‹_› hroom
      · cases h
  | faultIn p value =>
      simp only [System.step] at h
      split at h
      · simp only [Option.ite_none_right_eq_some, Option.some.injEq] at h
        obtain ⟨⟨hroom, rfl⟩, rfl⟩ := h
        exact .faultIn ‹_› hroom
      · cases h
  | proceed p =>
      simp only [System.step] at h
      split at h
      · simp only [Option.ite_none_left_eq_some, Option.some.injEq] at h
        obtain ⟨-, rfl⟩ := h
        exact .proceed ‹_›
      · cases h
  | load p ch =>
      simp only [System.step] at h
      split at h
      · simp only [Option.ite_none_right_eq_some, Option.some.injEq] at h
        obtain ⟨⟨-, hsome, rfl⟩, rfl⟩ := h
        exact .load ‹_› hsome
      · cases h
  | faultOut p ch value =>
      simp only [System.step] at h
      split at h
      · simp only [Option.ite_none_right_eq_some, Option.some.injEq] at h
        obtain ⟨⟨-, hsome, rfl, rfl⟩, rfl⟩ := h
        exact .faultOut ‹_› hsome
      · cases h
  | sleep p =>
      simp only [System.step] at h
      split at h
      · simp only [Option.ite_none_right_eq_some, Option.some.injEq] at h
        obtain ⟨hfull, rfl⟩ := h
        exact .sleepWrite ‹_› hfull
      · obtain rfl := Option.some.inj h
        exact .sleepRead ‹_›
      · cases h
  | ret p value =>
      simp only [System.step] at h
      split at h
      · split at h
        · simp only [Option.ite_none_right_eq_some, Option.some.injEq] at h
          obtain ⟨⟨hbroken, rfl⟩, rfl⟩ := h
          exact .retBroken ‹_› hbroken
        · simp only [Option.ite_none_right_eq_some, Option.some.injEq] at h
          obtain ⟨rfl, rfl⟩ := h
          exact .retWrite ‹_›
      · simp only [Option.ite_none_right_eq_some, Option.some.injEq] at h
        obtain ⟨⟨-, -, -, rfl⟩, rfl⟩ := h
        exact .retKilled ‹_›
      · simp only [Option.ite_none_right_eq_some, Option.some.injEq] at h
        obtain ⟨⟨-, rfl⟩, rfl⟩ := h
        exact .retRead ‹_›
      · cases h
  | kill p =>
      obtain rfl := Option.some.inj h
      exact .kill
  | reuse p =>
      simp only [System.step, Option.ite_none_right_eq_some, Option.some.injEq] at h
      obtain ⟨hp, rfl⟩ := h
      exact .reuse hp
  | pipeclose writable =>
      simp only [System.step, Option.ite_none_right_eq_some] at h
      obtain ⟨hfree, h⟩ := h
      cases writable with
      | true =>
          obtain rfl := Option.some.inj h
          exact .closeWrite hfree
      | false =>
          obtain rfl := Option.some.inj h
          exact .closeRead hfree

end Xv6Mlfq.Pipes
