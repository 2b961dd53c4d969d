import Xv6Mlfq.Queue.Table
import Xv6Mlfq.Rings.Window
import Xv6Mlfq.Runs.Run

/-!
# The console (`console.c`)

The interrupt handler edits the line that is being typed, and any number of processes read the lines that are
complete. A step is one turn of a loop of `consoleread`, which holds the lock from turn to turn; what `copyout` does
is part of the event.
-/

namespace Xv6Mlfq.Console

open Rings Runs
open Queue (Slot)

abbrev INPUT_BUF : Nat := 128

/-- Control-x -/
def C (x : Char) : UInt8 := UInt8.ofNat (x.toNat - '@'.toNat)

def newline : UInt8 := 10

def carriageReturn : UInt8 := 13

def delete : UInt8 := 127

/-- `cons` without its lock. -/
structure Cons where
  buf : Fin INPUT_BUF → UInt8
  r : UInt32
  w : UInt32
  e : UInt32

/-! ## Output -/

def BACKSPACE : Nat := 0x100

/-- The characters that `consputc` sends to the uart. -/
def consputc (c : Nat) : List UInt8 := if c = BACKSPACE then [8, 32, 8] else [UInt8.ofNat c]

/-! ## Input -/

/-- The loop of `C('U')`, whose condition fails after at most `n` turns. -/
def killLine (cons : Cons) : Nat → Cons × List Nat
  | 0 => (cons, [])
  | n + 1 =>
      if cons.e ≠ cons.w ∧ cons.buf (place INPUT_BUF (cons.e - 1)) ≠ newline then
        let (cons, echo) := killLine { cons with e := cons.e - 1 } n
        (cons, BACKSPACE :: echo)
      else (cons, [])

/-- The `default` of `consoleintr`. -/
def store (cons : Cons) (c : UInt8) : Cons × List Nat × Bool :=
  if c ≠ 0 ∧ (cons.e - cons.r).toNat < INPUT_BUF then
    let c := if c = carriageReturn then newline else c
    let cons := { cons with buf := Function.update cons.buf (place INPUT_BUF cons.e) c, e := cons.e + 1 }
    if c = newline ∨ c = C 'D' ∨ cons.e = cons.r + UInt32.ofNat INPUT_BUF then
      ({ cons with w := cons.e }, [c.toNat], true)
    else (cons, [c.toNat], false)
  else (cons, [], false)

/-- `consoleintr`: the new buffer, the calls of `consputc`, and whether readers are woken. -/
def consoleintr (cons : Cons) (c : UInt8) : Cons × List Nat × Bool :=
  if c = C 'P' then (cons, [], false)
  else if c = C 'U' then
    let (cons, echo) := killLine cons (span cons.w cons.e)
    (cons, echo, false)
  else if c = C 'H' ∨ c = delete then
    if cons.e ≠ cons.w then ({ cons with e := cons.e - 1 }, [BACKSPACE], false) else (cons, [], false)
  else store cons c

/-! ## Readers -/

/-- Where a process is in `consoleread`, with the variables `target` and `n`. -/
inductive Call where
  | out
  | acquire (target n : Int)
  | loop (target n : Int)
  /-- There is no line, and `killed` was not set. -/
  | tested (target n : Int)
  /-- A whole line has been copied. -/
  | line (target n : Int)
  | asleep (target n : Int)
  deriving DecidableEq

structure System where
  cons : Cons
  lock : Option Slot
  call : Slot → Call
  killed : Slot → Bool
  /-- The calls of `consputc` that `consoleintr` has made. -/
  echo : List Nat

inductive Event where
  | consoleintr (c : UInt8)
  | consoleread (p : Slot) (n : Int)
  | acquire (p : Slot)
  | test (p : Slot)
  | sleep (p : Slot)
  /-- A byte is taken and copied out. -/
  | take (p : Slot) (c : UInt8)
  /-- A byte is taken, `either_copyout` fails, and `consoleread` returns. -/
  | fault (p : Slot) (c : UInt8) (value : Int)
  /-- `consoleread` returns at an end-of-file. -/
  | eof (p : Slot) (value : Int)
  | ret (p : Slot) (value : Int)
  | kill (p : Slot)
  /-- The slot is freed, and a new process gets it. -/
  | reuse (p : Slot)
  deriving DecidableEq

/-- What the echo has sent to the uart; `consolewrite` and `procdump` send their own bytes. -/
def System.uart (s : System) : List UInt8 := s.echo.flatMap consputc

/-- The call of a process that is no longer asleep. -/
def Call.awake : Call → Call
  | .asleep target n => .acquire target n
  | c => c

/-- `cons.buf[cons.r % INPUT_BUF]` -/
def Cons.front (cons : Cons) : UInt8 := cons.buf (place INPUT_BUF cons.r)

namespace System

def setCall (s : System) (p : Slot) (c : Call) : System := { s with call := Function.update s.call p c }

/-- The lock is released and the call is over, or waits. -/
def release (s : System) (p : Slot) (c : Call) : System := { s.setCall p c with lock := none }

/-- `wakeup(&cons.r)` -/
def wakeup (s : System) : System := { s with call := fun p => (s.call p).awake }

def step (e : Event) (s : System) : Option System :=
  match e with
  | .consoleintr c =>
      if s.lock = none then
        let (cons, echo, wakes) := consoleintr s.cons c
        let s := { s with cons := cons, echo := s.echo ++ echo }
        some (if wakes then s.wakeup else s)
      else none
  | .consoleread p n => if s.call p = .out then some (s.setCall p (.acquire n n)) else none
  | .acquire p =>
      if s.lock = none then
        match s.call p with
        | .acquire target n => some { s.setCall p (.loop target n) with lock := some p }
        | _ => none
      else none
  | .test p =>
      match s.call p with
      | .loop target n =>
          if 0 < n ∧ s.cons.r = s.cons.w ∧ s.killed p = false then some (s.setCall p (.tested target n)) else none
      | _ => none
  | .sleep p =>
      match s.call p with
      | .tested target n => some (s.release p (.asleep target n))
      | _ => none
  | .take p c =>
      match s.call p with
      | .loop target n =>
          if 0 < n ∧ s.cons.r ≠ s.cons.w ∧ s.cons.front = c ∧ c ≠ C 'D' then
            let s := { s with cons := { s.cons with r := s.cons.r + 1 } }
            some (s.setCall p (if c = newline then .line target (n - 1) else .loop target (n - 1)))
          else none
      | _ => none
  | .fault p c value =>
      match s.call p with
      | .loop target n =>
          if 0 < n ∧ s.cons.r ≠ s.cons.w ∧ s.cons.front = c ∧ c ≠ C 'D' ∧ value = target - n then
            some ({ s with cons := { s.cons with r := s.cons.r + 1 } }.release p .out)
          else none
      | _ => none
  | .eof p value =>
      match s.call p with
      | .loop target n =>
          if 0 < n ∧ s.cons.r ≠ s.cons.w ∧ s.cons.front = C 'D' ∧ value = target - n then
            -- `cons.r++`, and `cons.r--` if something has been copied
            some ({ s with cons := { s.cons with r := if n < target then s.cons.r else s.cons.r + 1 } }.release p .out)
          else none
      | _ => none
  | .ret p value =>
      match s.call p with
      | .loop target n =>
          if 0 < n then
            if s.cons.r = s.cons.w ∧ s.killed p = true ∧ value = -1 then some (s.release p .out) else none
          else if value = target - n then some (s.release p .out)
          else none
      | .line target n => if value = target - n then some (s.release p .out) else none
      | _ => none
  | .kill p => some { s.setCall p (s.call p).awake with killed := Function.update s.killed p true }
  | .reuse p => if s.call p = .out then some { s with killed := Function.update s.killed p false } else none

/-- After `consoleinit`; `cons` is zero. -/
def boot : System where
  cons := ⟨fun _ => 0, 0, 0, 0⟩
  lock := none
  call := fun _ => .out
  killed := fun _ => false
  echo := []

end System

/-- What a step can be. -/
inductive Stepped (s : System) : Event → System → Prop
  | consoleintr {ch} (hfree : s.lock = none) {s'} (hcons : s'.cons = (consoleintr s.cons ch).1)
      (hecho : s'.echo = s.echo ++ (consoleintr s.cons ch).2.1) (hlock : s'.lock = none) (hkilled : s'.killed = s.killed)
      (hcall : s'.call = s.call ∧ (consoleintr s.cons ch).2.2 = false ∨ s'.call = fun p => (s.call p).awake) :
      Stepped s (.consoleintr ch) s'
  | consoleread {p n} (hp : s.call p = .out) : Stepped s (.consoleread p n) (s.setCall p (.acquire n n))
  | acquire {p target n} (hfree : s.lock = none) (hp : s.call p = .acquire target n) :
      Stepped s (.acquire p) { s.setCall p (.loop target n) with lock := some p }
  | test {p target n} (hp : s.call p = .loop target n) (hn : 0 < n) (hempty : s.cons.r = s.cons.w) :
      Stepped s (.test p) (s.setCall p (.tested target n))
  | sleep {p target n} (hp : s.call p = .tested target n) : Stepped s (.sleep p) (s.release p (.asleep target n))
  | take {p target n} (hp : s.call p = .loop target n) (hn : 0 < n) (hsome : s.cons.r ≠ s.cons.w)
      (hc : s.cons.front ≠ C 'D') :
      Stepped s (.take p s.cons.front) ({ s with cons := { s.cons with r := s.cons.r + 1 } }.setCall p
        (if s.cons.front = newline then .line target (n - 1) else .loop target (n - 1)))
  | fault {p target n} (hp : s.call p = .loop target n) (hn : 0 < n) (hsome : s.cons.r ≠ s.cons.w)
      (hc : s.cons.front ≠ C 'D') : Stepped s (.fault p s.cons.front (target - n))
        ({ s with cons := { s.cons with r := s.cons.r + 1 } }.release p .out)
  | eof {p target n} (hp : s.call p = .loop target n) (hn : 0 < n) (hsome : s.cons.r ≠ s.cons.w)
      (hc : s.cons.front = C 'D') : Stepped s (.eof p (target - n))
        ({ s with cons := { s.cons with r := if n < target then s.cons.r else s.cons.r + 1 } }.release p .out)
  | retKilled {p target n} (hp : s.call p = .loop target n) (hn : 0 < n) (hempty : s.cons.r = s.cons.w) :
      Stepped s (.ret p (-1)) (s.release p .out)
  | retFull {p target n} (hp : s.call p = .loop target n) (hn : ¬ 0 < n) :
      Stepped s (.ret p (target - n)) (s.release p .out)
  | retLine {p target n} (hp : s.call p = .line target n) : Stepped s (.ret p (target - n)) (s.release p .out)
  | kill {p : Slot} :
      Stepped s (.kill p) { s.setCall p (s.call p).awake with killed := Function.update s.killed p true }
  | reuse {p : Slot} : Stepped s (.reuse p) { s with killed := Function.update s.killed p false }

variable {s s' : System} {ev : Event} {p q : Slot} {call : Call}

@[simp] theorem setCall_self : (s.setCall p call).call p = call := Function.update_self ..

theorem setCall_of_ne (h : q ≠ p) : (s.setCall p call).call q = s.call q := Function.update_of_ne h ..

@[simp] theorem setCall_cons : (s.setCall p call).cons = s.cons := rfl

@[simp] theorem setCall_echo : (s.setCall p call).echo = s.echo := rfl

@[simp] theorem setCall_lock : (s.setCall p call).lock = s.lock := rfl

@[simp] theorem release_self : (s.release p call).call p = call := Function.update_self ..

theorem release_of_ne (h : q ≠ p) : (s.release p call).call q = s.call q := Function.update_of_ne h ..

@[simp] theorem release_cons : (s.release p call).cons = s.cons := rfl

@[simp] theorem release_echo : (s.release p call).echo = s.echo := rfl

@[simp] theorem release_lock : (s.release p call).lock = none := rfl

theorem step_stepped (h : System.step ev s = some s') : Stepped s ev s' := by
  cases ev with
  | consoleintr ch =>
      simp only [System.step, Option.ite_none_right_eq_some, Option.some.injEq] at h
      obtain ⟨hfree, rfl⟩ := h
      split
      · exact .consoleintr hfree rfl rfl hfree rfl (.inr rfl)
      · next hquiet => exact .consoleintr hfree rfl rfl hfree rfl (.inl ⟨rfl, Bool.eq_false_of_not_eq_true hquiet⟩)
  | consoleread p n =>
      simp only [System.step, Option.ite_none_right_eq_some, Option.some.injEq] at h
      obtain ⟨hp, rfl⟩ := h
      exact .consoleread hp
  | acquire p =>
      simp only [System.step, Option.ite_none_right_eq_some] at h
      obtain ⟨hfree, h⟩ := h
      split at h
      · obtain rfl := Option.some.inj h
        exact .acquire hfree ‹_›
      · cases h
  | test p =>
      simp only [System.step] at h
      split at h
      · simp only [Option.ite_none_right_eq_some, Option.some.injEq] at h
        obtain ⟨⟨hn, hempty, -⟩, rfl⟩ := h
        exact .test ‹_› hn hempty
      · cases h
  | sleep p =>
      simp only [System.step] at h
      split at h
      · obtain rfl := Option.some.inj h
        exact .sleep ‹_›
      · cases h
  | take p ch =>
      simp only [System.step] at h
      split at h
      · simp only [Option.ite_none_right_eq_some, Option.some.injEq] at h
        obtain ⟨⟨hn, hsome, rfl, hc⟩, rfl⟩ := h
        exact .take ‹_› hn hsome hc
      · cases h
  | fault p ch value =>
      simp only [System.step] at h
      split at h
      · simp only [Option.ite_none_right_eq_some, Option.some.injEq] at h
        obtain ⟨⟨hn, hsome, rfl, hc, rfl⟩, rfl⟩ := h
        exact .fault ‹_› hn hsome hc
      · cases h
  | eof p value =>
      simp only [System.step] at h
      split at h
      · simp only [Option.ite_none_right_eq_some, Option.some.injEq] at h
        obtain ⟨⟨hn, hsome, hc, rfl⟩, rfl⟩ := h
        exact .eof ‹_› hn hsome hc
      · cases h
  | ret p value =>
      simp only [System.step] at h
      split at h
      · split at h
        · simp only [Option.ite_none_right_eq_some, Option.some.injEq] at h
          obtain ⟨⟨hempty, -, rfl⟩, rfl⟩ := h
          exact .retKilled ‹_› ‹_› hempty
        · simp only [Option.ite_none_right_eq_some, Option.some.injEq] at h
          obtain ⟨rfl, rfl⟩ := h
          exact .retFull ‹_› ‹_›
      · simp only [Option.ite_none_right_eq_some, Option.some.injEq] at h
        obtain ⟨rfl, rfl⟩ := h
        exact .retLine ‹_›
      · cases h
  | kill p =>
      obtain rfl := Option.some.inj h
      exact .kill
  | reuse p =>
      simp only [System.step, Option.ite_none_right_eq_some, Option.some.injEq] at h
      obtain ⟨-, rfl⟩ := h
      exact .reuse

end Xv6Mlfq.Console
