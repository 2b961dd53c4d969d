import Xv6Mlfq.Threads.ProducerConsumer.Semaphore

/-!
# Producer and consumer with condition variables (`conditional_producer_consumer.cpp`)

A thread that finds the queue in the wrong state waits, and tests it again under the mutex when it has been woken.
-/

namespace Xv6Mlfq.Threads

open Posix

variable {α : Type}

namespace Conditional

/-! ## The program -/

inductive Mutex
  | mutex
  deriving DecidableEq

inductive Cond
  | empty
  | filled
  deriving DecidableEq

/-- The statements of `consumer`, with its local variable `count`. -/
inductive ConsumerAt
  | test (count : Nat)
  | lock (count : Nat)
  | size (count : Nat)
  | wait (count : Nat)
  | front (count : Nat)
  | pop (count : Nat)
  | incr (count : Nat)
  | signal (count : Nat)
  | unlock (count : Nat)
  | done

/-- The statements of `producer`, with the item `i` and those that the loop has still to take. -/
inductive ProducerAt (α : Type)
  | test (rest : List α)
  | lock (i : α) (rest : List α)
  | size (i : α) (rest : List α)
  | wait (i : α) (rest : List α)
  | push (i : α) (rest : List α)
  | signal (rest : List α)
  | unlock (rest : List α)
  | done

abbrev At (α : Type) : Party → Type
  | .consumer => ConsumerAt
  | .producer => ProducerAt α

def consumer (items : List α) : ConsumerAt → Instr Empty Mutex Cond (Store α) ConsumerAt
  | .test count => .act fun s => some (s, if count < items.length then .lock count else .done)
  | .lock count => .lock .mutex (.size count)
  | .size count => .act fun s => some (s, if s.contents.length = 0 then .wait count else .front count)
  | .wait count => .condWait .filled .mutex (.size count)
  | .front count => .act fun s => s.front.map (·, .pop count)
  | .pop count => .act fun s => s.pop.map (·, .incr count)
  | .incr count => .act fun s => some (s, .signal (count + 1))
  | .signal count => .condSignal .empty (.unlock count)
  | .unlock count => .unlock .mutex (.test count)
  | .done => .done

def producer : ProducerAt α → Instr Empty Mutex Cond (Store α) (ProducerAt α)
  | .test [] => .act fun s => some (s, .done)
  | .test (i :: rest) => .act fun s => some (s, .lock i rest)
  | .lock i rest => .lock .mutex (.size i rest)
  | .size i rest => .act fun s => some (s, if s.contents.length ≠ 0 then .wait i rest else .push i rest)
  | .wait i rest => .condWait .empty .mutex (.size i rest)
  | .push i rest => .act fun s => some (s.push i, .signal rest)
  | .signal rest => .condSignal .filled (.unlock rest)
  | .unlock rest => .unlock .mutex (.test rest)
  | .done => .done

def code (items : List α) : Program (At α) Empty Mutex Cond (Store α)
  | .consumer => consumer items
  | .producer => producer

/-- The state in which `main` has created the threads. -/
def start (items : List α) : World (At α) Empty Mutex Cond (Store α) where
  status
    | .consumer => .ready (.test 0)
    | .producer => .ready (.test items)
  sem := Empty.elim
  owner _ := none
  data := ⟨[], []⟩

/-- The thread stands at a statement that uses the queue. -/
def Uses : (t : Party) → At α t → Prop
  | .consumer, .size _ => True
  | .consumer, .front _ => True
  | .consumer, .pop _ => True
  | .producer, .size _ _ => True
  | .producer, .push _ _ => True
  | _, _ => False

/-! ## What a thread knows at a statement -/

/-- The statements between `lock` and `unlock`. -/
def ConsumerAt.Inside : ConsumerAt → Prop
  | .test _ | .lock _ | .done => False
  | _ => True

def ProducerAt.Inside : ProducerAt α → Prop
  | .test _ | .lock _ _ | .done => False
  | _ => True

def ConsumerAt.IsSize : ConsumerAt → Prop
  | .size _ => True
  | _ => False

def ProducerAt.IsSize : ProducerAt α → Prop
  | .size _ _ => True
  | _ => False

/-- The statements from the removal of an item to the signal. -/
def ConsumerAt.Notifies : ConsumerAt → Prop
  | .incr _ | .signal _ => True
  | _ => False

def ProducerAt.Notifies : ProducerAt α → Prop
  | .signal _ => True
  | _ => False

def ConsumerAt.Sees (contents : List α) : ConsumerAt → Prop
  | .wait _ => contents = []
  | .front _ | .pop _ => contents ≠ []
  | _ => True

def ProducerAt.Sees (contents : List α) : ProducerAt α → Prop
  | .wait _ _ => contents ≠ []
  | .push _ _ => contents = []
  | _ => True

/-- The items at the front of the queue that have been printed. -/
def ConsumerAt.printed : ConsumerAt → Nat
  | .pop _ => 1
  | _ => 0

/-- The items that the producer has still to push. -/
def ProducerAt.unsent : ProducerAt α → List α
  | .test rest | .signal rest | .unlock rest => rest
  | .lock i rest | .size i rest | .wait i rest | .push i rest => i :: rest
  | .done => []

/-- The consumer has printed `n` of `len` items. -/
def ConsumerAt.Counts (len n : Nat) : ConsumerAt → Prop
  | .test count | .signal count | .unlock count => n = count
  | .lock count | .size count | .wait count | .front count => n = count ∧ count < len
  | .pop count | .incr count => n = count + 1
  | .done => n = len

abbrev ConsumerStatus := Status Mutex Cond ConsumerAt

abbrev ProducerStatus (α : Type) := Status Mutex Cond (ProducerAt α)

structure Inv (items : List α) (c : ConsumerStatus) (p : ProducerStatus α)
    (w : World (At α) Empty Mutex Cond (Store α)) : Prop where
  consumer : w.status .consumer = c
  producer : w.status .producer = p
  consumerOwns : w.owner .mutex = some .consumer ↔ c.At ConsumerAt.Inside
  producerOwns : w.owner .mutex = some .producer ↔ p.At ProducerAt.Inside
  consumerParks : c.Parks ConsumerAt.IsSize
  producerParks : p.Parks ProducerAt.IsSize
  consumerSees : c.label.Sees w.data.contents
  producerSees : p.label.Sees w.data.contents
  -- a thread that waits will be woken, or the other one will change the queue first
  consumerWaits : ∀ cond m next, c = .waiting cond m next →
    cond = .filled ∧ (w.data.contents = [] ∨ p.At ProducerAt.Notifies)
  producerWaits : ∀ cond m next, p = .waiting cond m next →
    cond = .empty ∧ (w.data.contents ≠ [] ∨ c.At ConsumerAt.Notifies)
  room : w.data.contents.length ≤ 1
  order : w.data.output ++ w.data.contents.drop c.label.printed ++ p.label.unsent = items
  count : c.label.Counts items.length w.data.output.length

variable {items : List α} {c : ConsumerStatus} {p : ProducerStatus α} {w : World (At α) Empty Mutex Cond (Store α)}

theorem Inv.start (items : List α) : Inv items (.ready (.test 0)) (.ready (.test items)) (start items) where
  consumer := rfl
  producer := rfl
  consumerOwns := by simp [Conditional.start, Status.At, ConsumerAt.Inside]
  producerOwns := by simp [Conditional.start, Status.At, ProducerAt.Inside]
  consumerParks := trivial
  producerParks := trivial
  consumerSees := trivial
  producerSees := trivial
  consumerWaits := by simp
  producerWaits := by simp
  room := by simp [Conditional.start]
  order := by simp [Conditional.start, Status.label, ProducerAt.unsent]
  count := rfl

/-- A thread outside the critical section takes nothing for granted about the queue. -/
theorem consumer_sees (hin : ¬ c.At ConsumerAt.Inside) (hparks : c.Parks ConsumerAt.IsSize) (contents : List α) :
    c.label.Sees contents ∧ c.label.printed = 0 := by
  cases c with
  | ready l =>
      cases l with
      | test count | lock count | done => exact ⟨trivial, rfl⟩
      | _ => exact absurd trivial hin
  | waiting cond m next | relocking m next =>
      cases next with
      | size count => exact ⟨trivial, rfl⟩
      | _ => exact hparks.elim

theorem producer_sees (hin : ¬ p.At ProducerAt.Inside) (hparks : p.Parks ProducerAt.IsSize) (contents : List α) :
    p.label.Sees contents := by
  cases p with
  | ready l =>
      cases l with
      | test rest | lock i rest | done => trivial
      | _ => exact absurd trivial hin
  | waiting cond m next | relocking m next =>
      cases next with
      | size i rest => trivial
      | _ => exact hparks.elim

theorem Inv.not_both (h : Inv items c p w) (hc : c.At ConsumerAt.Inside) : ¬ p.At ProducerAt.Inside := by
  intro hp
  have howner := (h.consumerOwns.mpr hc).symm.trans (h.producerOwns.mpr hp)
  cases howner

end Conditional

end Xv6Mlfq.Threads
