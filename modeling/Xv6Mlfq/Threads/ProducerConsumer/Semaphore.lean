import Xv6Mlfq.Threads.Posix

/-!
# Producer and consumer with semaphores (`semaphore_producer_consumer.cpp`)

The letters are replaced by any list `items`, of which the producer sends all and the consumer receives all. The
queue is shared by both versions of the program, and so is what is expected of them.
-/

namespace Xv6Mlfq.Threads

open Posix

inductive Party
  | consumer
  | producer
  deriving DecidableEq

/-- The queue `contents`, and what the consumer has printed. -/
structure Store (α : Type) where
  contents : List α
  output : List α

variable {α : Type}

/-- `cout << contents.front()` -/
def Store.front (s : Store α) : Option (Store α) :=
  match s.contents with
  | [] => none
  | x :: _ => some { s with output := s.output ++ [x] }

def Store.pop (s : Store α) : Option (Store α) :=
  match s.contents with
  | [] => none
  | _ :: xs => some { s with contents := xs }

def Store.push (s : Store α) (i : α) : Store α := { s with contents := s.contents ++ [i] }

/-- What is expected of each state that the two threads reach. `Uses` are the statements that use the queue; a
statement is in progress while its thread stands at it. -/
structure HandOff {κ μ χ : Type} {ℓ : Party → Type} [DecidableEq κ] [DecidableEq μ]
    (code : Program ℓ κ μ χ (Store α)) (Uses : (t : Party) → ℓ t → Prop) (items : List α)
    (w : World ℓ κ μ χ (Store α)) : Prop where
  order : w.data.output <+: items
  room : w.data.contents.length ≤ 1
  defined : ∀ t l, w.status t = .ready l → ¬ Undefined t w (code t l)
  apart : ∀ l l', w.status .consumer = .ready l → w.status .producer = .ready l' →
    ¬ (Uses .consumer l ∧ Uses .producer l')
  live : Finished code w ∨ ∃ w', Step code w w'
  complete : Finished code w → w.data.output = items

/-! ## The program -/

namespace Semaphore

inductive Sem
  | c
  | p
  deriving DecidableEq

/-- The statements of `consumer`, with its local variable `count`. -/
inductive ConsumerAt
  | test (count : Nat)
  | wait (count : Nat)
  | front (count : Nat)
  | pop (count : Nat)
  | incr (count : Nat)
  | post (count : Nat)
  | done

/-- The statements of `producer`, with the item `i` and those that the loop has still to take. -/
inductive ProducerAt (α : Type)
  | test (rest : List α)
  | wait (i : α) (rest : List α)
  | push (i : α) (rest : List α)
  | post (rest : List α)
  | done

abbrev At (α : Type) : Party → Type
  | .consumer => ConsumerAt
  | .producer => ProducerAt α

def consumer (items : List α) : ConsumerAt → Instr Sem Empty Empty (Store α) ConsumerAt
  | .test count => .act fun s => some (s, if count < items.length then .wait count else .done)
  | .wait count => .semWait .c (.front count)
  | .front count => .act fun s => s.front.map (·, .pop count)
  | .pop count => .act fun s => s.pop.map (·, .incr count)
  | .incr count => .act fun s => some (s, .post (count + 1))
  | .post count => .semPost .p (.test count)
  | .done => .done

def producer : ProducerAt α → Instr Sem Empty Empty (Store α) (ProducerAt α)
  | .test [] => .act fun s => some (s, .done)
  | .test (i :: rest) => .act fun s => some (s, .wait i rest)
  | .wait i rest => .semWait .p (.push i rest)
  | .push i rest => .act fun s => some (s.push i, .post rest)
  | .post rest => .semPost .c (.test rest)
  | .done => .done

def code (items : List α) : Program (At α) Sem Empty Empty (Store α)
  | .consumer => consumer items
  | .producer => producer

/-- The state in which `main` has created the threads. -/
def start (items : List α) : World (At α) Sem Empty Empty (Store α) where
  status
    | .consumer => .ready (.test 0)
    | .producer => .ready (.test items)
  sem
    | .c => 0
    | .p => 1
  owner := Empty.elim
  data := ⟨[], []⟩

/-- The thread stands at a statement that uses the queue. -/
def Uses : (t : Party) → At α t → Prop
  | .consumer, .front _ => True
  | .consumer, .pop _ => True
  | .producer, .push _ _ => True
  | _, _ => False

/-! ## The token

One unit is in one of the semaphores, or with a thread between its `sem_wait` and its `sem_post`. -/

def ConsumerAt.token : ConsumerAt → Nat
  | .front _ | .pop _ | .incr _ | .post _ => 1
  | _ => 0

def ProducerAt.token : ProducerAt α → Nat
  | .push _ _ | .post _ => 1
  | _ => 0

/-- The items in the queue while the consumer has the token. -/
def ConsumerAt.full : ConsumerAt → Nat
  | .front _ | .pop _ => 1
  | _ => 0

def ProducerAt.full : ProducerAt α → Nat
  | .post _ => 1
  | _ => 0

/-- The items at the front of the queue that have been printed. -/
def ConsumerAt.printed : ConsumerAt → Nat
  | .pop _ => 1
  | _ => 0

theorem ConsumerAt.printed_le_full (c : ConsumerAt) : c.printed ≤ c.full := by
  cases c with
  | pop count => exact Nat.le_refl 1
  | _ => exact Nat.zero_le _

/-- The items that the producer has still to push. -/
def ProducerAt.unsent : ProducerAt α → List α
  | .test rest | .post rest => rest
  | .wait i rest | .push i rest => i :: rest
  | .done => []

/-- The consumer has printed `n` of `len` items. -/
def ConsumerAt.Counts (len n : Nat) : ConsumerAt → Prop
  | .test count | .post count => n = count
  | .wait count | .front count => n = count ∧ count < len
  | .pop count | .incr count => n = count + 1
  | .done => n = len

structure Inv (items : List α) (c : ConsumerAt) (p : ProducerAt α) (w : World (At α) Sem Empty Empty (Store α)) :
    Prop where
  consumer : w.status .consumer = .ready c
  producer : w.status .producer = .ready p
  token : w.sem .c + w.sem .p + c.token + p.token = 1
  full : w.data.contents.length = w.sem .c + c.full + p.full
  order : w.data.output ++ w.data.contents.drop c.printed ++ p.unsent = items
  count : c.Counts items.length w.data.output.length

variable {items : List α} {c : ConsumerAt} {p : ProducerAt α} {w w' : World (At α) Sem Empty Empty (Store α)}

theorem Inv.start (items : List α) : Inv items (.test 0) (.test items) (start items) where
  consumer := rfl
  producer := rfl
  token := rfl
  full := rfl
  order := by simp [Semaphore.start, ProducerAt.unsent]
  count := rfl

theorem Inv.output_length (h : Inv items c p w) : w.data.output.length ≤ items.length := by
  have hlen := congrArg List.length h.order
  simp only [List.length_append] at hlen
  omega

theorem Inv.consumer_step (h : Inv items c p w) (hf : Fires .consumer (Semaphore.consumer items c) w w') :
    ∃ c', Inv items c' p w' := by
  have hle := h.output_length
  obtain ⟨hc, hp, htoken, hfull, horder, hcount⟩ := h
  have hself : ∀ l, (w.set .consumer (.ready l)).status .consumer = .ready l := fun l => World.set_self
  have hother : ∀ l, (w.set .consumer (.ready l)).status .producer = .ready p := fun l =>
    (World.set_of_ne (by decide)).trans hp
  cases c with
  | test count =>
      obtain ⟨d, next, he, rfl⟩ := hf.of_act
      cases he
      simp only [ConsumerAt.Counts] at hcount
      by_cases hlt : count < items.length
      · rw [if_pos hlt]
        exact ⟨_, hself _, hother _, htoken, hfull, horder, hcount, hlt⟩
      · rw [if_neg hlt]
        have hall : w.data.output.length = items.length := by omega
        exact ⟨_, hself _, hother _, htoken, hfull, horder, hall⟩
  | wait count =>
      obtain ⟨hpos, rfl⟩ := hf.of_semWait
      refine ⟨.front count, hself _, hother (.front count), ?_, ?_, horder, hcount⟩
      · simp [ConsumerAt.token] at htoken ⊢
        omega
      · simp [ConsumerAt.full] at hfull ⊢
        omega
  | front count =>
      obtain ⟨d, next, he, rfl⟩ := hf.of_act
      obtain ⟨d, hd, he⟩ := Option.map_eq_some_iff.mp he
      cases he
      cases hcontents : w.data.contents with
      | nil => simp [Store.front, hcontents] at hd
      | cons x xs =>
          simp [Store.front, hcontents] at hd
          subst hd
          refine ⟨.pop count, hself _, hother (.pop count), htoken, ?_, ?_, ?_⟩
          · simpa [hcontents, ConsumerAt.full] using hfull
          · simpa [hcontents, ConsumerAt.printed] using horder
          · simpa [ConsumerAt.Counts] using hcount.1
  | pop count =>
      obtain ⟨d, next, he, rfl⟩ := hf.of_act
      obtain ⟨d, hd, he⟩ := Option.map_eq_some_iff.mp he
      cases he
      cases hcontents : w.data.contents with
      | nil => simp [Store.pop, hcontents] at hd
      | cons x xs =>
          simp [Store.pop, hcontents] at hd
          subst hd
          refine ⟨.incr count, hself _, hother (.incr count), htoken, ?_, ?_, hcount⟩
          · simp [hcontents, ConsumerAt.full] at hfull ⊢
            omega
          · simpa [hcontents, ConsumerAt.printed] using horder
  | incr count =>
      obtain ⟨d, next, he, rfl⟩ := hf.of_act
      cases he
      exact ⟨_, hself _, hother _, htoken, hfull, horder, hcount⟩
  | post count =>
      obtain rfl := hf.of_semPost
      refine ⟨.test count, hself _, hother (.test count), ?_, ?_, horder, hcount⟩
      · simp [ConsumerAt.token] at htoken ⊢
        omega
      · simp [ConsumerAt.full] at hfull ⊢
        omega
  | done => exact hf.of_done.elim

theorem Inv.producer_step (h : Inv items c p w) (hf : Fires .producer (Semaphore.producer p) w w') :
    ∃ p', Inv items c p' w' := by
  obtain ⟨hc, hp, htoken, hfull, horder, hcount⟩ := h
  have hself : ∀ l, (w.set .producer (.ready l)).status .producer = .ready l := fun l => World.set_self
  have hother : ∀ l, (w.set .producer (.ready l)).status .consumer = .ready c := fun l =>
    (World.set_of_ne (by decide)).trans hc
  cases p with
  | test rest =>
      cases rest with
      | nil =>
          obtain ⟨d, next, he, rfl⟩ := hf.of_act
          cases he
          exact ⟨_, hother _, hself _, htoken, hfull, horder, hcount⟩
      | cons i rest =>
          obtain ⟨d, next, he, rfl⟩ := hf.of_act
          cases he
          exact ⟨_, hother _, hself _, htoken, hfull, horder, hcount⟩
  | wait i rest =>
      obtain ⟨hpos, rfl⟩ := hf.of_semWait
      refine ⟨.push i rest, hother (.push i rest), hself _, ?_, ?_, horder, hcount⟩
      · simp [ProducerAt.token] at htoken ⊢
        omega
      · simp [ProducerAt.full] at hfull ⊢
        omega
  | push i rest =>
      obtain ⟨d, next, he, rfl⟩ := hf.of_act
      cases he
      simp only [ProducerAt.token, ProducerAt.full, ProducerAt.unsent] at htoken hfull horder
      have hprinted : c.printed ≤ w.data.contents.length := by
        have hfull' := c.printed_le_full
        omega
      refine ⟨.post rest, hother (.post rest), hself _, htoken, ?_, ?_, hcount⟩
      · simp [Store.push, ProducerAt.full]
        omega
      · simpa [Store.push, ProducerAt.unsent, List.drop_append_of_le_length hprinted] using horder
  | post rest =>
      obtain rfl := hf.of_semPost
      refine ⟨.test rest, hother (.test rest), hself _, ?_, ?_, horder, hcount⟩
      · simp [ProducerAt.token] at htoken ⊢
        omega
      · simp [ProducerAt.full] at hfull ⊢
        omega
  | done => exact hf.of_done.elim

theorem Inv.step (h : Inv items c p w) (hs : Step (code items) w w') : ∃ c' p', Inv items c' p' w' := by
  cases hs with
  | @relock t m next hat hfree => exact m.elim
  | @fires t l w' hat hf =>
      cases t with
      | consumer =>
          cases h.consumer.symm.trans hat
          obtain ⟨c', h'⟩ := h.consumer_step hf
          exact ⟨c', p, h'⟩
      | producer =>
          cases h.producer.symm.trans hat
          obtain ⟨p', h'⟩ := h.producer_step hf
          exact ⟨c, p', h'⟩

theorem Inv.reaches (h : Reaches (code items) (Semaphore.start items) w) : ∃ c p, Inv items c p w := by
  refine h.invariant (I := fun w => ∃ c p, Inv items c p w) ⟨_, _, .start items⟩ ?_ ?_
  · rintro w w' ⟨c, p, h⟩ hs
    exact h.step hs
  · rintro w w' - hs
    cases hs with
    | @wake t c m next hat => exact c.elim

/-! ## The hand-off -/

theorem ConsumerAt.full_le_token (c : ConsumerAt) : c.full ≤ c.token := by
  cases c with
  | front count | pop count => exact Nat.le_refl 1
  | _ => exact Nat.zero_le _

theorem ProducerAt.full_le_token (p : ProducerAt α) : p.full ≤ p.token := by
  cases p with
  | post rest => exact Nat.le_refl 1
  | _ => exact Nat.zero_le _

theorem Inv.room (h : Inv items c p w) : w.data.contents.length ≤ 1 := by
  have htoken := h.token
  have hfull := h.full
  have hc := c.full_le_token
  have hp := p.full_le_token
  omega

/-- The consumer only takes from a queue that has an item. -/
theorem Inv.nonempty (h : Inv items c p w) (hc : c.full = 1) : w.data.contents ≠ [] := by
  intro hnil
  have hfull := h.full
  rw [hnil, List.length_nil] at hfull
  omega

theorem Inv.defined (h : Inv items c p w) (t : Party) (l : At α t) (hat : w.status t = .ready l) :
    ¬ Undefined t w (code items t l) := by
  cases t with
  | consumer =>
      cases h.consumer.symm.trans hat
      cases c with
      | front count =>
          obtain ⟨x, xs, hx⟩ := List.exists_cons_of_ne_nil (h.nonempty rfl)
          simp [Undefined, code, Semaphore.consumer, Store.front, hx]
      | pop count =>
          obtain ⟨x, xs, hx⟩ := List.exists_cons_of_ne_nil (h.nonempty rfl)
          simp [Undefined, code, Semaphore.consumer, Store.pop, hx]
      | _ => simp [Undefined, code, Semaphore.consumer]
  | producer =>
      cases h.producer.symm.trans hat
      cases p with
      | test rest =>
          cases rest with
          | nil => simp [Undefined, code, Semaphore.producer]
          | cons i rest => simp [Undefined, code, Semaphore.producer]
      | _ => simp [Undefined, code, Semaphore.producer]

/-- Both threads at the queue would have two tokens. -/
theorem Inv.apart (h : Inv items c p w) (l : ConsumerAt) (l' : ProducerAt α) (hl : w.status .consumer = .ready l)
    (hl' : w.status .producer = .ready l') : ¬ (Uses (α := α) .consumer l ∧ Uses .producer l') := by
  cases h.consumer.symm.trans hl
  cases h.producer.symm.trans hl'
  rintro ⟨hc, hp⟩
  have hct : c.token = 1 := by
    cases c with
    | front count | pop count => rfl
    | _ => exact hc.elim
  have hpt : p.token = 1 := by
    cases p with
    | push i rest => rfl
    | _ => exact hp.elim
  have htoken := h.token
  omega

/-- The statements that do not wait. -/
theorem Inv.consumer_moves (h : Inv items c p w) (hwait : ∀ count, c ≠ .wait count) (hdone : c ≠ .done) :
    ∃ w', Step (code items) w w' := by
  refine Enabled.step h.consumer ?_
  cases c with
  | test count => rfl
  | wait count => exact absurd rfl (hwait count)
  | front count =>
      obtain ⟨x, xs, hx⟩ := List.exists_cons_of_ne_nil (h.nonempty rfl)
      simp [Enabled, code, Semaphore.consumer, Store.front, hx]
  | pop count =>
      obtain ⟨x, xs, hx⟩ := List.exists_cons_of_ne_nil (h.nonempty rfl)
      simp [Enabled, code, Semaphore.consumer, Store.pop, hx]
  | incr count => rfl
  | post count => trivial
  | done => exact absurd rfl hdone

theorem Inv.producer_moves (h : Inv items c p w) (hwait : ∀ i rest, p ≠ .wait i rest) (hdone : p ≠ .done) :
    ∃ w', Step (code items) w w' := by
  refine Enabled.step h.producer ?_
  cases p with
  | test rest =>
      cases rest with
      | nil => rfl
      | cons i rest => rfl
  | wait i rest => exact absurd rfl (hwait i rest)
  | push i rest => rfl
  | post rest => trivial
  | done => exact absurd rfl hdone

theorem Inv.consumer_wait {count : Nat} (h : Inv items (.wait count) p w) (hpos : 0 < w.sem .c) :
    ∃ w', Step (code items) w w' := Enabled.step h.consumer hpos

theorem Inv.producer_wait {i : α} {rest : List α} (h : Inv items c (.wait i rest) w) (hpos : 0 < w.sem .p) :
    ∃ w', Step (code items) w w' := Enabled.step h.producer hpos

/-- If both threads wait or have finished, the token is in the semaphore that one of them waits for. -/
theorem Inv.live (h : Inv items c p w) : Finished (code items) w ∨ ∃ w', Step (code items) w w' := by
  have htoken := h.token
  have hfull := h.full
  have horder := congrArg List.length h.order
  have hcount := h.count
  simp only [List.length_append, List.length_drop] at horder
  by_cases hc : (∀ count, c ≠ .wait count) ∧ c ≠ .done
  · exact .inr (h.consumer_moves hc.1 hc.2)
  by_cases hp : (∀ i rest, p ≠ .wait i rest) ∧ p ≠ .done
  · exact .inr (h.producer_moves hp.1 hp.2)
  cases c with
  | wait count =>
      cases p with
      | wait i rest =>
          simp only [ConsumerAt.token, ProducerAt.token] at htoken
          by_cases hpos : 0 < w.sem .c
          · exact .inr (h.consumer_wait hpos)
          · exact .inr (h.producer_wait (by omega))
      | done =>
          -- nothing is left to send, so the item that the consumer waits for has been posted
          simp only [ConsumerAt.full, ProducerAt.full, ProducerAt.unsent, List.length_nil, ConsumerAt.Counts] at *
          exact .inr (h.consumer_wait (by omega))
      | _ => simp at hp
  | done =>
      cases p with
      | wait i rest =>
          -- the consumer has printed all items
          simp only [ProducerAt.unsent, List.length_cons, ConsumerAt.Counts] at *
          omega
      | done =>
          refine .inl fun t => ?_
          cases t with
          | consumer => exact ⟨_, h.consumer, rfl⟩
          | producer => exact ⟨_, h.producer, rfl⟩
      | _ => simp at hp
  | _ => simp at hc

theorem Inv.complete (h : Inv items c p w) (hfin : Finished (code items) w) : w.data.output = items := by
  have hc : c = .done := by
    obtain ⟨l, hl, hdone⟩ := hfin .consumer
    cases h.consumer.symm.trans hl
    cases c with
    | done => rfl
    | _ => cases hdone
  have hcount := h.count
  subst hc
  have hlen : w.data.output.length = items.length := hcount
  have horder := h.order
  rw [List.append_assoc] at horder
  exact List.IsPrefix.eq_of_length ⟨_, horder⟩ hlen

theorem Inv.handOff (h : Inv items c p w) : HandOff (code items) Uses items w where
  order := ⟨_, (List.append_assoc ..).symm.trans h.order⟩
  room := h.room
  defined := h.defined
  apart := h.apart
  live := h.live
  complete := h.complete

/-- In every interleaving of the two threads. -/
theorem handOff (h : Reaches (code items) (Semaphore.start items) w) : HandOff (code items) Uses items w := by
  obtain ⟨c, p, hinv⟩ := Inv.reaches h
  exact hinv.handOff

end Semaphore

end Xv6Mlfq.Threads
