import Xv6Mlfq.Threads.ProducerConsumer.Lemmas.Conditional

/-!
# The hand-off
-/

namespace Xv6Mlfq.Threads

open Posix

variable {α : Type}

namespace Conditional

variable {items : List α} {c : ConsumerStatus} {p : ProducerStatus α} {w w' : World (At α) Empty Mutex Cond (Store α)}

/-! ## With condition variables -/

theorem Inv.consumer_defined {l : ConsumerAt} (h : Inv items (.ready l) p w) :
    ¬ Undefined (ℓ := At α) .consumer w (Conditional.consumer items l) := by
  cases l with
  | wait count | unlock count => simp [Undefined, Conditional.consumer, h.consumerOwns.mpr trivial]
  | front count =>
      obtain ⟨x, xs, hx⟩ := List.exists_cons_of_ne_nil h.consumerSees
      simp [Undefined, Conditional.consumer, Store.front, hx]
  | pop count =>
      obtain ⟨x, xs, hx⟩ := List.exists_cons_of_ne_nil h.consumerSees
      simp [Undefined, Conditional.consumer, Store.pop, hx]
  | _ => simp [Undefined, Conditional.consumer]

theorem Inv.producer_defined {l : ProducerAt α} (h : Inv items c (.ready l) w) :
    ¬ Undefined (ℓ := At α) .producer w (Conditional.producer l) := by
  cases l with
  | test rest =>
      cases rest with
      | nil => simp [Undefined, Conditional.producer]
      | cons i rest => simp [Undefined, Conditional.producer]
  | wait i rest | unlock rest => simp [Undefined, Conditional.producer, h.producerOwns.mpr trivial]
  | _ => simp [Undefined, Conditional.producer]

theorem Inv.defined (h : Inv items c p w) (t : Party) (l : At α t) (hat : w.status t = .ready l) :
    ¬ Undefined t w (code items t l) := by
  cases t with
  | consumer =>
      obtain rfl := h.consumer.symm.trans hat
      exact h.consumer_defined
  | producer =>
      obtain rfl := h.producer.symm.trans hat
      exact h.producer_defined

/-- The queue is only used inside the critical section. -/
theorem Inv.apart (h : Inv items c p w) (l : ConsumerAt) (l' : ProducerAt α) (hl : w.status .consumer = .ready l)
    (hl' : w.status .producer = .ready l') : ¬ (Uses (α := α) .consumer l ∧ Uses .producer l') := by
  obtain rfl := h.consumer.symm.trans hl
  obtain rfl := h.producer.symm.trans hl'
  rintro ⟨hc, hp⟩
  have hcin : l.Inside := by
    cases l with
    | size count | front count | pop count => trivial
    | _ => exact hc.elim
  have hpin : l'.Inside := by
    cases l' with
    | size i rest | push i rest => trivial
    | _ => exact hp.elim
  exact h.not_both hcin hpin

/-- The consumer rests only when it has finished or waits for an item, unless the other thread has the mutex. -/
theorem Inv.consumer_moves (h : Inv items c p w) (hin : c.At ConsumerAt.Inside ∨ w.owner .mutex = none) :
    (∃ w', Step (code items) w w') ∨ c = .ready .done ∨ ∃ cond count, c = .waiting cond .mutex (.size count) := by
  cases c with
  | ready l =>
      cases l with
      | done => exact .inr (.inl rfl)
      | test count => exact .inl (Enabled.step h.consumer rfl)
      | lock count => exact .inl (Enabled.step h.consumer (hin.resolve_left id))
      | size count | incr count => exact .inl (Enabled.step h.consumer rfl)
      | signal count => exact .inl (Enabled.step h.consumer trivial)
      | wait count | unlock count => exact .inl (Enabled.step h.consumer (h.consumerOwns.mpr trivial))
      | front count =>
          obtain ⟨x, xs, hx⟩ := List.exists_cons_of_ne_nil h.consumerSees
          refine .inl (Enabled.step h.consumer ?_)
          simp [Enabled, code, Conditional.consumer, Store.front, hx]
      | pop count =>
          obtain ⟨x, xs, hx⟩ := List.exists_cons_of_ne_nil h.consumerSees
          refine .inl (Enabled.step h.consumer ?_)
          simp [Enabled, code, Conditional.consumer, Store.pop, hx]
  | waiting cond m next =>
      have hparks := h.consumerParks
      cases m with
      | mutex =>
          cases next with
          | size count => exact .inr (.inr ⟨cond, count, rfl⟩)
          | _ => exact hparks.elim
  | relocking m next => exact .inl (exists_relock h.consumer (hin.resolve_left id))

theorem Inv.producer_moves (h : Inv items c p w) (hin : p.At ProducerAt.Inside ∨ w.owner .mutex = none) :
    (∃ w', Step (code items) w w') ∨ p = .ready .done ∨ ∃ cond i rest, p = .waiting cond .mutex (.size i rest) := by
  cases p with
  | ready l =>
      cases l with
      | done => exact .inr (.inl rfl)
      | test rest =>
          refine .inl (Enabled.step h.producer ?_)
          cases rest with
          | nil => rfl
          | cons i rest => rfl
      | lock i rest => exact .inl (Enabled.step h.producer (hin.resolve_left id))
      | size i rest | push i rest => exact .inl (Enabled.step h.producer rfl)
      | signal rest => exact .inl (Enabled.step h.producer trivial)
      | wait i rest | unlock rest => exact .inl (Enabled.step h.producer (h.producerOwns.mpr trivial))
  | waiting cond m next =>
      have hparks := h.producerParks
      cases m with
      | mutex =>
          cases next with
          | size i rest => exact .inr (.inr ⟨cond, i, rest, rfl⟩)
          | _ => exact hparks.elim
  | relocking m next => exact .inl (exists_relock h.producer (hin.resolve_left id))

/-- If neither thread is in the critical section, the mutex is free. -/
theorem Inv.free (h : Inv items c p w) (hc : ¬ c.At ConsumerAt.Inside) (hp : ¬ p.At ProducerAt.Inside) :
    w.owner .mutex = none := by
  cases howner : w.owner .mutex with
  | none => rfl
  | some t =>
      cases t with
      | consumer => exact absurd (h.consumerOwns.mp howner) hc
      | producer => exact absurd (h.producerOwns.mp howner) hp

/-- Threads that both rest have both finished: a thread in `pthread_cond_wait` is owed a signal. -/
theorem Inv.rest (h : Inv items c p w) (hc : c = .ready .done ∨ ∃ cond count, c = .waiting cond .mutex (.size count))
    (hp : p = .ready .done ∨ ∃ cond i rest, p = .waiting cond .mutex (.size i rest)) :
    c = .ready .done ∧ p = .ready .done := by
  have hlen := congrArg List.length h.order
  have hcount := h.count
  simp only [List.length_append, List.length_drop] at hlen
  rcases hc with rfl | ⟨cond, count, rfl⟩
  · rcases hp with rfl | ⟨cond, i, rest, rfl⟩
    · exact ⟨rfl, rfl⟩
    · -- the consumer has printed all items
      simp only [Status.label, ProducerAt.unsent, List.length_cons, ConsumerAt.Counts] at hlen hcount
      omega
  · have hempty := (h.consumerWaits cond .mutex (.size count) rfl).2
    rcases hp with rfl | ⟨cond', i, rest, rfl⟩
    · -- all items have been sent and none is in the queue
      have hnil := hempty.resolve_right id
      simp only [hnil, Status.label, ProducerAt.unsent, List.length_nil, ConsumerAt.Counts] at hlen hcount
      omega
    · have hfilled := (h.producerWaits cond' .mutex (.size i rest) rfl).2
      exact absurd (hempty.resolve_right id) (hfilled.resolve_right id)

theorem Inv.finished (h : Inv items (.ready .done) (.ready .done) w) : Finished (code items) w := by
  intro t
  cases t with
  | consumer => exact ⟨.done, h.consumer, rfl⟩
  | producer => exact ⟨.done, h.producer, rfl⟩

theorem Inv.live (h : Inv items c p w) : Finished (code items) w ∨ ∃ w', Step (code items) w w' := by
  by_cases hcin : c.At ConsumerAt.Inside
  · rcases h.consumer_moves (.inl hcin) with hs | rfl | ⟨cond, count, rfl⟩
    · exact .inr hs
    · exact hcin.elim
    · exact hcin.elim
  by_cases hpin : p.At ProducerAt.Inside
  · rcases h.producer_moves (.inl hpin) with hs | rfl | ⟨cond, i, rest, rfl⟩
    · exact .inr hs
    · exact hpin.elim
    · exact hpin.elim
  have hfree := h.free hcin hpin
  rcases h.consumer_moves (.inr hfree) with hs | hc
  · exact .inr hs
  rcases h.producer_moves (.inr hfree) with hs | hp
  · exact .inr hs
  obtain ⟨rfl, rfl⟩ := h.rest hc hp
  exact .inl h.finished

theorem Inv.complete (h : Inv items c p w) (hfin : Finished (code items) w) : w.data.output = items := by
  have hc : c = .ready .done := by
    obtain ⟨l, hl, hdone⟩ := hfin .consumer
    obtain rfl := h.consumer.symm.trans hl
    cases l with
    | done => rfl
    | _ => cases hdone
  have hcount := h.count
  subst hc
  have hlen : w.data.output.length = items.length := hcount
  have horder := h.order
  rw [List.append_assoc] at horder
  exact List.IsPrefix.eq_of_length ⟨_, horder⟩ hlen

/-- In every interleaving of the two threads. -/
theorem handOff (h : Reaches (code items) (Conditional.start items) w) : HandOff (code items) Uses items w := by
  obtain ⟨c, p, hinv⟩ := Inv.reaches h
  exact {
    order := ⟨_, (List.append_assoc ..).symm.trans hinv.order⟩
    room := hinv.room
    defined := hinv.defined
    apart := hinv.apart
    live := hinv.live
    complete := hinv.complete }

end Conditional

/-! ## Both programs -/

/-- What the consumer prints is a prefix of what is produced, and all of it in the end. -/
theorem hands_off (items : List α) :
    (∀ w, Reaches (Semaphore.code items) (Semaphore.start items) w →
      HandOff (Semaphore.code items) Semaphore.Uses items w) ∧
    (∀ w, Reaches (Conditional.code items) (Conditional.start items) w →
      HandOff (Conditional.code items) Conditional.Uses items w) :=
  ⟨fun _ => Semaphore.handOff, fun _ => Conditional.handOff⟩

end Xv6Mlfq.Threads
