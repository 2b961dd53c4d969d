import Xv6Mlfq.Threads.ProducerConsumer.Conditional

/-!
# Steps of the threads with condition variables
-/

namespace Xv6Mlfq.Threads

open Posix

variable {α : Type}

namespace Conditional

variable {items : List α} {c : ConsumerStatus} {p : ProducerStatus α} {w w' : World (At α) Empty Mutex Cond (Store α)}

/-! ## Steps of the consumer -/

section Consumer

variable {l l' : ConsumerAt} {d : Store α}

theorem consumer_set (h : w.status .producer = p) (st : ConsumerStatus) :
    (w.set .consumer st).status .consumer = st ∧ (w.set .consumer st).status .producer = p :=
  ⟨World.set_self, (World.set_of_ne (by decide)).trans h⟩

theorem Inv.consumer_act (h : Inv items (.ready l) p w) (hin : l'.Inside ↔ l.Inside) (hsees : l'.Sees d.contents)
    (hp : p.label.Sees d.contents)
    (hnotifies : w.data.contents ≠ [] ∨ l.Notifies → d.contents ≠ [] ∨ l'.Notifies) (hroom : d.contents.length ≤ 1)
    (horder : d.output ++ d.contents.drop l'.printed ++ p.label.unsent = items)
    (hcount : l'.Counts items.length d.output.length) :
    Inv items (.ready l') p { w.set .consumer (.ready l') with data := d } where
  consumer := (consumer_set h.producer (.ready l')).1
  producer := (consumer_set h.producer (.ready l')).2
  consumerOwns := h.consumerOwns.trans hin.symm
  producerOwns := h.producerOwns
  consumerParks := trivial
  producerParks := h.producerParks
  consumerSees := hsees
  producerSees := hp
  consumerWaits := by simp
  producerWaits cond m next hst := by
    obtain ⟨hcond, hwake⟩ := h.producerWaits cond m next hst
    exact ⟨hcond, hnotifies hwake⟩
  room := hroom
  order := horder
  count := hcount

/-- The consumer gets the mutex, in `lock` or in `pthread_cond_wait`. -/
theorem Inv.consumer_locks (h : Inv items c p w) (hfree : w.owner .mutex = none) (hsize : l'.IsSize)
    (hcalm : ¬ c.At ConsumerAt.Notifies) (hprinted : c.label.printed = 0)
    (hcount : l'.Counts items.length w.data.output.length) :
    Inv items (.ready l') p
      { w.set .consumer (.ready l') with owner := Function.update w.owner .mutex (some .consumer) } := by
  cases l' with
  | size count =>
      exact {
        consumer := (consumer_set h.producer (.ready (.size count))).1
        producer := (consumer_set h.producer (.ready (.size count))).2
        consumerOwns := iff_of_true (by simp) trivial
        producerOwns := by
          have hp : ¬ p.At ProducerAt.Inside := fun hp => by simpa [hfree] using h.producerOwns.mpr hp
          exact iff_of_false (by simp) hp
        consumerParks := trivial
        producerParks := h.producerParks
        consumerSees := trivial
        producerSees := h.producerSees
        consumerWaits := by simp
        producerWaits := fun cond m next hst => by
          obtain ⟨hcond, hwake⟩ := h.producerWaits cond m next hst
          exact ⟨hcond, .inl (hwake.resolve_right hcalm)⟩
        room := h.room
        order := by
          have horder := h.order
          rw [hprinted] at horder
          exact horder
        count := hcount }
  | _ => exact hsize.elim

/-- The consumer gives the mutex back, in `unlock` or in `pthread_cond_wait`. -/
theorem Inv.consumer_releases {c' : ConsumerStatus} {st : World (At α) Empty Mutex Cond (Store α)}
    (h : Inv items (.ready l) p w) (hin : l.Inside) (hout : ¬ c'.At ConsumerAt.Inside)
    (hparks : c'.Parks ConsumerAt.IsSize) (hcalm : ¬ l.Notifies)
    (hst : ∀ cond m next, c' = .waiting cond m next → cond = .filled ∧ w.data.contents = [])
    (hprinted : l.printed = 0) (hcount : c'.label.Counts items.length w.data.output.length)
    (hc : st.status .consumer = c') (hp : st.status .producer = p)
    (howner : st.owner = Function.update w.owner .mutex none) (hdata : st.data = w.data) : Inv items c' p st where
  consumer := hc
  producer := hp
  consumerOwns := iff_of_false (by simp [howner]) hout
  producerOwns := iff_of_false (by simp [howner]) (h.not_both hin)
  consumerParks := hparks
  producerParks := h.producerParks
  consumerSees := (consumer_sees hout hparks _).1
  producerSees := by rw [hdata]; exact h.producerSees
  consumerWaits cond m next hw := by
    rw [hdata]
    exact ⟨(hst cond m next hw).1, .inl (hst cond m next hw).2⟩
  producerWaits cond m next hw := by
    obtain ⟨hcond, hwake⟩ := h.producerWaits cond m next hw
    rw [hdata]
    exact ⟨hcond, .inl (hwake.resolve_right hcalm)⟩
  room := by rw [hdata]; exact h.room
  order := by
    have horder : w.data.output ++ w.data.contents.drop l.printed ++ p.label.unsent = items := h.order
    rw [hprinted] at horder
    rw [hdata, (consumer_sees hout hparks w.data.contents).2]
    exact horder
  count := by rw [hdata]; exact hcount

/-- The signal wakes the producer if it waits. -/
theorem Inv.consumer_signals {count : Nat} (h : Inv items (.ready (.signal count)) p w)
    (hs : Signalled .consumer .empty (.unlock count) w w') :
    Inv items (.ready (.unlock count)) (w'.status .producer) w' := by
  have hother := hs.others .producer (by decide)
  rw [h.producer] at hother
  have hin : (w'.status .producer).At ProducerAt.Inside ↔ p.At ProducerAt.Inside := by
    rcases hother with he | he
    · rw [he]
    · rw [he, Status.at_wake]
  have hlabel : (w'.status .producer).label = p.label := by
    rcases hother with he | he
    · rw [he]
    · rw [he, Status.label_wake]
  have hparks : (w'.status .producer).Parks ProducerAt.IsSize := by
    rcases hother with he | he
    · rw [he]
      exact h.producerParks
    · rw [he, Status.parks_wake]
      exact h.producerParks
  exact {
    consumer := hs.self
    producer := rfl
    consumerOwns := by rw [hs.owner]; exact h.consumerOwns
    producerOwns := by rw [hs.owner, hin]; exact h.producerOwns
    consumerParks := trivial
    producerParks := hparks
    consumerSees := trivial
    producerSees := by rw [hlabel, hs.data]; exact h.producerSees
    consumerWaits := by simp
    producerWaits := fun cond m next hst => by
      rcases hother with he | he
      · obtain ⟨rfl, -⟩ := h.producerWaits cond m next (he.symm.trans hst)
        refine absurd ⟨m, next, hst⟩ (hs.woken .producer (by decide) fun v hv => ?_)
        cases v with
        | consumer =>
            obtain ⟨m, next, hv⟩ := hv
            rw [h.consumer] at hv
            cases hv
        | producer => rfl
      · exact absurd (he.symm.trans hst) Status.wake_ne_waiting
    room := by rw [hs.data]; exact h.room
    order := by rw [hlabel, hs.data]; exact h.order
    count := by rw [hs.data]; exact h.count }

theorem Inv.output_length (h : Inv items c p w) : w.data.output.length ≤ items.length := by
  have hlen := congrArg List.length h.order
  simp only [List.length_append] at hlen
  omega

theorem Inv.consumer_step (h : Inv items (.ready l) p w) (hf : Fires .consumer (Conditional.consumer items l) w w') :
    ∃ c' p', Inv items c' p' w' := by
  have hle := h.output_length
  have hcount := h.count
  cases l with
  | test count =>
      obtain ⟨d, next, he, rfl⟩ := hf.of_act
      cases he
      simp only [Status.label, ConsumerAt.Counts] at hcount
      by_cases hlt : count < items.length
      · rw [if_pos hlt]
        exact ⟨_, _, h.consumer_act Iff.rfl trivial h.producerSees id h.room h.order ⟨hcount, hlt⟩⟩
      · rw [if_neg hlt]
        have hall : w.data.output.length = items.length := by omega
        exact ⟨_, _, h.consumer_act Iff.rfl trivial h.producerSees id h.room h.order hall⟩
  | lock count =>
      obtain ⟨hfree, rfl⟩ := hf.of_lock
      exact ⟨_, _, h.consumer_locks hfree trivial not_false rfl hcount⟩
  | size count =>
      obtain ⟨d, next, he, rfl⟩ := hf.of_act
      cases he
      by_cases hzero : w.data.contents.length = 0
      · rw [if_pos hzero]
        have hnil := List.length_eq_zero_iff.mp hzero
        exact ⟨_, _, h.consumer_act Iff.rfl hnil h.producerSees id h.room h.order hcount⟩
      · rw [if_neg hzero]
        have hne : w.data.contents ≠ [] := fun hnil => hzero (List.length_eq_zero_iff.mpr hnil)
        exact ⟨_, _, h.consumer_act Iff.rfl hne h.producerSees id h.room h.order hcount⟩
  | wait count =>
      obtain ⟨-, rfl⟩ := hf.of_condWait
      obtain ⟨hself, hother⟩ := consumer_set h.producer (.waiting .filled .mutex (.size count))
      refine ⟨.waiting .filled .mutex (.size count), p,
        h.consumer_releases trivial id trivial id ?_ rfl hcount hself hother rfl rfl⟩
      intro cond m next he
      cases he
      exact ⟨rfl, h.consumerSees⟩
  | front count =>
      obtain ⟨d, next, he, rfl⟩ := hf.of_act
      obtain ⟨d, hd, he⟩ := Option.map_eq_some_iff.mp he
      cases he
      obtain ⟨x, xs, hx⟩ := List.exists_cons_of_ne_nil h.consumerSees
      simp [Store.front, hx] at hd
      subst hd
      have hroom := h.room
      have horder := h.order
      have hsees := h.producerSees
      rw [hx] at hroom horder hsees
      refine ⟨_, _, h.consumer_act Iff.rfl (List.cons_ne_nil x xs) hsees (fun _ => .inl (List.cons_ne_nil x xs)) hroom
        ?_ ?_⟩
      · simpa [ConsumerAt.printed, Status.label] using horder
      · simpa [ConsumerAt.Counts] using hcount.1
  | pop count =>
      obtain ⟨d, next, he, rfl⟩ := hf.of_act
      obtain ⟨d, hd, he⟩ := Option.map_eq_some_iff.mp he
      cases he
      obtain ⟨x, xs, hx⟩ := List.exists_cons_of_ne_nil h.consumerSees
      simp [Store.pop, hx] at hd
      subst hd
      have hroom := h.room
      have horder := h.order
      rw [hx] at hroom horder
      obtain rfl : xs = [] := by simpa using hroom
      have hsees := producer_sees (h.not_both trivial) h.producerParks []
      refine ⟨_, _, h.consumer_act Iff.rfl trivial hsees (fun _ => .inr trivial) (Nat.zero_le 1) ?_ hcount⟩
      simpa [ConsumerAt.printed, Status.label] using horder
  | incr count =>
      obtain ⟨d, next, he, rfl⟩ := hf.of_act
      cases he
      exact ⟨_, _, h.consumer_act Iff.rfl trivial h.producerSees id h.room h.order hcount⟩
  | signal count => exact ⟨_, _, h.consumer_signals hf.of_condSignal⟩
  | unlock count =>
      obtain ⟨-, rfl⟩ := hf.of_unlock
      obtain ⟨hself, hother⟩ := consumer_set h.producer (.ready (.test count))
      refine ⟨.ready (.test count), p, h.consumer_releases trivial id trivial id ?_ rfl hcount hself hother rfl rfl⟩
      intro cond m next he
      cases he
  | done => exact hf.of_done.elim

end Consumer

/-! ## Steps of the producer -/

section Producer

variable {l l' : ProducerAt α} {d : Store α}

theorem producer_set (h : w.status .consumer = c) (st : ProducerStatus α) :
    (w.set .producer st).status .producer = st ∧ (w.set .producer st).status .consumer = c :=
  ⟨World.set_self, (World.set_of_ne (by decide)).trans h⟩

theorem Inv.producer_act (h : Inv items c (.ready l) w) (hin : l'.Inside ↔ l.Inside) (hsees : l'.Sees d.contents)
    (hc : c.label.Sees d.contents) (hnotifies : w.data.contents = [] ∨ l.Notifies → d.contents = [] ∨ l'.Notifies)
    (hroom : d.contents.length ≤ 1) (houtput : d.output = w.data.output)
    (horder : d.output ++ d.contents.drop c.label.printed ++ l'.unsent = items) :
    Inv items c (.ready l') { w.set .producer (.ready l') with data := d } where
  consumer := (producer_set h.consumer (.ready l')).2
  producer := (producer_set h.consumer (.ready l')).1
  consumerOwns := h.consumerOwns
  producerOwns := h.producerOwns.trans hin.symm
  consumerParks := h.consumerParks
  producerParks := trivial
  consumerSees := hc
  producerSees := hsees
  consumerWaits cond m next hst := by
    obtain ⟨hcond, hwake⟩ := h.consumerWaits cond m next hst
    exact ⟨hcond, hnotifies hwake⟩
  producerWaits := by simp
  room := hroom
  order := horder
  count := by rw [houtput]; exact h.count

theorem Inv.producer_locks (h : Inv items c p w) (hfree : w.owner .mutex = none) (hsize : l'.IsSize)
    (hcalm : ¬ p.At ProducerAt.Notifies) (hunsent : l'.unsent = p.label.unsent) :
    Inv items c (.ready l')
      { w.set .producer (.ready l') with owner := Function.update w.owner .mutex (some .producer) } := by
  cases l' with
  | size i rest =>
      exact {
        consumer := (producer_set h.consumer (.ready (.size i rest))).2
        producer := (producer_set h.consumer (.ready (.size i rest))).1
        consumerOwns := by
          have hc : ¬ c.At ConsumerAt.Inside := fun hc => by simpa [hfree] using h.consumerOwns.mpr hc
          exact iff_of_false (by simp) hc
        producerOwns := iff_of_true (by simp) trivial
        consumerParks := h.consumerParks
        producerParks := trivial
        consumerSees := h.consumerSees
        producerSees := trivial
        consumerWaits := fun cond m next hst => by
          obtain ⟨hcond, hwake⟩ := h.consumerWaits cond m next hst
          exact ⟨hcond, .inl (hwake.resolve_right hcalm)⟩
        producerWaits := by simp
        room := h.room
        order := by
          have horder := h.order
          rw [← hunsent] at horder
          exact horder
        count := h.count }
  | _ => exact hsize.elim

theorem Inv.producer_releases {p' : ProducerStatus α} {st : World (At α) Empty Mutex Cond (Store α)}
    (h : Inv items c (.ready l) w) (hin : l.Inside) (hout : ¬ p'.At ProducerAt.Inside)
    (hparks : p'.Parks ProducerAt.IsSize) (hcalm : ¬ l.Notifies)
    (hst : ∀ cond m next, p' = .waiting cond m next → cond = .empty ∧ w.data.contents ≠ [])
    (hunsent : p'.label.unsent = l.unsent) (hc : st.status .consumer = c) (hp : st.status .producer = p')
    (howner : st.owner = Function.update w.owner .mutex none) (hdata : st.data = w.data) : Inv items c p' st where
  consumer := hc
  producer := hp
  consumerOwns := iff_of_false (by simp [howner]) fun hcin => h.not_both hcin hin
  producerOwns := iff_of_false (by simp [howner]) hout
  consumerParks := h.consumerParks
  producerParks := hparks
  consumerSees := by rw [hdata]; exact h.consumerSees
  producerSees := producer_sees hout hparks _
  consumerWaits cond m next hw := by
    obtain ⟨hcond, hwake⟩ := h.consumerWaits cond m next hw
    rw [hdata]
    exact ⟨hcond, .inl (hwake.resolve_right hcalm)⟩
  producerWaits cond m next hw := by
    rw [hdata]
    exact ⟨(hst cond m next hw).1, .inl (hst cond m next hw).2⟩
  room := by rw [hdata]; exact h.room
  order := by rw [hdata, hunsent]; exact h.order
  count := by rw [hdata]; exact h.count

theorem Inv.producer_signals {rest : List α} (h : Inv items c (.ready (.signal rest)) w)
    (hs : Signalled .producer .filled (.unlock rest) w w') :
    Inv items (w'.status .consumer) (.ready (.unlock rest)) w' := by
  have hother := hs.others .consumer (by decide)
  rw [h.consumer] at hother
  have hin : (w'.status .consumer).At ConsumerAt.Inside ↔ c.At ConsumerAt.Inside := by
    rcases hother with he | he
    · rw [he]
    · rw [he, Status.at_wake]
  have hlabel : (w'.status .consumer).label = c.label := by
    rcases hother with he | he
    · rw [he]
    · rw [he, Status.label_wake]
  have hparks : (w'.status .consumer).Parks ConsumerAt.IsSize := by
    rcases hother with he | he
    · rw [he]
      exact h.consumerParks
    · rw [he, Status.parks_wake]
      exact h.consumerParks
  exact {
    consumer := rfl
    producer := hs.self
    consumerOwns := by rw [hs.owner, hin]; exact h.consumerOwns
    producerOwns := by rw [hs.owner]; exact h.producerOwns
    consumerParks := hparks
    producerParks := trivial
    consumerSees := by rw [hlabel, hs.data]; exact h.consumerSees
    producerSees := trivial
    consumerWaits := fun cond m next hst => by
      rcases hother with he | he
      · obtain ⟨rfl, -⟩ := h.consumerWaits cond m next (he.symm.trans hst)
        refine absurd ⟨m, next, hst⟩ (hs.woken .consumer (by decide) fun v hv => ?_)
        cases v with
        | consumer => rfl
        | producer =>
            obtain ⟨m, next, hv⟩ := hv
            rw [h.producer] at hv
            cases hv
      · exact absurd (he.symm.trans hst) Status.wake_ne_waiting
    producerWaits := by simp
    room := by rw [hs.data]; exact h.room
    order := by rw [hlabel, hs.data]; exact h.order
    count := by rw [hlabel, hs.data]; exact h.count }

theorem Inv.producer_step (h : Inv items c (.ready l) w) (hf : Fires .producer (Conditional.producer l) w w') :
    ∃ c' p', Inv items c' p' w' := by
  cases l with
  | test rest =>
      cases rest with
      | nil =>
          obtain ⟨d, next, he, rfl⟩ := hf.of_act
          cases he
          exact ⟨_, _, h.producer_act Iff.rfl trivial h.consumerSees id h.room rfl h.order⟩
      | cons i rest =>
          obtain ⟨d, next, he, rfl⟩ := hf.of_act
          cases he
          exact ⟨_, _, h.producer_act Iff.rfl trivial h.consumerSees id h.room rfl h.order⟩
  | lock i rest =>
      obtain ⟨hfree, rfl⟩ := hf.of_lock
      exact ⟨_, _, h.producer_locks hfree trivial not_false rfl⟩
  | size i rest =>
      obtain ⟨d, next, he, rfl⟩ := hf.of_act
      cases he
      by_cases hzero : w.data.contents.length ≠ 0
      · rw [if_pos hzero]
        have hne : w.data.contents ≠ [] := fun hnil => hzero (List.length_eq_zero_iff.mpr hnil)
        exact ⟨_, _, h.producer_act Iff.rfl hne h.consumerSees id h.room rfl h.order⟩
      · rw [if_neg hzero]
        have hnil := List.length_eq_zero_iff.mp (not_not.mp hzero)
        exact ⟨_, _, h.producer_act Iff.rfl hnil h.consumerSees id h.room rfl h.order⟩
  | wait i rest =>
      obtain ⟨-, rfl⟩ := hf.of_condWait
      obtain ⟨hself, hother⟩ := producer_set h.consumer (.waiting .empty .mutex (.size i rest))
      refine ⟨c, .waiting .empty .mutex (.size i rest),
        h.producer_releases trivial id trivial id ?_ rfl hother hself rfl rfl⟩
      intro cond m next he
      cases he
      exact ⟨rfl, h.producerSees⟩
  | push i rest =>
      obtain ⟨d, next, he, rfl⟩ := hf.of_act
      cases he
      have hnil : w.data.contents = [] := h.producerSees
      have hout : ¬ c.At ConsumerAt.Inside := fun hc => h.not_both hc trivial
      obtain ⟨hsees, hprinted⟩ := consumer_sees hout h.consumerParks [i]
      have horder : w.data.output ++ w.data.contents.drop c.label.printed ++ i :: rest = items := h.order
      rw [hnil, hprinted] at horder
      refine ⟨_, _, h.producer_act Iff.rfl trivial ?_ (fun _ => .inr trivial) ?_ rfl ?_⟩
      · simpa [Store.push, hnil] using hsees
      · simp [Store.push, hnil]
      · simpa [Store.push, hnil, hprinted, ProducerAt.unsent] using horder
  | signal rest => exact ⟨_, _, h.producer_signals hf.of_condSignal⟩
  | unlock rest =>
      obtain ⟨-, rfl⟩ := hf.of_unlock
      obtain ⟨hself, hother⟩ := producer_set h.consumer (.ready (.test rest))
      refine ⟨c, .ready (.test rest), h.producer_releases trivial id trivial id ?_ rfl hother hself rfl rfl⟩
      intro cond m next he
      cases he
  | done => exact hf.of_done.elim

end Producer

/-! ## Every state that is reached -/

theorem Inv.step (h : Inv items c p w) (hs : Step (code items) w w') : ∃ c' p', Inv items c' p' w' := by
  cases hs with
  | @fires t l w' hat hf =>
      cases t with
      | consumer =>
          obtain rfl := h.consumer.symm.trans hat
          exact h.consumer_step hf
      | producer =>
          obtain rfl := h.producer.symm.trans hat
          exact h.producer_step hf
  | @relock t m next hat hfree =>
      cases t with
      | consumer =>
          obtain rfl := h.consumer.symm.trans hat
          have hout : ¬ (Status.relocking m next : ConsumerStatus).At ConsumerAt.Inside := id
          have hprinted := (consumer_sees hout h.consumerParks w.data.contents).2
          exact ⟨_, _, h.consumer_locks hfree h.consumerParks not_false hprinted h.count⟩
      | producer =>
          obtain rfl := h.producer.symm.trans hat
          exact ⟨_, _, h.producer_locks hfree h.producerParks not_false rfl⟩

/-- A wakeup without a signal takes nothing from the other thread. -/
theorem Inv.spurious (h : Inv items c p w) (hs : Spurious w w') : ∃ c' p', Inv items c' p' w' := by
  cases hs with
  | @wake t cond m next hat =>
      cases t with
      | consumer =>
          obtain rfl := h.consumer.symm.trans hat
          obtain ⟨hself, hother⟩ := consumer_set h.producer (.relocking m next)
          exact ⟨_, _, { h with
            consumer := hself
            producer := hother
            consumerWaits := by simp
            producerWaits := h.producerWaits }⟩
      | producer =>
          obtain rfl := h.producer.symm.trans hat
          obtain ⟨hself, hother⟩ := producer_set h.consumer (.relocking m next)
          exact ⟨_, _, { h with
            consumer := hother
            producer := hself
            consumerWaits := h.consumerWaits
            producerWaits := by simp }⟩

theorem Inv.reaches (h : Reaches (code items) (Conditional.start items) w) : ∃ c p, Inv items c p w := by
  refine h.invariant (I := fun w => ∃ c p, Inv items c p w) ⟨_, _, .start items⟩ ?_ ?_
  · rintro w w' ⟨c, p, h⟩ hs
    exact h.step hs
  · rintro w w' ⟨c, p, h⟩ hs
    exact h.spurious hs

end Conditional

end Xv6Mlfq.Threads
