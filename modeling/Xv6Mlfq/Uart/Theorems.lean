import Xv6Mlfq.Uart.System

/-!
# Bytes on the line

The bytes of `uartputc` are sent once and in order, and the buffer never waits for an interrupt that does not come.
-/

namespace Xv6Mlfq.Uart

open Rings Runs

variable {ι : Type*} {s s' : System ι} {e : Event ι} {p q : ι} {c : UInt8} {k : Call}
  {xs hand : List UInt8} {buf : Fin UART_TX_BUF_SIZE → UInt8} {tr : List (Transition (System ι) (Event ι))}

def Call.holds : Call → Bool
  | .putTest _ | .start | .sending _ => true
  | _ => false

/-- The agent will look for something to send. -/
def Call.works : Call → Bool
  | .intrAcquire | .start | .sending _ => true
  | _ => false

/-- `xs` is in the buffer, and `hand` has been taken from it and not been written to the device. -/
structure Inv (s : System ι) (xs hand : List UInt8) : Prop where
  queued : Queued s.buf s.r s.w xs
  room : xs.length ≤ UART_TX_BUF_SIZE
  lock : ∀ p, (s.call p).holds = true ↔ s.lock = some p
  idle : ∀ p c, s.call p = .sending c → s.thr = none ∧ hand = [c]
  empty : (∀ p c, s.call p ≠ .sending c) → hand = []
  asleep : ∀ p c, s.call p = .asleep c → xs.length = UART_TX_BUF_SIZE
  busy : xs ≠ [] → s.thr.isSome = true ∨ s.irq = true ∨ ∃ p, (s.call p).works = true

/-- All bytes that have come out of the buffer, and those that are in it. -/
def System.bytes (s : System ι) (hand xs : List UInt8) : List UInt8 := s.line ++ s.thr.toList ++ hand ++ xs

def Event.byte : Event ι → List UInt8
  | .put _ c => [c]
  | _ => []

def puts (tr : List (Transition (System ι) (Event ι))) : List UInt8 := tr.flatMap fun x => x.event.byte

theorem awake_holds (k : Call) : k.awake.holds = k.holds := by
  cases k with
  | _ => rfl

theorem awake_works (k : Call) : k.awake.works = k.works := by
  cases k with
  | _ => rfl

theorem awake_ne (k : Call) (c : UInt8) : k.awake ≠ .asleep c := by
  cases k with
  | _ => exact Call.noConfusion

theorem awake_sending (k : Call) (c : UInt8) : k.awake = .sending c ↔ k = .sending c := by
  cases k with
  | _ => simp [Call.awake]

namespace Inv

theorem full_iff (h : Inv s xs hand) : s.w = s.r + 32 ↔ xs.length = 32 :=
  h.queued.length_iff (lt_of_le_of_lt h.room (by decide)) (by decide)

theorem eq_nil (h : Inv s xs hand) (heq : s.w = s.r) : xs = [] := by
  have hqueued := h.queued
  rw [heq] at hqueued
  exact hqueued.eq_nil (lt_of_le_of_lt h.room (by decide))

theorem holder (h : Inv s xs hand) (hp : (s.call p).holds = true) (hq : (s.call q).holds = true) : q = p :=
  Option.some.inj (((h.lock q).mp hq).symm.trans ((h.lock p).mp hp))

/-- While an agent is in the loop of `uartstart`, no byte is on its way to the device. -/
theorem hand_nil (h : Inv s xs hand) (hp : (s.call p).holds = true) (hnot : ∀ c, s.call p ≠ .sending c) : hand = [] := by
  refine h.empty fun q c hq => ?_
  have hholds : (s.call q).holds = true := by
    rw [hq]
    rfl
  obtain rfl := h.holder hp hholds
  exact hnot c hq

theorem transmit (h : Inv s xs hand) (hthr : s.thr = some c) :
    hand = [] ∧ Inv { s with thr := none, irq := true, line := s.line ++ [c] } xs hand := by
  have hnone (q : ι) (c' : UInt8) : s.call q ≠ .sending c' := by
    intro hq
    cases hthr.symm.trans (h.idle q c' hq).1
  exact ⟨h.empty hnone, h.queued, h.room, h.lock, fun q c' hq => absurd hq (hnone q c'), h.empty, h.asleep,
    fun _ => .inr (.inl rfl)⟩

theorem boot : Inv (System.boot buf : System ι) [] [] where
  queued := rfl
  room := Nat.zero_le _
  lock p := ⟨fun hp => absurd hp Bool.false_ne_true, fun hp => absurd hp.symm (Option.some_ne_none p)⟩
  idle p c hp := by cases hp
  empty _ := rfl
  asleep p c hp := by cases hp
  busy hne := absurd rfl hne

variable [DecidableEq ι]

theorem setCall_self : (s.setCall p k).call p = k := Function.update_self ..

theorem setCall_of_ne (h : q ≠ p) : (s.setCall p k).call q = s.call q := Function.update_of_ne h ..

/-- Whoever is elsewhere than `p` has been sent was there before. -/
theorem of_setCall {k' : Call} (hk : k' ≠ k) (hq : (s.setCall p k).call q = k') : s.call q = k' := by
  by_cases hqp : q = p
  · rw [hqp, setCall_self] at hq
    exact absurd hq.symm hk
  · exact (setCall_of_ne hqp).symm.trans hq

theorem lock_acquire (h : Inv s xs hand) (hfree : s.lock = none) (hk : k.holds = true) (q : ι) :
    ((s.setCall p k).call q).holds = true ↔ some p = some q := by
  by_cases hqp : q = p
  · rw [hqp, setCall_self]
    exact ⟨fun _ => rfl, fun _ => hk⟩
  · rw [setCall_of_ne hqp, h.lock, hfree, Option.some.injEq]
    exact ⟨fun hq => (by cases hq), fun hq => absurd hq.symm hqp⟩

theorem lock_release (h : Inv s xs hand) (hp : (s.call p).holds = true) (hk : k.holds = false) (q : ι) :
    ((s.setCall p k).call q).holds = true ↔ none = some q := by
  by_cases hqp : q = p
  · rw [hqp, setCall_self, hk]
    simp
  · rw [setCall_of_ne hqp]
    exact ⟨fun hq => absurd (h.holder hp hq) hqp, fun hq => (by cases hq)⟩

theorem lock_keep (h : Inv s xs hand) (hk : k.holds = (s.call p).holds) (q : ι) :
    ((s.setCall p k).call q).holds = true ↔ s.lock = some q := by
  by_cases hqp : q = p
  · rw [hqp, setCall_self, hk, h.lock]
  · rw [setCall_of_ne hqp, h.lock]

theorem change (h : Inv s xs hand) (lock : Option ι) (irq : Bool)
    (hlock : ∀ q, ((s.setCall p k).call q).holds = true ↔ lock = some q)
    (hsend : ∀ c, k = .sending c ↔ s.call p = .sending c) (hsleep : ∀ c, k = .asleep c → xs.length = UART_TX_BUF_SIZE)
    (hbusy : k.works = true ∨ ((s.call p).works = false ∧ irq = s.irq) ∨ xs = [] ∨ s.thr.isSome = true) :
    Inv { s.setCall p k with lock := lock, irq := irq } xs hand where
  queued := h.queued
  room := h.room
  lock := hlock
  idle q c hq := by
    by_cases hqp : q = p
    · rw [hqp] at hq
      exact h.idle p c ((hsend c).mp (setCall_self.symm.trans hq))
    · exact h.idle q c ((setCall_of_ne hqp).symm.trans hq)
  empty hnone := by
    refine h.empty fun q c hq => ?_
    by_cases hqp : q = p
    · rw [hqp] at hq
      exact hnone p c (setCall_self.trans ((hsend c).mpr hq))
    · exact hnone q c ((setCall_of_ne hqp).trans hq)
  asleep q c hq := by
    by_cases hqp : q = p
    · rw [hqp] at hq
      exact hsleep c (setCall_self.symm.trans hq)
    · exact h.asleep q c ((setCall_of_ne hqp).symm.trans hq)
  busy hne := by
    rcases hbusy with hk | ⟨hp, hirq⟩ | hnil | hthr
    · exact .inr (.inr ⟨p, (congrArg Call.works setCall_self).trans hk⟩)
    · rcases h.busy hne with hthr | hold | ⟨q, hq⟩
      · exact .inl hthr
      · exact .inr (.inl (hirq.trans hold))
      · have hqp : q ≠ p := by
          rintro rfl
          cases hp.symm.trans hq
        exact .inr (.inr ⟨q, (congrArg Call.works (setCall_of_ne hqp)).trans hq⟩)
    · exact absurd hnil hne
    · exact .inl hthr

theorem put (h : Inv s xs hand) (hp : s.call p = .putTest c) (hroom : s.w ≠ s.r + 32) :
    Inv { s.setCall p .start with buf := Function.update s.buf (entry UART_TX_BUF_SIZE s.w) c, w := s.w + 1 }
      (xs ++ [c]) hand := by
  have hlen : xs.length < UART_TX_BUF_SIZE := lt_of_le_of_ne h.room fun heq => hroom (h.full_iff.mpr heq)
  have hhand := h.hand_nil (by rw [hp]; rfl) (fun _ heq => Call.noConfusion (hp.symm.trans heq))
  refine ⟨h.queued.push (by decide) hlen, ?_, h.lock_keep (by rw [hp]; rfl), fun q c' hq => ?_, fun _ => hhand,
    fun q c' hq => ?_, fun _ => .inr (.inr ⟨p, congrArg Call.works setCall_self⟩)⟩
  · rw [List.length_append, List.length_singleton]
    exact hlen
  · exact h.idle q c' (of_setCall Call.noConfusion hq)
  · exact absurd (h.asleep q c' (of_setCall Call.noConfusion hq)) hlen.ne

theorem take {x : UInt8} (h : Inv s (x :: xs) hand) (hp : s.call p = .start) (hidle : s.thr = none) :
    hand = [] ∧ s.buf (entry UART_TX_BUF_SIZE s.r) = x ∧
      Inv { s with call := Function.update (fun q => (s.call q).awake) p (.sending x), r := s.r + 1 } xs [x] := by
  have hholds : (s.call p).holds = true := by
    rw [hp]
    rfl
  have hself : Function.update (fun q => (s.call q).awake) p (.sending x) p = .sending x := Function.update_self ..
  have hother {q : ι} (hqp : q ≠ p) : Function.update (fun q => (s.call q).awake) p (.sending x) q = (s.call q).awake :=
    Function.update_of_ne hqp ..
  refine ⟨h.hand_nil hholds (fun _ heq => Call.noConfusion (hp.symm.trans heq)), h.queued.1, h.queued.2,
    Nat.le_of_succ_le h.room, fun q => ?_, fun q c hq => ⟨hidle, ?_⟩, fun hnone => absurd hself (hnone p x),
    fun q c hq => ?_, fun _ => .inr (.inr ⟨p, congrArg Call.works hself⟩)⟩
  · change (Function.update (fun q => (s.call q).awake) p (.sending x) q).holds = true ↔ s.lock = some q
    by_cases hqp : q = p
    · rw [hqp, hself, ← h.lock, hp]
      rfl
    · rw [hother hqp, awake_holds, h.lock]
  · change Function.update (fun q => (s.call q).awake) p (.sending x) q = .sending c at hq
    by_cases hqp : q = p
    · rw [hqp, hself] at hq
      rw [Call.sending.inj hq]
    · rw [hother hqp, awake_sending] at hq
      have hq' : (s.call q).holds = true := by
        rw [hq]
        rfl
      exact absurd (h.holder hholds hq') hqp
  · change Function.update (fun q => (s.call q).awake) p (.sending x) q = .asleep c at hq
    by_cases hqp : q = p
    · rw [hqp, hself] at hq
      cases hq
    · exact absurd ((hother hqp).symm.trans hq) (awake_ne _ c)

theorem write (h : Inv s xs hand) (hp : s.call p = .sending c) :
    s.thr = none ∧ hand = [c] ∧ Inv { s.setCall p .start with thr := some c } xs [] := by
  obtain ⟨hthr, hhand⟩ := h.idle p c hp
  refine ⟨hthr, hhand, h.queued, h.room, h.lock_keep (by rw [hp]; rfl), fun q c' hq => ?_, fun _ => rfl,
    fun q c' hq => ?_, fun _ => .inl rfl⟩
  · have hold := of_setCall Call.noConfusion hq
    obtain rfl : q = p := h.holder (by rw [hp]; rfl) (by rw [hold]; rfl)
    cases setCall_self.symm.trans hq
  · exact h.asleep q c' (of_setCall Call.noConfusion hq)

/-- A step keeps the invariant, and the bytes but for the one that it puts into the buffer. -/
theorem step (h : Inv s xs hand) (hs : System.step e s = some s') :
    ∃ xs' hand', Inv s' xs' hand' ∧ s'.bytes hand' xs' = s.bytes hand xs ++ e.byte := by
  cases e with
  | uartputc p c =>
      simp only [System.step, Option.ite_none_right_eq_some, Option.some.injEq] at hs
      obtain ⟨hp, rfl⟩ := hs
      exact ⟨xs, hand, h.change s.lock s.irq (h.lock_keep (by rw [hp]; rfl)) (by simp [hp]) (fun _ => Call.noConfusion)
        (.inr (.inl ⟨by rw [hp]; rfl, rfl⟩)), (List.append_nil _).symm⟩
  | uartintr p =>
      simp only [System.step, Option.ite_none_right_eq_some, Option.some.injEq] at hs
      obtain ⟨hp, rfl⟩ := hs
      exact ⟨xs, hand, h.change s.lock false (h.lock_keep (by rw [hp]; rfl)) (by simp [hp]) (fun _ => Call.noConfusion)
        (.inl rfl), (List.append_nil _).symm⟩
  | acquire p =>
      rw [System.step, Option.ite_none_right_eq_some] at hs
      obtain ⟨hnone, hs⟩ := hs
      have hfree := Option.isNone_iff_eq_none.mp hnone
      cases hp : s.call p with
      | putAcquire c =>
          rw [hp] at hs
          obtain rfl := Option.some.inj hs
          exact ⟨xs, hand, h.change (some p) s.irq (h.lock_acquire hfree rfl) (by simp [hp]) (fun _ => Call.noConfusion)
            (.inr (.inl ⟨by rw [hp]; rfl, rfl⟩)), (List.append_nil _).symm⟩
      | intrAcquire =>
          rw [hp] at hs
          obtain rfl := Option.some.inj hs
          exact ⟨xs, hand, h.change (some p) s.irq (h.lock_acquire hfree rfl) (by simp [hp]) (fun _ => Call.noConfusion)
            (.inl rfl), (List.append_nil _).symm⟩
      | _ =>
          rw [hp] at hs
          cases hs
  | sleep p =>
      simp only [System.step] at hs
      split at hs
      · rename_i c hp
        simp only [Option.ite_none_right_eq_some, Option.some.injEq] at hs
        obtain ⟨hfull, rfl⟩ := hs
        exact ⟨xs, hand, h.change none s.irq (h.lock_release (by rw [hp]; rfl) rfl) (by simp [hp])
          (fun _ _ => h.full_iff.mp hfull) (.inr (.inl ⟨by rw [hp]; rfl, rfl⟩)), (List.append_nil _).symm⟩
      · cases hs
  | put p c =>
      simp only [System.step, Option.ite_none_right_eq_some, Option.some.injEq] at hs
      obtain ⟨⟨hp, hroom⟩, rfl⟩ := hs
      exact ⟨xs ++ [c], hand, h.put hp hroom, (List.append_assoc ..).symm⟩
  | take p =>
      simp only [System.step, Option.ite_none_right_eq_some, Option.some.injEq] at hs
      obtain ⟨⟨hp, hne, hidle⟩, rfl⟩ := hs
      cases xs with
      | nil => exact absurd h.queued.symm hne
      | cons x xs =>
          obtain ⟨rfl, hx, htake⟩ := h.take hp hidle
          rw [hx]
          exact ⟨xs, [x], htake, by simp [System.bytes, Event.byte]⟩
  | write p =>
      simp only [System.step] at hs
      split at hs
      · rename_i c hp
        obtain rfl := Option.some.inj hs
        obtain ⟨hthr, rfl, hwrite⟩ := h.write hp
        exact ⟨xs, [], hwrite, by simp [System.bytes, Event.byte, System.setCall, hthr]⟩
      · cases hs
  | ret p =>
      simp only [System.step, Option.ite_none_right_eq_some, Option.some.injEq] at hs
      obtain ⟨⟨hp, hdone⟩, rfl⟩ := hs
      refine ⟨xs, hand, h.change none s.irq (h.lock_release (by rw [hp]; rfl) rfl) (by simp [hp])
        (fun _ => Call.noConfusion) (.inr (.inr ?_)), (List.append_nil _).symm⟩
      exact hdone.imp h.eq_nil Option.isSome_iff_ne_none.mpr
  | kill p =>
      obtain rfl := Option.some.inj hs
      refine ⟨xs, hand, h.change s.lock s.irq (h.lock_keep (awake_holds _)) (awake_sending _)
        (fun c hc => absurd hc (awake_ne _ c)) ?_, (List.append_nil _).symm⟩
      cases hworks : (s.call p).works with
      | true => exact .inl ((awake_works _).trans hworks)
      | false => exact .inr (.inl ⟨rfl, rfl⟩)
  | transmit =>
      simp only [System.step, Option.map_eq_some_iff] at hs
      obtain ⟨c, hthr, rfl⟩ := hs
      obtain ⟨rfl, htransmit⟩ := h.transmit hthr
      exact ⟨xs, [], htransmit, by simp [System.bytes, Event.byte, hthr]⟩

theorem run (hrun : Run System.step (System.boot buf) tr s) : ∃ xs hand, Inv s xs hand ∧ s.bytes hand xs = puts tr := by
  induction hrun with
  | nil => exact ⟨[], [], boot, rfl⟩
  | @snoc tr t e u hrun he ih =>
      obtain ⟨xs, hand, h, hbytes⟩ := ih
      obtain ⟨xs', hand', h', hbytes'⟩ := h.step he
      refine ⟨xs', hand', h', ?_⟩
      rw [hbytes', hbytes, puts, puts, List.flatMap_append, List.flatMap_singleton]

end Inv

variable [DecidableEq ι]

/-- When the lock is free, what has been put into the buffer has been sent in order, but for the byte that the device has and
those in the buffer; a process sleeps on a full buffer only; and bytes do not stay in the buffer while the device is idle,
unless an interrupt or a handler is on its way. -/
theorem uart_sent (hrun : Run System.step (System.boot buf) tr s) (hfree : s.lock = none) :
    ∃ xs, Queued s.buf s.r s.w xs ∧ xs.length ≤ UART_TX_BUF_SIZE ∧ puts tr = s.line ++ s.thr.toList ++ xs ∧
      (∀ p c, s.call p = .asleep c → xs.length = UART_TX_BUF_SIZE) ∧
        (xs ≠ [] → s.thr.isSome = true ∨ s.irq = true ∨ ∃ p, s.call p = .intrAcquire) := by
  obtain ⟨xs, hand, h, hbytes⟩ := Inv.run hrun
  have hnot (p : ι) : (s.call p).holds = false := by
    refine Bool.eq_false_of_not_eq_true fun hp => ?_
    cases hfree.symm.trans ((h.lock p).mp hp)
  obtain rfl : hand = [] := h.empty fun p c hp => by cases (hnot p).symm.trans (congrArg Call.holds hp)
  refine ⟨xs, h.queued, h.room, ?_, h.asleep, fun hne => ?_⟩
  · rw [← hbytes, System.bytes, List.append_nil]
  · refine (h.busy hne).imp_right (Or.imp_right ?_)
    rintro ⟨p, hp⟩
    refine ⟨p, ?_⟩
    have hholds := hnot p
    cases hc : s.call p with
    | intrAcquire => rfl
    | start => cases hholds.symm.trans (congrArg Call.holds hc)
    | sending c => cases hholds.symm.trans (congrArg Call.holds hc)
    | _ => cases (congrArg Call.works hc).symm.trans hp

theorem uart_sent_two :
    ∃ (tr : List (Transition (System Nat) (Event Nat))) (s : System Nat), s.line = [104] ∧ s.thr = some 105 ∧
    ∃ xs, puts tr = s.line ++ s.thr.toList ++ xs := by
  let events : List (Event Nat) := [.uartputc 0 104, .acquire 0, .put 0 104, .take 0, .write 0, .uartputc 1 105, .ret 0,
    .acquire 1, .put 1 105, .ret 1, .transmit, .uartintr 9, .acquire 9, .take 9, .write 9, .ret 9]
  have hplay : (final System.step (System.boot fun _ => 0) events).any
      (fun s => s.line = [104] ∧ s.thr = some 105 ∧ s.lock = none) = true := by
    decide +kernel
  obtain ⟨tr, s, hrun, -, hs⟩ := Run.replay hplay
  obtain ⟨hline, hthr, hfree⟩ := of_decide_eq_true hs
  obtain ⟨xs, -, -, hputs, -⟩ := uart_sent hrun hfree
  exact ⟨tr, s, hline, hthr, xs, hputs⟩

end Xv6Mlfq.Uart
