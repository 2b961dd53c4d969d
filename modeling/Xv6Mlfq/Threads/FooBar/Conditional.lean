import Xv6Mlfq.Threads.FooBar.Alternation

/-!
# `FooBar` with condition variables (`conditional_foo_bar.cpp`)
-/

namespace Xv6Mlfq.Threads.FooBar

open Posix

namespace Conditional

/-! ## The program -/

inductive Mutex
  | lock
  deriving DecidableEq

inductive Cond
  | barCond
  | fooCond
  deriving DecidableEq

/-- The statements of `foo` and of `bar`, with the local variable `i`. -/
inductive LoopAt
  | test (i : Nat)
  | lock (i : Nat)
  | turn (i : Nat)
  | wait (i : Nat)
  | call (i : Nat)
  | setTurn (i : Nat)
  | signal (i : Nat)
  | unlock (i : Nat)
  | incr (i : Nat)
  | done

structure Shared where
  turn : Nat
  calls : List Call

/-- The loop of a thread, which waits while `turn` is `theirs` and leaves it so. -/
def loop (n theirs : Nat) (wakes signals : Cond) (print : Call) : LoopAt → Instr Empty Mutex Cond Shared LoopAt
  | .test i => .act fun s => some (s, if i < n then .lock i else .done)
  | .lock i => .lock .lock (.turn i)
  | .turn i => .act fun s => some (s, if s.turn = theirs then .wait i else .call i)
  | .wait i => .condWait wakes .lock (.turn i)
  | .call i => .act fun s => some ({ s with calls := s.calls ++ [print] }, .setTurn i)
  | .setTurn i => .act fun s => some ({ s with turn := theirs }, .signal i)
  | .signal i => .condSignal signals (.unlock i)
  | .unlock i => .unlock .lock (.incr i)
  | .incr i => .act fun s => some (s, .test (i + 1))
  | .done => .done

def foo (n : Nat) : LoopAt → Instr Empty Mutex Cond Shared LoopAt := loop n 1 .fooCond .barCond .foo

def bar (n : Nat) : LoopAt → Instr Empty Mutex Cond Shared LoopAt := loop n 0 .barCond .fooCond .bar

def code (n : Nat) : Program (fun _ : Call => LoopAt) Empty Mutex Cond Shared
  | .foo => foo n
  | .bar => bar n

/-- One thread runs `foo` and one runs `bar` on a new object. -/
def start : World (fun _ : Call => LoopAt) Empty Mutex Cond Shared where
  status _ := .ready (.test 0)
  sem := Empty.elim
  owner _ := none
  data := ⟨0, []⟩

/-! ## What a thread knows at a statement -/

def condOf : Call → Cond
  | .foo => .fooCond
  | .bar => .barCond

/-- The value of `turn` that makes the thread wait. -/
def theirs : Call → Nat
  | .foo => 1
  | .bar => 0

theorem code_eq (n : Nat) (t : Call) : code n t = loop n (theirs t) (condOf t) (condOf t.other) t := by
  cases t with
  | _ => rfl

theorem theirs_ne {t : Call} : theirs t.other ≠ theirs t := by
  cases t with
  | foo => exact Nat.zero_ne_one
  | bar => exact Nat.one_ne_zero

namespace LoopAt

/-- The statements between `lock` and `unlock`. -/
def Inside : LoopAt → Prop
  | .test _ | .lock _ | .incr _ | .done => False
  | _ => True

def IsTurn : LoopAt → Prop
  | .turn _ => True
  | _ => False

def IsSignal : LoopAt → Prop
  | .signal _ => True
  | _ => False

/-- What thread `t` knows about `turn`. -/
def Sees (t : Call) (turn : Nat) : LoopAt → Prop
  | .wait _ => turn = theirs t
  | .call _ | .setTurn _ => turn = theirs t.other
  | _ => True

/-- The calls that the thread has made. -/
def made (n : Nat) : LoopAt → Nat
  | .test i | .lock i | .turn i | .wait i | .call i => i
  | .setTurn i | .signal i | .unlock i | .incr i => i + 1
  | .done => n

/-- How often the thread has given the turn to the other one. -/
def passed (n : Nat) : LoopAt → Nat
  | .test i | .lock i | .turn i | .wait i | .call i | .setTurn i => i
  | .signal i | .unlock i | .incr i => i + 1
  | .done => n

def Within (n : Nat) : LoopAt → Prop
  | .test i => i ≤ n
  | .lock i | .turn i | .wait i | .call i | .setTurn i | .signal i | .unlock i | .incr i => i < n
  | .done => True

theorem made_le {n : Nat} {l : LoopAt} (h : l.Within n) : l.made n ≤ n := by
  cases l with
  | done => exact Nat.le_refl n
  | test i => exact h
  | lock i | turn i | wait i | call i => exact Nat.le_of_lt h
  | setTurn i | signal i | unlock i | incr i => exact h

end LoopAt

abbrev LoopStatus := Status Mutex Cond LoopAt

/-- What holds of thread `t` with the status `st`, when the other thread has the status `st'`. -/
structure Knows (n : Nat) (t : Call) (st st' : LoopStatus) (owner : Option Call) (turn : Nat) : Prop where
  owns : owner = some t ↔ st.At LoopAt.Inside
  parks : st.Parks LoopAt.IsTurn
  -- a thread that waits will be woken, or the other one has the turn
  waits : ∀ c m next, st = .waiting c m next → c = condOf t ∧ (turn = theirs t ∨ st'.At LoopAt.IsSignal)
  sees : st.label.Sees t turn
  within : st.label.Within n

structure Turns (n : Nat) (t : Call) (st st' : LoopStatus) (owner : Option Call) (d : Shared) : Prop where
  self : Knows n t st st' owner d.turn
  other : Knows n t.other st' st owner d.turn
  balance : d.turn = theirs t ∧ st.label.passed n + t.lead = st'.label.passed n + 1 ∨
    d.turn = theirs t.other ∧ st.label.passed n + t.lead = st'.label.passed n
  calls : d.calls = alternate (st.label.made n + st'.label.made n)

variable {n turn : Nat} {t : Call} {l l' : LoopAt} {st st' : LoopStatus} {owner : Option Call} {d : Shared}

theorem Turns.swap (h : Turns n t st st' owner d) : Turns n t.other st' st owner d where
  self := h.other
  other := by
    rw [Call.other_other]
    exact h.self
  balance := by
    have hlead := t.lead_add_other
    rw [Call.other_other]
    rcases h.balance with ⟨hturn, hpassed⟩ | ⟨hturn, hpassed⟩
    · exact .inr ⟨hturn, by omega⟩
    · exact .inl ⟨hturn, by omega⟩
  calls := by rw [h.calls, Nat.add_comm]

/-- A thread outside the critical section takes nothing for granted about `turn`. -/
theorem outside (hout : ¬ st.At LoopAt.Inside) (hparks : st.Parks LoopAt.IsTurn) :
    (∀ turn, st.label.Sees t turn) ∧ st.label.made n = st.label.passed n := by
  cases st with
  | ready l =>
      cases l with
      | test i | lock i | incr i | done => exact ⟨fun _ => trivial, rfl⟩
      | _ => exact absurd trivial hout
  | waiting c m next | relocking m next =>
      cases next with
      | turn i => exact ⟨fun _ => trivial, rfl⟩
      | _ => exact hparks.elim

theorem Turns.not_both (h : Turns n t st st' owner d) (hin : st.At LoopAt.Inside) : ¬ st'.At LoopAt.Inside := by
  intro hin'
  have howner := (h.self.owns.mpr hin).symm.trans (h.other.owns.mpr hin')
  exact Call.other_ne (Option.some.inj howner).symm

theorem Turns.turn_eq (h : Turns n t st st' owner d) (hturn : d.turn ≠ theirs t) : d.turn = theirs t.other := by
  rcases h.balance with ⟨hturn', -⟩ | ⟨hturn', -⟩
  · exact absurd hturn' hturn
  · exact hturn'

/-! ## Steps of a thread -/

theorem Turns.act {calls : List Call} (h : Turns n t (.ready l) st' owner d) (hin : l'.Inside ↔ l.Inside)
    (hcalm : ¬ l.IsSignal) (hsees : l'.Sees t d.turn) (hwithin : l'.Within n) (hpassed : l'.passed n = l.passed n)
    (hcalls : calls = alternate (l'.made n + st'.label.made n)) :
    Turns n t (.ready l') st' owner { d with calls := calls } where
  self := {
    owns := h.self.owns.trans hin.symm
    parks := trivial
    waits := by simp
    sees := hsees
    within := hwithin }
  other := { h.other with
    waits := fun c m next hst => by
      obtain ⟨hc, hwake⟩ := h.other.waits c m next hst
      exact ⟨hc, .inl (hwake.resolve_right hcalm)⟩ }
  balance := by
    have hbalance := h.balance
    simp only [Status.label_ready, ← hpassed] at hbalance
    exact hbalance
  calls := hcalls

theorem Turns.call {i : Nat} (h : Turns n t (.ready (.call i)) st' owner d) :
    Turns n t (.ready (.setTurn i)) st' owner { d with calls := d.calls ++ [t] } := by
  obtain ⟨-, hmade⟩ := outside (n := n) (t := t.other) (h.not_both trivial) h.other.parks
  have hturn : d.turn = theirs t.other := h.self.sees
  have hpassed : i + t.lead = st'.label.passed n := by
    rcases h.balance with ⟨hturn', -⟩ | ⟨-, hpassed⟩
    · exact absurd (hturn.symm.trans hturn') theirs_ne
    · exact hpassed
  refine h.act Iff.rfl id hturn h.self.within rfl ?_
  calc
    d.calls ++ [t] = alternate (i + st'.label.made n) ++ [nth (i + (i + t.lead))] := by rw [nth_eq, h.calls]; rfl
    _ = alternate (i + st'.label.made n + 1) := by rw [alternate_succ, hmade, hpassed]
    _ = alternate (i + 1 + st'.label.made n) := by rw [Nat.add_right_comm]

/-- The turn goes to the other thread, which is outside the critical section. -/
theorem Turns.setTurn {i : Nat} (h : Turns n t (.ready (.setTurn i)) st' owner d) :
    Turns n t (.ready (.signal i)) st' owner { d with turn := theirs t } where
  self := {
    owns := h.self.owns
    parks := trivial
    waits := by simp
    sees := trivial
    within := h.self.within }
  other := {
    owns := h.other.owns
    parks := h.other.parks
    waits := fun c m next hst => ⟨(h.other.waits c m next hst).1, .inr trivial⟩
    sees := (outside (n := n) (h.not_both trivial) h.other.parks).1 _
    within := h.other.within }
  balance := by
    have hturn : d.turn = theirs t.other := h.self.sees
    rcases h.balance with ⟨hturn', -⟩ | ⟨-, hpassed⟩
    · exact absurd (hturn.symm.trans hturn') theirs_ne
    · refine .inl ⟨rfl, ?_⟩
      rw [← hpassed]
      exact Nat.add_right_comm i 1 t.lead
  calls := h.calls

/-- The thread gets the mutex, in `lock` or in `pthread_cond_wait`. -/
theorem Turns.locks {i : Nat} (h : Turns n t st st' none d) (hcalm : ¬ st.At LoopAt.IsSignal)
    (hwithin : i < n) (hpassed : st.label.passed n = i) (hmade : st.label.made n = i) :
    Turns n t (.ready (.turn i)) st' (some t) d where
  self := {
    owns := iff_of_true rfl trivial
    parks := trivial
    waits := by simp
    sees := trivial
    within := hwithin }
  other := { h.other with
    owns := iff_of_false (fun he => Call.other_ne (Option.some.inj he).symm)
      fun hin => Option.some_ne_none _ (h.other.owns.mpr hin).symm
    waits := fun c m next hst => by
      obtain ⟨hc, hwake⟩ := h.other.waits c m next hst
      exact ⟨hc, .inl (hwake.resolve_right hcalm)⟩ }
  balance := by
    have hbalance := h.balance
    rw [hpassed] at hbalance
    exact hbalance
  calls := by
    have hcalls := h.calls
    rw [hmade] at hcalls
    exact hcalls

/-- The thread gives the mutex back, in `unlock` or in `pthread_cond_wait`. -/
theorem Turns.releases (h : Turns n t (.ready l) st' owner d) (hin : l.Inside) (hcalm : ¬ l.IsSignal)
    (hout : ¬ st.At LoopAt.Inside) (hparks : st.Parks LoopAt.IsTurn)
    (hwaits : ∀ c m next, st = .waiting c m next → c = condOf t ∧ d.turn = theirs t) (hwithin : st.label.Within n)
    (hpassed : st.label.passed n = l.passed n) (hmade : st.label.made n = l.made n) : Turns n t st st' none d where
  self := {
    owns := iff_of_false (Option.some_ne_none _).symm hout
    parks := hparks
    waits := fun c m next hst => ⟨(hwaits c m next hst).1, .inl (hwaits c m next hst).2⟩
    sees := (outside (n := n) hout hparks).1 _
    within := hwithin }
  other := { h.other with
    owns := iff_of_false (Option.some_ne_none _).symm (h.not_both hin)
    waits := fun c m next hst => by
      obtain ⟨hc, hwake⟩ := h.other.waits c m next hst
      exact ⟨hc, .inl (hwake.resolve_right hcalm)⟩ }
  balance := by
    rw [hpassed]
    exact h.balance
  calls := by
    rw [hmade]
    exact h.calls

/-- The signal wakes the other thread if it waits. -/
theorem Turns.signals {i : Nat} {new : LoopStatus} (h : Turns n t (.ready (.signal i)) st' owner d)
    (hnew : new = st' ∨ new = st'.wake) (hwoken : ∀ m next, new ≠ .waiting (condOf t.other) m next) :
    Turns n t (.ready (.unlock i)) new owner d := by
  have hin : new.At LoopAt.Inside ↔ st'.At LoopAt.Inside := by
    rcases hnew with rfl | rfl
    · exact Iff.rfl
    · exact Status.at_wake
  have hlabel : new.label = st'.label := by
    rcases hnew with rfl | rfl
    · rfl
    · exact Status.label_wake
  have hparks : new.Parks LoopAt.IsTurn := by
    rcases hnew with rfl | rfl
    · exact h.other.parks
    · exact Status.parks_wake.mpr h.other.parks
  have hawake : ∀ c m next, new ≠ .waiting c m next := by
    intro c m next hst
    rcases hnew with rfl | rfl
    · obtain ⟨rfl, -⟩ := h.other.waits c m next hst
      exact hwoken m next hst
    · exact Status.wake_ne_waiting hst
  exact {
    self := {
      owns := h.self.owns
      parks := trivial
      waits := by simp
      sees := trivial
      within := h.self.within }
    other := {
      owns := h.other.owns.trans hin.symm
      parks := hparks
      waits := fun c m next hst => absurd hst (hawake c m next)
      sees := by rw [hlabel]; exact h.other.sees
      within := by rw [hlabel]; exact h.other.within }
    balance := by rw [hlabel]; exact h.balance
    calls := by rw [hlabel]; exact h.calls }

/-! ## What is left to do -/

/-- Iterations count for 20, so that the wakeup of the other thread is paid for by the signal. -/
def LoopAt.left (n : Nat) : LoopAt → Nat
  | .test i => 20 * (n - i) + 1
  | .lock i => 20 * (n - i)
  | .turn i => 20 * (n - i) - 2
  | .wait i => 20 * (n - i) - 3
  | .call i => 20 * (n - i) - 5
  | .setTurn i => 20 * (n - i) - 6
  | .signal i => 20 * (n - i) - 7
  | .unlock i => 20 * (n - i) - 15
  | .incr i => 20 * (n - i) - 16
  | .done => 0

def left (n : Nat) : LoopStatus → Nat
  | .ready l => l.left n
  | .waiting _ _ next => next.left n - 2
  | .relocking _ next => next.left n + 1

theorem left_wake : left n st.wake ≤ left n st + 3 := by
  cases st with
  | ready l => exact Nat.le_add_right ..
  | waiting c m next =>
      simp only [Status.wake, left]
      omega
  | relocking m next => exact Nat.le_add_right ..

/-! ## Every state that is reached -/

abbrev State := World (fun _ : Call => LoopAt) Empty Mutex Cond Shared

def Inv (n : Nat) (w : State) : Prop :=
  Turns n .foo (w.status .foo) (w.status .bar) (w.owner .lock) w.data

def total (n : Nat) (w : State) : Nat := left n (w.status .foo) + left n (w.status .bar)

variable {w w' : State}

theorem inv_iff (t : Call) : Inv n w ↔ Turns n t (w.status t) (w.status t.other) (w.owner .lock) w.data := by
  cases t with
  | foo => exact Iff.rfl
  | bar => exact ⟨Turns.swap, Turns.swap⟩

theorem Inv.start (n : Nat) : Inv n start where
  self := ⟨by simp [Conditional.start, Status.At, LoopAt.Inside], trivial, by simp [Conditional.start], trivial,
    Nat.zero_le n⟩
  other := ⟨by simp [Conditional.start, Status.At, LoopAt.Inside], trivial, by simp [Conditional.start], trivial,
    Nat.zero_le n⟩
  balance := .inr ⟨rfl, rfl⟩
  calls := rfl

theorem Inv.moved (hself : w'.status t = st) (hother : w'.status t.other = w.status t.other)
    (hturns : Turns n t st (w.status t.other) (w'.owner .lock) w'.data) (hleft : left n st < left n (w.status t)) :
    Inv n w' ∧ total n w' < total n w := by
  constructor
  · rw [inv_iff t, hself, hother]
    exact hturns
  · refine sum_lt (fun s => left n (w.status s)) (fun s => left n (w'.status s)) t ?_ ?_
    · simpa only [hself] using hleft
    · simp only [hother]

theorem Inv.signalled {i : Nat} (hturns : Turns n t (.ready (.signal i)) (w.status t.other) (w.owner .lock) w.data)
    (hs : Signalled t (condOf t.other) (.unlock i) w w') (hat : w.status t = .ready (.signal i)) (hi : i < n) :
    Inv n w' ∧ total n w' < total n w := by
  have hnew := hs.others t.other Call.other_ne
  have hleft : left n (w'.status t.other) ≤ left n (w.status t.other) + 3 := by
    rcases hnew with he | he
    · exact he ▸ Nat.le_add_right ..
    · exact he ▸ left_wake
  constructor
  · rw [inv_iff t, hs.self, hs.owner, hs.data]
    refine hturns.signals hnew fun m next hst => ?_
    refine hs.woken t.other Call.other_ne (fun v hv => ?_) ⟨m, next, hst⟩
    rcases Call.eq_or_other v t with rfl | rfl
    · obtain ⟨m, next, hv⟩ := hv
      cases hat.symm.trans hv
    · rfl
  · have hself : left n (w'.status t) + 8 ≤ left n (w.status t) := by
      simp only [hat, hs.self, left, LoopAt.left]
      omega
    cases t with
    | foo =>
        simp only [total, Call.other] at hleft hself ⊢
        omega
    | bar =>
        simp only [total, Call.other] at hleft hself ⊢
        omega

/-- A step of thread `t` from a statement preserves the invariant, and leaves less to do. -/
theorem Inv.fires (h : Inv n w) (hat : w.status t = .ready l)
    (hf : Fires t (loop n (theirs t) (condOf t) (condOf t.other) t l) w w') : Inv n w' ∧ total n w' < total n w := by
  have hturns := (inv_iff t).mp h
  rw [hat] at hturns
  have hwithin : l.Within n := hturns.self.within
  cases l with
  | test i =>
      obtain ⟨d, next, he, rfl⟩ := hf.of_act
      cases he
      have hi : i ≤ n := hwithin
      by_cases hlt : i < n
      · simp only [if_pos hlt]
        refine Inv.moved World.set_self set_other (hturns.act Iff.rfl id trivial hlt rfl hturns.calls) ?_
        rw [hat]
        exact Nat.lt_succ_self _
      · obtain rfl : i = n := by omega
        simp only [if_neg hlt]
        refine Inv.moved World.set_self set_other (hturns.act Iff.rfl id trivial trivial rfl hturns.calls) ?_
        rw [hat]
        exact Nat.succ_pos _
  | lock i =>
      obtain ⟨hfree, rfl⟩ := hf.of_lock
      have hi : i < n := hwithin
      rw [hfree] at hturns
      refine Inv.moved World.set_self set_other ?_ ?_
      · simpa only [World.set_data, Function.update_self] using hturns.locks id hi rfl rfl
      · simp only [hat, left, LoopAt.left]
        omega
  | turn i =>
      obtain ⟨d, next, he, rfl⟩ := hf.of_act
      cases he
      have hi : i < n := hwithin
      by_cases hturn : w.data.turn = theirs t
      · simp only [if_pos hturn]
        refine Inv.moved World.set_self set_other (hturns.act Iff.rfl id hturn hi rfl hturns.calls) ?_
        simp only [hat, left, LoopAt.left]
        omega
      · simp only [if_neg hturn]
        have hmine : w.data.turn = theirs t.other := hturns.turn_eq hturn
        refine Inv.moved World.set_self set_other (hturns.act Iff.rfl id hmine hi rfl hturns.calls) ?_
        simp only [hat, left, LoopAt.left]
        omega
  | wait i =>
      obtain ⟨-, rfl⟩ := hf.of_condWait
      have hi : i < n := hwithin
      have hwaits : ∀ c m next, (.waiting (condOf t) .lock (.turn i) : LoopStatus) = .waiting c m next →
          c = condOf t ∧ w.data.turn = theirs t := by
        intro c m next hst
        cases hst
        exact ⟨rfl, hturns.self.sees⟩
      have hturns' : Turns n t (.waiting (condOf t) .lock (.turn i)) (w.status t.other) none w.data :=
        hturns.releases trivial id id trivial hwaits hi rfl rfl
      refine Inv.moved World.set_self set_other ?_ ?_
      · simpa only [World.set_data, Function.update_self] using hturns'
      · simp only [hat, left, LoopAt.left]
        omega
  | call i =>
      obtain ⟨d, next, he, rfl⟩ := hf.of_act
      cases he
      have hi : i < n := hwithin
      refine Inv.moved World.set_self set_other hturns.call ?_
      simp only [hat, left, LoopAt.left]
      omega
  | setTurn i =>
      obtain ⟨d, next, he, rfl⟩ := hf.of_act
      cases he
      have hi : i < n := hwithin
      refine Inv.moved World.set_self set_other hturns.setTurn ?_
      simp only [hat, left, LoopAt.left]
      omega
  | signal i =>
      have hs := hf.of_condSignal
      have hi : i < n := hwithin
      exact Inv.signalled hturns hs hat hi
  | unlock i =>
      obtain ⟨-, rfl⟩ := hf.of_unlock
      have hi : i < n := hwithin
      have hturns' : Turns n t (.ready (.incr i)) (w.status t.other) none w.data :=
        hturns.releases trivial id id trivial (by simp) hi rfl rfl
      refine Inv.moved World.set_self set_other ?_ ?_
      · simpa only [World.set_data, Function.update_self] using hturns'
      · simp only [hat, left, LoopAt.left]
        omega
  | incr i =>
      obtain ⟨d, next, he, rfl⟩ := hf.of_act
      cases he
      have hi : i < n := hwithin
      refine Inv.moved World.set_self set_other (hturns.act Iff.rfl id trivial hi rfl hturns.calls) ?_
      simp only [hat, left, LoopAt.left]
      omega
  | done => exact hf.of_done.elim

theorem Inv.relock {m : Mutex} {next : LoopAt} (h : Inv n w) (hat : w.status t = .relocking m next)
    (hfree : w.owner m = none) :
    Inv n { w.set t (.ready next) with owner := Function.update w.owner m (some t) } ∧
      total n { w.set t (.ready next) with owner := Function.update w.owner m (some t) } < total n w := by
  have hturns := (inv_iff t).mp h
  rw [hat] at hturns
  have hparks : next.IsTurn := hturns.self.parks
  cases m with
  | lock => cases next with
    | turn i =>
        have hi : i < n := hturns.self.within
        rw [hfree] at hturns
        refine Inv.moved World.set_self set_other ?_ ?_
        · simpa only [World.set_data, Function.update_self] using hturns.locks id hi rfl rfl
        · rw [hat]
          exact Nat.lt_succ_self _
    | _ => exact hparks.elim

theorem Inv.step (h : Inv n w) (hs : Step (code n) w w') : Inv n w' ∧ total n w' < total n w := by
  cases hs with
  | @relock t m next hat hfree => exact h.relock hat hfree
  | @fires t l w' hat hf =>
      rw [code_eq] at hf
      exact h.fires hat hf

/-- A wakeup without a signal takes nothing from the other thread. -/
theorem Inv.spurious (h : Inv n w) (hs : Spurious w w') : Inv n w' := by
  cases hs with
  | @wake t c m next hat =>
      have hturns := (inv_iff t).mp h
      rw [hat] at hturns
      rw [inv_iff t, World.set_self, set_other]
      exact {
        self := { hturns.self with waits := by simp }
        other := { hturns.other with
          waits := fun c m next hst => by
            obtain ⟨hc, hwake⟩ := hturns.other.waits c m next hst
            exact ⟨hc, .inl (hwake.resolve_right id)⟩ }
        balance := hturns.balance
        calls := hturns.calls }

theorem Inv.reaches (h : Reaches (code n) Conditional.start w) : Inv n w :=
  h.invariant (.start n) (fun _ _ hinv hs => (hinv.step hs).1) fun _ _ hinv hs => hinv.spurious hs

/-! ## Alternation -/

theorem Inv.order (h : Inv n w) : w.data.calls <+: fooBar n := by
  rw [h.calls, ← alternate_double]
  exact alternate_le (Nat.add_le_add (LoopAt.made_le h.self.within) (LoopAt.made_le h.other.within))

/-- The thread has finished, or waits for the other one. -/
def Rests (st : LoopStatus) : Prop := st = .ready .done ∨ ∃ c i, st = .waiting c .lock (.turn i)

/-- A thread rests only when it cannot move, unless the other thread has the mutex. -/
theorem Inv.moves (h : Inv n w) (t : Call) (hin : (w.status t).At LoopAt.Inside ∨ w.owner .lock = none) :
    (∃ w', Step (code n) w w') ∨ Rests (w.status t) := by
  have hturns := (inv_iff t).mp h
  generalize hst : w.status t = st at hin hturns
  cases st with
  | ready l =>
      have hstep : Enabled t w (loop n (theirs t) (condOf t) (condOf t.other) t l) → ∃ w', Step (code n) w w' :=
        fun hen => Enabled.step hst (by rwa [code_eq])
      cases l with
      | done => exact .inr (.inl rfl)
      | lock i => exact .inl (hstep (hin.resolve_left id))
      | wait i | unlock i => exact .inl (hstep (hturns.self.owns.mpr trivial))
      | signal i => exact .inl (hstep trivial)
      | _ => exact .inl (hstep rfl)
  | waiting c m next =>
      have hparks : next.IsTurn := hturns.self.parks
      cases m with
      | lock => cases next with
        | turn i => exact .inr (.inr ⟨c, i, rfl⟩)
        | _ => exact hparks.elim
  | relocking m next => exact .inl (exists_relock hst (hin.resolve_left id))

/-- A thread that waits is owed a signal, so the other one does not rest. -/
theorem Turns.not_rests {i : Nat} {c : Cond} (h : Turns n t (.waiting c .lock (.turn i)) st' owner d)
    (hrest : Rests st') : False := by
  have hi : i < n := h.self.within
  have hlead := t.lead_add_other
  have hwaits := (h.self.waits c .lock (.turn i) rfl).2
  rcases hrest with rfl | ⟨c', j, rfl⟩
  · have hturn := hwaits.resolve_right id
    rcases h.balance with ⟨-, hpassed⟩ | ⟨hturn', -⟩
    · have hpassed : i + t.lead = n + 1 := hpassed
      omega
    · exact theirs_ne (hturn'.symm.trans hturn)
  · have hturn := hwaits.resolve_right id
    have hturn' := (h.other.waits c' .lock (.turn j) rfl).2.resolve_right id
    exact theirs_ne (hturn'.symm.trans hturn)

theorem Inv.rests (h : Inv n w) (hrest : ∀ t, Rests (w.status t)) (t : Call) : w.status t = .ready .done := by
  have hturns := (inv_iff t).mp h
  rcases hrest t with hdone | ⟨c, i, hst⟩
  · exact hdone
  · rw [hst] at hturns
    exact (hturns.not_rests (hrest t.other)).elim

/-- If neither thread is in the critical section, the mutex is free. -/
theorem Inv.free (h : Inv n w) (hout : ∀ t, ¬ (w.status t).At LoopAt.Inside) : w.owner .lock = none := by
  cases howner : w.owner .lock with
  | none => rfl
  | some t => exact absurd (((inv_iff t).mp h).self.owns.mp howner) (hout t)

theorem Inv.live (h : Inv n w) : Finished (code n) w ∨ ∃ w', Step (code n) w w' := by
  by_cases hin : ∃ t, (w.status t).At LoopAt.Inside
  · obtain ⟨t, hin⟩ := hin
    rcases h.moves t (.inl hin) with hs | hdone | ⟨c, i, hst⟩
    · exact .inr hs
    · rw [hdone] at hin
      exact hin.elim
    · rw [hst] at hin
      exact hin.elim
  · have hfree := h.free (not_exists.mp hin)
    by_cases hs : ∃ w', Step (code n) w w'
    · exact .inr hs
    · have hdone := h.rests fun t => (h.moves t (.inr hfree)).resolve_left hs
      refine .inl fun t => ⟨.done, hdone t, ?_⟩
      cases t with
      | _ => rfl

theorem Inv.complete (h : Inv n w) (hfin : Finished (code n) w) : w.data.calls = fooBar n := by
  have hdone : ∀ t, w.status t = .ready .done := by
    intro t
    obtain ⟨l, hl, hdone⟩ := hfin t
    rw [code_eq] at hdone
    cases l with
    | done => exact hl
    | _ => cases hdone
  rw [h.calls, hdone, hdone]
  exact alternate_double n

/-- In every interleaving of the two threads. -/
theorem alternation (h : Reaches (code n) Conditional.start w) : Alternation (code n) Shared.calls n w where
  order := (Inv.reaches h).order
  live := (Inv.reaches h).live
  complete := (Inv.reaches h).complete

theorem exists_complete (n : Nat) : ∃ w, Reaches (code n) Conditional.start w ∧ Finished (code n) w := by
  obtain ⟨w, hw, -, hfin⟩ := exists_finished (I := Inv n) (total n) (fun w h => h.live)
    (fun w w' h hs => (h.step hs).1) (fun w w' h hs => (h.step hs).2) (.start n)
  exact ⟨w, hw, hfin⟩

end Conditional

end Xv6Mlfq.Threads.FooBar
