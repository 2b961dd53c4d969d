import Xv6Mlfq.Threads.Broadcast
import Xv6Mlfq.Threads.PrintInOrder.Order

/-!
# Print in order with a condition variable (`conditional_print_in_order.cpp`)
-/

namespace Xv6Mlfq.Threads.PrintInOrder

open Posix

namespace Conditional

/-! ## The program -/

inductive Mutex
  | mutex
  deriving DecidableEq

inductive Cond
  | c

/-- The statements of the methods; `first` does not test `done`, and `third` does not set it. -/
inductive At
  | lock
  | test
  | wait
  | print
  | setDone
  | broadcast
  | unlock
  | done

structure Shared where
  done : Nat
  calls : List Call

/-- A method that goes on with `entry` when it has the mutex, waits while `done` is not `v`, and goes on with `exit`
when it has called. -/
def method (entry : At) (v : Nat) (print : Call) (exit : At) : At → Stmt Empty Mutex Cond Shared At
  | .lock => .plain (.lock .mutex entry)
  | .test => .plain (.act fun s => some (s, if s.done ≠ v then .wait else .print))
  | .wait => .plain (.condWait .c .mutex .test)
  | .print => .plain (.act fun s => some ({ s with calls := s.calls ++ [print] }, exit))
  | .setDone => .plain (.act fun s => some ({ s with done := v + 1 }, .broadcast))
  | .broadcast => .condBroadcast .c .unlock
  | .unlock => .plain (.unlock .mutex .done)
  | .done => .plain .done

def first : At → Stmt Empty Mutex Cond Shared At := method .print 0 .first .setDone

def second : At → Stmt Empty Mutex Cond Shared At := method .test 1 .second .setDone

def third : At → Stmt Empty Mutex Cond Shared At := method .test 2 .third .unlock

def code : Script (fun _ : Call => At) Empty Mutex Cond Shared
  | .first => first
  | .second => second
  | .third => third

/-- One thread for each method of a new object. -/
def start : World (fun _ : Call => At) Empty Mutex Cond Shared where
  status _ := .ready .lock
  sem := Empty.elim
  owner _ := none
  data := ⟨0, []⟩

/-! ## What a thread knows at a statement -/

def entry : Call → At
  | .first => .print
  | .second | .third => .test

def exit : Call → At
  | .first | .second => .setDone
  | .third => .unlock

theorem code_eq (t : Call) : code t = method (entry t) t.rank t (exit t) := by
  cases t with
  | _ => rfl

namespace At

/-- The statements between `pthread_mutex_lock` and `pthread_mutex_unlock`. -/
def Inside : At → Prop
  | .lock | .done => False
  | _ => True

def IsTest : At → Prop
  | .test => True
  | _ => False

/-- What a thread whose turn has the number `v` knows about `done`. -/
def Sees (v done : Nat) : At → Prop
  | .wait => done ≠ v
  | .print | .setDone => done = v
  | _ => True

def made : At → Nat
  | .setDone | .broadcast | .unlock | .done => 1
  | _ => 0

/-- The thread has set `done`, if it does so at all. -/
def Passed : At → Prop
  | .broadcast | .unlock | .done => True
  | _ => False

/-- `third` never sets `done`. -/
def Allowed (t : Call) : At → Prop
  | .setDone | .broadcast => t ≠ .third
  | _ => True

/-- The wakeups of the other threads are paid for by the broadcast. -/
def left : At → Nat
  | .lock => 30
  | .test => 28
  | .wait => 27
  | .print => 25
  | .setDone => 24
  | .broadcast => 23
  | .unlock => 10
  | .done => 0

end At

abbrev AtStatus := Status Mutex Cond At

def left : AtStatus → Nat
  | .ready l => l.left
  | .waiting _ _ _ => 26
  | .relocking _ _ => 29

abbrev State := World (fun _ : Call => At) Empty Mutex Cond Shared

/-- A thread that waits has still to wait, or is about to be woken. -/
def Awaits (w : State) (t : Call) : Prop := w.data.done ≠ t.rank ∨ ∃ u, w.status u = .ready .broadcast

/-- What holds of thread `t` with the status `st`. -/
structure Knows (t : Call) (st : AtStatus) (done : Nat) : Prop where
  parks : st.Parks At.IsTest
  sees : st.label.Sees t.rank done
  allowed : st.label.Allowed t
  passed : t ≠ .third → (st.label.Passed ↔ t.rank < done)
  last : t = .third → st.label.Passed → done = 2

def made (w : State) : Nat := Call.sum fun t => (w.status t).label.made

def total (w : State) : Nat := Call.sum fun t => left (w.status t)

structure Inv (w : State) : Prop where
  owns : ∀ t, w.owner .mutex = some t ↔ (w.status t).At At.Inside
  waits : ∀ t, w.WaitsOn .c t → Awaits w t
  knows : ∀ t, Knows t (w.status t) w.data.done
  bound : w.data.done ≤ 2
  calls : w.data.calls = inOrder.take (made w)

variable {w w' : State} {t : Call} {st : AtStatus} {l : At} {done : Nat}

theorem Inv.start : Inv Conditional.start where
  owns _ := ⟨fun h => (by cases h), fun h => h.elim⟩
  waits t h := by
    obtain ⟨m, next, h⟩ := h
    cases h
  knows t := by
    refine ⟨trivial, trivial, trivial, fun _ => ?_, fun _ h => h.elim⟩
    exact iff_of_false id (Nat.not_lt_zero _)
  bound := Nat.zero_le 2
  calls := rfl

/-! ## Outside the critical section -/

/-- A thread outside takes nothing for granted, and has called if it has set `done`. -/
theorem outside (hout : ¬ st.At At.Inside) (hparks : st.Parks At.IsTest) :
    (∀ v done, st.label.Sees v done) ∧ (st.label.Passed ∧ st.label.made = 1 ∨ ¬ st.label.Passed ∧ st.label.made = 0) := by
  cases st with
  | ready l =>
      cases l with
      | lock => exact ⟨fun _ _ => trivial, .inr ⟨id, rfl⟩⟩
      | done => exact ⟨fun _ _ => trivial, .inl ⟨trivial, rfl⟩⟩
      | _ => exact absurd trivial hout
  | waiting cond m next | relocking m next =>
      cases next with
      | test => exact ⟨fun _ _ => trivial, .inr ⟨id, rfl⟩⟩
      | _ => exact hparks.elim

theorem Inv.alone (h : Inv w) (hin : (w.status t).At At.Inside) {u : Call} (hu : u ≠ t) :
    ¬ (w.status u).At At.Inside := by
  intro hin'
  exact hu (Option.some.inj (((h.owns u).mpr hin').symm.trans ((h.owns t).mpr hin)))

theorem Inv.made_of_ne (h : Inv w) (hin : (w.status t).At At.Inside) (hrank : w.data.done = t.rank) {u : Call}
    (hu : u ≠ t) : (w.status u).label.made = if u.rank < t.rank then 1 else 0 := by
  have hknows := h.knows u
  have hmade := (outside (h.alone hin hu) hknows.parks).2
  by_cases hthird : u = .third
  · subst hthird
    have hlt : ¬ Call.third.rank < t.rank := by
      cases t with
      | _ => decide
    rw [if_neg hlt]
    rcases hmade with ⟨hpassed, -⟩ | ⟨-, hmade⟩
    · have htwo := hknows.last rfl hpassed
      refine absurd ?_ hu
      cases t with
      | third => rfl
      | _ => cases hrank.symm.trans htwo
    · exact hmade
  · rw [← hrank]
    rcases hmade with ⟨hpassed, hmade⟩ | ⟨hpassed, hmade⟩
    · rw [if_pos ((hknows.passed hthird).mp hpassed), hmade]
    · rw [if_neg fun hlt => hpassed ((hknows.passed hthird).mpr hlt), hmade]

/-- The calls that have been made before the call of thread `t`. -/
theorem Inv.made_eq (h : Inv w) (hat : w.status t = .ready .print) : made w = t.rank := by
  have hin : (w.status t).At At.Inside := by
    rw [hat]
    trivial
  have hrank : w.data.done = t.rank := by
    have hsees := (h.knows t).sees
    rw [hat] at hsees
    exact hsees
  have hself : (w.status t).label.made = 0 := by
    rw [hat]
    rfl
  have hne {u : Call} (hu : u ≠ t) := h.made_of_ne hin hrank hu
  simp only [made, Call.sum]
  cases t with
  | first => rw [hself, hne (u := .second) (by decide), hne (u := .third) (by decide)]; rfl
  | second => rw [hself, hne (u := .first) (by decide), hne (u := .third) (by decide)]; rfl
  | third => rw [hself, hne (u := .first) (by decide), hne (u := .second) (by decide)]; rfl

/-! ## Steps of a thread -/

theorem Inv.update {owner : Mutex → Option Call} {data : Shared} (h : Inv w)
    (hcalm : w.status t ≠ .ready .broadcast) (hself : owner .mutex = some t ↔ st.At At.Inside)
    (hothers : ∀ u, u ≠ t → (owner .mutex = some u ↔ w.owner .mutex = some u))
    (hdone : data.done = w.data.done ∨ st = .ready .broadcast)
    (hwaits : ∀ m next, st = .waiting .c m next → data.done ≠ t.rank) (hknows : Knows t st data.done)
    (hknows' : ∀ u, u ≠ t → Knows u (w.status u) data.done) (hbound : data.done ≤ 2)
    (hcalls : data.calls = inOrder.take (made (w.set t st))) (hleft : left st < left (w.status t)) :
    Inv { w.set t st with owner := owner, data := data } ∧
      total { w.set t st with owner := owner, data := data } < total w := by
  refine ⟨⟨fun u => ?_, fun u hu => ?_, fun u => ?_, hbound, hcalls⟩, ?_⟩
  · by_cases hu : u = t
    · subst hu
      simpa only [World.set_self] using hself
    · rw [hothers u hu]
      simpa only [World.set_of_ne hu] using h.owns u
  · obtain ⟨m, next, hwait⟩ := hu
    by_cases hu : u = t
    · subst hu
      exact .inl (hwaits m next (World.set_self.symm.trans hwait))
    · have hawaits := h.waits u ⟨m, next, (World.set_of_ne hu).symm.trans hwait⟩
      rcases hdone with hdone | rfl
      · rcases hawaits with hne | ⟨v, hv⟩
        · exact .inl (hdone ▸ hne)
        · have hvt : v ≠ t := fun he => hcalm (he ▸ hv)
          exact .inr ⟨v, (World.set_of_ne hvt).trans hv⟩
      · exact .inr ⟨t, World.set_self⟩
  · by_cases hu : u = t
    · subst hu
      simpa only [World.set_self] using hknows
    · simpa only [World.set_of_ne hu] using hknows' u hu
  · have hsum := Call.sum_of_ne (f := fun u => left (w.status u)) (g := fun u => left ((w.set t st).status u)) (t := t)
      fun u hu => by rw [World.set_of_ne hu]
    simp only [World.set_self] at hsum
    change total (w.set t st) < total w
    unfold total
    omega

theorem made_set (hmade : st.label.made = (w.status t).label.made) : made (w.set t st) = made w := by
  have hsum := Call.sum_of_ne (f := fun u => (w.status u).label.made)
    (g := fun u => ((w.set t st).status u).label.made) (t := t) fun u hu => by rw [World.set_of_ne hu]
  simp only [World.set_self, hmade] at hsum
  unfold made
  omega

/-- The thread does not change the data. -/
theorem Inv.moved {owner : Mutex → Option Call} (h : Inv w) (hcalm : w.status t ≠ .ready .broadcast)
    (hself : owner .mutex = some t ↔ st.At At.Inside)
    (hothers : ∀ u, u ≠ t → (owner .mutex = some u ↔ w.owner .mutex = some u))
    (hwaits : ∀ m next, st = .waiting .c m next → w.data.done ≠ t.rank) (hknows : Knows t st w.data.done)
    (hmade : st.label.made = (w.status t).label.made) (hleft : left st < left (w.status t)) :
    Inv { w.set t st with owner := owner } ∧ total { w.set t st with owner := owner } < total w :=
  h.update hcalm hself hothers (.inl rfl) hwaits hknows (fun u _ => h.knows u) h.bound
    (by rw [made_set hmade]; exact h.calls) hleft

theorem Inv.print (h : Inv w) (hat : w.status t = .ready .print) :
    Inv { w.set t (.ready (exit t)) with data := { w.data with calls := w.data.calls ++ [t] } } ∧
      total { w.set t (.ready (exit t)) with data := { w.data with calls := w.data.calls ++ [t] } } < total w := by
  have hself := h.owns t
  have hknows := h.knows t
  have hmade := h.made_eq hat
  rw [hat] at hself hknows
  have hrank : w.data.done = t.rank := hknows.sees
  have hsum := Call.sum_of_ne (f := fun u => (w.status u).label.made)
    (g := fun u => ((w.set t (.ready (exit t))).status u).label.made) (t := t) fun u hu => by rw [World.set_of_ne hu]
  have hcalls : w.data.calls ++ [t] = inOrder.take (made (w.set t (.ready (exit t)))) := by
    have hone : ((w.set t (.ready (exit t))).status t).label.made = 1 := by
      rw [World.set_self]
      cases t with
      | _ => rfl
    simp only [hone, hat, Status.label_ready] at hsum
    have hsucc : made (w.set t (.ready (exit t))) = t.rank + 1 := by
      rw [← hmade]
      exact hsum
    rw [hsucc, take_rank, h.calls, hmade]
  refine h.update (by rw [hat]; simp) (hself.trans ?_) (fun _ _ => Iff.rfl) (.inl rfl) (by simp) ?_
    (fun u _ => h.knows u) h.bound hcalls ?_
  · cases t with
    | _ => exact Iff.rfl
  · cases t with
    | first | second => exact ⟨trivial, hrank, Call.noConfusion, hknows.passed, fun he => (by cases he)⟩
    | third => exact ⟨trivial, trivial, trivial, fun he => absurd rfl he, fun _ _ => hrank⟩
  · rw [hat]
    cases t with
    | _ => decide

theorem Inv.setDone (h : Inv w) (hat : w.status t = .ready .setDone) :
    Inv { w.set t (.ready .broadcast) with data := { w.data with done := t.rank + 1 } } ∧
      total { w.set t (.ready .broadcast) with data := { w.data with done := t.rank + 1 } } < total w := by
  have hself := h.owns t
  have hknows := h.knows t
  have hin : (w.status t).At At.Inside := by
    rw [hat]
    trivial
  rw [hat] at hself hknows
  have hrank : w.data.done = t.rank := hknows.sees
  have hthird : t ≠ .third := hknows.allowed
  refine h.update (by rw [hat]; simp) hself (fun _ _ => Iff.rfl) (.inr rfl) (by simp) ?_ (fun u hu => ?_) ?_ ?_ ?_
  · exact ⟨trivial, trivial, hthird, fun _ => iff_of_true trivial (Nat.lt_succ_self _), fun he => absurd he hthird⟩
  · have hknows' := h.knows u
    have hsees := (outside (h.alone hin hu) hknows'.parks).1 u.rank (t.rank + 1)
    refine { hknows' with sees := hsees, passed := fun hne => ?_, last := fun he hpassed => ?_ }
    · rw [hknows'.passed hne, hrank]
      have hne : u.rank ≠ t.rank := fun he => hu (Call.rank_inj he)
      change u.rank < t.rank ↔ u.rank < t.rank + 1
      omega
    · -- `third` has not finished before `t` has
      have htwo := hknows'.last he hpassed
      cases t with
      | third => exact absurd rfl hthird
      | _ => cases hrank.symm.trans htwo
  · cases t with
    | first => exact Nat.le_succ 1
    | second => exact Nat.le_refl 2
    | third => exact absurd rfl hthird
  · rw [made_set (by rw [hat]; rfl)]
    exact h.calls
  · rw [hat]
    decide

theorem left_wake : left st.wake ≤ left st + 3 := by
  cases st with
  | ready l => exact Nat.le_add_right ..
  | waiting cond m next => exact Nat.le_refl 29
  | relocking m next => exact Nat.le_add_right ..

/-- The broadcast wakes every thread that waits. -/
theorem Inv.broadcast (h : Inv w) (hat : w.status t = .ready .broadcast) (hr : w.Roused .c t .unlock w') :
    Inv w' ∧ total w' < total w := by
  obtain ⟨-, howner, hdata⟩ := hr.same
  have hknows := h.knows t
  have hself := h.owns t
  rw [hat] at hknows hself
  have hlabel : ∀ u, u ≠ t → (w'.status u).label = (w.status u).label := by
    intro u hu
    rcases (hr.other hu).2 with he | he
    · rw [he]
    · rw [he, Status.label_wake]
  refine ⟨⟨fun u => ?_, fun u hu => ?_, fun u => ?_, hdata ▸ h.bound, ?_⟩, ?_⟩
  · rw [howner]
    by_cases hu : u = t
    · subst hu
      rw [hr.self]
      exact hself
    · rcases (hr.other hu).2 with he | he
      · rw [he]
        exact h.owns u
      · rw [he, Status.at_wake]
        exact h.owns u
  · by_cases hu' : u = t
    · subst hu'
      obtain ⟨m, next, hwait⟩ := hu
      cases hr.self.symm.trans hwait
    · exact absurd hu (hr.other hu').1
  · rw [hdata]
    by_cases hu : u = t
    · subst hu
      rw [hr.self]
      exact { hknows with sees := trivial, allowed := trivial }
    · have hknows' := h.knows u
      have hparks : (w'.status u).Parks At.IsTest := by
        rcases (hr.other hu).2 with he | he
        · rw [he]
          exact hknows'.parks
        · rw [he, Status.parks_wake]
          exact hknows'.parks
      have he := hlabel u hu
      exact { parks := hparks, sees := he ▸ hknows'.sees, allowed := he ▸ hknows'.allowed
              passed := fun hne => he ▸ hknows'.passed hne, last := fun ht => he ▸ hknows'.last ht }
  · have hsum := Call.sum_of_ne (f := fun u => (w.status u).label.made) (g := fun u => (w'.status u).label.made) (t := t)
      fun u hu => by rw [hlabel u hu]
    simp only [hr.self, hat, Status.label_ready] at hsum
    have hmade : made w' = made w := Nat.add_right_cancel hsum
    rw [hdata, h.calls, hmade]
  · have hleft : left (w'.status t) + 13 ≤ left (w.status t) := by
      rw [hr.self, hat]
      decide
    have hothers : ∀ u, u ≠ t → left (w'.status u) ≤ left (w.status u) + 3 := by
      intro u hu
      rcases (hr.other hu).2 with he | he
      · rw [he]
        exact Nat.le_add_right ..
      · rw [he]
        exact left_wake
    simp only [total, Call.sum]
    cases t with
    | first =>
        have h₁ := hothers .second (by decide)
        have h₂ := hothers .third (by decide)
        omega
    | second =>
        have h₁ := hothers .first (by decide)
        have h₂ := hothers .third (by decide)
        omega
    | third => exact absurd rfl hknows.allowed

theorem Knows.of_le {l' : At} (h : Knows t (.ready l) done) (hsees : l'.Sees t.rank done) (hallowed : l'.Allowed t)
    (hpassed : l'.Passed ↔ l.Passed) : Knows t (.ready l') done where
  parks := trivial
  sees := hsees
  allowed := hallowed
  passed ht := hpassed.trans (h.passed ht)
  last ht hl := h.last ht (hpassed.mp hl)

/-- The thread gets the mutex. -/
theorem Inv.locks (h : Inv w) (hfree : w.owner .mutex = none) (hcalm : w.status t ≠ .ready .broadcast) (hin : l.Inside)
    (hknows : Knows t (.ready l) w.data.done) (hmade : l.made = (w.status t).label.made)
    (hleft : l.left < left (w.status t)) :
    Inv { w.set t (.ready l) with owner := Function.update w.owner .mutex (some t) } ∧
      total { w.set t (.ready l) with owner := Function.update w.owner .mutex (some t) } < total w := by
  refine h.moved hcalm ?_ (fun u hu => ?_) (by simp) hknows hmade hleft
  · exact iff_of_true (Function.update_self ..) hin
  · rw [Function.update_self, hfree]
    exact iff_of_false (fun he => hu (Option.some.inj he).symm) (Option.some_ne_none u).symm

/-- The thread gives the mutex back. -/
theorem Inv.releases (h : Inv w) (howner : w.owner .mutex = some t) (hcalm : w.status t ≠ .ready .broadcast)
    (hout : ¬ st.At At.Inside) (hwaits : ∀ m next, st = .waiting .c m next → w.data.done ≠ t.rank)
    (hknows : Knows t st w.data.done) (hmade : st.label.made = (w.status t).label.made)
    (hleft : left st < left (w.status t)) :
    Inv { w.set t st with owner := Function.update w.owner .mutex none } ∧
      total { w.set t st with owner := Function.update w.owner .mutex none } < total w := by
  refine h.moved hcalm ?_ (fun u hu => ?_) hwaits hknows hmade hleft
  · rw [Function.update_self]
    exact iff_of_false (Option.some_ne_none t).symm hout
  · rw [Function.update_self, howner]
    exact iff_of_false (Option.some_ne_none u).symm fun he => hu (Option.some.inj he).symm

theorem Inv.fires {instr : Instr Empty Mutex Cond Shared At} (h : Inv w) (hat : w.status t = .ready l)
    (hcode : method (entry t) t.rank t (exit t) l = .plain instr) (hf : Fires t instr w w') :
    Inv w' ∧ total w' < total w := by
  have hknows := h.knows t
  have hself := h.owns t
  have hcalm (hl : l ≠ .broadcast) : w.status t ≠ .ready .broadcast := by
    rw [hat]
    exact fun he => hl (Status.ready.inj he)
  rw [hat] at hknows hself
  cases l with
  | lock =>
      cases hcode
      obtain ⟨hfree, rfl⟩ := hf.of_lock
      refine h.locks hfree (hcalm At.noConfusion) ?_ ?_ ?_ ?_
      · cases t with
        | _ => trivial
      · refine hknows.of_le ?_ ?_ ?_
        · cases t with
          | first =>
              have hnot : ¬ 0 < w.data.done := fun hlt => (hknows.passed Call.noConfusion).mpr hlt
              exact Nat.eq_zero_of_not_pos hnot
          | _ => trivial
        · cases t with
          | _ => trivial
        · cases t with
          | _ => exact Iff.rfl
      · rw [hat]
        cases t with
        | _ => rfl
      · rw [hat]
        cases t with
        | _ => decide
  | test =>
      cases hcode
      obtain ⟨d, next, he, rfl⟩ := hf.of_act
      cases he
      by_cases hdone : w.data.done ≠ t.rank
      · simp only [if_pos hdone]
        refine h.moved (hcalm At.noConfusion) hself (fun _ _ => Iff.rfl) (by simp) ?_ (by rw [hat]; rfl) (by rw [hat]; decide)
        exact hknows.of_le hdone trivial Iff.rfl
      · simp only [if_neg hdone]
        refine h.moved (hcalm At.noConfusion) hself (fun _ _ => Iff.rfl) (by simp) ?_ (by rw [hat]; rfl) (by rw [hat]; decide)
        exact hknows.of_le (not_not.mp hdone) trivial Iff.rfl
  | wait =>
      cases hcode
      obtain ⟨howner, rfl⟩ := hf.of_condWait
      refine h.releases howner (hcalm At.noConfusion) id (fun _ _ _ => hknows.sees) ?_ (by rw [hat]; rfl) (by rw [hat]; decide)
      exact ⟨trivial, trivial, trivial, hknows.passed, hknows.last⟩
  | print =>
      cases hcode
      obtain ⟨d, next, he, rfl⟩ := hf.of_act
      cases he
      exact h.print hat
  | setDone =>
      cases hcode
      obtain ⟨d, next, he, rfl⟩ := hf.of_act
      cases he
      exact h.setDone hat
  | broadcast => cases hcode
  | unlock =>
      cases hcode
      obtain ⟨howner, rfl⟩ := hf.of_unlock
      refine h.releases howner (hcalm At.noConfusion) id (by simp) ?_ (by rw [hat]; rfl) (by rw [hat]; decide)
      exact hknows.of_le trivial trivial Iff.rfl
  | done =>
      cases hcode
      exact hf.of_done.elim

theorem Inv.move (h : Inv w) (hm : Move code w w') : Inv w' ∧ total w' < total w := by
  cases hm with
  | @fires t l instr w' hat hcode hf =>
      rw [code_eq] at hcode
      exact h.fires hat hcode hf
  | @broadcast t l cond next w' hat hcode hr =>
      rw [code_eq] at hcode
      cases l with
      | broadcast =>
          cases hcode
          exact h.broadcast hat hr
      | _ => cases hcode
  | @relock t m next hat hfree =>
      have hknows := h.knows t
      rw [hat] at hknows
      have hparks : next.IsTest := hknows.parks
      cases m with
      | mutex => cases next with
        | test =>
            refine h.locks hfree (by rw [hat]; simp) trivial ?_ (by rw [hat]; rfl) (by rw [hat]; decide)
            exact ⟨trivial, trivial, trivial, hknows.passed, hknows.last⟩
        | _ => exact hparks.elim

/-- A wakeup without a broadcast takes nothing from the others. -/
theorem Inv.spurious (h : Inv w) (hs : Spurious w w') : Inv w' := by
  cases hs with
  | @wake t cond m next hat =>
      have hknows := h.knows t
      have hself := h.owns t
      rw [hat] at hknows hself
      refine ⟨fun u => ?_, fun u hu => ?_, fun u => ?_, h.bound, ?_⟩
      · by_cases hu : u = t
        · subst hu
          rw [World.set_self]
          exact hself
        · rw [World.set_of_ne hu]
          exact h.owns u
      · obtain ⟨m', next', hwait⟩ := hu
        by_cases hu : u = t
        · subst hu
          cases World.set_self.symm.trans hwait
        · rcases h.waits u ⟨m', next', (World.set_of_ne hu).symm.trans hwait⟩ with hne | ⟨v, hv⟩
          · exact .inl hne
          · have hvt : v ≠ t := by
              rintro rfl
              cases hat.symm.trans hv
            exact .inr ⟨v, (World.set_of_ne hvt).trans hv⟩
      · by_cases hu : u = t
        · subst hu
          rw [World.set_self]
          exact ⟨hknows.parks, hknows.sees, hknows.allowed, hknows.passed, hknows.last⟩
        · rw [World.set_of_ne hu]
          exact h.knows u
      · rw [made_set (by rw [hat]; rfl)]
        exact h.calls

theorem Inv.arrives (h : Arrives code Conditional.start w) : Inv w :=
  h.invariant .start (fun _ _ hinv hm => (hinv.move hm).1) fun _ _ hinv hs => hinv.spurious hs

/-! ## The order of the calls -/

/-- A thread cannot move only if it has finished or waits, unless another one has the mutex. -/
theorem Inv.moves (h : Inv w) (t : Call) (hin : (w.status t).At At.Inside ∨ w.owner .mutex = none) :
    (∃ w', Move code w w') ∨ w.status t = .ready .done ∨ w.WaitsOn .c t := by
  have hself := h.owns t
  have hparks := (h.knows t).parks
  generalize hst : w.status t = st at hin hself hparks
  cases st with
  | ready l =>
      have hmove {instr : Instr Empty Mutex Cond Shared At} (hcode : code t l = .plain instr) (hen : Enabled t w instr) :
          ∃ w', Move code w w' := Enabled.move hst hcode hen
      have hcode := congrFun (code_eq t) l
      cases l with
      | done => exact .inr (.inl rfl)
      | lock => exact .inl (hmove hcode (hin.resolve_left id))
      | wait | unlock => exact .inl (hmove hcode (hself.mpr trivial))
      | broadcast => exact .inl (exists_broadcast hst hcode)
      | _ => exact .inl (hmove hcode rfl)
  | waiting cond m next => exact .inr (.inr ⟨m, next, hst⟩)
  | relocking m next => cases m with
    | mutex => exact .inl ⟨_, .relock hst (hin.resolve_left id)⟩

/-- A thread that waits has not set `done`. -/
theorem Inv.not_passed (h : Inv w) (hwaits : w.WaitsOn .c t) : ¬ (w.status t).label.Passed := by
  obtain ⟨m, next, hst⟩ := hwaits
  have hparks := (h.knows t).parks
  rw [hst] at hparks ⊢
  cases next with
  | test => exact id
  | _ => exact hparks.elim

/-- If every thread has finished or waits, the threads before `t` that have finished let it go on. -/
theorem Inv.rests (h : Inv w) (hrest : ∀ t, w.status t = .ready .done ∨ w.WaitsOn .c t) (t : Call) :
    w.status t = .ready .done := by
  have hne (t : Call) (hwaits : w.WaitsOn .c t) : w.data.done ≠ t.rank := by
    refine (h.waits t hwaits).resolve_right ?_
    rintro ⟨u, hu⟩
    rcases hrest u with hdone | ⟨m, next, hwait⟩
    · cases hu.symm.trans hdone
    · cases hu.symm.trans hwait
  have hlt (t : Call) (ht : t ≠ .third) (hdone : w.status t = .ready .done) : t.rank < w.data.done := by
    refine ((h.knows t).passed ht).mp ?_
    rw [hdone]
    trivial
  have hle (t : Call) (ht : t ≠ .third) (hwaits : w.WaitsOn .c t) : ¬ t.rank < w.data.done := fun hlt =>
    h.not_passed hwaits (((h.knows t).passed ht).mpr hlt)
  have hfirst : w.status .first = .ready .done := by
    refine (hrest .first).resolve_right fun hwaits => hne .first hwaits ?_
    exact Nat.eq_zero_of_not_pos (hle .first Call.noConfusion hwaits)
  have hpos : 0 < w.data.done := hlt .first Call.noConfusion hfirst
  have hsecond : w.status .second = .ready .done := by
    refine (hrest .second).resolve_right fun hwaits => hne .second hwaits ?_
    exact Nat.le_antisymm (Nat.not_lt.mp (hle .second Call.noConfusion hwaits)) hpos
  have hone : 1 < w.data.done := hlt .second Call.noConfusion hsecond
  have hthird : w.status .third = .ready .done := by
    refine (hrest .third).resolve_right fun hwaits => hne .third hwaits ?_
    exact Nat.le_antisymm h.bound hone
  cases t with
  | first => exact hfirst
  | second => exact hsecond
  | third => exact hthird

theorem Inv.live (h : Inv w) : Ended code w ∨ ∃ w', Move code w w' := by
  by_cases hin : ∃ t, (w.status t).At At.Inside
  · obtain ⟨t, hin⟩ := hin
    rcases h.moves t (.inl hin) with hm | hdone | ⟨m, next, hwait⟩
    · exact .inr hm
    · rw [hdone] at hin
      exact hin.elim
    · rw [hwait] at hin
      exact hin.elim
  · have hfree : w.owner .mutex = none :=
      Option.eq_none_iff_forall_ne_some.mpr fun t howner => hin ⟨t, (h.owns t).mp howner⟩
    by_cases hm : ∃ w', Move code w w'
    · exact .inr hm
    · have hdone := h.rests fun t => (h.moves t (.inr hfree)).resolve_left hm
      refine .inl fun t => ⟨.done, hdone t, ?_⟩
      rw [code_eq]
      rfl

theorem Inv.complete (h : Inv w) (hend : Ended code w) : w.data.calls = inOrder := by
  have hmade : ∀ t, (w.status t).label.made = 1 := by
    intro t
    obtain ⟨l, hl, hdone⟩ := hend t
    rw [code_eq] at hdone
    rw [hl]
    cases l with
    | done => rfl
    | _ => cases hdone
  have hthree : made w = 3 := by
    simp only [made, Call.sum, hmade]
  rw [h.calls, hthree]
  rfl

/-- In every interleaving of the three threads. -/
theorem ordered (h : Arrives code Conditional.start w) :
    InOrder w.data.calls (Ended code w) (∃ w', Move code w w') where
  order := by
    rw [(Inv.arrives h).calls]
    exact List.take_prefix _ _
  live := (Inv.arrives h).live
  complete := (Inv.arrives h).complete

theorem exists_complete : ∃ w, Arrives code Conditional.start w ∧ Ended code w := by
  obtain ⟨w, hw, -, hend⟩ := exists_ended (I := Inv) total (fun w h => h.live)
    (fun w w' h hm => (h.move hm).1) (fun w w' h hm => (h.move hm).2) .start
  exact ⟨w, hw, hend⟩

end Conditional

end Xv6Mlfq.Threads.PrintInOrder
