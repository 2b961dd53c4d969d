import Xv6Mlfq.Kernel.Lemmas.Outcomes

/-!
# The steps of one hart, by cases

A step calls `yield`, is an iteration of the scheduler, or is `Served`. Every invariant of the machine is proved
by these cases.
-/

namespace Xv6Mlfq.Kernel

open Access Queue Runs

variable {idle : Idle} {m m' : Machine} {e : Event} {k : State} {p : Slot}

theorem clockintr_killed (k : State) (cur : Option Slot) (i : Slot) :
    ((clockintr k cur).proc i).killed = (k.proc i).killed := by
  rw [clockintr, wakeup_proc]
  split_ifs
  · rfl
  · rfl

theorem step_of_atYield (hy : atYield m e = some (p, k)) (he : step idle e m = some m') :
    m' = { m with kernel := yield k p, cproc := none } := by
  unfold step at he
  rw [hy] at he
  exact (Option.some.inj he).symm

theorem step_schedule (hc : m.cproc = none) : step idle .schedule m = scheduler idle m := by
  simp [step, atYield, hc]

/-- An iteration of the scheduler dispatches some slot, or nothing. -/
theorem scheduler_cases (he : scheduler idle m = some m') :
    (∃ t, m' = { m with kernel := { m.kernel with qtable := t } }) ∨
      ∃ i t, m' = dispatch { m.kernel with qtable := t } i := by
  unfold scheduler at he
  split_ifs at he with hkick hidle
  · cases he
    exact .inl ⟨m.kernel.qtable, rfl⟩
  · split at he
    · cases he
    · split_ifs at he
      · cases he
        exact .inl ⟨_, rfl⟩
      · cases he
        exact .inr ⟨_, _, rfl⟩
  · obtain ⟨p, -, rfl⟩ := Option.map_eq_some_iff.mp he
    exact .inr ⟨p, m.kernel.qtable, rfl⟩

/-- A step that calls `yield`, with the caller and the state in which it calls. -/
inductive Yielding (m : Machine) : Event → Slot → State → Prop
  | nice {p : Slot} (hc : m.cproc = some p) (inc : Int) : Yielding m (.nice inc) p (sysNice m.kernel p inc)
  | usertrap {p : Slot} (hc : m.cproc = some p) (hkill : ¬ (m.kernel.proc p).killed = true) :
      Yielding m .usertrap p (advanceTime (clockintr m.kernel m.cproc))
  | kerneltrap {p : Slot} (hc : m.cproc = some p) :
      Yielding m .kerneltrap p (advanceTime (clockintr m.kernel m.cproc))

theorem atYield_yielding (hy : atYield m e = some (p, k)) : Yielding m e p k := by
  cases e with
  | nice inc =>
      simp only [atYield, Option.map_eq_some_iff, Prod.mk.injEq] at hy
      obtain ⟨p', hc, rfl, rfl⟩ := hy
      exact .nice hc inc
  | usertrap =>
      simp only [atYield, Option.bind_eq_some_iff] at hy
      obtain ⟨p', hc, hy⟩ := hy
      split_ifs at hy with hkill
      cases hy
      rw [clockintr_killed] at hkill
      exact .usertrap hc hkill
  | kerneltrap =>
      simp only [atYield, Option.bind_eq_some_iff] at hy
      obtain ⟨p', hc, hy⟩ := hy
      split_ifs at hy
      cases hy
      exact .kerneltrap hc
  | _ => cases hy

/-- A system call, or a trap, that neither yields nor schedules. -/
inductive Served (m : Machine) : Event → Machine → Prop
  | fork {p : Slot} (hc : m.cproc = some p) (trapframe pagetable copy : Bool) :
      Served m (.fork trapframe pagetable copy) { m with kernel := (fork m.kernel p trapframe pagetable copy).2 }
  | exit {p : Slot} {k' : State} {status : Int} (hc : m.cproc = some p) (hk : exit m.kernel p status = some k') :
      Served m (.exit status) { m with kernel := k', cproc := none }
  | waited {p : Slot} {k' : State} {r : Int} {copyout : Bool} (hc : m.cproc = some p)
      (hw : wait m.kernel p copyout = (some r, k')) : Served m (.wait copyout) { m with kernel := k' }
  | waiting {p : Slot} {k' : State} {copyout : Bool} (hc : m.cproc = some p)
      (hw : wait m.kernel p copyout = (none, k')) :
      Served m (.wait copyout) { m with kernel := k', cproc := none }
  | sleep {p : Slot} (hc : m.cproc = some p) (chan : Chan) :
      Served m (.sleep chan) { m with kernel := sleep m.kernel p chan, cproc := none }
  | wakeup (chan : Chan) :
      Served m (.wakeup chan) { m with kernel := wakeup m.kernel m.cproc (some chan) }
  | kill {p : Slot} (hc : m.cproc = some p) (pid : Int) :
      Served m (.kill pid) { m with kernel := (kill m.kernel pid).2 }
  | startlog {p : Slot} (hc : m.cproc = some p) :
      Served m .startlog { m with kernel := sysStartlog m.kernel }
  | died {p : Slot} {k' : State} (hc : m.cproc = some p) (hkill : (m.kernel.proc p).killed = true)
      (hk : exit (clockintr m.kernel (some p)) p (-1) = some k') :
      Served m .usertrap { m with kernel := k', cproc := none }
  | tick : Served m .kerneltrap { m with kernel := advanceTime (clockintr m.kernel m.cproc) }

theorem step_served (hy : atYield m e = none) (hne : e ≠ .schedule) (he : step idle e m = some m') :
    Served m e m' := by
  unfold step at he
  rw [hy] at he
  cases hc : m.cproc with
  | none =>
      simp only [hc] at he
      cases e with
      | wakeup chan =>
          obtain rfl := Option.some.inj he
          exact hc ▸ .wakeup chan
      | kerneltrap =>
          obtain rfl := Option.some.inj he
          exact hc ▸ .tick
      | schedule => exact absurd rfl hne
      | _ => cases he
  | some p =>
      simp only [hc] at he
      cases e with
      | fork trapframe pagetable copy =>
          obtain rfl := Option.some.inj he
          exact hc ▸ .fork hc trapframe pagetable copy
      | exit status =>
          obtain ⟨k', hk, rfl⟩ := Option.map_eq_some_iff.mp he
          exact .exit hc hk
      | wait copyout =>
          cases hw : wait m.kernel p copyout with
          | mk r k' =>
              cases r with
              | none =>
                  simp only [hw] at he
                  obtain rfl := Option.some.inj he
                  exact .waiting hc hw
              | some r =>
                  simp only [hw] at he
                  obtain rfl := Option.some.inj he
                  exact hc ▸ .waited hc hw
      | sleep chan =>
          obtain rfl := Option.some.inj he
          exact .sleep hc chan
      | wakeup chan =>
          obtain rfl := Option.some.inj he
          exact hc ▸ .wakeup chan
      | kill pid =>
          obtain rfl := Option.some.inj he
          exact hc ▸ .kill hc pid
      | nice inc => cases he
      | startlog =>
          obtain rfl := Option.some.inj he
          exact hc ▸ .startlog hc
      | usertrap =>
          obtain ⟨k', hk, rfl⟩ := Option.map_eq_some_iff.mp he
          refine .died hc ?_ hk
          by_contra hno
          simp [atYield, hc, clockintr_killed, hno] at hy
      | kerneltrap =>
          obtain rfl := Option.some.inj he
          exact hc ▸ .tick
      | schedule => cases he

end Xv6Mlfq.Kernel
