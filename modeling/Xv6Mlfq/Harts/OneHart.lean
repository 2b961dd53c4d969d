import Xv6Mlfq.Harts.System
import Xv6Mlfq.Kernel.Lemmas.Steps
import Xv6Mlfq.Runs.Simulation

/-!
# One hart among several

Hart 0, whose timer interrupts call `clockintr`, goes the way of the machine with one hart. An iteration of the
scheduler is a choice with the dispatch right behind it.
-/

namespace Xv6Mlfq.Harts

open Access Queue Runs Kernel

variable {n : Nat} {s t : System n} {h : Fin n} {e : Kernel.Event} {k : State} {p : Slot} {m m' : Machine}

/-- All that the harts do, but for the scheduler of hart `h`. -/
def seen (h : Fin n) : Fin n × Event → Option (Fin n × Event)
  | (g, .on e) => some (g, .on e)
  | (g, e) => if g = h then none else some (g, e)

theorem seen_choose : seen h (h, .choose) = none := if_pos rfl

theorem seen_dispatch : seen h (h, .dispatch) = none := if_pos rfl

@[simp] theorem view_kernel : (s.view h).kernel = s.kernel := rfl

@[simp] theorem view_set {x : Hart} : (s.set h k x).view h = { kernel := k, p := x.p, cproc := x.cproc } := by
  simp [System.view, System.set]

theorem view_yieldOn : (yieldOn h s p k).view h = { s.view h with kernel := yield k p, cproc := none } := by
  simp [System.view, yieldOn]

theorem devintr_view (hh : (h : Nat) = 0) : devintr h s = clockintr (s.view h).kernel (s.view h).cproc := if_pos hh

theorem atYield_view (hh : (h : Nat) = 0) : atYield h s e = Kernel.atYield (s.view h) e := by
  cases e with
  | usertrap =>
      unfold atYield
      rw [devintr_view hh]
      rfl
  | kerneltrap =>
      unfold atYield
      rw [devintr_view hh]
      rfl
  | _ => rfl

/-- Only the scheduler changes its `p`. -/
theorem step_p {idle : Idle} (hne : e ≠ .schedule) (hy : Kernel.atYield m e = none)
    (hs : Kernel.step idle e m = some m') : m'.p = m.p := by
  cases step_served hy hne hs with
  | _ => rfl

theorem call_eq (hh : (h : Nat) = 0) (hne : e ≠ .schedule) (hy : Kernel.atYield (s.view h) e = none) :
    call h s e = (Kernel.step .asPromised e (s.view h)).map fun m =>
      s.set h m.kernel { s.hart h with cproc := m.cproc } := by
  cases e with
  | schedule => exact absurd rfl hne
  | nice inc =>
      simp only [Kernel.step, hy, call, Option.map_none]
  | usertrap =>
      unfold Kernel.step
      rw [hy]
      simp only [call, devintr_view hh]
      cases hc : (s.hart h).cproc with
      | none => simp only [System.view, hc, Option.bind_none, Option.map_none]
      | some p => simp only [System.view, hc, Option.bind_some, Option.map_map, Function.comp_def]
  | kerneltrap =>
      unfold Kernel.step
      rw [hy]
      simp only [call, devintr_view hh, Option.map_some, System.set, System.view, Function.update_eq_self]
  | _ => rfl

/-- A step of hart 0 outside the scheduler. -/
theorem step_on (hh : (h : Nat) = 0) (hne : e ≠ .schedule) (hch : (s.hart h).chosen = false)
    (hs : Kernel.step .asPromised e (s.view h) = some m') :
    ∃ t, Harts.step (h, .on e) s = some t ∧ t.view h = m' ∧ (t.hart h).chosen = false := by
  simp only [Harts.step, atYield_view hh]
  cases hy : Kernel.atYield (s.view h) e with
  | some x =>
      simp only [Kernel.step, hy, Option.some.injEq] at hs
      exact ⟨_, rfl, view_yieldOn.trans hs, by simp [yieldOn, hch]⟩
  | none =>
      obtain ⟨k, p, c⟩ := m'
      obtain rfl : p = (s.hart h).p := step_p hne hy hs
      refine ⟨s.set h k { s.hart h with cproc := c }, ?_, view_set, by simp [System.set, hch]⟩
      simp only [call_eq hh hne hy, hs, Option.map_some]

theorem step_choose (hc : (s.hart h).cproc = none) (hch : (s.hart h).chosen = false) :
    Harts.step (h, .choose) s = choose h s := if_pos ⟨hc, hch⟩

/-- A hart that has chosen dispatches. -/
theorem step_dispatch (hch : (s.hart h).chosen = true) (hp : (s.hart h).p = some p) :
    ∃ t, Harts.step (h, .dispatch) s = some t ∧ t.view h = Kernel.dispatch s.kernel p ∧
      (t.hart h).chosen = false := by
  let k := (run s.kernel p).modify p sleepResume
  refine ⟨s.set h k { s.hart h with cproc := some p, chosen := false }, ?_, ?_, ?_⟩
  · simp only [Harts.step, if_pos hch, Harts.dispatch, hp, Option.map_some, k]
  · rw [view_set, hp]
    rfl
  · simp [System.set]

theorem choose_dispatch (hc : (s.hart h).cproc = none) (hch : (s.hart h).chosen = false)
    (hchoose : choose h s = some (s.set h k { s.hart h with p := some p, chosen := true, kept := none })) :
    ∃ tr t, Run Harts.step s tr t ∧ trace (seen h) tr = [] ∧
      t.view h = Kernel.dispatch k p ∧ (t.hart h).chosen = false := by
  have hfirst := (step_choose hc hch).trans hchoose
  have hready : ((s.set h k { s.hart h with p := some p, chosen := true, kept := none }).hart h).chosen = true := by
    simp [System.set]
  have hp : ((s.set h k { s.hart h with p := some p, chosen := true, kept := none }).hart h).p = some p := by
    simp [System.set]
  obtain ⟨t, hdispatch, hview, hdone⟩ := step_dispatch hready hp
  refine ⟨_, t, (Run.single hfirst).snoc hdispatch, ?_, hview, hdone⟩
  rw [trace_append, trace_single, trace_single, seen_choose, seen_dispatch]
  rfl

/-- An iteration of the scheduler is a choice, with its dispatch if there is one. -/
theorem iteration (hc : (s.hart h).cproc = none) (hch : (s.hart h).chosen = false)
    (hs : scheduler .asPromised (s.view h) = some m') :
    ∃ tr t, Run Harts.step s tr t ∧ trace (seen h) tr = [] ∧ t.view h = m' ∧ (t.hart h).chosen = false := by
  simp only [scheduler, view_kernel] at hs
  split_ifs at hs with hkick hready
  · obtain rfl := Option.some.inj hs
    have hchoose : choose h s = some s := by
      rw [choose, if_pos hkick, if_pos hready.2]
    refine ⟨_, s, .single ((step_choose hc hch).trans hchoose), ?_, rfl, hch⟩
    rw [trace_single, seen_choose]
    rfl
  · have hready : ¬ NoneReady s.kernel.qtable := fun hnone => hready ⟨trivial, hnone⟩
    cases hq : dequeue.exec s.kernel.qtable with
    | mk r q =>
        simp only [hq] at hs
        cases r with
        | none => cases hs
        | some processId =>
            dsimp only at hs
            split_ifs at hs with hempty hrange
            · obtain rfl := Option.some.inj hs
              have hchoose : choose h s = some { s with kernel := { s.kernel with qtable := q } } := by
                simp only [choose, hkick, hready, hq, hempty, if_true, if_false]
              refine ⟨_, _, .single ((step_choose hc hch).trans hchoose), ?_, rfl, hch⟩
              rw [trace_single, seen_choose]
              rfl
            · obtain rfl := Option.some.inj hs
              have hchoose : choose h s = some (s.set h { s.kernel with qtable := q }
                  { s.hart h with p := some ⟨processId.toNat, toNat_lt hrange⟩, chosen := true, kept := none }) := by
                simp only [choose, hkick, hready, hq, hempty, hrange, if_true, if_false, and_self, dite_true]
              exact choose_dispatch hc hch hchoose
  · obtain ⟨p, hp, rfl⟩ := Option.map_eq_some_iff.mp hs
    have hp : (s.hart h).p = some p := hp
    have hchoose : choose h s =
        some (s.set h s.kernel { s.hart h with p := some p, chosen := true, kept := none }) := by
      rw [choose, if_neg hkick, ← hp]
    exact choose_dispatch hc hch hchoose

/-! ## Runs -/

/-- What the machine does besides an iteration of the scheduler. -/
def single (h : Fin n) : Kernel.Event → Option (Fin n × Event)
  | .schedule => none
  | e => some (h, .on e)

theorem single_of_ne (hne : e ≠ .schedule) : single h e = some (h, .on e) := by
  cases e with
  | schedule => exact absurd rfl hne
  | _ => rfl

theorem simulates (hh : (h : Nat) = 0) :
    Simulates (Kernel.step .asPromised) Harts.step (single h) (seen h) (fun _ => True)
      (fun m s => s.view h = m ∧ (s.hart h).chosen = false) where
  matched := by
    rintro m s e m' ⟨rfl, hch⟩ - hs
    by_cases he : e = .schedule
    · subst he
      have hc : (s.hart h).cproc = none := by
        cases hc : (s.hart h).cproc with
        | none => rfl
        | some p => simp only [Kernel.step, Kernel.atYield, System.view, hc, reduceCtorEq] at hs
      rw [step_schedule hc] at hs
      obtain ⟨tr, t, hrun, htrace, hview, hdone⟩ := iteration hc hch hs
      exact ⟨tr, t, hrun, htrace, hview, hdone⟩
    · obtain ⟨t, hstep, hview, hdone⟩ := step_on hh he hch hs
      refine ⟨_, t, .single hstep, ?_, hview, hdone⟩
      rw [trace_single, single_of_ne he]
      rfl

/-- Each run of the machine with one hart is a run of any number of harts in which only hart 0 steps. -/
theorem run_of_machine {outside : QTable} {tr : List (Transition Machine Kernel.Event)}
    (hrun : Run (Kernel.step .asPromised) (Kernel.boot outside) tr m) (hh : (h : Nat) = 0) :
    ∃ (tr' : List (Transition (System n) (Fin n × Event))) (s : System n), Run Harts.step (boot n outside) tr' s ∧
      trace (seen h) tr' = trace (single h) tr ∧ s.view h = m := by
  have hboot : (boot n outside).view h = Kernel.boot outside ∧ ((boot n outside).hart h).chosen = false :=
    ⟨rfl, rfl⟩
  obtain ⟨tr', s, hrun', htrace, hview, -⟩ := (simulates hh).run hrun hboot fun _ _ => trivial
  exact ⟨tr', s, hrun', htrace, hview⟩

end Xv6Mlfq.Harts
