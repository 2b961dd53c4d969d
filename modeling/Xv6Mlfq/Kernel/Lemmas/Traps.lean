import Xv6Mlfq.Kernel.Lemmas.Steps

/-!
# The two clocks

`ticks` is counted by `clockintr`, `time` by the trap that called it. Only the traps move them.
-/

namespace Xv6Mlfq.Kernel

open Access Queue Runs

def Event.trap : Event → Bool
  | .usertrap | .kerneltrap => true
  | _ => false

/-- The interrupt finds in user mode a process that has been killed. -/
def Dying (m : Machine) (e : Event) : Prop :=
  e = .usertrap ∧ (m.cproc.any fun p => (m.kernel.proc p).killed) = true

instance (m : Machine) (e : Event) : Decidable (Dying m e) := inferInstanceAs (Decidable (_ ∧ _))

def State.clocks (k : State) : Int × Nat := (k.time, k.ticks)

variable {idle : Idle} {m m' : Machine} {e : Event} {k k' : State} {p : Slot}

/-! ## System calls -/

@[simp] theorem modify_clocks (k : State) (i : Slot) (f : Proc → Proc) : (k.modify i f).clocks = k.clocks := rfl

@[simp] theorem wakeup_clocks (k : State) (cur : Option Slot) (chan : Option Chan) :
    (wakeup k cur chan).clocks = k.clocks := by
  rw [wakeup_eq]
  rfl

theorem fork_clocks (k : State) (p : Slot) (trapframe pagetable copy : Bool) :
    (fork k p trapframe pagetable copy).2.clocks = k.clocks := by
  rcases fork_cases k p trapframe pagetable copy with h | ⟨i, -, h | h⟩
  · rw [h]
  · rw [h]; rfl
  · rw [h]; rfl

theorem wait_clocks {copyout : Bool} {r : Option Int} (h : wait k p copyout = (r, k')) : k'.clocks = k.clocks := by
  rcases wait_cases k p copyout with ⟨_, h'⟩ | ⟨i, -, -, h'⟩ | ⟨-, -, -, h'⟩
  all_goals
    cases h.symm.trans h'
    rfl

theorem kill_clocks (k : State) (pid : Int) : (kill k pid).2.clocks = k.clocks := by
  rcases kill_cases k pid with h | ⟨i, -, ⟨-, h⟩ | ⟨-, h⟩⟩
  · rw [h]
  · rw [h]; rfl
  · rw [h]; rfl

theorem reparent_clocks (k : State) (p : Slot) : (reparent k p).clocks = k.clocks :=
  reparent_induction (I := fun k' => k'.clocks = k.clocks) rfl fun k' i h _ => by
    rw [← h]
    exact wakeup_clocks ..

theorem exit_clocks {status : Int} (h : exit k p status = some k') : k'.clocks = k.clocks := by
  unfold exit at h
  split_ifs at h
  cases h
  simp [reparent_clocks]

/-! ## Scheduling -/

theorem chargeTick_clocks (k : State) (p : Slot) : (chargeTick k p).clocks = k.clocks := by
  unfold chargeTick
  simp only
  split_ifs
  · rfl
  · rfl

theorem sweep_clocks {c : Slot → Proc → Prop} [∀ i p, Decidable (c i p)] {f : Proc → Proc} {l : List Slot}
    (hl : l.Nodup) (k : State) : (l.foldl (sweepSlot c f) k).clocks = k.clocks := by
  rw [sweep_eq hl]
  rfl

theorem boost_clocks (k : State) (p : Slot) : (boost k p).clocks = k.clocks := by
  have hbase : (boostBase k p).clocks = k.clocks := by
    unfold boostBase logBoost
    split_ifs
    · rfl
    · rfl
  rw [boost_eq_foldl, sweep_clocks (List.nodup_finRange NPROC), hbase]

theorem yield_clocks (k : State) (p : Slot) : (yield k p).clocks = k.clocks := by
  rw [yield_eq]
  split_ifs
  · rw [boost_clocks, chargeTick_clocks]
  · exact chargeTick_clocks k p

theorem dispatch_clocks (k : State) (p : Slot) : (dispatch k p).kernel.clocks = k.clocks := by
  simp only [dispatch, modify_clocks, run, logDispatch]
  split_ifs
  · rfl
  · rfl

theorem scheduler_clocks (he : scheduler idle m = some m') : m'.kernel.clocks = m.kernel.clocks := by
  rcases scheduler_cases he with ⟨t, rfl⟩ | ⟨i, t, rfl⟩
  · rfl
  · exact dispatch_clocks _ _

/-! ## Every step -/

/-- What a step does to the clocks: a trap moves both, but for the trap that finds a killed process. -/
inductive Ticked (m : Machine) (e : Event) (k : State) : Prop
  | still (he : e.trap = false) (h : k.clocks = m.kernel.clocks)
  | both (he : e.trap = true) (hd : ¬ Dying m e)
      (h : k.clocks = (int32 (m.kernel.time + 1), (m.kernel.ticks + 1) % 2 ^ 32))
  | one (he : e.trap = true) (hd : Dying m e) (h : k.clocks = (m.kernel.time, (m.kernel.ticks + 1) % 2 ^ 32))

theorem clockintr_clocks (k : State) (cur : Option Slot) :
    (clockintr k cur).clocks = (k.time, (k.ticks + 1) % 2 ^ 32) := by
  rw [clockintr, wakeup_clocks]
  rfl

theorem advanceTime_clocks (k : State) (cur : Option Slot) : (advanceTime (clockintr k cur)).clocks =
    (int32 (k.time + 1), (k.ticks + 1) % 2 ^ 32) := by
  have h := clockintr_clocks k cur
  simp only [State.clocks, Prod.mk.injEq] at h
  simp only [State.clocks, advanceTime, h.1, h.2]

theorem atYield_ticked (hy : atYield m e = some (p, k)) : Ticked m e k := by
  cases atYield_yielding hy with
  | nice hc inc => exact .still rfl rfl
  | usertrap hc hkill =>
      refine .both rfl (fun hd => hkill ?_) (advanceTime_clocks _ _)
      simpa [hc] using hd.2
  | kerneltrap hc => exact .both rfl (fun hd => by cases hd.1) (advanceTime_clocks _ _)

theorem Ticked.congr (h : Ticked m e k) (hk : k'.clocks = k.clocks) : Ticked m e k' := by
  cases h with
  | still he h => exact .still he (hk.trans h)
  | both he hd h => exact .both he hd (hk.trans h)
  | one he hd h => exact .one he hd (hk.trans h)

theorem step_ticked (he : step idle e m = some m') : Ticked m e m'.kernel := by
  cases hy : atYield m e with
  | some pk =>
      rw [step_of_atYield hy he]
      exact (atYield_ticked hy).congr (yield_clocks _ _)
  | none =>
      by_cases hsched : e = .schedule
      · subst hsched
        cases hc : m.cproc with
        | none => exact .still rfl (scheduler_clocks ((step_schedule hc).symm.trans he))
        | some p => simp [step, atYield, hc] at he
      · cases step_served hy hsched he with
        | fork hc trapframe pagetable copy => exact .still rfl (fork_clocks ..)
        | exit hc hk => exact .still rfl (exit_clocks hk)
        | waited hc hw => exact .still rfl (wait_clocks hw)
        | waiting hc hw => exact .still rfl (wait_clocks hw)
        | sleep hc chan => exact .still rfl rfl
        | wakeup chan => exact .still rfl (wakeup_clocks m.kernel m.cproc (some chan))
        | kill hc pid => exact .still rfl (kill_clocks ..)
        | startlog hc => exact .still rfl rfl
        | died hc hkill hk =>
            have hd : Dying m .usertrap := ⟨rfl, by simpa [hc] using hkill⟩
            exact .one rfl hd ((exit_clocks hk).trans (clockintr_clocks _ _))
        | tick => exact .both rfl (fun hd => by cases hd.1) (advanceTime_clocks _ _)

/-- Without overflow, every trap that finds no killed process moves `time` by one. -/
theorem step_time (ht : 0 ≤ m.kernel.time) (ht' : e.trap = true → m.kernel.time + 1 < 2 ^ 31)
    (he : step idle e m = some m') :
    m'.kernel.time = m.kernel.time + if e.trap = true ∧ ¬ Dying m e then 1 else 0 := by
  cases step_ticked he with
  | still htrap hk =>
      have htime : m'.kernel.time = m.kernel.time := congrArg Prod.fst hk
      simpa [htrap] using htime
  | both htrap hd hk =>
      have htime : m'.kernel.time = int32 (m.kernel.time + 1) := congrArg Prod.fst hk
      have hlt := ht' htrap
      rw [int32_eq_self (by omega) hlt] at htime
      simp only [htrap, hd, not_false_eq_true, and_self, if_true]
      exact htime
  | one htrap hd hk =>
      have htime : m'.kernel.time = m.kernel.time := congrArg Prod.fst hk
      simpa [hd] using htime

/-! ## Every run -/

section Run

variable {outside : QTable} {tr : List (Transition Machine Event)}

theorem boot_clocks (outside : QTable) : (boot outside).kernel.clocks = (0, 0) := by
  have hu : ∀ k : State, (userinit k).clocks = k.clocks := by
    intro k
    unfold userinit
    rcases allocproc_cases k true true with h | ⟨i, -, h | h⟩
    · rw [h]
    · rw [h]; rfl
    · rw [h]; rfl
  exact hu _

def traps (tr : List (Transition Machine Event)) : Nat := tr.countP fun x => x.event.trap

def dyings (tr : List (Transition Machine Event)) : Nat := tr.countP fun x => Dying x.pre x.event

theorem traps_eq (tr : List (Transition Machine Event)) :
    traps tr = (tr.map Transition.event).countP Event.trap := by
  rw [List.countP_map]
  rfl

theorem traps_mono {tr' : List (Transition Machine Event)} (h : tr <+: tr') : traps tr ≤ traps tr' :=
  h.sublist.countP_le

theorem dyings_le_traps (tr : List (Transition Machine Event)) : dyings tr ≤ traps tr := by
  refine List.countP_mono_left fun x _ hx => ?_
  have hd : Dying x.pre x.event := of_decide_eq_true hx
  rw [hd.1]
  rfl

/-- Without overflow, `ticks` counts the interrupts, and `time` those that found no killed process. -/
theorem run_clocks (h : Run (step idle) (boot outside) tr m) (hn : traps tr < 2 ^ 31) :
    m.kernel.ticks = traps tr ∧ m.kernel.time = (traps tr : Int) - dyings tr := by
  induction h with
  | nil =>
      have h := boot_clocks outside
      simp only [State.clocks, Prod.mk.injEq] at h
      exact ⟨h.2, by simp [h.1, traps, dyings]⟩
  | @snoc tr m e m' h he ih =>
      have hle := dyings_le_traps tr
      have htraps : traps (tr ++ [⟨m, e, m'⟩]) = traps tr + if e.trap then 1 else 0 := by
        simp [traps, List.countP_append, List.countP_cons]
      have hdyings : dyings (tr ++ [⟨m, e, m'⟩]) = dyings tr + if Dying m e then 1 else 0 := by
        simp [dyings, List.countP_append, List.countP_cons]
      rw [htraps] at hn ⊢
      rw [hdyings]
      obtain ⟨hticks, htime⟩ := ih (by omega)
      cases step_ticked he with
      | still htrap hk =>
          simp only [State.clocks, Prod.mk.injEq] at hk
          have hd : ¬ Dying m e := fun hd => by rw [hd.1] at htrap; cases htrap
          simp only [htrap, hd, if_false, Bool.false_eq_true, hk, hticks, htime, add_zero, and_self]
      | both htrap hd hk =>
          simp only [State.clocks, Prod.mk.injEq] at hk
          simp only [htrap, hd, if_true, if_false, hk, hticks, htime, int32, Int.bmod_def] at hn ⊢
          omega
      | one htrap hd hk =>
          simp only [State.clocks, Prod.mk.injEq] at hk
          simp only [htrap, hd, if_true, hk, hticks, htime] at hn ⊢
          omega

theorem run_time {x : Transition Machine Event} (h : Run (step idle) (boot outside) (tr ++ [x]) m)
    (hn : traps (tr ++ [x]) < 2 ^ 31) :
    0 ≤ x.pre.kernel.time ∧ (x.event.trap = true → x.pre.kernel.time + 1 < 2 ^ 31) := by
  have hsnoc : traps (tr ++ [x]) = traps tr + if x.event.trap then 1 else 0 := by
    simp [traps, List.countP_append, List.countP_cons]
  obtain ⟨-, htime⟩ := run_clocks h.middle.1 (by omega)
  have hd := dyings_le_traps tr
  refine ⟨by omega, fun htrap => ?_⟩
  rw [if_pos htrap] at hsnoc
  omega

end Run

end Xv6Mlfq.Kernel
