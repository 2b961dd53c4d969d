import Xv6Mlfq.Scan.Machine

/-!
# What the steps of the scanning kernel do to the log

Only a dispatch and the first `startlog` change the log, and only `yield` advances its clock.
-/

namespace Xv6Mlfq.Scan

open Queue Runs
open Kernel (Chan findSlot)

variable {m m' : Machine} {e : Event} {k k' : State} {p i : Slot}

/-- The log and its clock stay. -/
structure SameLog (k k' : State) : Prop where
  schedlog : k'.schedlog = k.schedlog
  logCount : k'.logCount = k.logCount
  time : k'.time = k.time

namespace SameLog

theorem refl (k : State) : SameLog k k := ⟨rfl, rfl, rfl⟩

theorem trans {k'' : State} (h : SameLog k k') (h' : SameLog k' k'') : SameLog k k'' :=
  ⟨h'.schedlog.trans h.schedlog, h'.logCount.trans h.logCount, h'.time.trans h.time⟩

theorem modify (k : State) (i : Slot) (f : Proc → Proc) : SameLog k (k.modify i f) := ⟨rfl, rfl, rfl⟩

theorem foldl {f : State → Slot → State} (h : ∀ k i, SameLog k (f k i)) (is : List Slot) (k : State) :
    SameLog k (is.foldl f k) := by
  induction is generalizing k with
  | nil => exact refl k
  | cons i is ih => exact (h k i).trans (ih (f k i))

theorem fork (k : State) (p : Slot) (trapframe pagetable copy : Bool) :
    SameLog k (fork k p trapframe pagetable copy).2 := by
  unfold Scan.fork allocproc
  cases findSlot fun i => (k.proc i).state = .unused with
  | none => exact refl k
  | some i =>
      cases trapframe with
      | false => exact ⟨rfl, rfl, rfl⟩
      | true =>
          cases pagetable with
          | false => exact ⟨rfl, rfl, rfl⟩
          | true =>
              cases copy with
              | false => exact ⟨rfl, rfl, rfl⟩
              | true => exact ⟨rfl, rfl, rfl⟩

theorem wakeup (k : State) (cur : Option Slot) (chan : Option Chan) : SameLog k (wakeup k cur chan) := by
  refine foldl (fun k i => ?_) _ k
  unfold wakeupSlot
  split_ifs
  · exact modify k i _
  · exact refl k
  · exact refl k

theorem clockintr (k : State) (cur : Option Slot) : SameLog k (clockintr k cur) := by
  have h : SameLog k { k with ticks := (k.ticks + 1) % 2 ^ 32 } := ⟨rfl, rfl, rfl⟩
  exact h.trans (wakeup _ cur _)

theorem kill (k : State) (pid : Int) : SameLog k (kill k pid).2 := by
  unfold Scan.kill
  cases findSlot fun i => (k.proc i).pid = pid with
  | none => exact refl k
  | some i =>
      dsimp only
      split_ifs
      · exact ⟨rfl, rfl, rfl⟩
      · exact modify k i _

theorem reparent (k : State) (p : Slot) : SameLog k (reparent k p) := by
  refine foldl (fun k i => ?_) _ k
  unfold reparentSlot
  split_ifs
  · exact (modify k i _).trans (wakeup _ _ _)
  · exact refl k

theorem exit {status : Int} (h : exit k p status = some k') : SameLog k k' := by
  unfold Scan.exit at h
  split_ifs at h
  cases h
  exact (reparent k p).trans ((wakeup _ _ _).trans (modify _ p _))

theorem wait {copyout : Bool} {r : Option Int} (h : wait k p copyout = (r, k')) : SameLog k k' := by
  have hk : k' = (Scan.wait k p copyout).2 := by rw [h]
  rw [hk]
  unfold Scan.wait
  cases findSlot fun np => (k.proc np).parent = some p ∧ (k.proc np).state = .zombie with
  | none =>
      dsimp only
      split_ifs
      · exact refl k
      · exact ⟨rfl, rfl, rfl⟩
  | some np =>
      dsimp only
      split_ifs
      · exact refl k
      · exact modify k np _

end SameLog

/-! ## Every step -/

inductive Moved (m : Machine) : Event → Machine → Prop
  | quiet {e : Event} {m' : Machine} (hy : atYield m e = none) (hne : e ≠ .schedule)
      (h : SameLog m.kernel m'.kernel) : Moved m e m'
  | yields {e : Event} {p : Slot} {k : State} (hy : atYield m e = some (p, k)) (hne : e ≠ .schedule)
      (h : SameLog m.kernel k) : Moved m e { m with kernel := yield k p, cproc := none }
  | startlog : Moved m .startlog { m with kernel := (sysStartlog m.kernel).2 }
  | schedule (hc : m.cproc = none) : Moved m .schedule (scheduler m)

theorem atYield_sameLog (hy : atYield m e = some (p, k)) : e ≠ .schedule ∧ SameLog m.kernel k := by
  cases e with
  | usertrap =>
      simp only [atYield, Option.bind_eq_some_iff] at hy
      obtain ⟨q, -, hy⟩ := hy
      split_ifs at hy
      cases hy
      exact ⟨by simp, .clockintr ..⟩
  | kerneltrap =>
      simp only [atYield, Option.bind_eq_some_iff] at hy
      obtain ⟨q, -, hy⟩ := hy
      split_ifs at hy
      cases hy
      exact ⟨by simp, .clockintr ..⟩
  | _ => cases hy

theorem step_moved (he : step e m = some m') : Moved m e m' := by
  unfold step at he
  cases hy : atYield m e with
  | some pk =>
      obtain ⟨p, k⟩ := pk
      obtain ⟨hne, hsame⟩ := atYield_sameLog hy
      rw [hy] at he
      obtain rfl := Option.some.inj he
      exact .yields hy hne hsame
  | none =>
      rw [hy] at he
      dsimp only at he
      cases hc : m.cproc with
      | none =>
          rw [hc] at he
          cases e with
          | wakeup chan =>
              obtain rfl := Option.some.inj he
              refine .quiet hy (by simp) ?_
              dsimp only
              exact .wakeup m.kernel none (some chan)
          | kerneltrap =>
              obtain rfl := Option.some.inj he
              refine .quiet hy (by simp) ?_
              dsimp only
              exact .clockintr m.kernel none
          | schedule =>
              obtain rfl := Option.some.inj he
              exact .schedule hc
          | _ => cases he
      | some p =>
          rw [hc] at he
          cases e with
          | fork trapframe pagetable copy =>
              obtain rfl := Option.some.inj he
              exact .quiet hy (by simp) (.fork m.kernel p trapframe pagetable copy)
          | exit status =>
              obtain ⟨k, hk, rfl⟩ := Option.map_eq_some_iff.mp he
              exact .quiet hy (by simp) (.exit hk)
          | wait copyout =>
              cases hw : wait m.kernel p copyout with
              | mk r k =>
                  simp only [hw] at he
                  cases r with
                  | none =>
                      obtain rfl := Option.some.inj he
                      exact .quiet hy (by simp) (.wait hw)
                  | some r =>
                      obtain rfl := Option.some.inj he
                      exact .quiet hy (by simp) (.wait hw)
          | sleep chan =>
              obtain rfl := Option.some.inj he
              exact .quiet hy (by simp) ⟨rfl, rfl, rfl⟩
          | wakeup chan =>
              obtain rfl := Option.some.inj he
              exact .quiet hy (by simp) (.wakeup m.kernel (some p) (some chan))
          | kill pid =>
              obtain rfl := Option.some.inj he
              exact .quiet hy (by simp) (.kill m.kernel pid)
          | nice inc =>
              obtain rfl := Option.some.inj he
              exact .quiet hy (by simp) ⟨rfl, rfl, rfl⟩
          | startlog =>
              obtain rfl := Option.some.inj he
              exact hc ▸ .startlog
          | getlog copyout =>
              obtain rfl := Option.some.inj he
              exact .quiet hy (by simp) (.refl _)
          | usertrap =>
              obtain ⟨k, hk, rfl⟩ := Option.map_eq_some_iff.mp he
              exact .quiet hy (by simp) ((SameLog.clockintr m.kernel (some p)).trans (.exit hk))
          | kerneltrap =>
              obtain rfl := Option.some.inj he
              exact .quiet hy (by simp) (.clockintr m.kernel (some p))
          | schedule => cases he

end Xv6Mlfq.Scan
