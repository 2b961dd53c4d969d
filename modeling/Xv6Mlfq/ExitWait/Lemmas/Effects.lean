import Xv6Mlfq.ExitWait.Invariant

/-!
# What the kernel's functions do to the table

Most of them are `Calm`: the family stays as it is, nobody goes to sleep, and the dead keep their status.
-/

namespace Xv6Mlfq.ExitWait

open Access Queue Kernel

variable {p i : Slot} {k k' : State} {f : Proc → Proc} {cur : Option Slot} {chan : Option Chan}

theorem phases_modify (k : State) (i : Slot) (f : Proc → Proc) :
    phases (k.modify i f) = Function.update (phases k) i (phaseOf (f (k.proc i)).state) := by
  funext j
  by_cases hj : j = i
  · subst hj
    rw [phases, State.modify_proc_self, Function.update_self]
  · rw [phases, State.modify_proc_of_ne hj, Function.update_of_ne hj, phases]

theorem parents_modify (k : State) (i : Slot) (f : Proc → Proc) :
    parents (k.modify i f) = Function.update (parents k) i (f (k.proc i)).parent := by
  funext j
  by_cases hj : j = i
  · subst hj
    rw [parents, State.modify_proc_self, Function.update_self]
  · rw [parents, State.modify_proc_of_ne hj, Function.update_of_ne hj, parents]

theorem phases_modify_same (h : phaseOf (f (k.proc i)).state = phaseOf (k.proc i).state) :
    phases (k.modify i f) = phases k := by
  rw [phases_modify, h]
  exact Function.update_eq_self ..

theorem parents_modify_same (h : (f (k.proc i)).parent = (k.proc i).parent) :
    parents (k.modify i f) = parents k := by
  rw [parents_modify, h]
  exact Function.update_eq_self ..

namespace Drowsy

theorem refl (k : State) : Drowsy k k := ⟨fun _ h => ⟨h, rfl⟩, rfl⟩

theorem modify (h : (f (k.proc i)).state = .sleeping →
    (k.proc i).state = .sleeping ∧ (f (k.proc i)).chan = (k.proc i).chan) : Drowsy k (k.modify i f) := by
  refine ⟨fun j hj => ?_, rfl⟩
  by_cases hji : j = i
  · subst hji
    rw [State.modify_proc_self] at hj ⊢
    exact h hj
  · rw [State.modify_proc_of_ne hji] at hj ⊢
    exact ⟨hj, rfl⟩

theorem awake (h : (f (k.proc i)).state ≠ .sleeping) : Drowsy k (k.modify i f) :=
  modify fun hs => absurd hs h

end Drowsy

/-- What becomes of a process when its family stays as it is. -/
structure Still (x y : Proc) : Prop where
  phase : phaseOf y.state = phaseOf x.state
  parent : y.parent = x.parent
  sleeping : y.state = .sleeping → x.state = .sleeping ∧ y.chan = x.chan
  status : x.state = .zombie → y.pid = x.pid ∧ y.xstate = x.xstate

theorem Still.refl (x : Proc) : Still x x := ⟨rfl, rfl, fun h => ⟨h, rfl⟩, fun _ => ⟨rfl, rfl⟩⟩

theorem phaseOf_zombie {st : ProcState} (h : phaseOf st = .zombie) : st = .zombie := by
  cases st with
  | zombie => rfl
  | _ => cases h

theorem Still.trans {x y z : Proc} (h : Still x y) (h' : Still y z) : Still x z where
  phase := h'.phase.trans h.phase
  parent := h'.parent.trans h.parent
  sleeping hz := by
    obtain ⟨hy, hchan'⟩ := h'.sleeping hz
    obtain ⟨hx, hchan⟩ := h.sleeping hy
    exact ⟨hx, hchan'.trans hchan⟩
  status hx := by
    have hy : y.state = .zombie := phaseOf_zombie (by rw [h.phase, hx]; rfl)
    exact ⟨(h'.status hy).1.trans (h.status hx).1, (h'.status hy).2.trans (h.status hx).2⟩

/-- A living process is left awake. -/
theorem Still.awake {x y : Proc} (hx : phaseOf x.state = .alive) (hy : phaseOf y.state = .alive)
    (hs : y.state ≠ .sleeping) (hparent : y.parent = x.parent) : Still x y where
  phase := hy.trans hx.symm
  parent := hparent
  sleeping h := absurd h hs
  status hz := by
    rw [hz] at hx
    cases hx

structure Calm (k k' : State) : Prop where
  slots : ∀ i, Still (k.proc i) (k'.proc i)
  initproc : k'.initproc = k.initproc

namespace Calm

theorem drowsy (h : Calm k k') : Drowsy k k' := ⟨fun i => (h.slots i).sleeping, h.initproc⟩

theorem phases (h : Calm k k') : phases k' = phases k := funext fun i => (h.slots i).phase

theorem parents (h : Calm k k') : parents k' = parents k := funext fun i => (h.slots i).parent

theorem refl (k : State) : Calm k k := ⟨fun _ => .refl _, rfl⟩

theorem trans {k'' : State} (h : Calm k k') (h' : Calm k' k'') : Calm k k'' :=
  ⟨fun i => (h.slots i).trans (h'.slots i), h'.initproc.trans h.initproc⟩

theorem modify (h : Still (k.proc i) (f (k.proc i))) : Calm k (k.modify i f) := by
  refine ⟨fun j => ?_, rfl⟩
  by_cases hji : j = i
  · rw [hji, State.modify_proc_self]
    exact h
  · rw [State.modify_proc_of_ne hji]
    exact .refl _

theorem makeRunnable (hs : (k.proc i).state = .sleeping) : Calm k (makeRunnable k i) := by
  have h : Calm k (k.modify i Proc.awake) := modify (.awake (by rw [hs]; rfl) rfl (by simp [Proc.awake]) rfl)
  exact ⟨h.slots, rfl⟩

theorem wakeupSlot (k : State) (cur : Option Slot) (chan : Option Chan) (i : Slot) :
    Calm k (wakeupSlot cur chan k i) := by
  unfold Kernel.wakeupSlot
  split_ifs with hcur hs
  · exact makeRunnable hs.1
  · exact .refl k
  · exact .refl k

theorem killSlot (k : State) (i : Slot) : Calm k (killSlot k i) := by
  have h : Calm k (k.modify i fun q => { q with killed := true }) :=
    modify ⟨rfl, rfl, fun hs => ⟨hs, rfl⟩, fun _ => ⟨rfl, rfl⟩⟩
  unfold ExitWait.killSlot
  dsimp only
  split_ifs with hs
  · exact h.trans (makeRunnable hs)
  · exact h

theorem dispatch (qtable : QTable) (hr : (k.proc p).state = .runnable) :
    Calm k (dispatch { k with qtable := qtable } p).kernel := by
  refine ⟨fun i => ?_, ?_⟩
  · rw [dispatch_proc]
    split_ifs with hi
    · rw [hi]
      exact .awake (by rw [hr]; rfl) rfl (by simp [Proc.dispatched]) rfl
    · exact .refl _
  · simp only [Kernel.dispatch, run, logDispatch]
    split_ifs
    · rfl
    · rfl

theorem chargeTick (hr : (k.proc p).state = .running) : Calm k (chargeTick k p) := by
  have hu : (k.proc p).state ≠ .unused := by simp [hr]
  refine ⟨fun i => ?_, ?_⟩
  · rw [chargeTick_proc hu]
    split_ifs with hi
    · rw [hi]
      exact .awake (by rw [hr]; rfl) rfl (by simp [Proc.demoted, Proc.charged]) rfl
    · rw [hi]
      exact .awake (by rw [hr]; rfl) rfl (by simp [Proc.charged]) rfl
    · exact .refl _
  · rw [chargeTick_eq hu]
    split_ifs
    · rfl
    · rfl

theorem boost (hr : (k.proc p).state = .runnable) : Calm k (boost k p) := by
  refine ⟨fun i => ?_, ?_⟩
  · rw [boost_proc hr]
    split_ifs
    · exact ⟨rfl, rfl, fun hs => ⟨hs, rfl⟩, fun _ => ⟨rfl, rfl⟩⟩
    · exact .refl _
  · rw [boost_eq hr]
    unfold logBoost
    split_ifs
    · rfl
    · rfl

theorem yield (hr : (k.proc p).state = .running) : Calm k (yield k p) := by
  have hcharge := chargeTick hr
  rw [yield_eq]
  split_ifs
  · exact hcharge.trans (boost (chargeTick_self (by simp [hr])))
  · exact hcharge

end Calm

theorem wakeupSlot_awake (hcur : some i ≠ cur) (hchan : (k.proc i).chan = chan) :
    ((wakeupSlot cur chan k i).proc i).state ≠ .sleeping := by
  unfold wakeupSlot
  by_cases hs : (k.proc i).state = .sleeping
  · rw [if_pos hcur, if_pos ⟨hs, hchan⟩, makeRunnable_proc, if_pos rfl]
    simp [Proc.awake]
  · rw [if_pos hcur, if_neg (fun h => hs h.1)]
    exact hs

end Xv6Mlfq.ExitWait
