import Xv6Mlfq.Kernel.Lemmas.Slots
import Xv6Mlfq.Kernel.Nice

/-!
# Properties of one process that hold of every slot

A property that no operation on a slot loses holds of every slot in every reachable state.
-/

namespace Xv6Mlfq.Kernel

open Access Queue Runs

variable {idle : Idle} {m m' : Machine} {e : Event} {L : Fifos} {k : State} {p : Slot} {P : Proc → Prop}
  {outside : QTable} {tr : List (Transition Machine Event)}

/-- The scheduling parameters stay, and the slot does not become free. -/
structure Proc.SameParameters (p p' : Proc) : Prop where
  nice : p'.nice = p.nice
  queue : p'.queue = p.queue
  runtime : p'.runtime = p.runtime
  unused : p'.state = .unused → p.state = .unused

theorem Proc.Steady.sameParameters {p p' : Proc} (h : p.Steady p') : p.SameParameters p' :=
  ⟨h.nice, h.queue, h.runtime, h.unused.mp⟩

/-- No operation on a slot loses the property. -/
structure Proc.Closed (P : Proc → Prop) : Prop where
  zero : P .zero
  same {p p' : Proc} : p.SameParameters p' → P p → P p'
  freed {p : Proc} : P p → P (freeproc p)
  allocated {p : Proc} (pid : Int) : p.state = .unused → P p → P (p.allocated pid)
  reniced {p : Proc} (inc : Int) : P p → P (p.reniced inc)
  charged {p : Proc} : ¬ p.Spent → P p → P p.charged
  demoted {p : Proc} : P p → P p.demoted
  boosted {p : Proc} : P p → P p.boosted

namespace Proc.Closed

theorem changed (hP : Proc.Closed P) {p p' : Proc} (h : p.Changed p') (hp : P p) : P p' := by
  cases h with
  | steady h => exact hP.same h.sameParameters hp
  | freed => exact hP.freed hp
  | created hu pid parent =>
      have hsame : (p.allocated pid).SameParameters (p.forked pid parent) := ⟨rfl, rfl, rfl, fun h => by cases h⟩
      exact hP.same hsame (hP.allocated pid hu hp)
  | slain hu =>
      have hsame : p.SameParameters p.slain := ⟨rfl, rfl, rfl, id⟩
      exact hP.same hsame hp
  | stray hu =>
      have hsame : p.SameParameters p.dispatched := ⟨rfl, rfl, rfl, fun h => by cases h⟩
      exact hP.same hsame hp

/-- The state in which a step calls `yield`. -/
theorem atYield (hP : Proc.Closed P) (hy : atYield m e = some (p, k)) (h : ∀ i, P (m.kernel.proc i)) (i : Slot) :
    P (k.proc i) := by
  cases atYield_yielding hy with
  | nice hc inc =>
      rw [sysNice_proc]
      split_ifs
      · exact hP.reniced inc (h i)
      · exact h i
  | usertrap hc hkill => exact hP.same ((State.Steady.tick ..).slots i).sameParameters (h i)
  | kerneltrap hc => exact hP.same ((State.Steady.tick ..).slots i).sameParameters (h i)

theorem chargeTick (hP : Proc.Closed P) (hu : (k.proc p).state ≠ .unused) (h : ∀ i, P (k.proc i)) (i : Slot) :
    P ((chargeTick k p).proc i) := by
  rw [chargeTick_proc hu]
  split_ifs with hi hs
  · exact hP.demoted (h p)
  · exact hP.charged hs (h p)
  · exact h i

theorem yield (hP : Proc.Closed P) (hu : (k.proc p).state ≠ .unused) (h : ∀ i, P (k.proc i)) (i : Slot) :
    P ((yield k p).proc i) := by
  have hcharged := hP.chargeTick hu h i
  rw [yield_eq]
  split_ifs
  · rw [boost_proc (chargeTick_self hu)]
    split_ifs
    · exact hP.boosted hcharged
    · exact hcharged
  · exact hcharged

theorem step (hP : Proc.Closed P) (hL : Coherent m L) (he : step idle e m = some m')
    (h : ∀ i, P (m.kernel.proc i)) (i : Slot) : P (m'.kernel.proc i) := by
  cases hy : Kernel.atYield m e with
  | none => exact hP.changed ((step_changed hL hy he).slot i) (h i)
  | some pk =>
      obtain ⟨p, k⟩ := pk
      obtain ⟨hc, -, L', hq, -⟩ := atYield_queued hL.queued (fun _ => id) hy
      rw [step_of_atYield hy he]
      exact hP.yield (hq.not_unused hc) (hP.atYield hy h) i

theorem boot (hP : Proc.Closed P) (outside : QTable) (i : Slot) : P ((boot outside).kernel.proc i) := by
  rw [boot_proc, State.modify_proc]
  split_ifs
  · have hsame : (Proc.zero.allocated 1).SameParameters (Proc.zero.allocated 1).awake :=
      ⟨rfl, rfl, rfl, fun h => by cases h⟩
    exact hP.same hsame (hP.allocated 1 rfl hP.zero)
  · exact hP.zero

theorem run (hP : Proc.Closed P) (h : Run (Kernel.step idle) (Kernel.boot outside) tr m) (i : Slot) :
    P (m.kernel.proc i) := by
  induction h generalizing i with
  | nil => exact hP.boot outside i
  | snoc h he ih =>
      obtain ⟨L, hL⟩ := Coherent.run h
      exact hP.step hL he ih i

theorem reachable (hP : Proc.Closed P) (h : Reachable idle m) (i : Slot) : P (m.kernel.proc i) := by
  obtain ⟨outside, tr, hrun⟩ := h
  exact hP.run hrun i

end Proc.Closed

end Xv6Mlfq.Kernel
