import Xv6Mlfq.ExitWait.History

/-!
# Exit and wait

No exit is missed, and none is returned twice.
-/

namespace Xv6Mlfq.ExitWait

open Access Queue Kernel Runs

variable {s : System} {i p : Slot} {outside : QTable} {tr : List (Transition System Event)}

namespace System

/-- `fork` has made the process RUNNABLE, and it has not been reaped. -/
def Forked (s : System) (i : Slot) : Prop :=
  s.kernel.initproc ≠ some i ∧ (s.kernel.proc i).state ≠ .unused ∧ (s.kernel.proc i).state ≠ .used

def SleepsInWait (s : System) (p : Slot) : Prop := (s.pc p).Sleeps ∧ (s.kernel.proc p).state = .sleeping

end System

/-- The `wait` of process `p` has found a dead child, and its `copyout` fails. -/
def CopyoutFails (x : Transition System Event) (p : Slot) : Prop :=
  x.event = .go p false ∧ ∃ i rest havekids addr, x.pre.pc p = .scan (i :: rest) havekids addr ∧ addr ≠ 0 ∧
    (x.pre.kernel.proc i).parent = some p ∧ (x.pre.kernel.proc i).state = .zombie

/-- What is expected of a run `tr` that has led to `s`. -/
structure Protocol (tr : List (Transition System Event)) (s : System) : Prop where
  parented : s.waitLock = none → ∀ i, s.Forked i → ∃ q, (s.kernel.proc i).parent = some q ∧
    (s.kernel.proc q).state ≠ .unused ∧ (s.kernel.proc q).state ≠ .zombie
  awaited : s.waitLock = none → ∀ p, s.SleepsInWait p → (∃ i, (s.kernel.proc i).parent = some p) ∧
    ∀ i, (s.kernel.proc i).parent = some p → (s.kernel.proc i).state ≠ .zombie
  once : ∀ i, Alternates (tr.filterMap (mark i))
  reaped : ∀ x ∈ tr, ∀ i p pid status, mark i x = some (.reaped p pid status) →
    (x.pre.kernel.proc i).parent = some p ∧ (x.post.kernel.proc i).state = .unused
  failed : ∀ x ∈ tr, ∀ p, CopyoutFails x p →
    x.post.pc p = .user (.value (-1)) ∧ x.post.kernel = x.pre.kernel

namespace Inv

variable {init : Slot}

theorem parented (h : Inv init s) (hi : s.Forked i) : ∃ q, (s.kernel.proc i).parent = some q ∧
    (s.kernel.proc q).state ≠ .unused ∧ (s.kernel.proc q).state ≠ .zombie := by
  obtain ⟨hinit, hunused, hused⟩ := hi
  have hne : i ≠ init := fun he => hinit (he ▸ h.initproc)
  have hphase : s.phase i = .alive ∨ s.phase i = .zombie := by
    simp only [System.phase, phases]
    generalize (s.kernel.proc i).state = st at hunused hused
    cases st with
    | unused => exact absurd rfl hunused
    | used => exact absurd rfl hused
    | zombie => exact .inr rfl
    | _ => exact .inl rfl
  obtain ⟨q, hq⟩ := Option.ne_none_iff_exists'.mp (h.kin.adopted i hne hphase)
  have halive := h.kin.parents i q hq
  refine ⟨q, hq, fun hs => ?_, fun hs => ?_⟩
  · simp [System.phase, phases, hs, phaseOf] at halive
  · simp [System.phase, phases, hs, phaseOf] at halive

theorem awaited (h : Inv init s) (hfree : s.waitLock = none) (hp : s.SleepsInWait p) :
    (∃ i, (s.kernel.proc i).parent = some p) ∧
      ∀ i, (s.kernel.proc i).parent = some p → (s.kernel.proc i).state ≠ .zombie := by
  refine ⟨h.children p (.inr hp), fun i hi hz => ?_⟩
  have hphase : s.phase i = .zombie := by simp [System.phase, phases, hz, phaseOf]
  exact h.unmissed (h.no_wakes_of_free hfree) (.inr hp) hi hphase

end Inv

theorem step_failed {x : Transition System Event} (hs : step x.event x.pre = some x.post) (hfail : CopyoutFails x p) :
    x.post.pc p = .user (.value (-1)) ∧ x.post.kernel = x.pre.kernel := by
  obtain ⟨he, i, rest, havekids, addr, hpc, haddr, hparent, hz⟩ := hfail
  rw [he] at hs
  cases step_stepped hs with
  | go hrun hs =>
      have hwait : waitStep x.pre p false (.scan (i :: rest) havekids addr) = some x.post := by
        rwa [advance, hpc] at hs
      simp only [waitStep, if_pos hparent, if_pos hz] at hwait
      split_ifs at hwait with hlocked hfail
      · rw [← Option.some.inj hwait]
        exact ⟨put_pc_self, rfl⟩
      · exact absurd ⟨haddr, trivial⟩ hfail

/-- In every interleaving. -/
theorem exit_wait_protocol (h : Run step (boot outside) tr s) : Protocol tr s where
  parented _ _ hi := (Inv.run h).parented hi
  awaited hfree _ hp := (Inv.run h).awaited hfree hp
  once i := (told h i).alternates
  reaped x hx i p pid status hm := by
    obtain ⟨tr₁, tr₂, rfl⟩ := List.append_of_mem hx
    obtain ⟨h₁, hs, -⟩ := h.middle
    cases step_fate (Inv.run h₁) hs i with
    | rests hm' h => cases hm'.symm.trans hm
    | exited hm' hne hz hpid hstatus => cases hm'.symm.trans hm
    | reaped hm' hz hparent hfree =>
        cases hm'.symm.trans hm
        exact ⟨hparent, hfree⟩
  failed x hx _ hfail := step_failed (h.step_of_mem hx) hfail

/-- The first process forks and sleeps in `wait`, and its child exits with status 7. -/
def childExits : List Event :=
  List.flatten [
    [.dispatch 0 fun _ => 0, .call 0 .fork], .replicate 4 (.go 0 true), [.call 0 (.wait 4096)],
    .replicate 68 (.go 0 true), [.dispatch 1 fun _ => 0, .call 1 (.exit 7)], .replicate 133 (.go 1 true),
    [.dispatch 0 fun _ => 0], .replicate 3 (.go 0 true)]

/-- `wait` returns pid 2 and the status to the first process, and the slot of its child is free. -/
theorem exit_wait_protocol_reaped :
    ∃ tr s, s.pc 0 = .user (.waited 2 (some 7)) ∧ (s.kernel.proc 1).state = .unused ∧ Protocol tr s := by
  have hplay : (final step (boot fun _ => 0) childExits).any
      (fun s => s.pc 0 = .user (.waited 2 (some 7)) ∧ (s.kernel.proc 1).state = .unused) = true := by
    decide +kernel
  obtain ⟨tr, s, h, -, hs⟩ := Run.replay hplay
  obtain ⟨hpc, hfree⟩ := of_decide_eq_true hs
  exact ⟨tr, s, hpc, hfree, exit_wait_protocol h⟩

end Xv6Mlfq.ExitWait
