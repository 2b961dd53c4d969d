import Xv6Mlfq.Queue.Theorems
import Xv6Mlfq.Kernel.Lemmas.Invariant

/-!
# The run queue of one hart

Every RUNNABLE process is linked exactly once, in the list of its level, or is the one that the scheduler
is about to resume. So a scheduler that has something to run runs it.
-/

namespace Xv6Mlfq.Kernel

open Access Queue Runs

variable {idle : Idle} {m : Machine} {L : Fifos} {outside : QTable} {tr : List (Transition Machine Event)}

/-- `qtable` holds the lists `L`, and they are the RUNNABLE processes that the scheduler must choose from. -/
structure RunQueue (m : Machine) (L : Fifos) : Prop where
  holds : Holds m.kernel.qtable L
  linked : ∀ i, (∃ q, i ∈ L q) ↔ (m.kernel.proc i).state = .runnable ∧ ¬ m.Kept i
  level : ∀ i q, i ∈ L q → (m.kernel.proc i).queue = q
  kept : m.kernel.pKicked = false → ∃ i, m.p = some i ∧ (m.kernel.proc i).state = .runnable ∧ L.Free i

theorem Coherent.runQueue (h : Coherent m L) : RunQueue m L where
  holds := h.queued.represents.holds
  linked i := ⟨fun ⟨q, hq⟩ => ⟨((h.queued.mem i q).mp hq).1, ((h.queued.mem i q).mp hq).2.1⟩,
    fun ⟨hr, hk⟩ => ⟨_, h.queued.mem_of_runnable hr hk⟩⟩
  level i q hq := ((h.queued.mem i q).mp hq).2.2
  kept hf := by
    obtain ⟨i, hp⟩ := h.kept hf
    exact ⟨i, hp, h.queued.held i ⟨hf, hp⟩, h.queued.free_of_held ⟨hf, hp⟩⟩

/-- An iteration of the scheduler runs a RUNNABLE process if there is one. -/
theorem Coherent.progress (h : Coherent m L) {i : Slot}
    (hi : (m.kernel.proc i).state = .runnable) :
    ∃ m' j, scheduler idle m = some m' ∧ m'.cproc = some j ∧ (m.kernel.proc j).state = .runnable := by
  by_cases hkick : m.kernel.pKicked = true
  · have hmem : i ∈ L (m.kernel.proc i).queue :=
      h.queued.mem_of_runnable hi fun hk => by simp [Machine.Kept, hkick] at hk
    have hne : ∃ q, L q ≠ [] := ⟨_, List.ne_nil_of_mem hmem⟩
    obtain ⟨q, htop⟩ := Fifos.exists_top hne
    obtain ⟨j, xs, hL⟩ := List.exists_cons_of_ne_nil htop.1
    obtain ⟨t, ht, -⟩ := h.queued.dequeue htop hL
    have hidle : ¬ (idle = .asPromised ∧ NoneReady m.kernel.qtable) := fun hn =>
      htop.1 ((Kernel.noneReady_iff h.queued.represents).mp hn.2 q)
    exact ⟨_, j, scheduler_dequeued hkick hidle ht, rfl, ((h.queued.mem j q).mp (by simp [hL])).1⟩
  · have hkick' : m.kernel.pKicked = false := by simpa using hkick
    obtain ⟨j, hp⟩ := h.kept hkick'
    have he : scheduler idle m = some (Kernel.dispatch m.kernel j) := by simp [scheduler, hkick', hp]
    exact ⟨_, j, he, rfl, h.queued.held j ⟨hkick', hp⟩⟩

/-- In every state of every run that takes an iteration with empty lists as a no-op. -/
theorem run_queue_invariant (h : Run (step .asPromised) (boot outside) tr m) :
    (∃ L, RunQueue m L) ∧
      (m.cproc = none → (∃ i, (m.kernel.proc i).state = .runnable) →
        ∃ m' j, step .asPromised .schedule m = some m' ∧ m'.cproc = some j ∧
          (m.kernel.proc j).state = .runnable) := by
  obtain ⟨L, hL⟩ := Coherent.run h
  refine ⟨⟨L, hL.runQueue⟩, fun hc ⟨i, hi⟩ => ?_⟩
  obtain ⟨m', j, he, hrun⟩ := hL.progress hi
  exact ⟨m', j, (step_schedule hc).trans he, hrun⟩

/-- The first process forks and is kept running by the next tick, while its child waits in its list. -/
theorem run_queue_invariant_kept :
    ∃ m, m.cproc = none ∧ m.kernel.pKicked = false ∧ (m.kernel.proc 1).state = .runnable ∧
      ∃ L, RunQueue m L := by
  have hplay : (final (step .asPromised) (boot fun _ => 0) [.schedule, .fork true true true, .usertrap]).any
      (fun m => m.cproc = none ∧ m.kernel.pKicked = false ∧ (m.kernel.proc 1).state = .runnable) = true := by
    decide +kernel
  obtain ⟨tr, m, h, -, hm⟩ := Run.replay hplay
  obtain ⟨hc, hf, hr⟩ := of_decide_eq_true hm
  exact ⟨m, hc, hf, hr, (run_queue_invariant h).1⟩

end Xv6Mlfq.Kernel
