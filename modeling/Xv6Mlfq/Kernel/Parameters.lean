import Xv6Mlfq.Kernel.Allotment
import Xv6Mlfq.Kernel.Lemmas.Closed

/-!
# The scheduling parameters of a process

The nice value, the level and the ticks used are changed in different places: the nice value by `sys_nice` and
`freeproc`, the level also by a demotion, a boost and `allocproc`, the ticks by every yield.
-/

namespace Xv6Mlfq.Kernel

open Access Queue Runs

variable {idle : Idle} {m : Machine} {p : Proc}

/-- The process is not above the level that its nice value allows, and has a tick of its quantum left. -/
structure Proc.InBounds (p : Proc) : Prop where
  nice : NICE_MIN ≤ p.nice ∧ p.nice ≤ NICE_MAX
  queue : QUEUE_LOW ≤ p.queue ∧ p.queue ≤ priority p
  runtime : 0 ≤ p.runtime ∧ p.runtime < quantum p

/-- `allocproc` sets the level of a free slot and leaves its ticks alone. -/
structure Proc.Regular (p : Proc) : Prop extends p.InBounds where
  unused : p.state = .unused → p.runtime = 0

theorem quantum_pos (p : Proc) : 0 < quantum p := allotment_pos p.queue

theorem lower_le (q : Level) : lower q ≤ q := by
  rw [Fin.le_def, lower_val]
  exact Nat.sub_le _ _

namespace Proc.Regular

/-- A fresh quantum fits every level. -/
theorem of_zero {p : Proc} (hnice : NICE_MIN ≤ p.nice ∧ p.nice ≤ NICE_MAX) (hqueue : p.queue ≤ priority p)
    (hzero : p.runtime = 0) : p.Regular where
  nice := hnice
  queue := ⟨Fin.zero_le _, hqueue⟩
  runtime := by
    rw [hzero]
    exact ⟨le_rfl, quantum_pos p⟩
  unused _ := hzero

theorem zero : Proc.zero.Regular := of_zero (by decide) (Fin.zero_le _) rfl

theorem same {p' : Proc} (h : p.Regular) (hs : p.SameParameters p') : p'.Regular where
  nice := by
    rw [hs.nice]
    exact h.nice
  queue := by
    rw [priority, hs.nice, hs.queue]
    exact h.queue
  runtime := by
    rw [quantum, hs.queue, hs.runtime]
    exact h.runtime
  unused hu := hs.runtime.trans (h.unused (hs.unused hu))

/-- The tick does not complete the quantum. -/
theorem charged (h : p.Regular) (hs : ¬ p.Spent) : p.charged.Regular where
  nice := h.nice
  queue := h.queue
  runtime := by
    have hpos : 0 ≤ p.runtime + 1 := h.runtime.1.trans (by simp)
    exact ⟨hpos, not_le.mp hs⟩
  unused hu := by cases hu

theorem demoted (h : p.Regular) : p.demoted.Regular :=
  of_zero h.nice ((lower_le p.queue).trans h.queue.2) rfl

theorem closed : Proc.Closed Proc.Regular where
  zero := zero
  same hs h := h.same hs
  freed _ := of_zero (by simp [freeproc]) (Fin.zero_le _) rfl
  allocated _ hu h := of_zero h.nice le_rfl (h.unused hu)
  reniced inc _ := of_zero (reniced_clamped _ inc) le_rfl rfl
  charged hs h := h.charged hs
  demoted h := h.demoted
  boosted h := of_zero h.nice le_rfl rfl

end Proc.Regular

theorem reachable_inBounds (h : Reachable idle m) (i : Slot) : (m.kernel.proc i).InBounds :=
  (Proc.Regular.closed.reachable h i).toInBounds

/-- The first process lowers itself and is charged ten ticks. -/
theorem reachable_inBounds_lowered : ∃ m : Machine, (m.kernel.proc 0).nice = 19 ∧ (m.kernel.proc 0).runtime = 10 ∧
    (m.kernel.proc 0).InBounds := by
  have hplay : (final (step .asPromised) (boot fun _ => 0)
      (.schedule :: .nice 25 :: (List.replicate 10 [.schedule, .usertrap]).flatten)).any (fun m =>
        (m.kernel.proc 0).nice = 19 ∧ (m.kernel.proc 0).runtime = 10) = true := by
    decide +kernel
  obtain ⟨tr, m, hrun, -, hm⟩ := Run.replay hplay
  obtain ⟨hnice, hruntime⟩ := of_decide_eq_true hm
  exact ⟨m, hnice, hruntime, reachable_inBounds ⟨_, tr, hrun⟩ 0⟩

end Xv6Mlfq.Kernel
