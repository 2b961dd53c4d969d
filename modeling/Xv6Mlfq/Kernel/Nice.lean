import Xv6Mlfq.Kernel.Boost

/-!
# Rule 6: `nice`

`sys_nice` gives the process the level of its new nice value and a fresh quantum, and then calls the `yield`
of the timer tick, which charges a tick to that quantum.
-/

namespace Xv6Mlfq.Kernel

open Access Queue Runs

variable {idle : Idle} {m m' : Machine} {k k' : State} {p i : Slot} {inc : Int}

/-- The process after `sys_nice` has set its nice value, its level and its quantum. -/
def Proc.reniced (inc : Int) (p : Proc) : Proc :=
  let q := { p with nice := max (min (int32 (p.nice + inc)) NICE_MAX) NICE_MIN }
  { q with queue := priority q, runtime := 0 }

/-- The process is the last one of its level, and the next choice is made from the lists. -/
structure LastOfLevel (k : State) (L : Fifos) (p : Slot) : Prop where
  runnable : (k.proc p).state = .runnable
  last : (L (k.proc p).queue).getLast? = some p
  kicked : k.pKicked = true

/-- What Rule 6 and its note ask of a call of `nice` by `p` from `k` to `k'`. -/
structure NiceObeyed (k k' : State) (p : Slot) (inc : Int) : Prop where
  nice : (k'.proc p).nice = max (min (int32 ((k.proc p).nice + inc)) NICE_MAX) NICE_MIN
  start : AtStart (k'.proc p)
  linked : ∃ L L', Holds k.qtable L ∧ Holds k'.qtable L' ∧
    ((k'.proc p).queue ≠ (k.proc p).queue → LastOfLevel k' L' p) ∧
      ∀ q, (L' q).filter (· ≠ p) = (L q).filter (· ≠ p)
  others : ∀ i, i ≠ p → (k'.proc i).queue = (k.proc i).queue ∧ (k'.proc i).runtime = (k.proc i).runtime

/-- The new nice value is clamped, also if the sum has wrapped around. -/
theorem reniced_clamped (p : Proc) (inc : Int) :
    NICE_MIN ≤ (p.reniced inc).nice ∧ (p.reniced inc).nice ≤ NICE_MAX :=
  ⟨le_max_right _ _, max_le (min_le_right _ _) (by decide)⟩

theorem sysNice_proc (k : State) (p : Slot) (inc : Int) (i : Slot) :
    (sysNice k p inc).proc i = if i = p then (k.proc i).reniced inc else k.proc i := by
  have h : (sysNice k p inc).proc = (k.modify p (Proc.reniced inc)).proc := by
    simp only [sysNice, State.modify_modify]
    rfl
  rw [h, State.modify_proc]

theorem step_nice (hc : m.cproc = some p) (he : step idle (.nice inc) m = some m') :
    m'.kernel = yield (sysNice m.kernel p inc) p := by
  have hy : atYield m (.nice inc) = some (p, sysNice m.kernel p inc) := by simp [atYield, hc]
  rw [step_of_atYield hy he]

/-- What a call of `nice` makes of each process, when no boost is due. -/
theorem nice_proc (hr : (m.kernel.proc p).state = .running) (hc : m.cproc = some p)
    (hdue : ¬ boostDue m.kernel) (he : step idle (.nice inc) m = some m') (i : Slot) :
    m'.kernel.proc i =
      if i = p then
        if ((m.kernel.proc p).reniced inc).Spent then ((m.kernel.proc p).reniced inc).demoted
        else ((m.kernel.proc p).reniced inc).charged
      else m.kernel.proc i := by
  have hself := sysNice_proc m.kernel p inc p
  rw [if_pos rfl] at hself
  have hu : ((sysNice m.kernel p inc).proc p).state ≠ .unused := by simp [hself, Proc.reniced, hr]
  have hdue' : ¬ boostDue (sysNice m.kernel p inc) := hdue
  rw [step_nice hc he, yield_eq, if_neg hdue', chargeTick_proc hu, hself, sysNice_proc]
  by_cases hi : i = p
  · rw [if_pos hi, if_pos hi]
  · rw [if_neg hi, if_neg hi, if_neg hi]

/-- The tick that `yield` charges uses up the quantum of level HIGH only. -/
theorem reniced_spent (p : Proc) (inc : Int) :
    (p.reniced inc).Spent ↔ priority (p.reniced inc) = QUEUE_HIGH := by
  have hq : (p.reniced inc).queue = priority (p.reniced inc) := rfl
  have hr : (p.reniced inc).runtime = 0 := rfl
  rw [Proc.Spent, quantum, hq, hr]
  split_ifs with h₂ h₁
  · simp [h₂]
  · simp [h₁, Fin.ext_iff]
  · simp [h₂]

/-- A process that calls `nice` has lost a level when it is back in the scheduler, or a tick of its
quantum. -/
theorem nice_not_atStart (hr : (m.kernel.proc p).state = .running) (hc : m.cproc = some p)
    (hdue : ¬ boostDue m.kernel) (he : step idle (.nice inc) m = some m') :
    ¬ AtStart (m'.kernel.proc p) := by
  rintro ⟨hq, hrun⟩
  rw [nice_proc hr hc hdue he, if_pos rfl] at hq hrun
  split_ifs at hq hrun with hs
  · have hhigh : priority ((m.kernel.proc p).reniced inc).demoted = QUEUE_HIGH := (reniced_spent _ inc).mp hs
    have hlow : ((m.kernel.proc p).reniced inc).demoted.queue = lower QUEUE_HIGH :=
      congrArg lower ((reniced_spent _ inc).mp hs)
    rw [hhigh, hlow] at hq
    exact absurd hq (by decide)
  · exact absurd hrun (by simp [Proc.charged, Proc.reniced])

/-- No call of `nice` obeys Rule 6. -/
theorem nice_never (h : Reachable idle m) (hc : m.cproc = some p) (hdue : ¬ boostDue m.kernel)
    (he : step idle (.nice inc) m = some m') : ¬ NiceObeyed m.kernel m'.kernel p inc := by
  obtain ⟨L, hL⟩ := h.coherent
  exact fun hobeyed => nice_not_atStart ((hL.queued.running p).mpr hc) hc hdue he hobeyed.start

/-- The first process raises itself to HIGH at time 1 and is back at MEDIUM before it runs. -/
theorem nice_violated :
    ¬ ∀ idle m m' p inc, Reachable idle m → m.cproc = some p → ¬ boostDue m.kernel →
      step idle (.nice inc) m = some m' → NiceObeyed m.kernel m'.kernel p inc := by
  intro hall
  have hplay : (final (step .asWritten) (boot fun _ => 0) [.schedule, .usertrap, .schedule]).any
      (fun m => m.cproc = some 0 ∧ ¬ boostDue m.kernel ∧
        (step .asWritten (.nice (-19)) m).any fun m' : Machine => (m'.kernel.proc 0).queue = QUEUE_MEDIUM ∧
          priority (m'.kernel.proc 0) = QUEUE_HIGH) = true := by
    decide +kernel
  obtain ⟨tr, m, h, -, hm⟩ := Run.replay hplay
  obtain ⟨hc, hdue, hstep⟩ := of_decide_eq_true hm
  obtain ⟨m', he, hm'⟩ := (Option.any_eq_true _ _).mp hstep
  obtain ⟨hq, hhigh⟩ := of_decide_eq_true hm'
  have hstart := (hall .asWritten m m' 0 (-19) ⟨_, tr, h⟩ hc hdue he).start.1
  rw [hq, hhigh] at hstart
  exact absurd hstart (by decide)

/-- The first process lowers itself to LOW at time 1. -/
theorem nice_never_lowered :
    ∃ m m' : Machine, (m'.kernel.proc 0).queue = QUEUE_LOW ∧ (m'.kernel.proc 0).runtime = 1 ∧
      ¬ NiceObeyed m.kernel m'.kernel 0 15 := by
  have hplay : (final (step .asWritten) (boot fun _ => 0) [.schedule, .usertrap, .schedule]).any
      (fun m => m.cproc = some 0 ∧ ¬ boostDue m.kernel ∧
        (step .asWritten (.nice 15) m).any fun m' : Machine => (m'.kernel.proc 0).queue = QUEUE_LOW ∧
          (m'.kernel.proc 0).runtime = 1) = true := by
    decide +kernel
  obtain ⟨tr, m, h, -, hm⟩ := Run.replay hplay
  obtain ⟨hc, hdue, hstep⟩ := of_decide_eq_true hm
  obtain ⟨m', he, hm'⟩ := (Option.any_eq_true _ _).mp hstep
  obtain ⟨hq, hrun⟩ := of_decide_eq_true hm'
  exact ⟨m, m', hq, hrun, nice_never ⟨_, tr, h⟩ hc hdue he⟩

end Xv6Mlfq.Kernel
