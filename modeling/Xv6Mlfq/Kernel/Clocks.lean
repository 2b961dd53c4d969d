import Xv6Mlfq.Kernel.Lemmas.Traps

/-!
# The scheduler's clock and the system's clock

`usertrap` counts the interrupt in `devintr`, but a process that has been killed exits before `++time`.
-/

namespace Xv6Mlfq.Kernel

open Access Queue Runs

variable {idle : Idle} {m : Machine} {outside : QTable} {tr : List (Transition Machine Event)}

/-- The two clocks agree when the timer interrupt `x` has been handled. -/
def Agreed (x : Transition Machine Event) : Prop := x.post.kernel.time = x.post.kernel.ticks

/-- The clocks differ by the number of interrupts that have found a killed process. -/
theorem agreed_iff {x : Transition Machine Event} {tr' : List (Transition Machine Event)}
    (h : Run (step idle) (boot outside) (tr ++ x :: tr') m) (hn : traps (tr ++ x :: tr') < 2 ^ 31) :
    Agreed x ↔ dyings (tr ++ [x]) = 0 := by
  obtain ⟨hpre, he, -⟩ := h.middle
  have hrun : Run (step idle) (boot outside) (tr ++ [x]) x.post := hpre.snoc he
  have hinit : tr ++ [x] <+: tr ++ x :: tr' := ⟨tr', by simp⟩
  obtain ⟨hticks, htime⟩ := run_clocks hrun ((traps_mono hinit).trans_lt hn)
  rw [Agreed, hticks, htime]
  omega

/-- The clocks agree after every timer interrupt of a run exactly if none of these interrupts was taken in
user mode by a process that had been killed. -/
theorem clocks_agree_iff (h : Run (step idle) (boot outside) tr m) (hn : traps tr < 2 ^ 31) :
    (∀ x ∈ tr, x.event.trap = true → Agreed x) ↔ ∀ x ∈ tr, ¬ Dying x.pre x.event := by
  constructor
  · intro hagree x hx hd
    obtain ⟨tr₁, tr₂, rfl⟩ := List.append_of_mem hx
    have htrap : x.event.trap = true := by rw [hd.1]; rfl
    have hzero := (agreed_iff h hn).mp (hagree x hx htrap)
    exact List.countP_eq_zero.mp hzero x (by simp) (by simpa using hd)
  · intro hno x hx _
    obtain ⟨tr₁, tr₂, rfl⟩ := List.append_of_mem hx
    refine (agreed_iff h hn).mpr (List.countP_eq_zero.mpr fun y hy => ?_)
    have hy' : y ∈ tr₁ ++ x :: tr₂ := by
      rcases List.mem_append.mp hy with hy | hy
      · exact List.mem_append_left _ hy
      · obtain rfl := List.mem_singleton.mp hy
        exact hx
    simpa using hno y hy'

/-- The child, raised to HIGH, loses the hart at the tick that wakes its parent; the parent kills it, and
the next tick finds it in user mode. -/
def killed : List Event :=
  [.schedule, .fork true true true, .sleep .ticks, .schedule, .nice (-19), .schedule, .usertrap, .schedule,
    .kill 2, .sleep .ticks, .schedule]

theorem clocks_disagree :
    ¬ ∀ idle outside tr m, Run (step idle) (boot outside) tr m → traps tr < 2 ^ 31 →
      ∀ x ∈ tr, x.event.trap = true → Agreed x := by
  intro hall
  have hplay : (final (step .asWritten) (boot fun _ => 0) killed).any (fun m =>
      (step .asWritten .usertrap m).any fun m' : Machine => m'.kernel.time = 1 ∧ m'.kernel.ticks = 2) = true := by
    decide +kernel
  obtain ⟨tr, m, h, hev, hm⟩ := Run.replay hplay
  obtain ⟨m', he, hm'⟩ := (Option.any_eq_true _ _).mp hm
  obtain ⟨htime, hticks⟩ := of_decide_eq_true hm'
  have hcount : (killed ++ [Event.usertrap]).countP Event.trap < 2 ^ 31 := by decide
  have hn : traps (tr ++ [⟨m, .usertrap, m'⟩]) < 2 ^ 31 := by
    rw [traps_eq, List.map_append, List.map_singleton, hev]
    exact hcount
  have hagree : m'.kernel.time = m'.kernel.ticks := hall .asWritten _ _ m' (h.snoc he) hn ⟨m, .usertrap, m'⟩
    (by simp) rfl
  rw [htime, hticks] at hagree
  exact absurd hagree (by decide)

/-- Two ticks of a process that nobody kills. -/
theorem clocks_agree_iff_computing :
    ∃ tr m, m.kernel.time = 2 ∧ Run (step .asWritten) (boot fun _ => 0) tr m ∧
      ((∀ x ∈ tr, x.event.trap = true → Agreed x) ↔ ∀ x ∈ tr, ¬ Dying x.pre x.event) := by
  have hplay : (final (step .asWritten) (boot fun _ => 0) [.schedule, .usertrap, .schedule, .usertrap]).any
      (fun m => m.kernel.time = 2) = true := by
    decide +kernel
  obtain ⟨tr, m, h, hev, hm⟩ := Run.replay hplay
  have hn : traps tr < 2 ^ 31 := by
    rw [traps_eq, hev]
    decide
  exact ⟨tr, m, of_decide_eq_true hm, h, clocks_agree_iff h hn⟩

end Xv6Mlfq.Kernel
