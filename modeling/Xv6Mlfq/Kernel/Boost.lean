import Xv6Mlfq.Queue.Theorems
import Xv6Mlfq.Kernel.Lemmas.Clock
import Xv6Mlfq.Kernel.Lemmas.Invariant

/-!
# Rule 5: the priority boost

The boost queues every RUNNABLE process at its starting level, but passes by the processes that sleep.
-/

namespace Xv6Mlfq.Kernel

open Access Queue Runs

variable {idle : Idle} {m : Machine} {e : Event} {k k' : State} {p i : Slot} {L : Fifos}

/-- The process has the level that its nice value gives it, and a fresh quantum. -/
def AtStart (p : Proc) : Prop := p.queue = priority p ∧ p.runtime = 0

instance (p : Proc) : Decidable (AtStart p) := inferInstanceAs (Decidable (_ ∧ _))

def Alive (p : Proc) : Prop := p.state = .runnable ∨ p.state = .running ∨ p.state = .sleeping

instance (p : Proc) : Decidable (Alive p) := inferInstanceAs (Decidable (_ ∨ _))

/-- What Rule 5 asks of a boost from `k` to `k'` in the `yield` of `p`. -/
structure Boosted (k k' : State) (p : Slot) : Prop where
  reset : ∀ i, Alive (k'.proc i) → AtStart (k'.proc i)
  linked : ∃ L, Holds k'.qtable L ∧
    ∀ i q, i ∈ L q ↔ (k'.proc i).state = .runnable ∧ priority (k'.proc i) = q
  nice : ∀ i, (k'.proc i).nice = (k.proc i).nice
  pid : ∀ i, (k'.proc i).pid = (k.proc i).pid
  chan : ∀ i, (k'.proc i).chan = (k.proc i).chan
  state : ∀ i, i ≠ p → (k'.proc i).state = (k.proc i).state

theorem yield_boost_proc (hr : (k.proc p).state = .running) (hdue : boostDue k) (i : Slot) :
    (yield k p).proc i =
      if i = p then
        if (k.proc p).Spent then (k.proc p).demoted.boosted else (k.proc p).charged.boosted
      else if (k.proc i).state = .runnable then (k.proc i).boosted else k.proc i := by
  have hu : (k.proc p).state ≠ .unused := by simp [hr]
  have hrun : ((chargeTick k p).proc p).state = .runnable := by
    rw [chargeTick_proc hu, if_pos rfl]
    split_ifs <;> rfl
  rw [yield_eq, if_pos hdue, boost_proc hrun]
  by_cases hi : i = p
  · subst hi
    rw [if_pos hrun, if_pos rfl, chargeTick_proc hu, if_pos rfl]
    split_ifs <;> rfl
  · rw [if_neg hi, chargeTick_proc hu, if_neg hi]

theorem yield_boost_self (hr : (k.proc p).state = .running) (hdue : boostDue k) :
    ((yield k p).proc p).state = .runnable ∧ AtStart ((yield k p).proc p) := by
  rw [yield_boost_proc hr hdue, if_pos rfl]
  split_ifs <;> exact ⟨rfl, rfl, rfl⟩

theorem yield_boost_keeps (hr : (k.proc p).state = .running) (hdue : boostDue k) (i : Slot) :
    ((yield k p).proc i).nice = (k.proc i).nice ∧ ((yield k p).proc i).pid = (k.proc i).pid ∧
      ((yield k p).proc i).chan = (k.proc i).chan ∧
        (i ≠ p → ((yield k p).proc i).state = (k.proc i).state) := by
  rw [yield_boost_proc hr hdue]
  by_cases hi : i = p
  · subst hi
    rw [if_pos rfl]
    split_ifs <;> exact ⟨rfl, rfl, rfl, fun h => absurd rfl h⟩
  · rw [if_neg hi]
    split_ifs <;> exact ⟨rfl, rfl, rfl, fun _ => rfl⟩

/-- Apart from the processes that sleep, the boost reaches everyone. -/
theorem boosted_iff_sleeping {held : Slot → Prop} (hq : Queued k held (fun i => m.cproc = some i) L)
    (hc : m.cproc = some p) (hdue : boostDue k) :
    Boosted k (yield k p) p ↔ ∀ i, (k.proc i).state = .sleeping → AtStart (k.proc i) := by
  have hr : (k.proc p).state = .running := (hq.running p).mpr hc
  constructor
  · intro h i hi
    have hip : i ≠ p := fun he => by rw [he, hr] at hi; cases hi
    have hproc : (yield k p).proc i = k.proc i := by
      rw [yield_boost_proc hr hdue, if_neg hip, if_neg (by simp [hi])]
    rw [← hproc]
    exact h.reset i (by rw [hproc]; exact .inr (.inr hi))
  · intro hsleep
    refine ⟨fun i hi => ?_, ?_, fun i => (yield_boost_keeps hr hdue i).1,
      fun i => (yield_boost_keeps hr hdue i).2.1, fun i => (yield_boost_keeps hr hdue i).2.2.1,
      fun i => (yield_boost_keeps hr hdue i).2.2.2⟩
    · by_cases hip : i = p
      · rw [hip]; exact (yield_boost_self hr hdue).2
      · rw [yield_boost_proc hr hdue, if_neg hip] at hi ⊢
        split_ifs at hi ⊢ with hrun
        · exact ⟨rfl, rfl⟩
        · rcases hi with hi | hi | hi
          · exact absurd hi hrun
          · exact absurd (Option.some.inj (((hq.running i).mp hi).symm.trans hc)) hip
          · exact hsleep i hi
    · have hrun := hq.chargeTick_runnable hc
      refine ⟨boostLists (chargeTick k p), ?_, fun i q => ?_⟩
      · rw [yield_eq, if_pos hdue]
        exact (boost_represents hrun).1.holds
      · rw [← Queued.boostLists_boost hrun, yield_eq, if_pos hdue]
        simp [boostLists]

/-- Rule 5 holds of a boost exactly if every process that sleeps at that time is at its starting level with a
fresh quantum anyway. -/
theorem boosted_iff (h : Reachable idle m) (hy : atYield m e = some (p, k)) (hdue : boostDue k) :
    Boosted k (yield k p) p ↔ ∀ i, (k.proc i).state = .sleeping → AtStart (k.proc i) := by
  obtain ⟨L, hL⟩ := h.coherent
  obtain ⟨hc, -, L', hq, -⟩ := atYield_queued hL.queued (fun _ => id) hy
  exact boosted_iff_sleeping hq hc hdue

/-- Slot 0 has been demoted and sleeps while its child yields at time 60. -/
theorem boosted_violated :
    ¬ ∀ idle m e p k, Reachable idle m → atYield m e = some (p, k) → boostDue k →
      Boosted k (yield k p) p := by
  intro hall
  have hplay : (final (step .asWritten) (hog 3)
      [.fork true true true, .sleep (.other 0), .schedule, .usertrap, .schedule]).any
        (fun m => (atYield m .usertrap).any fun (p, k) => boostDue k ∧ p = 1 ∧
          (k.proc 1).state = .running ∧ (k.proc 0).state = .sleeping ∧ ¬ AtStart (k.proc 0)) = true := by
    decide +kernel
  obtain ⟨tr, m, h, -, hm⟩ := replay_hog (by decide) hplay
  obtain ⟨⟨p, k⟩, hy, hk⟩ := (Option.any_eq_true _ _).mp hm
  obtain ⟨hdue, rfl, hr, hs, hno⟩ := of_decide_eq_true hk
  have hkeep : (yield k 1).proc 0 = k.proc 0 := by
    rw [yield_boost_proc hr hdue, if_neg (by decide), if_neg (by simp [hs])]
  have hb := (hall .asWritten m .usertrap 1 k ⟨_, tr, h⟩ hy hdue).reset 0
  rw [hkeep] at hb
  exact hno (hb (.inr (.inr hs)))

/-- The child of a process that does not sleep yields at time 60. -/
theorem boosted_iff_awake :
    ∃ m p k, (k.proc 0).state = .runnable ∧ p = 1 ∧ atYield m .usertrap = some (p, k) ∧
      (Boosted k (yield k p) p ↔ ∀ i, (k.proc i).state = .sleeping → AtStart (k.proc i)) := by
  have hplay : (final (step .asWritten) (hog 4)
      [.fork true true true, .sleep (.other 0), .schedule, .wakeup (.other 0)]).any
        (fun m => (atYield m .usertrap).any fun (p, k) => boostDue k ∧ p = 1 ∧
          (k.proc 0).state = .runnable) = true := by
    decide +kernel
  obtain ⟨tr, m, h, -, hm⟩ := replay_hog (by decide) hplay
  obtain ⟨⟨p, k⟩, hy, hk⟩ := (Option.any_eq_true _ _).mp hm
  obtain ⟨hdue, hp, hr⟩ := of_decide_eq_true hk
  exact ⟨m, p, k, hr, hp, hy, boosted_iff ⟨_, tr, h⟩ hy hdue⟩

end Xv6Mlfq.Kernel
