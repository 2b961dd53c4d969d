import Xv6Mlfq.Kernel.Lemmas.Invariant

/-!
# Rule 1: the highest level runs

A choice from the lists obeys the rule. A process that is resumed because `p_kicked` is clear obeys it only
if nothing has become ready above it.
-/

namespace Xv6Mlfq.Kernel

open Access Queue Runs

variable {idle : Idle} {m m' : Machine} {L : Fifos} {p : Slot}

/-- No RUNNABLE process is at a higher level than `p`. -/
def Rule1 (k : State) (p : Slot) : Prop :=
  ∀ i, (k.proc i).state = .runnable → (k.proc i).queue ≤ (k.proc p).queue

instance (k : State) (p : Slot) : Decidable (Rule1 k p) := inferInstanceAs (Decidable (∀ _, _))

/-- The lists of all levels above `q` are empty. -/
def NoneAbove (t : QTable) (q : Level) : Prop := ∀ r : Level, q < r → ¬ t (gethead r, .next) < NPROC

/-- The scheduler will look at the lists, or they have nothing above the process that it remembers. -/
def HighestFirst (m : Machine) : Prop :=
  m.kernel.pKicked = true ∨ ∀ p, m.p = some p → NoneAbove m.kernel.qtable (m.kernel.proc p).queue

theorem dispatch_queue (k : State) (p i : Slot) :
    ((dispatch k p).kernel.proc i).queue = (k.proc i).queue := by
  rw [dispatch_proc]
  split_ifs with h
  · subst h; rfl
  · rfl

theorem dispatch_runnable (k : State) (p i : Slot) :
    ((dispatch k p).kernel.proc i).state = .runnable ↔ i ≠ p ∧ (k.proc i).state = .runnable := by
  rw [dispatch_proc]
  split_ifs with h
  · simp [h, Proc.dispatched]
  · simp [h]

theorem Coherent.rule1_lists (h : Coherent m L) {t : QTable}
    (hp : ∀ i, (m.kernel.proc i).state = .runnable → i ≠ p → ∃ q, i ∈ L q) :
    Rule1 (Kernel.dispatch { m.kernel with qtable := t } p).kernel p ↔
      ∀ r, (m.kernel.proc p).queue < r → ∀ i ∈ L r, i = p := by
  simp only [Rule1, dispatch_queue, dispatch_runnable]
  constructor
  · intro hrule r hr i hi
    by_contra hip
    obtain ⟨hrun, -, hq⟩ := (h.queued.mem i r).mp hi
    exact absurd (hrule i ⟨hip, hrun⟩) (by rw [hq]; exact not_le.mpr hr)
  · rintro hL i ⟨hip, hrun⟩
    by_contra hlt
    obtain ⟨q, hq⟩ := hp i hrun hip
    have hqi := ((h.queued.mem i q).mp hq).2.2
    exact hip (hL q (hqi ▸ not_le.mp hlt) i hq)

/-- An iteration obeys Rule 1 exactly if it takes its process from the lists, or nothing is above the one
that it remembers. -/
theorem rule1_iff (h : Reachable idle m) (he : step idle .schedule m = some m') (hp : m'.cproc = some p) :
    Rule1 m'.kernel p ↔ HighestFirst m := by
  obtain ⟨L, hL⟩ := h.coherent
  obtain ⟨L', -, hmove⟩ := hL.step he
  cases hmove with
  | arrivals hne => exact absurd rfl hne
  | boost hy => simp [atYield] at hy
  | @dequeue q i xs t _ hkick htop hLq _ hm =>
      subst hm
      cases hp
      have hiq : (m.kernel.proc p).queue = q := ((hL.queued.mem p q).mp (by simp [hLq])).2.2
      refine iff_of_true ?_ (.inl hkick)
      refine (hL.rule1_lists fun i hi _ => ⟨_, hL.queued.mem_of_runnable hi ?_⟩).mpr fun r hr i hi => ?_
      · exact fun hk => by simp [Machine.Kept, hkick] at hk
      · rw [htop.2 r (hiq ▸ hr)] at hi
        exact absurd hi List.not_mem_nil
  | @resume i _ hkick hmp _ hm =>
      subst hm
      cases hp
      have hrun : ∀ i, (m.kernel.proc i).state = .runnable → i ≠ p → ∃ q, i ∈ L q := fun i hi hip =>
        ⟨_, hL.queued.mem_of_runnable hi fun hk => hip (Option.some.inj (hk.2.symm.trans hmp))⟩
      have hfree : L.Free p := hL.queued.free_of_held ⟨hkick, hmp⟩
      have hrule := hL.rule1_lists (t := m.kernel.qtable) hrun
      refine hrule.trans ⟨fun hno => .inr fun j hj r hr => ?_, fun hno r hr i hi => ?_⟩
      · obtain rfl := Option.some.inj (hmp.symm.trans hj)
        rw [hL.queued.represents.firstid_lt_iff, not_not, List.eq_nil_iff_forall_not_mem]
        exact fun i hi => hfree r (hno r hr i hi ▸ hi)
      · have hnone := hno.resolve_left (by simp [hkick]) p hmp r hr
        rw [hL.queued.represents.firstid_lt_iff, not_not] at hnone
        simp [hnone] at hi
  | rest _ _ _ _ hm =>
      subst hm
      simp [step, atYield, hp] at he
  | @stray i t _ hkick hempty _ hm =>
      subst hm
      cases hp
      refine iff_of_true ?_ (.inl hkick)
      refine (hL.rule1_lists fun i hi _ => ⟨_, hL.queued.mem_of_runnable hi ?_⟩).mpr fun r _ i hi => ?_
      · exact fun hk => by simp [Machine.Kept, hkick] at hk
      · simp [hempty r] at hi

/-- Slot 0 has lowered its own level while its child waits above it, and is resumed. -/
theorem rule1_violated :
    ¬ ∀ idle m m' p, Reachable idle m → step idle .schedule m = some m' → m'.cproc = some p →
      Rule1 m'.kernel p := by
  intro hall
  have hplay : (final (step .asWritten) (boot fun _ => 0)
      [.schedule, .usertrap, .schedule, .fork true true true, .nice 19]).any
        (fun m => (step .asWritten .schedule m).any fun m' : Machine =>
          m'.cproc = some 0 ∧ ¬ Rule1 m'.kernel 0) = true := by
    decide +kernel
  obtain ⟨tr, m, h, -, hm⟩ := Run.replay hplay
  obtain ⟨m', he, hm'⟩ := (Option.any_eq_true _ _).mp hm
  obtain ⟨hp, hno⟩ := of_decide_eq_true hm'
  exact hno (hall .asWritten m m' 0 ⟨_, tr, h⟩ he hp)

/-- The child is taken from its list when slot 0 sleeps. -/
theorem rule1_iff_sleeping : ∃ m m' : Machine, m'.cproc = some 1 ∧ (Rule1 m'.kernel 1 ↔ HighestFirst m) := by
  have hplay : (final (step .asWritten) (boot fun _ => 0)
      [.schedule, .fork true true true, .sleep (.other 0)]).any
        (fun m => (step .asWritten .schedule m).any fun m' : Machine => m'.cproc = some 1) = true := by
    decide +kernel
  obtain ⟨tr, m, h, -, hm⟩ := Run.replay hplay
  obtain ⟨m', he, hm'⟩ := (Option.any_eq_true _ _).mp hm
  have hp := of_decide_eq_true hm'
  exact ⟨m, m', hp, rule1_iff ⟨_, tr, h⟩ he hp⟩

end Xv6Mlfq.Kernel
