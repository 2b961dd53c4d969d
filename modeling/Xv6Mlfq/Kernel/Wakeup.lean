import Xv6Mlfq.Kernel.RunQueue

/-!
# `wakeup` and the run queue

The loop of `wakeup` splices the sleepers it finds into the lists, one after the other. The run queue it starts
from need not be one that a run has reached.
-/

namespace Xv6Mlfq.Kernel

open Access Queue Runs

variable {m : Machine} {L : Fifos} {cur : Option Slot} {chan : Option Chan} {k : State} {i : Slot} {q : Level}

/-- The processes of level `q` that `wakeup` wakes, in the order of their slots. -/
def sleepersAt (k : State) (cur : Option Slot) (chan : Option Chan) (q : Level) : List Slot :=
  (List.finRange NPROC).filter fun i => Sleeper cur chan i (k.proc i) ∧ (k.proc i).queue = q

theorem mem_sleepersAt : i ∈ sleepersAt k cur chan q ↔ Sleeper cur chan i (k.proc i) ∧ (k.proc i).queue = q := by
  simp [sleepersAt]

/-- The lists after `wakeup`. -/
def wokenLists (k : State) (cur : Option Slot) (chan : Option Chan) (L : Fifos) : Fifos :=
  fun q => L q ++ sleepersAt k cur chan q

namespace RunQueue

theorem mem_iff (h : RunQueue m L) : i ∈ L q ↔
    (m.kernel.proc i).state = .runnable ∧ ¬ m.Kept i ∧ (m.kernel.proc i).queue = q := by
  constructor
  · intro hi
    obtain ⟨hr, hk⟩ := (h.linked i).mp ⟨q, hi⟩
    exact ⟨hr, hk, h.level i q hi⟩
  · rintro ⟨hr, hk, rfl⟩
    obtain ⟨r, hi⟩ := (h.linked i).mpr ⟨hr, hk⟩
    rw [h.level i r hi]
    exact hi

theorem free_of_sleeping (h : RunQueue m L) (hs : (m.kernel.proc i).state = .sleeping) : L.Free i := by
  intro q hq
  have hr := (h.mem_iff.mp hq).1
  rw [hs] at hr
  cases hr

theorem not_kept_of_sleeping (h : RunQueue m L) (hs : (m.kernel.proc i).state = .sleeping) : ¬ m.Kept i := by
  rintro ⟨hkick, hp⟩
  obtain ⟨j, hj, hr, -⟩ := h.kept hkick
  obtain rfl := Option.some.inj (hp.symm.trans hj)
  rw [hs] at hr
  cases hr

theorem wakeup_represents (h : RunQueue m L) (cur : Option Slot) (chan : Option Chan) :
    Represents (Kernel.wakeup m.kernel cur chan).qtable (wokenLists m.kernel cur chan L) := by
  have hrep := (sweep_represents (c := Sleeper cur chan) (f := Proc.awake) (List.nodup_finRange NPROC)
    h.holds.represents fun i _ hs => h.free_of_sleeping hs.2.1).1
  rw [← wakeupSlot_eq] at hrep
  exact hrep

theorem wakeup (h : RunQueue m L) (cur : Option Slot) (chan : Option Chan) :
    RunQueue { m with kernel := Kernel.wakeup m.kernel cur chan } (wokenLists m.kernel cur chan L) where
  holds := (h.wakeup_represents cur chan).holds
  linked i := by
    have hkept : Machine.Kept { m with kernel := Kernel.wakeup m.kernel cur chan } i ↔ m.Kept i := by
      simp [Machine.Kept]
    rw [hkept, wakeup_proc]
    by_cases hs : Sleeper cur chan i (m.kernel.proc i)
    · rw [if_pos hs]
      refine iff_of_true ⟨(m.kernel.proc i).queue, ?_⟩ ⟨rfl, h.not_kept_of_sleeping hs.2.1⟩
      exact List.mem_append_right _ (mem_sleepersAt.mpr ⟨hs, rfl⟩)
    · rw [if_neg hs, ← h.linked i]
      refine exists_congr fun q => ?_
      rw [wokenLists, List.mem_append, mem_sleepersAt]
      exact or_iff_left fun hw => hs hw.1
  level i q hi := by
    have hlevel : (m.kernel.proc i).queue = q :=
      (List.mem_append.mp hi).elim (h.level i q) fun hw => (mem_sleepersAt.mp hw).2
    rw [wakeup_proc]
    split_ifs
    · exact hlevel
    · exact hlevel
  kept hkick := by
    rw [wakeup_pKicked] at hkick
    obtain ⟨i, hp, hr, hfree⟩ := h.kept hkick
    have hs : ¬ Sleeper cur chan i (m.kernel.proc i) := by
      rintro ⟨-, hs, -⟩
      rw [hr] at hs
      cases hs
    refine ⟨i, hp, ?_, fun q hq => ?_⟩
    · rw [wakeup_proc, if_neg hs]
      exact hr
    · exact (List.mem_append.mp hq).elim (hfree q) fun hw => hs (mem_sleepersAt.mp hw).1

end RunQueue

/-- Nobody is left for a second `wakeup`. -/
theorem wakeup_wakeup (k : State) (cur : Option Slot) (chan : Option Chan) :
    wakeup (wakeup k cur chan) cur chan = wakeup k cur chan := by
  have hno : ∀ i, ¬ Sleeper cur chan i ((wakeup k cur chan).proc i) := by
    intro i
    rw [wakeup_proc]
    split_ifs with hs
    · simp [Sleeper, Proc.awake]
    · exact hs
  generalize wakeup k cur chan = k' at hno
  rw [wakeup, wakeupSlot_eq]
  induction List.finRange NPROC with
  | nil => rfl
  | cons i l ih => rw [List.foldl_cons, sweepSlot_neg (hno i), ih]

/-- From any run queue, `wakeup` moves the sleepers of the channel, except the caller, to the ends of their lists
in slot order, and changes nothing else. -/
theorem wakeup_appends (h : RunQueue m L) (chan : Option Chan) :
    RunQueue { m with kernel := wakeup m.kernel m.cproc chan } (wokenLists m.kernel m.cproc chan L) ∧
      wakeup m.kernel m.cproc chan =
        { m.kernel with
          qtable := (wakeup m.kernel m.cproc chan).qtable
          proc := fun i =>
            if some i ≠ m.cproc ∧ (m.kernel.proc i).state = .sleeping ∧ (m.kernel.proc i).chan = chan then
              { m.kernel.proc i with state := .runnable }
            else m.kernel.proc i } ∧
      wakeup (wakeup m.kernel m.cproc chan) m.cproc chan = wakeup m.kernel m.cproc chan :=
  ⟨h.wakeup m.cproc chan, wakeup_eq m.kernel m.cproc chan, wakeup_wakeup m.kernel m.cproc chan⟩

/-- The first process forks and goes to sleep; woken, it stands behind its child. -/
theorem wakeup_appends_parent :
    ∃ (m : Machine) (L : Fifos), L QUEUE_MEDIUM = [1] ∧ RunQueue { m with kernel := wakeup m.kernel m.cproc (some (.other 7)) }
      (wokenLists m.kernel m.cproc (some (.other 7)) L) ∧
        wokenLists m.kernel m.cproc (some (.other 7)) L QUEUE_MEDIUM = [1, 0] := by
  have hplay : (final (step .asWritten) (boot fun _ => 0)
      [.schedule, .fork true true true, .sleep (.other 7)]).any (fun m =>
        forward m.kernel.qtable QUEUE_MEDIUM = some [1] ∧
          sleepersAt m.kernel m.cproc (some (.other 7)) QUEUE_MEDIUM = [0]) = true := by
    decide +kernel
  obtain ⟨tr, m, h, -, hm⟩ := Run.replay hplay
  obtain ⟨hlist, hsleep⟩ := of_decide_eq_true hm
  obtain ⟨L, hL⟩ := Coherent.run h
  have hmedium : L QUEUE_MEDIUM = [1] := by
    have hnodes : nodes L QUEUE_MEDIUM = [1] := by
      exact Option.some.inj ((hL.queued.represents.forward_eq QUEUE_MEDIUM).symm.trans hlist)
    exact List.map_injective_iff.mpr Fin.val_injective hnodes
  refine ⟨m, L, hmedium, (wakeup_appends hL.runQueue (some (.other 7))).1, ?_⟩
  rw [wokenLists, hmedium, hsleep]
  rfl

end Xv6Mlfq.Kernel
