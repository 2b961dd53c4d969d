import Xv6Mlfq.Queue.Interrupt
import Xv6Mlfq.Kernel.Lemmas.Queued

/-!
# The handlers that interrupt `dequeue`

A device or timer interrupt calls `wakeup`. What it does to the table are the appends of a `handler`, in the
order of the slots.
-/

namespace Xv6Mlfq.Kernel

open Access Queue

variable {k : State} {held cur : Slot → Prop} {L : Fifos} {p : Option Slot} {chan : Option Chan}

/-- The processes that `wakeup` queues, each with its level. -/
def sleepers (k : State) (p : Option Slot) (chan : Option Chan) : List (Level × Slot) :=
  ((List.finRange NPROC).filter fun i => Sleeper p chan i (k.proc i)).map fun i => ((k.proc i).queue, i)

theorem sweep_handler {c : Slot → Proc → Prop} [∀ i p, Decidable (c i p)] {f : Proc → Proc} {l : List Slot}
    (hl : l.Nodup) (hf : ∀ p, (f p).queue = p.queue) :
    (l.foldl (sweepSlot c f) k).qtable =
      handler ((l.filter fun i => c i (k.proc i)).map fun i => ((k.proc i).queue, i)) k.qtable := by
  induction l generalizing k with
  | nil => rfl
  | cons i l ih =>
      obtain ⟨hil, hl⟩ := List.nodup_cons.mp hl
      rw [List.foldl_cons]
      by_cases hc : c i (k.proc i)
      · have hproc : ∀ j ∈ l, (addToQueue (k.modify i f) i).proc j = k.proc j := fun j hj =>
          State.modify_proc_of_ne fun he => hil (he ▸ hj)
        have hlist : ((l.filter fun j => c j ((addToQueue (k.modify i f) i).proc j)).map fun j =>
            (((addToQueue (k.modify i f) i).proc j).queue, j)) =
            (l.filter fun j => c j (k.proc j)).map fun j => ((k.proc j).queue, j) := by
          rw [List.filter_congr fun j hj => by rw [hproc j hj]]
          exact List.map_congr_left fun j hj => by rw [hproc j (List.mem_of_mem_filter hj)]
        have hlevel : ((k.modify i f).proc i).queue = (k.proc i).queue := by simp [hf]
        rw [sweepSlot_pos hc, ih hl, hlist, List.filter_cons_of_pos (by simpa using hc), List.map_cons, handler, handler,
          appends, Prog.exec_bind, addToQueue, hlevel]
        rfl
      · rw [sweepSlot_neg hc, ih hl, List.filter_cons_of_neg (by simpa using hc)]

/-- To the table `wakeup` is a handler. -/
theorem wakeup_handler (k : State) (p : Option Slot) (chan : Option Chan) :
    (wakeup k p chan).qtable = handler (sleepers k p chan) k.qtable := by
  rw [wakeup, wakeupSlot_eq]
  exact sweep_handler (List.nodup_finRange NPROC) fun _ => rfl

theorem Queued.sleepers_fresh (h : Queued k held cur L) (p : Option Slot) (chan : Option Chan) :
    Fresh L (sleepers k p chan) := by
  constructor
  · intro w hw
    obtain ⟨i, hi, rfl⟩ := List.mem_map.mp hw
    have hs : Sleeper p chan i (k.proc i) := by simpa using hi
    exact h.free_of_ne (by simp [hs.2.1])
  · have hid : (Prod.snd ∘ fun i => ((k.proc i).queue, i)) = id := rfl
    rw [sleepers, List.map_map, hid, List.map_id]
    exact (List.nodup_finRange NPROC).filter _

end Xv6Mlfq.Kernel
