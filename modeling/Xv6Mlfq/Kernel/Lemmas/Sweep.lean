import Xv6Mlfq.Kernel.Proc
import Xv6Mlfq.Queue.Lemmas.Unlinked

/-!
# Loops over `proc` that queue processes

`wakeup` and the boost walk through the slots in table order and queue those that pass a test. Both are
instances of one loop here, and its effect on the table is stated once.
-/

namespace Xv6Mlfq.Kernel

open Access Queue

/-! ## One slot of the process table -/

namespace State

variable {k : State} {i j : Slot} {f : Proc → Proc}

@[simp] theorem modify_proc_self : (k.modify i f).proc i = f (k.proc i) := by
  simp [modify, setProc]

theorem modify_proc_of_ne (h : j ≠ i) : (k.modify i f).proc j = k.proc j := by
  simp [modify, setProc, h]

theorem modify_proc (k : State) (i j : Slot) (f : Proc → Proc) :
    (k.modify i f).proc j = if j = i then f (k.proc j) else k.proc j := by
  by_cases h : j = i
  · subst h; simp
  · simp [modify_proc_of_ne h, h]

@[simp] theorem modify_qtable : (k.modify i f).qtable = k.qtable := rfl

@[simp] theorem modify_pKicked : (k.modify i f).pKicked = k.pKicked := rfl

@[simp] theorem modify_time : (k.modify i f).time = k.time := rfl

@[simp] theorem modify_initproc : (k.modify i f).initproc = k.initproc := rfl

@[simp] theorem addToQueue_proc (k : State) (i : Slot) : (addToQueue k i).proc = k.proc := rfl

end State

/-! ## The loop -/

section Sweep

variable (c : Slot → Proc → Prop) [∀ i p, Decidable (c i p)] (f : Proc → Proc)

/-- One round: a process that passes the test `c` is changed by `f` and queued at its level. -/
def sweepSlot (k : State) (i : Slot) : State :=
  if c i (k.proc i) then addToQueue (k.modify i f) i else k

/-- The slots of `l` that the loop queues at level `q`, in order. -/
def swept (k : State) (l : List Slot) (q : Level) : List Slot :=
  l.filter fun i => c i (k.proc i) ∧ (f (k.proc i)).queue = q

def sweptProc (k : State) (l : List Slot) (i : Slot) : Proc :=
  if i ∈ l ∧ c i (k.proc i) then f (k.proc i) else k.proc i

variable {c f} {k : State} {L : Fifos} {l : List Slot}

theorem sweepSlot_pos {i : Slot} (h : c i (k.proc i)) :
    sweepSlot c f k i = addToQueue (k.modify i f) i := by
  simp only [sweepSlot, h, if_true]

theorem sweepSlot_neg {i : Slot} (h : ¬ c i (k.proc i)) : sweepSlot c f k i = k := by
  simp only [sweepSlot, h, if_false]

theorem swept_congr {k' : State} (h : ∀ j ∈ l, k'.proc j = k.proc j) (q : Level) :
    swept c f k' l q = swept c f k l q :=
  List.filter_congr fun j hj => by rw [h j hj]

theorem sweptProc_cons_neg {i : Slot} (h : ¬ c i (k.proc i)) : sweptProc c f k (i :: l) = sweptProc c f k l := by
  funext j
  by_cases hj : j = i
  · subst hj; simp [sweptProc, h]
  · simp [sweptProc, hj]

theorem sweptProc_cons_pos {i : Slot} (hil : i ∉ l) (h : c i (k.proc i)) :
    sweptProc c f (addToQueue (k.modify i f) i) l = sweptProc c f k (i :: l) := by
  funext j
  by_cases hj : j = i
  · subst hj; simp [sweptProc, h, hil]
  · simp [sweptProc, hj, State.modify_proc_of_ne hj]

/-- The loop changes the table and the processes that pass, and no other variable. -/
theorem sweep_eq (hl : l.Nodup) :
    l.foldl (sweepSlot c f) k =
      { k with qtable := (l.foldl (sweepSlot c f) k).qtable, proc := sweptProc c f k l } := by
  induction l generalizing k with
  | nil =>
      have hp : sweptProc c f k [] = k.proc := by funext j; simp [sweptProc]
      rw [hp]
      rfl
  | cons i l ih =>
      obtain ⟨hil, hl⟩ := List.nodup_cons.mp hl
      rw [List.foldl_cons]
      by_cases hc : c i (k.proc i)
      · rw [sweepSlot_pos hc, ih hl, sweptProc_cons_pos hil hc]
        rfl
      · rw [sweepSlot_neg hc, ih hl, sweptProc_cons_neg hc]

/-- The loop appends the chosen slots to their levels. Entries that stay out of the lists keep their links. -/
theorem sweep_represents (hl : l.Nodup) (h : Represents k.qtable L)
    (hfree : ∀ i ∈ l, c i (k.proc i) → L.Free i) :
    Represents (l.foldl (sweepSlot c f) k).qtable (fun q => L q ++ swept c f k l q) ∧
      ∀ j, L.Free j → ¬ (j ∈ l ∧ c j (k.proc j)) →
        next (l.foldl (sweepSlot c f) k).qtable j = next k.qtable j ∧
          prev (l.foldl (sweepSlot c f) k).qtable j = prev k.qtable j := by
  induction l generalizing k L with
  | nil => exact ⟨by simpa [swept] using h, fun j _ _ => ⟨rfl, rfl⟩⟩
  | cons i l ih =>
      obtain ⟨hil, hl⟩ := List.nodup_cons.mp hl
      rw [List.foldl_cons]
      by_cases hc : c i (k.proc i)
      · have hi : L.Free i := hfree i List.mem_cons_self hc
        have hproc : ∀ j ∈ l, (addToQueue (k.modify i f) i).proc j = k.proc j := fun j hj =>
          State.modify_proc_of_ne fun he => hil (he ▸ hj)
        have hq : ((k.modify i f).proc i).queue = (f (k.proc i)).queue := by simp
        have hrep : Represents (addToQueue (k.modify i f) i).qtable
            (Function.update L (f (k.proc i)).queue (L (f (k.proc i)).queue ++ [i])) := by
          simp only [addToQueue, hq]
          exact h.enqueueBack_spec hi _ _
        obtain ⟨hrep', hkeep⟩ := ih hl hrep fun j hj hcj => by
          rw [hproc j hj] at hcj
          exact Fifos.free_append.mpr ⟨hfree j (List.mem_cons_of_mem _ hj) hcj, fun he => hil (he ▸ hj)⟩
        rw [sweepSlot_pos hc]
        refine ⟨?_, fun j hj hcj => ?_⟩
        · convert hrep' using 2 with q
          rw [swept_congr hproc]
          by_cases hqq : (f (k.proc i)).queue = q
          · subst hqq; simp [swept, hc]
          · simp [swept, hqq, Function.update_of_ne (Ne.symm hqq)]
        · have hji : j ≠ i := fun he => hcj ⟨he ▸ List.mem_cons_self, he ▸ hc⟩
          obtain ⟨hn, hp⟩ := hkeep j (Fifos.free_append.mpr ⟨hj, hji⟩) fun ⟨hjl, hcj'⟩ =>
            hcj ⟨List.mem_cons_of_mem _ hjl, hproc j hjl ▸ hcj'⟩
          obtain ⟨hn', hp'⟩ := h.enqueueBack_keeps hi hj hji ((k.modify i f).proc i).queue DEFAULT_PASS
          exact ⟨hn.trans hn', hp.trans hp'⟩
      · obtain ⟨hrep', hkeep⟩ := ih hl h fun j hj => hfree j (List.mem_cons_of_mem _ hj)
        rw [sweepSlot_neg hc]
        refine ⟨by simpa [swept, hc] using hrep', fun j hj hcj => hkeep j hj fun ⟨hjl, hcj'⟩ => ?_⟩
        exact hcj ⟨List.mem_cons_of_mem _ hjl, hcj'⟩

end Sweep

/-! ## `wakeup` and the boost as such loops -/

/-- The processes that `wakeup` wakes. -/
def Sleeper (cur : Option Slot) (chan : Option Chan) (i : Slot) (p : Proc) : Prop :=
  some i ≠ cur ∧ p.state = .sleeping ∧ p.chan = chan

instance (cur : Option Slot) (chan : Option Chan) (i : Slot) (p : Proc) :
    Decidable (Sleeper cur chan i p) := inferInstanceAs (Decidable (_ ∧ _))

def Proc.awake (p : Proc) : Proc := { p with state := .runnable }

def Proc.boosted (p : Proc) : Proc := { p with queue := priority p, runtime := 0 }

variable {k : State} {cur : Option Slot} {chan : Option Chan} {i : Slot}

theorem makeRunnable_proc (k : State) (i j : Slot) :
    (makeRunnable k i).proc j = if j = i then (k.proc j).awake else k.proc j :=
  State.modify_proc k i j Proc.awake

theorem wakeupSlot_eq : wakeupSlot cur chan = sweepSlot (Sleeper cur chan) Proc.awake := by
  funext k i
  by_cases hcur : some i = cur
  · simp only [wakeupSlot, sweepSlot, Sleeper, hcur, ne_eq, not_true_eq_false, if_false, false_and]
  · simp only [wakeupSlot, sweepSlot, Sleeper, hcur, ne_eq, not_false_eq_true, if_true, true_and]
    rfl

theorem wakeup_eq (k : State) (cur : Option Slot) (chan : Option Chan) :
    wakeup k cur chan =
      { k with
        qtable := (wakeup k cur chan).qtable
        proc := fun i => if Sleeper cur chan i (k.proc i) then (k.proc i).awake else k.proc i } := by
  have h := sweep_eq (k := k) (c := Sleeper cur chan) (f := Proc.awake) (List.nodup_finRange NPROC)
  have hproc : sweptProc (Sleeper cur chan) Proc.awake k (List.finRange NPROC) =
      fun i => if Sleeper cur chan i (k.proc i) then (k.proc i).awake else k.proc i := by
    funext i; simp [sweptProc]
  rw [hproc] at h
  simp only [wakeup, wakeupSlot_eq]
  exact h

@[simp] theorem wakeup_proc : (wakeup k cur chan).proc i =
    if Sleeper cur chan i (k.proc i) then (k.proc i).awake else k.proc i := by
  rw [wakeup_eq]

@[simp] theorem wakeup_pKicked : (wakeup k cur chan).pKicked = k.pKicked := by rw [wakeup_eq]

@[simp] theorem wakeup_time : (wakeup k cur chan).time = k.time := by rw [wakeup_eq]

@[simp] theorem wakeup_initproc : (wakeup k cur chan).initproc = k.initproc := by rw [wakeup_eq]

end Xv6Mlfq.Kernel
