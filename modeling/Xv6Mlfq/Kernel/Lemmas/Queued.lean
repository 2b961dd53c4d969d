import Xv6Mlfq.Kernel.Lemmas.Outcomes

/-!
# The run queue between two operations

`Queued k held cur L` ties the lists to the process states. `held` are the RUNNABLE processes that some
hart keeps outside the lists, `cur` those that run. Every function of `Proc` and `Machine` gets one lemma.
-/

namespace Xv6Mlfq.Kernel

open Access Queue

structure Queued (k : State) (held cur : Slot → Prop) (L : Fifos) : Prop where
  represents : Represents k.qtable L
  unlinked : Unlinked k.qtable L
  mem : ∀ i q, i ∈ L q ↔ (k.proc i).state = .runnable ∧ ¬ held i ∧ (k.proc i).queue = q
  held : ∀ i, held i → (k.proc i).state = .runnable
  running : ∀ i, (k.proc i).state = .running ↔ cur i

/-- Each list has at most grown at its end. -/
def Extends (L L' : Fifos) : Prop := ∀ q, L q <+: L' q

theorem Extends.refl (L : Fifos) : Extends L L := fun _ => List.prefix_rfl

theorem Extends.trans {L L' L'' : Fifos} (h : Extends L L') (h' : Extends L' L'') : Extends L L'' :=
  fun q => (h q).trans (h' q)

theorem Extends.append (L : Fifos) (q : Level) (i : Slot) :
    Extends L (Function.update L q (L q ++ [i])) := by
  intro r
  by_cases hr : r = q
  · subst hr; simp
  · simp [Function.update_of_ne hr]

variable {k k' : State} {held held' cur cur' : Slot → Prop} {L : Fifos} {i : Slot} {f : Proc → Proc}

namespace Queued

theorem congr (h : Queued k held cur L) (hheld : ∀ i, held' i ↔ held i) (hcur : ∀ i, cur' i ↔ cur i) :
    Queued k held' cur' L :=
  ⟨h.represents, h.unlinked, fun i q => by rw [hheld]; exact h.mem i q,
    fun i hi => h.held i ((hheld i).mp hi), fun i => (h.running i).trans (hcur i).symm⟩

theorem of_eq (h : Queued k held cur L) (hq : k'.qtable = k.qtable) (hp : k'.proc = k.proc) :
    Queued k' held cur L :=
  ⟨hq ▸ h.represents, hq ▸ h.unlinked, hp ▸ h.mem, hp ▸ h.held, hp ▸ h.running⟩

theorem free_of_ne (h : Queued k held cur L) (hi : (k.proc i).state ≠ .runnable) : L.Free i :=
  fun q hq => hi ((h.mem i q).mp hq).1

theorem free_of_held (h : Queued k held cur L) (hi : held i) : L.Free i :=
  fun q hq => ((h.mem i q).mp hq).2.1 hi

theorem mem_of_runnable (h : Queued k held cur L) (hi : (k.proc i).state = .runnable) (hheld : ¬ held i) :
    i ∈ L (k.proc i).queue := (h.mem i _).mpr ⟨hi, hheld, rfl⟩

/-! ## One process changes -/

theorem modify (h : Queued k held cur L)
    (hmem : ∀ q, i ∈ L q ↔ (f (k.proc i)).state = .runnable ∧ ¬ held' i ∧ (f (k.proc i)).queue = q)
    (hheld : held' i → (f (k.proc i)).state = .runnable) (hcur : (f (k.proc i)).state = .running ↔ cur' i)
    (hne : ∀ j, j ≠ i → (held' j ↔ held j) ∧ (cur' j ↔ cur j)) : Queued (k.modify i f) held' cur' L := by
  refine ⟨h.represents, h.unlinked, fun j q => ?_, fun j hj => ?_, fun j => ?_⟩
  · by_cases hji : j = i
    · subst hji; simpa using hmem q
    · rw [State.modify_proc_of_ne hji, (hne j hji).1]; exact h.mem j q
  · by_cases hji : j = i
    · subst hji; simpa using hheld hj
    · rw [State.modify_proc_of_ne hji]; exact h.held j ((hne j hji).1.mp hj)
  · by_cases hji : j = i
    · subst hji; simpa using hcur
    · rw [State.modify_proc_of_ne hji, (hne j hji).2]; exact h.running j

/-- Slot `i`, in no list so far, becomes RUNNABLE and is appended. -/
theorem enqueue (h : Queued k held cur L) (hi : L.Free i) (hf : (f (k.proc i)).state = .runnable)
    (hheld : ¬ held' i) (hcur : ¬ cur' i) (hne : ∀ j, j ≠ i → (held' j ↔ held j) ∧ (cur' j ↔ cur j)) :
    Queued (addToQueue (k.modify i f) i) held' cur'
      (Function.update L (f (k.proc i)).queue (L (f (k.proc i)).queue ++ [i])) := by
  have hq : ((k.modify i f).proc i).queue = (f (k.proc i)).queue := by simp
  refine ⟨?_, ?_, fun j q => ?_, fun j hj => ?_, fun j => ?_⟩
  · simp only [addToQueue, hq]
    exact h.represents.enqueueBack_spec hi _ _
  · simp only [addToQueue, hq]
    exact h.unlinked.enqueueBack h.represents hi _ _
  · rw [State.addToQueue_proc]
    by_cases hji : j = i
    · subst hji
      by_cases hqq : q = (f (k.proc j)).queue
      · subst hqq; simp [hf, hheld]
      · simp [Function.update_of_ne hqq, hi q, Ne.symm hqq]
    · rw [State.modify_proc_of_ne hji, (hne j hji).1, ← h.mem j q]
      by_cases hqq : q = (f (k.proc i)).queue
      · subst hqq; simp [hji]
      · simp [Function.update_of_ne hqq]
  · have hji : j ≠ i := fun he => hheld (he ▸ hj)
    rw [State.addToQueue_proc, State.modify_proc_of_ne hji]
    exact h.held j ((hne j hji).1.mp hj)
  · rw [State.addToQueue_proc]
    by_cases hji : j = i
    · subst hji; simp [hf, hcur]
    · rw [State.modify_proc_of_ne hji, (hne j hji).2]; exact h.running j

/-- A process that keeps its state, and its level if it is RUNNABLE. -/
theorem adjust (h : Queued k held cur L) (hs : (f (k.proc i)).state = (k.proc i).state)
    (hq : (k.proc i).state = .runnable → (f (k.proc i)).queue = (k.proc i).queue) :
    Queued (k.modify i f) held cur L := by
  refine h.modify (fun q => ?_) (fun hi => hs ▸ h.held i hi) (hs ▸ h.running i)
    fun j _ => ⟨Iff.rfl, Iff.rfl⟩
  rw [h.mem i q, hs]
  exact and_congr_right fun hr => by rw [hq hr]

/-- A process that neither runs nor is RUNNABLE, before and after. -/
theorem dormant (h : Queued k held cur L) (hr : (k.proc i).state ≠ .runnable) (hc : ¬ cur i)
    (hr' : (f (k.proc i)).state ≠ .runnable) (hc' : (f (k.proc i)).state ≠ .running) :
    Queued (k.modify i f) held cur L := by
  refine h.modify (fun q => ?_) (fun hi => absurd (h.held i hi) hr) ?_ fun j _ => ⟨Iff.rfl, Iff.rfl⟩
  · exact iff_of_false (h.free_of_ne hr q) fun hi => hr' hi.1
  · exact iff_of_false hc' hc

theorem leave (h : Queued k held cur L) (hi : cur i) (hr : (f (k.proc i)).state ≠ .runnable)
    (hc : (f (k.proc i)).state ≠ .running) :
    Queued (k.modify i f) held (fun j => cur j ∧ j ≠ i) L := by
  have hne : (k.proc i).state ≠ .runnable := by simp [(h.running i).mpr hi]
  refine h.modify (fun q => ?_) (fun hh => absurd (h.held i hh) hne) ?_ fun j hj => by simp [hj]
  · exact iff_of_false (h.free_of_ne hne q) fun hq => hr hq.1
  · exact iff_of_false hc fun hcur => hcur.2 rfl

theorem makeRunnable (h : Queued k held cur L) (hr : (k.proc i).state ≠ .runnable) (hc : ¬ cur i) :
    ∃ L', Queued (makeRunnable k i) held cur L' ∧ Extends L L' :=
  ⟨_, h.enqueue (h.free_of_ne hr) rfl (fun hh => hr (h.held i hh)) hc fun _ _ => ⟨Iff.rfl, Iff.rfl⟩,
    Extends.append _ _ _⟩

/-! ## System calls -/

theorem fork (h : Queued k held cur L) (p : Slot) (trapframe pagetable copy : Bool) :
    ∃ L', Queued (fork k p trapframe pagetable copy).2 held cur L' ∧ Extends L L' := by
  rcases fork_cases k p trapframe pagetable copy with he | ⟨i, hi, he | he⟩
  · rw [he]; exact ⟨L, h, .refl L⟩
  all_goals
    have hr : (k.proc i).state ≠ .runnable := by simp [hi]
    have hc : ¬ cur i := fun hcur => by simp [(h.running i).mpr hcur] at hi
    have h' : Queued k.allocpid held cur L := h.of_eq rfl rfl
    rw [he]
  · exact ⟨L, h'.dormant hr hc (by simp [freeproc]) (by simp [freeproc]), .refl L⟩
  · exact ⟨_, h'.enqueue (h.free_of_ne hr) rfl (fun hh => hr (h.held i hh)) hc
      fun _ _ => ⟨Iff.rfl, Iff.rfl⟩, .append _ _ _⟩

theorem wakeup (h : Queued k held cur L) (p : Option Slot) (chan : Option Chan) :
    ∃ L', Queued (wakeup k p chan) held cur L' ∧ Extends L L' := by
  have hfree : ∀ i ∈ List.finRange NPROC, Sleeper p chan i (k.proc i) → L.Free i := fun i _ hs =>
    h.free_of_ne (by simp [hs.2.1])
  obtain ⟨hrep, hkeep⟩ := sweep_represents (c := Sleeper p chan) (f := Proc.awake)
    (List.nodup_finRange NPROC) h.represents hfree
  have he : Kernel.wakeup k p chan =
      (List.finRange NPROC).foldl (sweepSlot (Sleeper p chan) Proc.awake) k := by
    rw [Kernel.wakeup, wakeupSlot_eq]
  rw [← he] at hrep hkeep
  refine ⟨_, ⟨hrep, fun j hj => ?_, fun i q => ?_, fun i hi => ?_, fun i => ?_⟩,
    fun q => List.prefix_append _ _⟩
  · have hjL : L.Free j := fun q hq => hj q (List.mem_append_left _ hq)
    have hns : ¬ Sleeper p chan j (k.proc j) := fun hs => hj (k.proc j).queue (by
      simp [swept, hs, Proc.awake])
    obtain ⟨hn, hp⟩ := hkeep j hjL fun hc => hns hc.2
    rw [hn, hp]
    exact h.unlinked j hjL
  · rw [wakeup_proc]
    by_cases hs : Sleeper p chan i (k.proc i)
    · have hh : ¬ held i := fun hi => by simp [h.held i hi, Sleeper] at hs
      simp [swept, hs, Proc.awake, hh, h.free_of_ne (i := i) (by simp [hs.2.1]) q]
    · simp [swept, hs, h.mem i q]
  · have hns : ¬ Sleeper p chan i (k.proc i) := fun hs => by simp [h.held i hi, Sleeper] at hs
    simp [hns, h.held i hi]
  · rw [wakeup_proc, ← h.running i]
    by_cases hs : Sleeper p chan i (k.proc i)
    · simp [hs, Proc.awake, hs.2.1]
    · simp [hs]

theorem clockintr (h : Queued k held cur L) (p : Option Slot) :
    ∃ L', Queued (clockintr k p) held cur L' ∧ Extends L L' := by
  have h' : Queued { k with ticks := (k.ticks + 1) % 2 ^ 32 } held cur L := h.of_eq rfl rfl
  exact h'.wakeup p (some .ticks)

theorem kill (h : Queued k held cur L) (pid : Int) :
    ∃ L', Queued (kill k pid).2 held cur L' ∧ Extends L L' := by
  rcases kill_cases k pid with he | ⟨i, -, ⟨-, he⟩ | ⟨hs, he⟩⟩
  · rw [he]; exact ⟨L, h, .refl L⟩
  · rw [he]; exact ⟨L, h.adjust rfl fun _ => rfl, .refl L⟩
  · have h' : Queued (k.modify i Proc.slain) held cur L := h.adjust rfl fun _ => rfl
    rw [he]
    refine h'.makeRunnable ?_ fun hc => ?_
    · simp [Proc.slain, hs]
    · simp [(h.running i).mpr hc] at hs

theorem reparent (h : Queued k held cur L) (p : Slot) :
    ∃ L', Queued (reparent k p) held cur L' ∧ Extends L L' := by
  refine reparent_induction (I := fun k => ∃ L', Queued k held cur L' ∧ Extends L L') ⟨L, h, .refl L⟩ ?_
  rintro k i ⟨L₁, h₁, he₁⟩ -
  have h' : Queued (k.modify i fun q => { q with parent := k.initproc }) held cur L₁ :=
    h₁.adjust rfl fun _ => rfl
  obtain ⟨L₂, h₂, he₂⟩ := h'.wakeup (some p) (k.initproc.map .proc)
  exact ⟨L₂, h₂, he₁.trans he₂⟩

theorem exit (h : Queued k held cur L) {p : Slot} (hp : cur p) {status : Int}
    (he : exit k p status = some k') :
    ∃ L', Queued k' held (fun i => cur i ∧ i ≠ p) L' ∧ Extends L L' := by
  unfold Kernel.exit at he
  split_ifs at he
  cases he
  obtain ⟨L₁, h₁, he₁⟩ := h.reparent p
  obtain ⟨L₂, h₂, he₂⟩ := h₁.wakeup (some p) (((Kernel.reparent k p).proc p).parent.map .proc)
  exact ⟨L₂, h₂.leave hp (by simp) (by simp), he₁.trans he₂⟩

theorem sleep (h : Queued k held cur L) {p : Slot} (hp : cur p) (chan : Chan) :
    Queued (sleep k p chan) held (fun i => cur i ∧ i ≠ p) L := h.leave hp (by simp) (by simp)

theorem wait (h : Queued k held cur L) {p : Slot} (hp : cur p) (copyout : Bool) :
    (∃ r k', wait k p copyout = (some r, k') ∧ Queued k' held cur L) ∨
      ∃ k', Kernel.wait k p copyout = (none, k') ∧ Queued k' held (fun i => cur i ∧ i ≠ p) L := by
  rcases wait_cases k p copyout with ⟨r, he⟩ | ⟨i, -, hz, he⟩ | ⟨-, -, -, he⟩
  · exact .inl ⟨r, k, he, h⟩
  · have hr : (k.proc i).state ≠ .runnable := by simp [hz]
    have hc : ¬ cur i := fun hcur => by simp [(h.running i).mpr hcur] at hz
    exact .inl ⟨_, _, he, h.dormant hr hc (by simp [freeproc]) (by simp [freeproc])⟩
  · exact .inr ⟨_, he, h.sleep hp _⟩

/-! ## Giving up the hart in `yield` -/

section Yield

variable {p : Slot}

theorem not_unused (h : Queued k held cur L) (hp : cur p) : (k.proc p).state ≠ .unused := by
  simp [(h.running p).mpr hp]

theorem free_of_cur (h : Queued k held cur L) (hp : cur p) : L.Free p :=
  h.free_of_ne (by simp [(h.running p).mpr hp])

theorem not_held (h : Queued k held cur L) (hp : cur p) : ¬ held p :=
  fun hh => absurd ((h.held p hh).symm.trans ((h.running p).mpr hp)) (by decide)

theorem sysNice (h : Queued k held cur L) (hp : cur p) (inc : Int) :
    Queued (sysNice k p inc) held cur L := by
  have hr : (k.proc p).state ≠ .runnable := by simp [(h.running p).mpr hp]
  have h' := h.adjust (i := p) (f := (fun p => { p with runtime := 0 }) ∘ (fun p => { p with queue := priority p }) ∘
    fun p => { p with nice := max (min (int32 (p.nice + inc)) NICE_MAX) NICE_MIN }) rfl fun he => absurd he hr
  rw [← State.modify_modify, ← State.modify_modify] at h'
  exact h'.of_eq rfl rfl

theorem spent (h : Queued k held cur L) (hp : cur p) (hs : (k.proc p).Spent) :
    Queued (chargeTick k p) held (fun i => cur i ∧ i ≠ p)
      (Function.update L (lower (k.proc p).queue) (L (lower (k.proc p).queue) ++ [p])) := by
  rw [chargeTick_eq (h.not_unused hp), if_pos hs]
  exact h.enqueue (f := Proc.demoted) (h.free_of_cur hp) rfl (h.not_held hp) (fun hc => hc.2 rfl)
    fun j hj => ⟨Iff.rfl, and_iff_left hj⟩

theorem kept (h : Queued k held cur L) (hp : cur p) (hs : ¬ (k.proc p).Spent) :
    Queued (chargeTick k p) (fun i => held i ∨ i = p) (fun i => cur i ∧ i ≠ p) L := by
  rw [chargeTick_eq (h.not_unused hp), if_neg hs]
  have hfree := h.free_of_cur hp
  have h' : Queued (k.modify p Proc.charged) (fun i => held i ∨ i = p) (fun i => cur i ∧ i ≠ p) L := by
    refine h.modify (fun q => ?_) (fun _ => rfl) ?_ fun j hj => ⟨or_iff_left hj, and_iff_left hj⟩
    · exact iff_of_false (hfree q) fun hc => hc.2.1 (.inr rfl)
    · exact iff_of_false (by simp [Proc.charged]) fun hc => hc.2 rfl
  exact h'.of_eq rfl rfl

/-- Whatever a hart had kept, after the boost every RUNNABLE process is in the lists. -/
theorem boost (h : Queued k held cur L) (hp : (k.proc p).state = .runnable) :
    Queued (boost k p) (fun _ => False) cur (boostLists k) := by
  obtain ⟨hrep, hkeep⟩ := boost_represents hp
  have hproc : ∀ i, (Kernel.boost k p).proc i =
      if (k.proc i).state = .runnable then (k.proc i).boosted else k.proc i := fun i => by
    rw [boost_eq hp]
  refine ⟨hrep, fun j hj => ?_, fun i q => ?_, fun i hi => hi.elim, fun i => ?_⟩
  · have hr : (k.proc j).state ≠ .runnable := fun hr => hj (priority (k.proc j)) (by simp [boostLists, hr])
    obtain ⟨hn, hv⟩ := hkeep j hr
    rw [hn, hv]
    exact h.unlinked j (h.free_of_ne hr)
  · rw [hproc]
    by_cases hr : (k.proc i).state = .runnable
    · simp [boostLists, hr, Proc.boosted]
    · simp [boostLists, hr]
  · rw [hproc, ← h.running i]
    by_cases hr : (k.proc i).state = .runnable
    · simp [hr, Proc.boosted]
    · simp [hr]

theorem boostLists_boost (hp : (k.proc p).state = .runnable) :
    boostLists (Kernel.boost k p) = boostLists k := by
  funext q
  refine List.filter_congr fun i _ => ?_
  rw [boost_eq hp]
  by_cases hr : (k.proc i).state = .runnable
  · simp [hr, Proc.boosted, priority]
  · simp [hr]

theorem chargeTick_runnable (h : Queued k held cur L) (hp : cur p) :
    ((Kernel.chargeTick k p).proc p).state = .runnable := by
  rw [chargeTick_eq (h.not_unused hp)]
  split_ifs
  · simp [Proc.demoted, Proc.charged]
  · simp [Proc.charged]

end Yield

/-! ## Taking the hart in `scheduler` -/

theorem dequeue (h : Queued k held cur L) {q : Level} (hq : L.Top q) {xs : List Slot} (hL : L q = i :: xs) :
    ∃ t, dequeue.exec k.qtable = (some (i : Int), t) ∧
      Queued { k with qtable := t } (fun j => held j ∨ j = i) cur (Function.update L q xs) := by
  obtain ⟨he, hrep⟩ := h.represents.dequeue_spec hq hL
  have hL' : L q = [] ++ i :: xs := hL
  obtain ⟨hrun, hheld, hqueue⟩ := (h.mem i q).mp (by simp [hL])
  have hnd := h.represents.nodup q
  rw [hL, List.nodup_cons] at hnd
  refine ⟨_, he, ⟨hrep, h.unlinked.removePid h.represents (index_int32 i) hL', fun j r => ?_, ?_, h.running⟩⟩
  · by_cases hji : j = i
    · subst hji
      refine iff_of_false (fun hj => ?_) fun hc => hc.2.1 (.inr rfl)
      by_cases hrq : r = q
      · subst hrq; simp [hnd.1] at hj
      · rw [Function.update_of_ne hrq] at hj
        exact hrq (((h.mem j r).mp hj).2.2.symm.trans hqueue)
    · rw [or_iff_left hji, ← h.mem j r]
      by_cases hrq : r = q
      · subst hrq; simp [hL, hji]
      · rw [Function.update_of_ne hrq]
  · rintro j (hj | rfl)
    · exact h.held j hj
    · exact hrun

theorem run (h : Queued k held cur L) (hfree : L.Free i) :
    Queued ((run k i).modify i sleepResume) (fun j => held j ∧ j ≠ i) (fun j => cur j ∨ j = i) L := by
  have h' : Queued (k.modify i Proc.dispatched) (fun j => held j ∧ j ≠ i) (fun j => cur j ∨ j = i) L := by
    refine h.modify (fun q => ?_) (fun hh => absurd rfl hh.2) ?_ fun j hj => ⟨and_iff_left hj, or_iff_left hj⟩
    · exact iff_of_false (hfree q) fun hc => by simp [Proc.dispatched] at hc
    · exact iff_of_true rfl (.inr rfl)
  exact h'.of_eq (run_qtable k i) (run_proc k i)

end Queued

end Xv6Mlfq.Kernel
