import Xv6Mlfq.Kernel.Lemmas.Invariant

/-!
# What a step does to the process slots

`Changed` lists what a step that does not yield can do to the table of processes. Most steps leave every slot
`Steady`: its scheduling fields stay, and it is neither taken nor freed.
-/

namespace Xv6Mlfq.Kernel

open Access Queue Runs

structure Proc.Steady (p p' : Proc) : Prop where
  pid : p'.pid = p.pid
  nice : p'.nice = p.nice
  queue : p'.queue = p.queue
  runtime : p'.runtime = p.runtime
  unused : p'.state = .unused ↔ p.state = .unused
  idle : p.state = .unused → p.parent = none → p' = p

/-- Every slot is steady, and no process number is taken. -/
structure State.Steady (k k' : State) : Prop where
  slots : ∀ i, (k.proc i).Steady (k'.proc i)
  nextpid : k'.nextpid = k.nextpid

variable {idle : Idle} {m m' : Machine} {e : Event} {L : Fifos} {k k' : State} {p i : Slot}

namespace Proc.Steady

variable {p p' p'' : Proc}

theorem refl (p : Proc) : p.Steady p := ⟨rfl, rfl, rfl, rfl, Iff.rfl, fun _ _ => rfl⟩

theorem trans (h : p.Steady p') (h' : p'.Steady p'') : p.Steady p'' where
  pid := h'.pid.trans h.pid
  nice := h'.nice.trans h.nice
  queue := h'.queue.trans h.queue
  runtime := h'.runtime.trans h.runtime
  unused := h'.unused.trans h.unused
  idle hu hp := by
    have he := h.idle hu hp
    rw [he] at h'
    rw [h'.idle hu hp]

end Proc.Steady

namespace State.Steady

theorem refl (k : State) : k.Steady k := ⟨fun _ => .refl _, rfl⟩

theorem trans {k'' : State} (h : k.Steady k') (h' : k'.Steady k'') : k.Steady k'' :=
  ⟨fun i => (h.slots i).trans (h'.slots i), h'.nextpid.trans h.nextpid⟩

theorem of_eq (hp : k'.proc = k.proc) (hn : k'.nextpid = k.nextpid) : k.Steady k' :=
  ⟨fun i => by rw [hp]; exact .refl _, hn⟩

theorem modify {f : Proc → Proc} (h : (k.proc i).Steady (f (k.proc i))) : k.Steady (k.modify i f) := by
  refine ⟨fun j => ?_, rfl⟩
  by_cases hj : j = i
  · subst hj
    rw [State.modify_proc_self]
    exact h
  · rw [State.modify_proc_of_ne hj]
    exact .refl _

/-! ## System calls -/

theorem wakeup (k : State) (c : Option Slot) (chan : Option Chan) : k.Steady (wakeup k c chan) := by
  refine ⟨fun i => ?_, by rw [wakeup_eq]⟩
  rw [wakeup_proc]
  by_cases hs : Sleeper c chan i (k.proc i)
  · rw [if_pos hs]
    have hne : (k.proc i).state ≠ .unused := by simp [hs.2.1]
    exact ⟨rfl, rfl, rfl, rfl, iff_of_false (by simp [Proc.awake]) hne, fun hu => absurd hu hne⟩
  · rw [if_neg hs]
    exact .refl _

theorem clockintr (k : State) (c : Option Slot) : k.Steady (clockintr k c) := by
  have h : k.Steady { k with ticks := (k.ticks + 1) % 2 ^ 32 } := of_eq rfl rfl
  exact h.trans (wakeup _ c (some .ticks))

theorem tick (k : State) (c : Option Slot) : k.Steady (advanceTime (Kernel.clockintr k c)) :=
  (clockintr k c).trans (of_eq rfl rfl)

theorem adopt (hpar : (k.proc i).parent = some p) : k.Steady (adopt k p i) := by
  have hmod : k.Steady (k.modify i fun q => { q with parent := k.initproc }) := by
    refine modify ⟨rfl, rfl, rfl, rfl, Iff.rfl, fun _ hn => ?_⟩
    rw [hn] at hpar
    cases hpar
  exact hmod.trans (wakeup _ _ _)

theorem reparent (k : State) (p : Slot) : k.Steady (reparent k p) :=
  reparent_induction (I := fun k' => k.Steady k') (refl k) fun _ _ h hpar => h.trans (adopt hpar)

theorem exit {status : Int} (hu : (k.proc p).state ≠ .unused) (he : exit k p status = some k') :
    k.Steady k' := by
  unfold Kernel.exit at he
  split_ifs at he
  cases he
  have h := (reparent k p).trans (wakeup _ (some p) (((Kernel.reparent k p).proc p).parent.map .proc))
  refine h.trans (modify ?_)
  have hne := mt (h.slots p).unused.mp hu
  exact ⟨rfl, rfl, rfl, rfl, iff_of_false (by simp) hne, fun hu' => absurd hu' hne⟩

theorem sleep (hu : (k.proc p).state ≠ .unused) (chan : Chan) : k.Steady (sleep k p chan) :=
  modify ⟨rfl, rfl, rfl, rfl, iff_of_false (by simp) hu, fun hu' => absurd hu' hu⟩

end State.Steady

/-! ## Every step that does not yield -/

def Event.isFork : Event → Bool
  | .fork .. => true
  | _ => false

/-- The changes of the process table. -/
inductive Changed (k : State) (e : Event) (k' : State) : Prop
  | steady (h : k.Steady k')
  | freed (i : Slot) (hz : (k.proc i).state = .zombie) (h : k' = k.modify i freeproc)
  | failed (i : Slot) (hf : e.isFork) (hi : freeSlot k = some i) (h : k' = k.allocpid.modify i freeproc)
  | created (i p : Slot) (hf : e.isFork) (hi : freeSlot k = some i)
      (h : k' = addToQueue (k.allocpid.modify i (Proc.forked k.nextpid p)) i)
  | slain (i : Slot) (pid : Int) (he : e = .kill pid) (hi : findSlot (fun j => (k.proc j).pid = pid) = some i)
      (hu : (k.proc i).state = .unused) (h : k' = k.modify i Proc.slain)
  | stray (i : Slot) (hu : (k.proc i).state = .unused) (hp : k'.proc = (k.modify i Proc.dispatched).proc)
      (hn : k'.nextpid = k.nextpid)

/-- What becomes of one process. -/
inductive Proc.Changed (p : Proc) : Proc → Prop
  | steady {p' : Proc} (h : p.Steady p') : Proc.Changed p p'
  | freed : Proc.Changed p (freeproc p)
  | created (hu : p.state = .unused) (pid : Int) (parent : Slot) : Proc.Changed p (p.forked pid parent)
  | slain (hu : p.state = .unused) : Proc.Changed p p.slain
  | stray (hu : p.state = .unused) : Proc.Changed p p.dispatched

theorem Changed.slot (h : Changed k e k') (i : Slot) : (k.proc i).Changed (k'.proc i) := by
  have hupdate : ∀ (j : Slot) (f : Proc → Proc), (k.proc j).Changed (f (k.proc j)) →
      (k.proc i).Changed ((k.modify j f).proc i) := by
    intro j f hf
    by_cases hij : i = j
    · subst hij
      rw [State.modify_proc_self]
      exact hf
    · rw [State.modify_proc_of_ne hij]
      exact .steady (.refl _)
  cases h with
  | steady h => exact .steady (h.slots i)
  | freed j hz h => rw [h]; exact hupdate j freeproc .freed
  | failed j hf hj h => rw [h]; exact hupdate j freeproc .freed
  | created j p hf hj h => rw [h]; exact hupdate j (Proc.forked k.nextpid p) (.created (freeSlot_unused hj) _ _)
  | slain j pid he hj hu h => rw [h]; exact hupdate j Proc.slain (.slain hu)
  | stray j hu hp hn => rw [hp]; exact hupdate j Proc.dispatched (.stray hu)

theorem fork_changed (k : State) (p : Slot) (trapframe pagetable copy : Bool) :
    Changed k (.fork trapframe pagetable copy) (fork k p trapframe pagetable copy).2 := by
  cases hi : freeSlot k with
  | none => rw [fork_full hi]; exact .steady (.refl k)
  | some i =>
      by_cases hall : trapframe = true ∧ pagetable = true ∧ copy = true
      · obtain ⟨rfl, rfl, rfl⟩ := hall
        rw [fork_created hi]
        exact .created i p rfl hi rfl
      · rw [fork_failed hi p hall]
        exact .failed i rfl hi rfl

theorem wait_changed {copyout : Bool} {r : Option Int} (hu : (k.proc p).state ≠ .unused)
    (h : wait k p copyout = (r, k')) : Changed k e k' := by
  rcases wait_cases k p copyout with ⟨_, h'⟩ | ⟨i, -, hz, h'⟩ | ⟨-, -, -, h'⟩
  · cases h.symm.trans h'
    exact .steady (.refl k)
  · cases h.symm.trans h'
    exact .freed i hz rfl
  · cases h.symm.trans h'
    exact .steady (.sleep hu _)

theorem kill_changed (k : State) (pid : Int) : Changed k (.kill pid) (kill k pid).2 := by
  rcases kill_cases k pid with h | ⟨i, hi, ⟨hs, h⟩ | ⟨hs, h⟩⟩
  · rw [h]; exact .steady (.refl k)
  · by_cases hu : (k.proc i).state = .unused
    · rw [h]; exact .slain i pid rfl hi hu rfl
    · rw [h]
      exact .steady (.modify ⟨rfl, rfl, rfl, rfl, Iff.rfl, fun hu' => absurd hu' hu⟩)
  · have hu : (k.proc i).state ≠ .unused := by simp [hs]
    have hslain : k.Steady (k.modify i Proc.slain) :=
      .modify ⟨rfl, rfl, rfl, rfl, Iff.rfl, fun hu' => absurd hu' hu⟩
    have hu' : ((k.modify i Proc.slain).proc i).state ≠ .unused := by simpa [Proc.slain] using hu
    have hwoken : (k.modify i Proc.slain).Steady (makeRunnable (k.modify i Proc.slain) i) :=
      (State.Steady.modify (f := Proc.awake) ⟨rfl, rfl, rfl, rfl, iff_of_false (by simp [Proc.awake]) hu',
        fun hu'' => absurd hu'' hu'⟩).trans (.of_eq rfl rfl)
    rw [h]
    exact .steady (hslain.trans hwoken)

theorem dispatch_nextpid (k : State) (i : Slot) : (dispatch k i).kernel.nextpid = k.nextpid := by
  simp only [dispatch, run, logDispatch]
  split_ifs
  · rfl
  · rfl

theorem dispatch_steady (t : QTable) (hu : (k.proc i).state ≠ .unused) :
    k.Steady (dispatch { k with qtable := t } i).kernel := by
  have hmod : k.Steady (k.modify i Proc.dispatched) :=
    .modify ⟨rfl, rfl, rfl, rfl, iff_of_false (by simp [Proc.dispatched]) hu, fun hu' => absurd hu' hu⟩
  exact hmod.trans (.of_eq (run_proc { k with qtable := t } i) (dispatch_nextpid _ i))

theorem schedule_changed (hL : Coherent m L) (he : step idle .schedule m = some m') :
    Changed m.kernel .schedule m'.kernel := by
  obtain ⟨L', -, hmoved⟩ := hL.step he
  cases hmoved with
  | arrivals hne h hcproc => exact absurd rfl hne
  | boost hy hdue h hcproc => cases hy
  | @dequeue q i xs t hs hkick htop hLq h hm =>
      have hr := ((hL.queued.mem i q).mp (by simp [hLq])).1
      rw [hm]
      exact .steady (dispatch_steady t (by simp [hr]))
  | @resume i hs hkick hp h hm =>
      have hr := hL.queued.held i ⟨hkick, hp⟩
      rw [hm]
      exact .steady (dispatch_steady m.kernel.qtable (by simp [hr]))
  | rest hidle hs hempty h hm =>
      rw [hm]
      exact .steady (.refl _)
  | @stray i t hs hkick hempty h hm =>
      rw [hm]
      by_cases hu : (m.kernel.proc i).state = .unused
      · exact .stray i hu (run_proc { m.kernel with qtable := t } i) (dispatch_nextpid _ i)
      · exact .steady (dispatch_steady t hu)

theorem step_changed (hL : Coherent m L) (hy : atYield m e = none) (he : step idle e m = some m') :
    Changed m.kernel e m'.kernel := by
  by_cases hsched : e = .schedule
  · subst hsched
    exact schedule_changed hL he
  · cases step_served hy hsched he with
    | fork hc trapframe pagetable copy => exact fork_changed ..
    | exit hc hk => exact .steady (.exit (hL.queued.not_unused hc) hk)
    | waited hc hw => exact wait_changed (hL.queued.not_unused hc) hw
    | waiting hc hw => exact wait_changed (hL.queued.not_unused hc) hw
    | sleep hc chan => exact .steady (.sleep (hL.queued.not_unused hc) chan)
    | wakeup chan => exact .steady (.wakeup m.kernel m.cproc (some chan))
    | kill hc pid => exact kill_changed ..
    | startlog hc => exact .steady (.of_eq rfl rfl)
    | @died p k' hc hkill hk =>
        have hclock := State.Steady.clockintr m.kernel (some p)
        have hu := mt (hclock.slots p).unused.mp (hL.queued.not_unused hc)
        exact .steady (hclock.trans (.exit hu hk))
    | tick => exact .steady (.tick ..)

/-! ## Boot -/

theorem static_freeSlot (outside : QTable) : freeSlot (procinit (static outside)) = some 0 := rfl

theorem boot_proc (outside : QTable) : (boot outside).kernel.proc =
    ((procinit (static outside)).allocpid.modify 0 (Proc.awake ∘ Proc.allocated 1)).proc := by
  funext i
  simp only [boot, userinit, allocproc_taken (static_freeSlot outside), makeRunnable_proc, State.modify_proc]
  split_ifs
  · rfl
  · rfl

end Xv6Mlfq.Kernel
