import Xv6Mlfq.Kernel.Machine
import Xv6Mlfq.Kernel.Lemmas.Sweep

/-!
# What each function can do

One lemma for each function of `Proc` lists its outcomes, each as a change of one process followed by
what happens to the table. Later proofs use these and do not unfold the functions again.
-/

namespace Xv6Mlfq.Kernel

open Access Queue

theorem findSlot_some {test : Slot → Bool} {i : Slot} (h : findSlot test = some i) : test i = true :=
  List.find?_some h

theorem findSlot_none {test : Slot → Bool} (h : findSlot test = none) (i : Slot) : test i = false := by
  have := List.find?_eq_none.mp h i (List.mem_finRange i)
  simpa using this

theorem State.modify_modify (k : State) (i : Slot) (f g : Proc → Proc) :
    (k.modify i f).modify i g = k.modify i (g ∘ f) := by
  simp [modify, setProc]

theorem State.modify_congr {k : State} {i : Slot} {f g : Proc → Proc} (h : f (k.proc i) = g (k.proc i)) :
    k.modify i f = k.modify i g := congrArg (k.setProc i) h

variable {k : State} {p : Slot}

/-! ## Creation and release -/

/-- A slot as `allocproc` returns it. -/
def Proc.allocated (pid : Int) (p : Proc) : Proc :=
  { p with pid := pid, state := .used, queue := priority p, pass := DEFAULT_PASS }

/-- A slot as `fork` leaves it. -/
def Proc.forked (pid : Int) (parent : Slot) (p : Proc) : Proc :=
  { p.allocated pid with parent := some parent, state := .runnable }

def State.allocpid (k : State) : State := { k with nextpid := int32 (k.nextpid + 1) }

/-- The slot that `allocproc` takes. -/
def freeSlot (k : State) : Option Slot := findSlot fun i => (k.proc i).state = .unused

theorem freeSlot_unused {i : Slot} (h : freeSlot k = some i) : (k.proc i).state = .unused := by
  simpa using findSlot_some h

theorem allocproc_full (h : freeSlot k = none) (trapframe pagetable : Bool) :
    allocproc k trapframe pagetable = (none, k) := by
  unfold freeSlot at h
  simp only [allocproc, h]

theorem allocproc_failed {i : Slot} {trapframe pagetable : Bool} (h : freeSlot k = some i)
    (hno : ¬ (trapframe = true ∧ pagetable = true)) :
    allocproc k trapframe pagetable = (none, k.allocpid.modify i freeproc) := by
  unfold freeSlot at h
  simp only [allocproc, h]
  cases trapframe with
  | false => exact congrArg (Prod.mk none) (State.modify_modify ..)
  | true =>
      cases pagetable with
      | false => exact congrArg (Prod.mk none) (State.modify_modify ..)
      | true => exact absurd ⟨rfl, rfl⟩ hno

theorem allocproc_taken {i : Slot} (h : freeSlot k = some i) :
    allocproc k true true = (some i, k.allocpid.modify i (Proc.allocated k.nextpid)) := by
  unfold freeSlot at h
  simp only [allocproc, h]
  exact congrArg (Prod.mk (some i)) (State.modify_modify ..)

theorem allocproc_cases (k : State) (trapframe pagetable : Bool) :
    allocproc k trapframe pagetable = (none, k) ∨
      ∃ i, (k.proc i).state = .unused ∧
        (allocproc k trapframe pagetable = (none, k.allocpid.modify i freeproc) ∨
          allocproc k trapframe pagetable = (some i, k.allocpid.modify i (Proc.allocated k.nextpid))) := by
  cases hfree : freeSlot k with
  | none => exact .inl (allocproc_full hfree ..)
  | some i =>
      refine .inr ⟨i, freeSlot_unused hfree, ?_⟩
      by_cases hall : trapframe = true ∧ pagetable = true
      · obtain ⟨rfl, rfl⟩ := hall
        exact .inr (allocproc_taken hfree)
      · exact .inl (allocproc_failed hfree hall)

theorem fork_full (h : freeSlot k = none) (p : Slot) (trapframe pagetable copy : Bool) :
    fork k p trapframe pagetable copy = (-1, k) := by
  rw [fork, allocproc_full h]

theorem fork_failed {i : Slot} {trapframe pagetable copy : Bool} (h : freeSlot k = some i) (p : Slot)
    (hno : ¬ (trapframe = true ∧ pagetable = true ∧ copy = true)) :
    fork k p trapframe pagetable copy = (-1, k.allocpid.modify i freeproc) := by
  unfold fork
  by_cases hall : trapframe = true ∧ pagetable = true
  · obtain ⟨rfl, rfl⟩ := hall
    rw [allocproc_taken h]
    cases copy with
    | false => exact congrArg (Prod.mk (-1)) (State.modify_modify ..)
    | true => exact absurd ⟨rfl, rfl, rfl⟩ hno
  · rw [allocproc_failed h hall]

theorem fork_created {i : Slot} (h : freeSlot k = some i) (p : Slot) : fork k p true true true =
    (k.nextpid, addToQueue (k.allocpid.modify i (Proc.forked k.nextpid p)) i) := by
  rw [fork, allocproc_taken h]
  simp only [Bool.not_true, Bool.false_eq_true, if_false, makeRunnable, State.modify_modify,
    State.modify_proc_self]
  rfl

theorem fork_cases (k : State) (p : Slot) (trapframe pagetable copy : Bool) :
    fork k p trapframe pagetable copy = (-1, k) ∨
      ∃ i, (k.proc i).state = .unused ∧
        (fork k p trapframe pagetable copy = (-1, k.allocpid.modify i freeproc) ∨
          fork k p trapframe pagetable copy =
            (k.nextpid, addToQueue (k.allocpid.modify i (Proc.forked k.nextpid p)) i)) := by
  cases hfree : freeSlot k with
  | none => exact .inl (fork_full hfree ..)
  | some i =>
      refine .inr ⟨i, freeSlot_unused hfree, ?_⟩
      by_cases hall : trapframe = true ∧ pagetable = true ∧ copy = true
      · obtain ⟨rfl, rfl, rfl⟩ := hall
        exact .inr (fork_created hfree p)
      · exact .inl (fork_failed hfree p hall)

theorem wait_cases (k : State) (p : Slot) (copyout : Bool) :
    (∃ r, wait k p copyout = (some r, k)) ∨
      (∃ i, (k.proc i).parent = some p ∧ (k.proc i).state = .zombie ∧
        wait k p copyout = (some (k.proc i).pid, k.modify i freeproc)) ∨
      (∀ i, (k.proc i).parent = some p → (k.proc i).state ≠ .zombie) ∧
        (∃ i, (k.proc i).parent = some p) ∧ (k.proc p).killed = false ∧
        wait k p copyout = (none, sleep k p (.proc p)) := by
  unfold wait
  cases hfind : findSlot fun i => (k.proc i).parent = some p ∧ (k.proc i).state = .zombie with
  | some i =>
      obtain ⟨hpar, hz⟩ : (k.proc i).parent = some p ∧ (k.proc i).state = .zombie := by
        simpa using findSlot_some hfind
      cases copyout with
      | false => exact .inl ⟨-1, rfl⟩
      | true => exact .inr (.inl ⟨i, hpar, hz, rfl⟩)
  | none =>
      have hno : ∀ i, (k.proc i).parent = some p → (k.proc i).state ≠ .zombie := fun i => by
        simpa using findSlot_none hfind i
      cases hkids : findSlot fun i => (k.proc i).parent = some p with
      | none => exact .inl ⟨-1, rfl⟩
      | some i =>
          cases hk : (k.proc p).killed with
          | true => exact .inl ⟨-1, rfl⟩
          | false => exact .inr (.inr ⟨hno, ⟨i, by simpa using findSlot_some hkids⟩, rfl, rfl⟩)

/-! ## Kill -/

def Proc.slain (p : Proc) : Proc := { p with killed := true }

theorem kill_slain {i : Slot} {pid : Int} (hi : findSlot (fun j => (k.proc j).pid = pid) = some i)
    (hs : (k.proc i).state ≠ .sleeping) : kill k pid = (0, k.modify i Proc.slain) := by
  simp only [kill, hi]
  have hs' : ¬ ((k.modify i Proc.slain).proc i).state = .sleeping := by simpa [Proc.slain] using hs
  exact congrArg (Prod.mk 0) (if_neg hs')

theorem kill_woken {i : Slot} {pid : Int} (hi : findSlot (fun j => (k.proc j).pid = pid) = some i)
    (hs : (k.proc i).state = .sleeping) : kill k pid = (0, makeRunnable (k.modify i Proc.slain) i) := by
  simp only [kill, hi]
  have hs' : ((k.modify i Proc.slain).proc i).state = .sleeping := by simpa [Proc.slain] using hs
  exact congrArg (Prod.mk 0) (if_pos hs')

theorem kill_cases (k : State) (pid : Int) :
    kill k pid = (-1, k) ∨
      ∃ i, findSlot (fun j => (k.proc j).pid = pid) = some i ∧
        ((k.proc i).state ≠ .sleeping ∧ kill k pid = (0, k.modify i Proc.slain) ∨
          (k.proc i).state = .sleeping ∧
            kill k pid = (0, makeRunnable (k.modify i Proc.slain) i)) := by
  cases hfind : findSlot fun i => (k.proc i).pid = pid with
  | none => exact .inl (by simp only [kill, hfind])
  | some i =>
      by_cases hs : (k.proc i).state = .sleeping
      · exact .inr ⟨i, rfl, .inr ⟨hs, kill_woken hfind hs⟩⟩
      · exact .inr ⟨i, rfl, .inl ⟨hs, kill_slain hfind hs⟩⟩

/-! ## Exit -/

/-- A child has been handed to init, and init woken. -/
def adopt (k : State) (p i : Slot) : State :=
  wakeup (k.modify i fun q => { q with parent := k.initproc }) (some p) (k.initproc.map .proc)

theorem adopt_proc (k : State) (p i j : Slot) :
    ((k.proc j).state = .running → ((adopt k p i).proc j).state = .running) ∧
      (((adopt k p i).proc j).parent = (k.proc j).parent ∨ ((adopt k p i).proc j).parent = k.initproc) := by
  rw [adopt, wakeup_proc, State.modify_proc]
  by_cases hj : j = i
  · rw [if_pos hj]
    split_ifs with hs
    · exact ⟨fun hr => by simp [Sleeper, hr] at hs, .inr rfl⟩
    · exact ⟨id, .inr rfl⟩
  · rw [if_neg hj]
    split_ifs with hs
    · exact ⟨fun hr => by simp [Sleeper, hr] at hs, .inl rfl⟩
    · exact ⟨id, .inl rfl⟩

/-- What holds before `reparent` and is kept by each adoption holds after it. -/
theorem reparent_induction {I : State → Prop} (h : I k)
    (hstep : ∀ k i, I k → (k.proc i).parent = some p → I (adopt k p i)) : I (reparent k p) := by
  unfold reparent
  generalize List.finRange NPROC = l
  induction l generalizing k with
  | nil => exact h
  | cons i l ih =>
      refine ih ?_
      unfold reparentSlot
      split_ifs with hpar
      · exact hstep k i h hpar
      · exact h

/-! ## The variables that system calls leave alone -/

structure SameGlobals (k k' : State) : Prop where
  pKicked : k'.pKicked = k.pKicked
  time : k'.time = k.time
  initproc : k'.initproc = k.initproc
  schedlog : k'.schedlog = k.schedlog
  logCount : k'.logCount = k.logCount

namespace SameGlobals

theorem refl (k : State) : SameGlobals k k := ⟨rfl, rfl, rfl, rfl, rfl⟩

theorem trans {k k' k'' : State} (h : SameGlobals k k') (h' : SameGlobals k' k'') : SameGlobals k k'' :=
  ⟨h'.pKicked.trans h.pKicked, h'.time.trans h.time, h'.initproc.trans h.initproc,
    h'.schedlog.trans h.schedlog, h'.logCount.trans h.logCount⟩

theorem modify (k : State) (i : Slot) (f : Proc → Proc) : SameGlobals k (k.modify i f) :=
  ⟨rfl, rfl, rfl, rfl, rfl⟩

theorem fork (k : State) (p : Slot) (trapframe pagetable copy : Bool) :
    SameGlobals k (fork k p trapframe pagetable copy).2 := by
  rcases fork_cases k p trapframe pagetable copy with h | ⟨i, -, h | h⟩
  all_goals rw [h]; exact ⟨rfl, rfl, rfl, rfl, rfl⟩

theorem wakeup (k : State) (cur : Option Slot) (chan : Option Chan) :
    SameGlobals k (wakeup k cur chan) := by
  rw [wakeup_eq]
  exact ⟨rfl, rfl, rfl, rfl, rfl⟩

theorem clockintr (k : State) (cur : Option Slot) : SameGlobals k (clockintr k cur) := by
  have h : SameGlobals k { k with ticks := (k.ticks + 1) % 2 ^ 32 } := ⟨rfl, rfl, rfl, rfl, rfl⟩
  exact h.trans (wakeup _ cur (some .ticks))

theorem kill (k : State) (pid : Int) : SameGlobals k (kill k pid).2 := by
  rcases kill_cases k pid with h | ⟨i, -, ⟨-, h⟩ | ⟨-, h⟩⟩
  all_goals rw [h]; exact ⟨rfl, rfl, rfl, rfl, rfl⟩

theorem adopt (k : State) (p i : Slot) : SameGlobals k (adopt k p i) :=
  trans (modify k i _) (wakeup _ _ _)

theorem reparent (k : State) (p : Slot) : SameGlobals k (reparent k p) :=
  reparent_induction (refl k) fun k' i h _ => h.trans (adopt k' p i)

theorem exit {k k' : State} {p : Slot} {status : Int} (h : exit k p status = some k') : SameGlobals k k' := by
  unfold Kernel.exit at h
  split_ifs at h
  cases h
  exact trans (reparent k p) (trans (wakeup _ _ _) (modify _ _ _))

theorem wait {k k' : State} {p : Slot} {copyout : Bool} {r : Option Int} (h : wait k p copyout = (r, k')) :
    SameGlobals k k' := by
  rcases wait_cases k p copyout with ⟨r', h'⟩ | ⟨i, -, -, h'⟩ | ⟨-, -, -, h'⟩
  all_goals
    cases h.symm.trans h'
    exact ⟨rfl, rfl, rfl, rfl, rfl⟩

end SameGlobals

/-! ## Yield -/

/-- The process as `yield` keeps it running. -/
def Proc.charged (p : Proc) : Proc := { p with runtime := p.runtime + 1, state := .runnable }

/-- The process as `yield` queues it after its quantum. -/
def Proc.demoted (p : Proc) : Proc := { p.charged with queue := lower p.queue, runtime := 0 }

def Proc.Spent (p : Proc) : Prop := p.runtime + 1 ≥ quantum p

instance (p : Proc) : Decidable p.Spent := inferInstanceAs (Decidable (_ ≥ _))

theorem chargeTick_eq (hu : (k.proc p).state ≠ .unused) : chargeTick k p =
    if (k.proc p).Spent then addToQueue (k.modify p Proc.demoted) p
    else { k.modify p Proc.charged with pKicked := false } := by
  have hcharge : (k.modify p fun p => if p.state ≠ .unused then { p with runtime := p.runtime + 1 } else p).modify
      p (fun p => { p with state := .runnable }) = k.modify p Proc.charged := by
    rw [State.modify_modify]
    exact State.modify_congr (by simp [hu, Proc.charged])
  unfold chargeTick
  simp only [hcharge, State.modify_modify, State.modify_proc_self]
  rfl

/-- The tick concerns the yielding process only, and leaves it RUNNABLE. -/
theorem chargeTick_proc (hu : (k.proc p).state ≠ .unused) (i : Slot) : (chargeTick k p).proc i =
    if i = p then if (k.proc p).Spent then (k.proc p).demoted else (k.proc p).charged else k.proc i := by
  rw [chargeTick_eq hu]
  by_cases hs : (k.proc p).Spent
  · simp only [hs, if_true, State.addToQueue_proc, State.modify_proc]
    split_ifs with hi
    · rw [hi]
    · rfl
  · simp only [hs, if_false, State.modify_proc]
    split_ifs with hi
    · rw [hi]
    · rfl

theorem chargeTick_self (hu : (k.proc p).state ≠ .unused) : ((chargeTick k p).proc p).state = .runnable := by
  rw [chargeTick_proc hu, if_pos rfl]
  split_ifs
  · rfl
  · rfl

def boostBase (k : State) (p : Slot) : State :=
  { { logBoost k with qtable := ((initializeQtable NUM_QUEUES).exec (logBoost k).qtable).2 }.modify p
      (fun p => { p with runtime := 0 }) with pKicked := true }

theorem boost_eq_foldl (k : State) (p : Slot) :
    boost k p = (List.finRange NPROC).foldl (sweepSlot (fun _ p => p.state = .runnable) Proc.boosted)
      (boostBase k p) := rfl

theorem logBoost_proc (k : State) : (logBoost k).proc = k.proc := by
  unfold logBoost
  split_ifs <;> rfl

theorem logBoost_qtable (k : State) : (logBoost k).qtable = k.qtable := by
  unfold logBoost
  split_ifs <;> rfl

theorem boostBase_proc (k : State) (p i : Slot) :
    (boostBase k p).proc i = if i = p then { k.proc i with runtime := 0 } else k.proc i := by
  unfold boostBase
  simp only [State.modify_proc, logBoost_proc]

theorem boostBase_qtable (k : State) (p : Slot) :
    (boostBase k p).qtable = ((initializeQtable NUM_QUEUES).exec k.qtable).2 := by
  rw [← logBoost_qtable k]
  rfl

/-- The boost overwrites the table, queues every RUNNABLE process at its starting level and kicks the
scheduler. -/
theorem boost_eq (hp : (k.proc p).state = .runnable) :
    boost k p =
      { logBoost k with
        qtable := (boost k p).qtable
        pKicked := true
        proc := fun i => if (k.proc i).state = .runnable then (k.proc i).boosted else k.proc i } := by
  have hproc : sweptProc (fun _ p => p.state = .runnable) Proc.boosted (boostBase k p) (List.finRange NPROC) =
      fun i => if (k.proc i).state = .runnable then (k.proc i).boosted else k.proc i := by
    funext i
    by_cases hi : i = p
    · subst hi; simp [sweptProc, boostBase_proc, hp, Proc.boosted, priority]
    · simp [sweptProc, boostBase_proc, hi]
  have h := sweep_eq (k := boostBase k p) (c := fun _ p => p.state = .runnable) (f := Proc.boosted)
    (List.nodup_finRange NPROC)
  rw [hproc] at h
  exact h

theorem boost_proc (hp : (k.proc p).state = .runnable) (i : Slot) :
    (boost k p).proc i = if (k.proc i).state = .runnable then (k.proc i).boosted else k.proc i := by
  rw [boost_eq hp]

/-- The lists that the boost builds. -/
def boostLists (k : State) : Fifos := fun q =>
  (List.finRange NPROC).filter fun i => (k.proc i).state = .runnable ∧ priority (k.proc i) = q

theorem swept_boostBase (hp : (k.proc p).state = .runnable) (q : Level) :
    swept (fun _ p => p.state = .runnable) Proc.boosted (boostBase k p) (List.finRange NPROC) q =
      boostLists k q := by
  refine List.filter_congr fun i _ => ?_
  by_cases hi : i = p
  · subst hi; simp [boostBase_proc, Proc.boosted, priority]
  · simp [boostBase_proc, hi, Proc.boosted]

theorem boost_represents (hp : (k.proc p).state = .runnable) :
    Represents (boost k p).qtable (boostLists k) ∧
      ∀ j, (k.proc j).state ≠ .runnable →
        next (boost k p).qtable j = next k.qtable j ∧ prev (boost k p).qtable j = prev k.qtable j := by
  have hrep : Represents (boostBase k p).qtable Fifos.empty := initialize_represents _
  obtain ⟨h, hkeep⟩ := sweep_represents (c := fun _ p => p.state = .runnable) (f := Proc.boosted)
    (List.nodup_finRange NPROC) hrep fun i _ _ q => List.not_mem_nil
  refine ⟨?_, fun j hj => ?_⟩
  · simp only [Fifos.empty, List.nil_append, swept_boostBase hp] at h
    exact h
  · have hjp : j ≠ p := fun he => hj (he ▸ hp)
    obtain ⟨hn, hv⟩ := hkeep j (fun q => List.not_mem_nil) fun hc => hj (by
      simpa [boostBase_proc, hjp] using hc.2)
    obtain ⟨hn', hv'⟩ := initialize_keeps k.qtable j
    rw [boostBase_qtable] at hn hv
    exact ⟨hn.trans hn', hv.trans hv'⟩

theorem chargeTick_time (k : State) (p : Slot) : (chargeTick k p).time = k.time := by
  unfold chargeTick
  simp only
  split_ifs <;> rfl

/-- Whether the boost is due is known when `yield` is called. -/
theorem yield_eq (k : State) (p : Slot) : yield k p =
    if boostDue k then boost (chargeTick k p) p else chargeTick k p := by
  have hdue : boostDue (chargeTick k p) ↔ boostDue k := by rw [boostDue, boostDue, chargeTick_time]
  simp only [yield, hdue]

/-! ## Dispatch -/

/-- The process as the scheduler runs it, with what is left of its `sleep` done. -/
def Proc.dispatched (p : Proc) : Proc := { p with state := .running, chan := none }

theorem run_proc (k : State) (i : Slot) :
    ((run k i).modify i sleepResume).proc = (k.modify i Proc.dispatched).proc := by
  have hlog : (run k i).proc = (k.modify i fun p => { p with state := .running }).proc := by
    simp only [run, logDispatch]
    split_ifs <;> rfl
  funext j
  by_cases hj : j = i
  · subst hj; simp [hlog, sleepResume, Proc.dispatched]
  · simp [State.modify_proc_of_ne hj, hlog]

theorem dispatch_proc (k : State) (p i : Slot) :
    (dispatch k p).kernel.proc i = if i = p then (k.proc p).dispatched else k.proc i := by
  have h : (dispatch k p).kernel.proc = (k.modify p Proc.dispatched).proc := run_proc k p
  rw [h, State.modify_proc]
  by_cases hi : i = p
  · subst hi; simp
  · simp [hi]

theorem run_qtable (k : State) (i : Slot) : ((run k i).modify i sleepResume).qtable = k.qtable := by
  simp only [run, logDispatch, State.modify_qtable]
  split_ifs <;> rfl

end Xv6Mlfq.Kernel
