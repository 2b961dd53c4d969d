import Mathlib.Logic.Relation
import Xv6Mlfq.ExitWait.Lemmas.Preserved

/-!
# Calls that nobody interrupts

A process that goes through a call while the others stand still, none of them with the lock of its slot, does what the
machine with one hart does in one step.
-/

namespace Xv6Mlfq.ExitWait

open Access Queue Kernel

/-- The process goes on, and nobody else does. -/
def Goes (p : Slot) (ok : Bool) : System → System → Prop :=
  Relation.ReflTransGen fun s s' => step (.go p ok) s = some s'

/-- No process holds the lock of its slot. -/
def System.Unlocked (s : System) : Prop := ∀ i, ¬ s.Locked i

/-- A call that a process makes and that nobody interrupts takes `s` to `t`. -/
def Through (p : Slot) (ok : Bool) (c : Call) (s t : System) : Prop :=
  ∃ s', step (.call p c) s = some s' ∧ Goes p ok s' t

variable {s s' t : System} {p i : Slot} {ok : Bool} {k k' : State} {lock lock' : Option Slot} {pc pc' : Pc}
  {chan : Option Chan} {status pid : Int} {addr : Nat} {r : Ret} {test : Slot → Bool} {f : List Slot → Pc}

theorem put_put : (s.put p k lock pc).put p k' lock' pc' = s.put p k' lock' pc' := by
  simp only [System.put, Function.update_idem]

attribute [local simp] advance forkStep signalStep exitStep waitStep put_put

theorem unlocked_put (h : s.Unlocked) (hpc : pc.owns = false) : (s.put p k lock pc).Unlocked := by
  intro i hi
  by_cases hip : i = p
  · rw [hip, System.Locked, put_pc_self, hpc] at hi
    cases hi
  · rw [System.Locked, put_pc_of_ne hip] at hi
    exact h i hi

theorem goes_put (hr : (k.proc p).state = .running) (hs : advance (s.put p k lock pc) p ok = some s') :
    Goes p ok (s.put p k lock pc) s' :=
  .single ((if_pos (.inl hr)).trans hs)

theorem through {c : Call} (hu : s.pc p = .user r) (hr : (s.kernel.proc p).state = .running)
    (he : enter s p c = some s') (hgoes : Goes p ok s' t) : Through p ok c s t :=
  ⟨s', by simp only [step, hu, if_pos hr, he], hgoes⟩

/-! ## Loops over the slots -/

/-- A loop that leaves the slots without `test` behind. -/
def Skips (s : System) (p : Slot) (ok : Bool) (k : State) (lock : Option Slot) (test : Slot → Bool)
    (f : List Slot → Pc) : Prop :=
  ∀ i l, test i = false → advance (s.put p k lock (f (i :: l))) p ok = some (s.put p k lock (f l))

theorem goes_skip (hskip : Skips s p ok k lock test f) (hr : (k.proc p).state = .running) (l rest : List Slot)
    (hl : ∀ i ∈ l, test i = false) : Goes p ok (s.put p k lock (f (l ++ rest))) (s.put p k lock (f rest)) := by
  induction l with
  | nil => exact .refl
  | cons i l ih =>
      have hstep := goes_put hr (hskip i (l ++ rest) (hl i List.mem_cons_self))
      exact hstep.trans (ih fun j hj => hl j (List.mem_cons_of_mem i hj))

theorem goes_found (hskip : Skips s p ok k lock test f) (hr : (k.proc p).state = .running)
    (hfind : findSlot test = some i) :
    ∃ rest, Goes p ok (s.put p k lock (f slots)) (s.put p k lock (f (i :: rest))) := by
  obtain ⟨-, l, rest, hslots, hl⟩ := List.find?_eq_some_iff_append.mp hfind
  have hgoes := goes_skip hskip hr l (i :: rest) fun j hj => by simpa using hl j hj
  rw [← hslots] at hgoes
  exact ⟨rest, hgoes⟩

theorem goes_missed (hskip : Skips s p ok k lock test f) (hr : (k.proc p).state = .running)
    (hfind : findSlot test = none) : Goes p ok (s.put p k lock (f slots)) (s.put p k lock (f [])) := by
  have hgoes := goes_skip hskip hr slots [] fun j _ => findSlot_none hfind j
  rwa [List.append_nil] at hgoes

/-! ## Wakeup -/

theorem wakeupSlot_self (k : State) (p i : Slot) (chan : Option Chan) :
    (wakeupSlot (some p) chan k i).proc p = k.proc p := by
  unfold wakeupSlot
  split_ifs with hne hsleep
  · have hpi : p ≠ i := fun heq => hne (congrArg some heq.symm)
    rw [makeRunnable_proc, if_neg hpi]
  · rfl
  · rfl

theorem wakeupSlot_initproc (k : State) (cur : Option Slot) (chan : Option Chan) (i : Slot) :
    (wakeupSlot cur chan k i).initproc = k.initproc := by
  unfold wakeupSlot
  split_ifs
  · rfl
  · rfl
  · rfl

theorem wakeupStep_unlocked (h : s.Unlocked) : wakeupStep s p chan i = some (wakeupSlot (some p) chan s.kernel i) :=
  if_neg fun hi => h i hi.2

theorem wakeup_self (k : State) (p : Slot) (chan : Option Chan) : (wakeup k (some p) chan).proc p = k.proc p := by
  unfold wakeup
  induction List.finRange NPROC generalizing k with
  | nil => rfl
  | cons i l ih => rw [List.foldl_cons, ih, wakeupSlot_self]

/-- A loop of `wakeup`, whose places are `f`, with the step that leaves it. -/
theorem goes_wakeup {init : Option Slot} (h : s.Unlocked) (howns : ∀ l, (f l).owns = false)
    (hloop : ∀ k i l, k.initproc = init → advance (s.put p k lock (f (i :: l))) p ok =
      (wakeupStep (s.put p k lock (f (i :: l))) p chan i).map fun k' => s.put p k' lock (f l))
    (hlast : ∀ k, advance (s.put p k lock (f [])) p ok = some (s.put p k lock pc))
    (hr : (k.proc p).state = .running) (hinit : k.initproc = init) :
    Goes p ok (s.put p k lock (f slots)) (s.put p (wakeup k (some p) chan) lock pc) := by
  unfold wakeup slots
  induction List.finRange NPROC generalizing k with
  | nil => exact goes_put hr (hlast k)
  | cons i l ih =>
      have hstep : advance (s.put p k lock (f (i :: l))) p ok =
          some (s.put p (wakeupSlot (some p) chan k i) lock (f l)) := by
        rw [hloop k i l hinit, wakeupStep_unlocked (unlocked_put h (howns _))]
        rfl
      have hrest := ih (k := wakeupSlot (some p) chan k i) (by rwa [wakeupSlot_self]) (by rwa [wakeupSlot_initproc])
      exact (goes_put hr hstep).trans hrest

theorem through_wakeup {chan : Chan} (h : s.Unlocked) (hu : s.pc p = .user r)
    (hr : (s.kernel.proc p).state = .running) :
    Through p ok (.wakeup chan) s
      (s.put p (wakeup s.kernel (some p) (some chan)) s.waitLock (.user (.value 0))) := by
  have hloop (k : State) (i : Slot) (l : List Slot) :
      advance (s.put p k s.waitLock (.wakeup chan (i :: l))) p ok =
        (wakeupStep (s.put p k s.waitLock (.wakeup chan (i :: l))) p (some chan) i).map fun k' =>
          s.put p k' s.waitLock (.wakeup chan l) := by
    simp
  exact through hu hr rfl (goes_wakeup h (fun _ => rfl) (fun k i l _ => hloop k i l) (fun k => by simp) hr rfl)

/-! ## Kill -/

theorem through_kill (h : s.Unlocked) (hu : s.pc p = .user r) (hr : (s.kernel.proc p).state = .running) :
    Through p ok (.kill pid) s
      (s.put p (kill s.kernel pid).2 s.waitLock (.user (.value (kill s.kernel pid).1))) := by
  refine through hu hr rfl ?_
  have hfree (i : Slot) (l : List Slot) : ¬ (s.put p s.kernel s.waitLock (.kill pid l)).Locked i :=
    unlocked_put h rfl i
  have hskip : Skips s p ok s.kernel s.waitLock (fun i => (s.kernel.proc i).pid = pid) (.kill pid) := by
    intro i l hi
    simp [hfree, of_decide_eq_false hi]
  cases hfind : findSlot fun i => (s.kernel.proc i).pid = pid with
  | none =>
      refine (goes_missed hskip hr hfind).trans (goes_put hr ?_)
      simp [kill, hfind]
  | some i =>
      obtain ⟨rest, hgoes⟩ := goes_found hskip hr hfind
      have hpid := of_decide_eq_true (findSlot_some hfind)
      refine hgoes.trans (goes_put hr ?_)
      simp [hfree, hpid, kill, killSlot, hfind]

/-! ## Exit -/

theorem goes_wakeInit {l : List Slot} (h : s.Unlocked) (hr : (k.proc p).state = .running) :
    Goes p ok (s.put p k lock (.wakeInit slots l status))
      (s.put p (wakeup k (some p) (k.initproc.map .proc)) lock (.reparent l status)) := by
  have hloop (k' : State) (i : Slot) (w : List Slot) (hinit : k'.initproc = k.initproc) :
      advance (s.put p k' lock (.wakeInit (i :: w) l status)) p ok =
        (wakeupStep (s.put p k' lock (.wakeInit (i :: w) l status)) p (k.initproc.map .proc) i).map fun k'' =>
          s.put p k'' lock (.wakeInit w l status) := by
    simp [hinit]
  exact goes_wakeup (f := fun w => .wakeInit w l status) h (fun _ => rfl) hloop (fun k => by simp) hr rfl

theorem goes_wakeParent {parent : Option Slot} (h : s.Unlocked) (hr : (k.proc p).state = .running) :
    Goes p ok (s.put p k lock (.wakeParent parent slots status))
      (s.put p (wakeup k (some p) (parent.map .proc)) lock (.zombie status)) := by
  have hloop (k : State) (i : Slot) (w : List Slot) :
      advance (s.put p k lock (.wakeParent parent (i :: w) status)) p ok =
        (wakeupStep (s.put p k lock (.wakeParent parent (i :: w) status)) p (parent.map .proc) i).map fun k' =>
          s.put p k' lock (.wakeParent parent w status) := by
    simp
  exact goes_wakeup (f := fun w => .wakeParent parent w status) h (fun _ => rfl)
    (fun k i w _ => hloop k i w) (fun k => by simp) hr rfl

theorem adopted_state (k : State) (i p : Slot) (parent : Option Slot) :
    ((k.modify i fun q => { q with parent := parent }).proc p).state = (k.proc p).state := by
  rw [State.modify_proc]
  split_ifs
  · rfl
  · rfl

theorem reparentSlot_state (k : State) (p i : Slot) : ((reparentSlot p k i).proc p).state = (k.proc p).state := by
  unfold reparentSlot
  split_ifs
  · rw [wakeup_self, adopted_state]
  · rfl

theorem reparent_state (k : State) (p : Slot) : ((reparent k p).proc p).state = (k.proc p).state := by
  unfold reparent
  induction List.finRange NPROC generalizing k with
  | nil => rfl
  | cons i l ih => rw [List.foldl_cons, ih, reparentSlot_state]

theorem goes_reparentSlot {l : List Slot} (h : s.Unlocked) (hr : (k.proc p).state = .running) :
    Goes p ok (s.put p k lock (.reparent (i :: l) status))
      (s.put p (reparentSlot p k i) lock (.reparent l status)) := by
  by_cases hparent : (k.proc i).parent = some p
  · have henter : advance (s.put p k lock (.reparent (i :: l) status)) p ok =
        some (s.put p (k.modify i fun q => { q with parent := k.initproc }) lock (.wakeInit slots l status)) := by
      simp [hparent]
    have hrun : ((k.modify i fun q => { q with parent := k.initproc }).proc p).state = .running := by
      rwa [adopted_state]
    rw [reparentSlot, if_pos hparent]
    exact (goes_put hr henter).trans (goes_wakeInit h hrun)
  · rw [reparentSlot, if_neg hparent]
    refine goes_put hr ?_
    simp [hparent]

theorem goes_reparent (h : s.Unlocked) (hr : (k.proc p).state = .running) (l : List Slot) :
    Goes p ok (s.put p k lock (.reparent l status))
      (s.put p (l.foldl (reparentSlot p) k) lock (.reparent [] status)) := by
  induction l generalizing k with
  | nil => exact .refl
  | cons i l ih =>
      exact (goes_reparentSlot h hr).trans (ih (k := reparentSlot p k i) (by rwa [reparentSlot_state]))

/-- The last step is from `sched`. -/
theorem goes_zombie (hr : (k.proc p).state = .running) :
    Goes p ok (s.put p k lock (.zombie status))
      (s.put p (k.modify p fun q => { q with xstate := status, state := .zombie }) none .dead) := by
  have hzombie : advance (s.put p k lock (.zombie status)) p ok =
      some (s.put p (k.modify p fun q => { q with xstate := status, state := .zombie }) none .exiting) := by
    simp
  refine (goes_put hr hzombie).tail ?_
  simp [step]

theorem through_exit (h : s.Unlocked) (hw : s.waitLock = none) (hu : s.pc p = .user r)
    (hr : (s.kernel.proc p).state = .running) (hexit : exit s.kernel p status = some k) :
    Through p ok (.exit status) s (s.put p k none .dead) := by
  unfold exit at hexit
  split_ifs at hexit with hinit
  obtain rfl := Option.some.inj hexit
  have henter : enter s p (.exit status) = some (s.put p s.kernel none (.exitLock status)) := by
    simp [enter, hinit, hw]
  have hreparented : ((reparent s.kernel p).proc p).state = .running := by rwa [reparent_state]
  have hwoken (chan : Option Chan) : ((wakeup (reparent s.kernel p) (some p) chan).proc p).state = .running := by
    rwa [wakeup_self]
  refine through hu hr henter ?_
  have hlock : Goes p ok (s.put p s.kernel none (.exitLock status))
      (s.put p s.kernel (some p) (.reparent slots status)) :=
    goes_put hr (by simp)
  have hlast : Goes p ok (s.put p (reparent s.kernel p) (some p) (.reparent [] status))
      (s.put p (reparent s.kernel p) (some p)
        (.wakeParent ((reparent s.kernel p).proc p).parent slots status)) :=
    goes_put hreparented (by simp)
  have hgoes := hlock.trans ((goes_reparent h hr slots).trans hlast)
  exact hgoes.trans ((goes_wakeParent h hreparented).trans (goes_zombie (hwoken _)))

/-! ## Wait -/

/-- The value that a call returns to the program. -/
def Ret.code : Ret → Int
  | .value v => v
  | .waited pid _ => pid

theorem advance_scan {l : List Slot} {havekids : Bool} (h : s.Unlocked)
    (hi : ¬ ((k.proc i).parent = some p ∧ (k.proc i).state = .zombie)) :
    advance (s.put p k lock (.scan (i :: l) havekids addr)) p ok =
      some (s.put p k lock (.scan l (havekids || decide ((k.proc i).parent = some p)) addr)) := by
  have hfree : ¬ (s.put p k lock (.scan (i :: l) havekids addr)).Locked i := unlocked_put h rfl i
  by_cases hparent : (k.proc i).parent = some p
  · have halive : (k.proc i).state ≠ .zombie := fun hz => hi ⟨hparent, hz⟩
    simp [hfree, hparent, halive]
  · simp [hparent]

theorem goes_scan {havekids : Bool} (h : s.Unlocked) (hr : (k.proc p).state = .running) (l rest : List Slot)
    (hl : ∀ i ∈ l, ¬ ((k.proc i).parent = some p ∧ (k.proc i).state = .zombie)) :
    Goes p ok (s.put p k lock (.scan (l ++ rest) havekids addr))
      (s.put p k lock (.scan rest (havekids || l.any fun i => (k.proc i).parent = some p) addr)) := by
  induction l generalizing havekids with
  | nil => rw [List.any_nil, Bool.or_false]; exact .refl
  | cons i l ih =>
      rw [List.any_cons, ← Bool.or_assoc]
      refine .trans (goes_put hr (advance_scan h (hl i List.mem_cons_self))) ?_
      exact ih fun j hj => hl j (List.mem_cons_of_mem i hj)

theorem goes_waitLock (hr : (k.proc p).state = .running) :
    Goes p ok (s.put p k none (.waitLock addr)) (s.put p k (some p) (.scan slots false addr)) :=
  goes_put hr (by simp)

/-- The pass of `wait` up to a zombie child. -/
theorem goes_child (h : s.Unlocked) (hr : (k.proc p).state = .running)
    (hfind : (findSlot fun np => (k.proc np).parent = some p ∧ (k.proc np).state = .zombie) = some i) :
    ∃ rest havekids, Goes p ok (s.put p k none (.waitLock addr))
      (s.put p k (some p) (.scan (i :: rest) havekids addr)) := by
  obtain ⟨-, l, rest, hslots, hl⟩ := List.find?_eq_some_iff_append.mp hfind
  refine ⟨rest, false || l.any fun j => (k.proc j).parent = some p, (goes_waitLock hr).trans ?_⟩
  rw [slots, hslots]
  refine goes_scan h hr l (i :: rest) fun j hj => ?_
  have hj := hl j hj
  rw [Bool.not_eq_true'] at hj
  exact of_decide_eq_false hj

/-- The pass of `wait` that finds no zombie child. -/
theorem goes_childless (h : s.Unlocked) (hr : (k.proc p).state = .running)
    (hfind : (findSlot fun np => (k.proc np).parent = some p ∧ (k.proc np).state = .zombie) = none) :
    Goes p ok (s.put p k none (.waitLock addr))
      (s.put p k (some p) (.scan [] (findSlot fun np => (k.proc np).parent = some p).isSome addr)) := by
  refine (goes_waitLock hr).trans ?_
  rw [findSlot, List.isSome_find?, ← Bool.false_or (List.any ..), ← List.append_nil slots]
  exact goes_scan h hr slots [] fun j _ => of_decide_eq_false (findSlot_none hfind j)

/-- A `wait` that finds a zombie child, up to `copyout`. -/
theorem goes_reap (h : s.Unlocked) (hr : (k.proc p).state = .running)
    (hfind : (findSlot fun np => (k.proc np).parent = some p ∧ (k.proc np).state = .zombie) = some i) :
    Goes p ok (s.put p k none (.waitLock addr))
      (if addr ≠ 0 ∧ ok = false then s.put p k none (.user (.value (-1)))
      else s.put p (k.modify i freeproc) none (.user (.waited (k.proc i).pid (copied addr (k.proc i).xstate)))) := by
  obtain ⟨rest, havekids, hgoes⟩ := goes_child h hr hfind
  have hfree : ¬ (s.put p k (some p) (.scan (i :: rest) havekids addr)).Locked i := unlocked_put h rfl i
  obtain ⟨hparent, hzombie⟩ := of_decide_eq_true (findSlot_some hfind)
  refine hgoes.trans (goes_put hr ?_)
  split_ifs with hcopy
  · simp [hfree, hparent, hzombie, hcopy]
  · simp [hfree, hparent, hzombie, hcopy]

/-- A `wait` that finds no zombie child. -/
theorem goes_sleep (h : s.Unlocked) (hr : (k.proc p).state = .running)
    (hfind : (findSlot fun np => (k.proc np).parent = some p ∧ (k.proc np).state = .zombie) = none) :
    Goes p ok (s.put p k none (.waitLock addr))
      (if (findSlot fun np => (k.proc np).parent = some p).isSome = false ∨ (k.proc p).killed = true then
        s.put p k none (.user (.value (-1)))
      else s.put p (sleep k p (.proc p)) none (.asleep addr)) := by
  refine (goes_childless h hr hfind).trans ?_
  generalize (findSlot fun np => (k.proc np).parent = some p).isSome = havekids
  split_ifs with hreturns
  · exact goes_put hr (by simp [hreturns])
  · have hstays : advance (s.put p k (some p) (.scan [] havekids addr)) p ok =
        some (s.put p k (some p) (.toSleep addr)) := by
      simp [hreturns]
    have hrelease : Goes p ok (s.put p k (some p) (.toSleep addr)) (s.put p k none (.handOver addr)) :=
      goes_put hr (by simp)
    have hsched : Goes p ok (s.put p k none (.handOver addr)) (s.put p (sleep k p (.proc p)) none (.asleep addr)) :=
      goes_put hr (by simp)
    exact (goes_put hr hstays).trans (hrelease.trans hsched)

/-- One pass of `wait` returns, or ends asleep. -/
theorem through_wait (h : s.Unlocked) (hw : s.waitLock = none) (hu : s.pc p = .user r)
    (hr : (s.kernel.proc p).state = .running) :
    ∃ pc, Through p ok (.wait addr) s (s.put p (wait s.kernel p (addr = 0 || ok)).2 none pc) ∧
      match (wait s.kernel p (addr = 0 || ok)).1 with
      | some v => ∃ r : Ret, pc = .user r ∧ r.code = v
      | none => pc = .asleep addr := by
  have henter : enter s p (.wait addr) = some (s.put p s.kernel none (.waitLock addr)) := by simp [enter, hw]
  cases hfind : findSlot fun np => (s.kernel.proc np).parent = some p ∧ (s.kernel.proc np).state = .zombie with
  | some i =>
      have hgoes : Goes p ok (s.put p s.kernel none (.waitLock addr)) _ := goes_reap h hr hfind
      by_cases hcopy : addr ≠ 0 ∧ ok = false
      · have hwait : wait s.kernel p (addr = 0 || ok) = (some (-1), s.kernel) := by
          simp only [wait, hfind]
          rw [if_pos (by simpa using hcopy)]
        rw [if_pos hcopy] at hgoes
        rw [hwait]
        exact ⟨_, through hu hr henter hgoes, _, rfl, rfl⟩
      · have hwait : wait s.kernel p (addr = 0 || ok) =
            (some (s.kernel.proc i).pid, s.kernel.modify i freeproc) := by
          simp only [wait, hfind]
          rw [if_neg (by simpa using hcopy)]
        rw [if_neg hcopy] at hgoes
        rw [hwait]
        exact ⟨_, through hu hr henter hgoes, _, rfl, rfl⟩
  | none =>
      have hgoes : Goes p ok (s.put p s.kernel none (.waitLock addr)) _ := goes_sleep h hr hfind
      by_cases hreturns : (findSlot fun np => (s.kernel.proc np).parent = some p).isSome = false ∨
          (s.kernel.proc p).killed = true
      · have hwait : wait s.kernel p (addr = 0 || ok) = (some (-1), s.kernel) := by
          simp only [wait, hfind]
          rw [if_pos (by simpa using hreturns)]
        rw [if_pos hreturns] at hgoes
        rw [hwait]
        exact ⟨_, through hu hr henter hgoes, _, rfl, rfl⟩
      · have hwait : wait s.kernel p (addr = 0 || ok) = (none, sleep s.kernel p (.proc p)) := by
          simp only [wait, hfind]
          rw [if_neg (by simpa using hreturns)]
        rw [if_neg hreturns] at hgoes
        rw [hwait]
        exact ⟨_, through hu hr henter hgoes, rfl⟩

/-! ## Fork -/

/-- The way of `fork` after `allocproc` and `uvmcopy`. -/
theorem goes_created (h : s.Unlocked) (hr : (k.proc p).state = .running) :
    Goes p ok (s.put p k none (.adopt i pid))
      (s.put p (makeRunnable (k.modify i fun q => { q with parent := some p }) i) none (.user (.value pid))) := by
  have hadopt : advance (s.put p k none (.adopt i pid)) p ok =
      some (s.put p (k.modify i fun q => { q with parent := some p }) none (.launch i pid)) := by
    simp
  have hfree : ¬ (s.put p (k.modify i fun q => { q with parent := some p }) none (.launch i pid)).Locked i :=
    unlocked_put h rfl i
  refine (goes_put hr hadopt).trans (goes_put ?_ ?_)
  · rwa [adopted_state]
  · simp [hfree]

theorem through_fork (h : s.Unlocked) (hw : s.waitLock = none) (hu : s.pc p = .user r)
    (hr : (s.kernel.proc p).state = .running) :
    ∃ t, Through p ok .fork s t ∧ t.kernel = (fork s.kernel p ok ok ok).2 ∧ t.waitLock = none ∧
      t.pc p = .user (.value (fork s.kernel p ok ok ok).1) := by
  have henter : enter s p .fork = some (s.put p s.kernel none (.alloc slots)) := by simp [enter, hw]
  have hfree (i : Slot) (l : List Slot) : ¬ (s.put p s.kernel none (.alloc l)).Locked i := unlocked_put h rfl i
  have hskip : Skips s p ok s.kernel none (fun i => (s.kernel.proc i).state = .unused) .alloc := by
    intro i l hi
    simp [hfree, of_decide_eq_false hi]
  cases hfind : freeSlot s.kernel with
  | none =>
      rw [fork_full hfind]
      have hfull : advance (s.put p s.kernel none (.alloc [])) p ok =
          some (s.put p s.kernel none (.user (.value (-1)))) := by
        simp
      have hgoes := (goes_missed hskip hr hfind).trans (goes_put hr hfull)
      exact ⟨_, through hu hr henter hgoes, rfl, rfl, put_pc_self⟩
  | some i =>
      obtain ⟨rest, hgoes⟩ := goes_found hskip hr hfind
      have hunused : (s.kernel.proc i).state = .unused := of_decide_eq_true (findSlot_some hfind)
      have hcreate : advance (s.put p s.kernel none (.alloc (i :: rest))) p ok =
          some (create (s.put p s.kernel none (.alloc (i :: rest))) p i ok) := by
        simp [hfree, hunused]
      have hgoes := hgoes.trans (goes_put hr hcreate)
      cases ok with
      | false =>
          rw [create_failed, put_put] at hgoes
          rw [fork_failed hfind p (by simp)]
          exact ⟨_, through hu hr henter hgoes, rfl, rfl, put_pc_self⟩
      | true =>
          have hpi : p ≠ i := fun heq => by rw [heq, hunused] at hr; cases hr
          have hrun : ((s.kernel.allocpid.modify i (Proc.allocated s.kernel.nextpid)).proc p).state = .running := by
            rwa [State.modify_proc_of_ne hpi]
          rw [create_ok] at hgoes
          have hfree : ((s.put p s.kernel none (.alloc (i :: rest))).put i s.kernel none (.user (.value 0))).Unlocked :=
            unlocked_put (unlocked_put h rfl) rfl
          refine ⟨_, through hu hr henter (hgoes.trans (goes_created hfree hrun)), ?_, rfl, ?_⟩
          · rw [fork_created hfind, makeRunnable, State.modify_modify, State.modify_modify]
            rfl
          · rw [fork_created hfind]
            exact put_pc_self

end Xv6Mlfq.ExitWait
