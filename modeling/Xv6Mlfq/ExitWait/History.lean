import Xv6Mlfq.ExitWait.Lemmas.Preserved

/-!
# Exits and the waits that return them

For each slot, the exits and the successful waits of a run alternate, and each wait returns what the exit before it
has left in the slot.
-/

namespace Xv6Mlfq.ExitWait

open Access Queue Kernel Runs

inductive Mark
  | exited (pid status : Int)
  /-- `parent` has returned from `wait`. -/
  | reaped (parent : Slot) (pid : Int) (status : Option Int)
  deriving DecidableEq

/-- What a step means for the process in slot `i`: its exit, or that a `wait` returns it. -/
def mark (i : Slot) (x : Transition System Event) : Option Mark :=
  match x.event with
  | .go p _ =>
      match x.pre.pc p, x.post.pc p with
      | .zombie status, _ => if p = i then some (.exited (x.pre.kernel.proc i).pid status) else none
      | .scan (j :: _) _ _, .user (.waited pid status) => if j = i then some (.reaped p pid status) else none
      | _, _ => none
  | _ => none

/-- Each exit has been returned, with its pid and, if there is an address for it, its status. -/
inductive Paired : List Mark → Prop
  | nil : Paired []
  | reaped {l pid status p r} (h : Paired l) (hr : ∀ v, r = some v → v = status) :
      Paired (l ++ [.exited pid status, .reaped p pid r])

/-- Each exit but the last one has been returned, once; and no wait returns anything else. -/
def Alternates (l : List Mark) : Prop := Paired l ∨ ∃ l' pid status, Paired l' ∧ l = l' ++ [.exited pid status]

variable {init p i : Slot} {s s' : System} {k : State} {f : Proc → Proc} {ok : Bool} {e : Event}
  {x : Transition System Event} {outside : QTable} {tr : List (Transition System Event)}

/-- A dead process stays dead, and keeps its status. -/
structure Rests (x y : Proc) : Prop where
  zombie : y.state = .zombie ↔ x.state = .zombie
  status : x.state = .zombie → y.pid = x.pid ∧ y.xstate = x.xstate

theorem Rests.refl (x : Proc) : Rests x x := ⟨Iff.rfl, fun _ => ⟨rfl, rfl⟩⟩

theorem Rests.of_ne {x y : Proc} (hx : x.state ≠ .zombie) (hy : y.state ≠ .zombie) : Rests x y :=
  ⟨iff_of_false hy hx, fun hz => absurd hz hx⟩

theorem Still.rests {x y : Proc} (h : Still x y) : Rests x y where
  zombie := by
    constructor
    · intro hy
      refine phaseOf_zombie ?_
      rw [← h.phase, hy]
      rfl
    · intro hx
      refine phaseOf_zombie ?_
      rw [h.phase, hx]
      rfl
  status := h.status

theorem Rests.modify {j : Slot} (h : Rests (k.proc j) (f (k.proc j))) (i : Slot) :
    Rests (k.proc i) ((k.modify j f).proc i) := by
  by_cases hij : i = j
  · rw [hij, State.modify_proc_self]
    exact h
  · rw [State.modify_proc_of_ne hij]
    exact .refl _

theorem Rests.modify_of_ne {j : Slot} (h : i ≠ j) : Rests (k.proc i) ((k.modify j f).proc i) := by
  rw [State.modify_proc_of_ne h]
  exact .refl _

/-- What a step can mean for the process in slot `i`. -/
inductive Fate (i : Slot) (x : Transition System Event) : Prop
  | rests (hm : mark i x = none) (h : Rests (x.pre.kernel.proc i) (x.post.kernel.proc i))
  | exited {status : Int} (hm : mark i x = some (.exited (x.pre.kernel.proc i).pid status))
      (hne : (x.pre.kernel.proc i).state ≠ .zombie) (hz : (x.post.kernel.proc i).state = .zombie)
      (hpid : (x.post.kernel.proc i).pid = (x.pre.kernel.proc i).pid)
      (hstatus : (x.post.kernel.proc i).xstate = status)
  | reaped {p : Slot} {addr : Nat}
      (hm : mark i x = some (.reaped p (x.pre.kernel.proc i).pid (copied addr (x.pre.kernel.proc i).xstate)))
      (hz : (x.pre.kernel.proc i).state = .zombie) (hparent : (x.pre.kernel.proc i).parent = some p)
      (hfree : (x.post.kernel.proc i).state = .unused)

namespace Pc

/-- The process becomes a zombie in its next step. -/
def Dies : Pc → Prop
  | .zombie _ => True
  | _ => False

/-- The process has returned from a successful `wait`. -/
def Returned : Pc → Prop
  | .user (.waited ..) => True
  | _ => False

end Pc

/-- A step of process `p` that neither ends its `exit` nor returns from a successful `wait`. -/
def Plain (s s' : System) (p : Slot) : Prop :=
  (∀ i, Rests (s.kernel.proc i) (s'.kernel.proc i)) ∧ ¬ (s.pc p).Dies ∧ ¬ (s'.pc p).Returned

theorem Plain.fate (h : Plain s s' p) (i : Slot) : Fate i ⟨s, .go p ok, s'⟩ := by
  obtain ⟨hrests, hpre, hpost⟩ := h
  refine .rests ?_ (hrests i)
  simp only [mark]
  generalize s.pc p = pc at hpre
  generalize s'.pc p = pc' at hpost
  cases pc with
  | zombie status => exact absurd trivial hpre
  | scan slots havekids addr =>
      cases slots with
      | nil => rfl
      | cons j rest =>
          cases pc' with
          | user r =>
              cases r with
              | value v => rfl
              | waited pid r => exact absurd trivial hpost
          | _ => rfl
  | _ => rfl

theorem plain_put {pc pc₀ : Pc} {lock : Option Slot} (hpc : s.pc p = pc₀) (hpre : ¬ pc₀.Dies)
    (hpost : ¬ pc.Returned) (hk : ∀ i, Rests (s.kernel.proc i) (k.proc i)) :
    Plain s (s.put p k lock pc) p :=
  ⟨hk, hpc ▸ hpre, by rwa [put_pc_self]⟩

theorem fate_put {pc pc₀ : Pc} {lock : Option Slot} (hpc : s.pc p = pc₀) (hpre : ¬ pc₀.Dies)
    (hpost : ¬ pc.Returned) (hk : ∀ i, Rests (s.kernel.proc i) (k.proc i)) :
    Fate i ⟨s, .go p ok, s.put p k lock pc⟩ := (plain_put hpc hpre hpost hk).fate i

theorem forkStep_plain (h : Inv init s) (hs : forkStep s p ok (s.pc p) = some s') : Plain s s' p := by
  have hstands := h.stands p
  generalize hpc : s.pc p = pc at hs hstands
  cases pc with
  | alloc rest =>
      cases rest with
      | nil =>
          cases hs
          exact plain_put hpc id id fun i => .refl _
      | cons i rest =>
          simp only [forkStep] at hs
          split_ifs at hs with hlocked hu
          · cases hs
            have hne : (s.kernel.proc i).state ≠ .zombie := by simp [hu]
            cases ok with
            | true =>
                rw [create_ok]
                refine ⟨Rests.modify (.of_ne hne (by simp [Proc.allocated])), ?_, ?_⟩
                · rw [hpc]
                  exact id
                · rw [put_pc_self]
                  exact id
            | false =>
                rw [create_failed]
                exact plain_put hpc id id (Rests.modify (.of_ne hne (by simp [freeproc])))
          · cases hs
            exact plain_put hpc id id fun i => .refl _
  | adopt np pid =>
      simp only [forkStep] at hs
      split_ifs at hs with hfree
      cases hs
      exact plain_put hpc id id (Rests.modify ⟨Iff.rfl, fun _ => ⟨rfl, rfl⟩⟩)
  | launch np pid =>
      simp only [forkStep] at hs
      split_ifs at hs with hlocked
      cases hs
      have hne : (s.kernel.proc np).state ≠ .zombie := fun hz => by
        have hused := hstands.1
        simp [System.phase, phases, hz, phaseOf] at hused
      exact plain_put hpc id id (Rests.modify (f := Proc.awake) (.of_ne hne (by simp [Proc.awake])))
  | _ => cases hs

theorem signalStep_plain (hs : signalStep s p (s.pc p) = some s') : Plain s s' p := by
  generalize hpc : s.pc p = pc at hs
  cases pc with
  | wakeup chan rest =>
      cases rest with
      | nil =>
          cases hs
          exact plain_put hpc id id fun i => .refl _
      | cons i rest =>
          obtain ⟨k, hk, rfl⟩ := Option.map_eq_some_iff.mp hs
          exact plain_put hpc id id fun i => ((wakeupStep_calm hk).slots i).rests
  | kill pid rest =>
      cases rest with
      | nil =>
          cases hs
          exact plain_put hpc id id fun i => .refl _
      | cons i rest =>
          simp only [signalStep] at hs
          split_ifs at hs
          · cases hs
            exact plain_put hpc id id fun j => ((Calm.killSlot s.kernel i).slots j).rests
          · cases hs
            exact plain_put hpc id id fun i => .refl _
  | _ => cases hs

theorem exitStep_fate (hrun : s.pc p ≠ .exiting → (s.kernel.proc p).state = .running)
    (hs : exitStep s p (s.pc p) = some s') (i : Slot) : Fate i ⟨s, .go p ok, s'⟩ := by
  generalize hpc : s.pc p = pc at hs hrun
  cases pc with
  | exitLock status =>
      simp only [exitStep] at hs
      split_ifs at hs
      cases hs
      exact fate_put hpc id id fun i => .refl _
  | reparent rest status =>
      cases rest with
      | nil =>
          cases hs
          exact fate_put hpc id id fun i => .refl _
      | cons j rest =>
          simp only [exitStep] at hs
          split_ifs at hs
          · cases hs
            exact fate_put hpc id id (Rests.modify ⟨Iff.rfl, fun _ => ⟨rfl, rfl⟩⟩)
          · cases hs
            exact fate_put hpc id id fun i => .refl _
  | wakeInit wake rest status =>
      cases wake with
      | nil =>
          cases hs
          exact fate_put hpc id id fun i => .refl _
      | cons j wake =>
          obtain ⟨k, hk, rfl⟩ := Option.map_eq_some_iff.mp hs
          exact fate_put hpc id id fun i => ((wakeupStep_calm hk).slots i).rests
  | wakeParent parent wake status =>
      cases wake with
      | nil =>
          cases hs
          exact fate_put hpc id id fun i => .refl _
      | cons j wake =>
          obtain ⟨k, hk, rfl⟩ := Option.map_eq_some_iff.mp hs
          exact fate_put hpc id id fun i => ((wakeupStep_calm hk).slots i).rests
  | zombie status =>
      cases hs
      have hrun := hrun (by simp)
      by_cases hip : i = p
      · subst hip
        have hm : mark i ⟨s, .go i ok, s.put i (s.kernel.modify i fun q => { q with xstate := status, state := .zombie })
            none .exiting⟩ = some (.exited (s.kernel.proc i).pid status) := by
          simp [mark, hpc]
        exact .exited hm (by simp [hrun]) (by simp) (by simp) (by simp)
      · refine .rests ?_ ?_
        · simp [mark, hpc, Ne.symm hip]
        · simp only [put_kernel]
          exact Rests.modify_of_ne hip
  | exiting =>
      cases hs
      exact fate_put hpc id id fun i => .refl _
  | _ => cases hs

theorem waitStep_fate (hs : waitStep s p ok (s.pc p) = some s')
    (hrun : s.pc p ≠ .exiting → (s.kernel.proc p).state = .running) (i : Slot) : Fate i ⟨s, .go p ok, s'⟩ := by
  generalize hpc : s.pc p = pc at hs hrun
  cases pc with
  | waitLock addr | asleep addr =>
      simp only [waitStep] at hs
      split_ifs at hs
      cases hs
      exact fate_put hpc id id fun i => .refl _
  | scan rest havekids addr =>
      cases rest with
      | nil =>
          simp only [waitStep] at hs
          split_ifs at hs
          · cases hs
            exact fate_put hpc id id fun i => .refl _
          · cases hs
            exact fate_put hpc id id fun i => .refl _
      | cons j rest =>
          simp only [waitStep] at hs
          split_ifs at hs with hj hlocked hz hfail
          · cases hs
            exact fate_put hpc id id fun i => .refl _
          · cases hs
            by_cases hij : i = j
            · subst hij
              have hm : mark i ⟨s, .go p ok, s.put p (s.kernel.modify i freeproc) none
                  (.user (.waited (s.kernel.proc i).pid (copied addr (s.kernel.proc i).xstate)))⟩ =
                    some (.reaped p (s.kernel.proc i).pid (copied addr (s.kernel.proc i).xstate)) := by
                simp [mark, hpc]
              exact .reaped hm hz hj (by simp [freeproc])
            · refine .rests ?_ ?_
              · simp [mark, hpc, Ne.symm hij]
              · simp only [put_kernel]
                exact Rests.modify_of_ne hij
          · cases hs
            exact fate_put hpc id id fun i => .refl _
          · cases hs
            exact fate_put hpc id id fun i => .refl _
  | toSleep addr =>
      cases hs
      exact fate_put hpc id id fun i => .refl _
  | handOver addr =>
      cases hs
      have hne : (s.kernel.proc p).state ≠ .zombie := by simp [hrun (by simp)]
      exact fate_put hpc id id (Rests.modify (.of_ne hne (by simp)))
  | _ => cases hs

theorem enter_kernel {c : Call} (hs : enter s p c = some s') : s'.kernel = s.kernel := by
  cases c with
  | exit status =>
      simp only [enter] at hs
      split_ifs at hs
      cases hs
      rfl
  | _ =>
      cases hs
      rfl

theorem step_fate (h : Inv init s) (hs : step e s = some s') (i : Slot) : Fate i ⟨s, e, s'⟩ := by
  cases step_stepped hs with
  | call hpc hs =>
      refine .rests rfl ?_
      rw [enter_kernel hs]
      exact .refl _
  | go hrun hs =>
      rcases advance_cases hs with hs | hs | hs | hs
      · exact (forkStep_plain h hs).fate i
      · exact (signalStep_plain hs).fate i
      · exact exitStep_fate hrun hs i
      · exact waitStep_fate hs hrun i
  | @sleep p r hpc hrun chan =>
      have hne : (s.kernel.proc p).state ≠ .zombie := by simp [hrun]
      have hrests : ∀ i, Rests (s.kernel.proc i) ((Kernel.sleep s.kernel p chan).proc i) :=
        Rests.modify (.of_ne hne (by simp))
      exact .rests rfl (hrests i)
  | dispatch hready qtable => exact .rests rfl ((Calm.dispatch qtable hready).slots i).rests
  | yield hrun => exact .rests rfl ((Calm.yield hrun).slots i).rests
  | interrupt cur chan j => exact .rests rfl ((Calm.wakeupSlot s.kernel cur (some chan) j).slots i).rests

/-! ## Whole runs -/

/-- The marks of a slot, and what the last exit has left in it. -/
def Told (x : Proc) (l : List Mark) : Prop :=
  x.state ≠ .zombie ∧ Paired l ∨ x.state = .zombie ∧ ∃ l', Paired l' ∧ l = l' ++ [.exited x.pid x.xstate]

theorem Told.alternates {x : Proc} {l : List Mark} (h : Told x l) : Alternates l := by
  rcases h with ⟨-, h⟩ | ⟨-, l', h, rfl⟩
  · exact .inl h
  · exact .inr ⟨l', _, _, h, rfl⟩

theorem Told.step {x : Transition System Event} {l : List Mark} (h : Told (x.pre.kernel.proc i) l)
    (hfate : Fate i x) : Told (x.post.kernel.proc i) (l ++ (mark i x).toList) := by
  cases hfate with
  | rests hm hr =>
      rw [hm, Option.toList_none, List.append_nil]
      rcases h with ⟨hne, h⟩ | ⟨hz, l', h, rfl⟩
      · exact .inl ⟨mt hr.zombie.mp hne, h⟩
      · refine .inr ⟨hr.zombie.mpr hz, l', h, ?_⟩
        rw [(hr.status hz).1, (hr.status hz).2]
  | exited hm hne hz hpid hstatus =>
      rcases h with ⟨-, h⟩ | ⟨hz', -⟩
      · exact .inr ⟨hz, l, h, by rw [hm, hpid, hstatus]; rfl⟩
      · exact absurd hz' hne
  | @reaped p addr hm hz hparent hfree =>
      rcases h with ⟨hne, -⟩ | ⟨-, l', h, rfl⟩
      · exact absurd hz hne
      · refine .inl ⟨by simp [hfree], ?_⟩
        rw [hm, Option.toList_some, List.append_assoc]
        refine h.reaped fun v hv => ?_
        unfold copied at hv
        split_ifs at hv
        exact (Option.some.inj hv).symm

theorem told (h : Run step (boot outside) tr s) (i : Slot) : Told (s.kernel.proc i) (tr.filterMap (mark i)) := by
  induction h with
  | nil => exact .inl ⟨boot_ne_zombie outside i, .nil⟩
  | @snoc tr t e u hrun hs ih =>
      have hfate := step_fate (Inv.run hrun) hs i
      rw [List.filterMap_append]
      exact ih.step hfate

end Xv6Mlfq.ExitWait
