import Xv6Mlfq.ExitWait.Lemmas.Steps

/-!
# The invariant in every run
-/

namespace Xv6Mlfq.ExitWait

open Access Queue Kernel Runs

variable {init p q i : Slot} {s s' : System} {k : State} {lock : Option Slot} {pc : Pc} {ok : Bool} {e : Event}

theorem locked_of_handsOver (h : (s.pc q).HandsOver) : s.Locked q := by
  unfold System.Locked
  generalize s.pc q = pc at h
  cases pc with
  | handOver addr => rfl
  | _ => exact False.elim h

theorem advance_cases (hs : advance s p ok = some s') :
    forkStep s p ok (s.pc p) = some s' ∨ signalStep s p (s.pc p) = some s' ∨ exitStep s p (s.pc p) = some s' ∨
      waitStep s p ok (s.pc p) = some s' := by
  simp only [advance, Option.orElse_eq_orElse, Option.orElse_eq_or, Option.or_eq_some_iff] at hs
  exact hs.imp_right fun ⟨_, hs⟩ => hs.imp_right fun ⟨_, hs⟩ => hs.imp_right And.right

/-- The events, with what they need and what they lead to. -/
inductive Stepped (s : System) : Event → System → Prop
  | call {p : Slot} {c : Call} {r : Ret} {s' : System} (hpc : s.pc p = .user r) (hs : enter s p c = some s') :
      Stepped s (.call p c) s'
  | go {p : Slot} {ok : Bool} {s' : System} (hrun : s.pc p ≠ .exiting → (s.kernel.proc p).state = .running)
      (hs : advance s p ok = some s') : Stepped s (.go p ok) s'
  | sleep {p : Slot} {r : Ret} (hpc : s.pc p = .user r) (hrun : (s.kernel.proc p).state = .running) (chan : Chan) :
      Stepped s (.sleep p chan) { s with kernel := sleep s.kernel p chan }
  | dispatch {p : Slot} (hready : (s.kernel.proc p).state = .runnable) (qtable : QTable) :
      Stepped s (.dispatch p qtable) { s with kernel := (dispatch { s.kernel with qtable := qtable } p).kernel }
  | yield {p : Slot} (hrun : (s.kernel.proc p).state = .running) :
      Stepped s (.yield p) { s with kernel := yield s.kernel p }
  | interrupt (cur : Option Slot) (chan : Chan) (i : Slot) :
      Stepped s (.interrupt cur chan i) { s with kernel := wakeupSlot cur (some chan) s.kernel i }

theorem step_stepped (hs : step e s = some s') : Stepped s e s' := by
  cases e with
  | call p c =>
      simp only [step] at hs
      generalize hpc : s.pc p = pc at hs
      cases pc with
      | user r =>
          dsimp only at hs
          split_ifs at hs
          exact .call hpc hs
      | _ => cases hs
  | go p ok =>
      simp only [step] at hs
      split_ifs at hs with hrun
      exact .go hrun.resolve_right hs
  | sleep p chan =>
      simp only [step] at hs
      generalize hpc : s.pc p = pc at hs
      cases pc with
      | user r =>
          dsimp only at hs
          split_ifs at hs with hrun
          cases hs
          exact .sleep hpc hrun chan
      | _ => cases hs
  | dispatch p qtable =>
      simp only [step] at hs
      split_ifs at hs with hrun
      cases hs
      exact .dispatch hrun.1 qtable
  | yield p =>
      simp only [step] at hs
      split_ifs at hs with hrun
      cases hs
      exact .yield hrun.1
  | interrupt cur chan i =>
      simp only [step] at hs
      split_ifs at hs
      cases hs
      exact .interrupt cur chan i

/-! ## Rounds of `wakeup` -/

theorem wakeupStep_calm {chan : Option Chan} (h : wakeupStep s p chan i = some k) : Calm s.kernel k := by
  unfold wakeupStep at h
  split_ifs at h
  cases h
  exact .wakeupSlot ..

/-- After the round at `i` of a `wakeup` that is meant for `i`, that process does not sleep in `wait`. -/
theorem wakeupStep_awake (hinv : Inv init s) (h : wakeupStep s p (some (.proc i)) i = some k) (hrest : ¬ pc.Rests) :
    ¬ (s.put p k lock pc).Asleep i := by
  intro hasleep
  obtain ⟨hip, hs⟩ := asleep_put (wakeupStep_calm h).drowsy hrest hasleep
  unfold wakeupStep at h
  split_ifs at h with hlocked
  cases h
  rcases hs with hs | ⟨hpc, hs⟩
  · exact hlocked ⟨hip, locked_of_handsOver hs⟩
  · simp only [System.Asleep, put_pc_of_ne hip, put_kernel] at hasleep
    rcases hasleep with hasleep | ⟨-, hasleep⟩
    · exact hlocked ⟨hip, locked_of_handsOver hasleep⟩
    · exact wakeupSlot_awake (fun he => hip (Option.some.inj he)) (hinv.channel i hpc hs) hasleep

/-! ## Fork -/

theorem create_ok (s : System) (p i : Slot) : create s p i true =
    (s.put i s.kernel s.waitLock (.user (.value 0))).put p
      (s.kernel.allocpid.modify i (Proc.allocated s.kernel.nextpid)) s.waitLock (.adopt i s.kernel.nextpid) := by
  simp only [create, if_true, State.modify_modify]
  rfl

theorem create_failed (s : System) (p i : Slot) : create s p i false =
    s.put p (s.kernel.allocpid.modify i freeproc) s.waitLock (.user (.value (-1))) := by
  simp only [create, Bool.false_eq_true, if_false, State.modify_modify]
  rfl

namespace Inv

theorem create (h : Inv init s) {rest : List Slot} (hpc : s.pc p = .alloc rest) (halive : s.phase p = .alive)
    (hu : (s.kernel.proc i).state = .unused) : Inv init (create s p i ok) := by
  have hphase : s.phase i = .unused := by simp [System.phase, phases, hu, phaseOf]
  cases ok with
  | true =>
      have hpi : p ≠ i := by
        rintro rfl
        cases hphase.symm.trans halive
      have hpc' : (s.put i s.kernel s.waitLock (.user (.value 0))).pc p = .alloc rest := (put_pc_of_ne hpi).trans hpc
      have hd : Drowsy s.kernel.allocpid (s.kernel.allocpid.modify i (Proc.allocated s.kernel.nextpid)) :=
        .awake (by simp [Proc.allocated])
      rw [create_ok]
      exact (h.fresh hphase (.value 0)).created hpc' hphase ⟨hd.sleeping, rfl⟩ (phases_modify ..)
        (parents_modify_same rfl)
  | false =>
      have hcalm : Calm s.kernel (s.kernel.modify i freeproc) := .modify {
        phase := by rw [hu]; rfl
        parent := (h.kin.vacant i hphase).symm
        sleeping := fun hs => by cases hs
        status := fun hz => by cases hu.symm.trans hz }
      rw [create_failed]
      exact h.idle hpc ⟨hcalm.slots, rfl⟩ id trivial

theorem forkStep (h : Inv init s) (halive : s.phase p = .alive) (hs : forkStep s p ok (s.pc p) = some s') :
    Inv init s' := by
  generalize hpc : s.pc p = pc at hs
  cases pc with
  | alloc rest =>
      cases rest with
      | nil =>
          cases hs
          exact h.idle hpc (.refl _) id trivial
      | cons i rest =>
          simp only [ExitWait.forkStep] at hs
          split_ifs at hs with hlocked hu
          · cases hs
            exact h.create hpc halive hu
          · cases hs
            exact h.idle hpc (.refl _) id trivial
  | adopt np pid =>
      simp only [ExitWait.forkStep] at hs
      split_ifs at hs with hfree
      cases hs
      exact h.adopted hpc halive hfree (.modify fun hs => ⟨hs, rfl⟩) (phases_modify_same rfl) (parents_modify ..)
  | launch np pid =>
      simp only [ExitWait.forkStep] at hs
      split_ifs at hs with hlocked
      cases hs
      have hd : Drowsy s.kernel (s.kernel.modify np Proc.awake) := .awake (by simp [Proc.awake])
      exact h.launched hpc ⟨hd.sleeping, rfl⟩ (phases_modify s.kernel np Proc.awake)
        (parents_modify_same (f := Proc.awake) rfl)
  | _ => cases hs

/-! ## Wakeup and kill -/

theorem signalStep (h : Inv init s) (hs : signalStep s p (s.pc p) = some s') : Inv init s' := by
  generalize hpc : s.pc p = pc at hs
  cases pc with
  | wakeup chan rest =>
      cases rest with
      | nil =>
          cases hs
          exact h.idle hpc (.refl _) id trivial
      | cons i rest =>
          obtain ⟨k, hk, rfl⟩ := Option.map_eq_some_iff.mp hs
          exact h.idle hpc (wakeupStep_calm hk) id trivial
  | kill pid rest =>
      cases rest with
      | nil =>
          cases hs
          exact h.idle hpc (.refl _) id trivial
      | cons i rest =>
          simp only [ExitWait.signalStep] at hs
          split_ifs at hs
          · cases hs
            exact h.idle hpc (.killSlot ..) id trivial
          · cases hs
            exact h.idle hpc (.refl _) id trivial
  | _ => cases hs

/-! ## Exit -/

theorem exitStep (h : Inv init s) (halive : s.pc p ≠ .exiting → s.phase p = .alive)
    (hs : exitStep s p (s.pc p) = some s') : Inv init s' := by
  have hstands := h.stands p
  generalize hpc : s.pc p = pc at hs hstands halive
  cases pc with
  | exitLock status =>
      simp only [ExitWait.exitStep] at hs
      split_ifs at hs with hfree
      cases hs
      refine h.acquire hpc hfree (halive (by simp)) trivial id (fun _ => False.elim) id ⟨hstands, fun i hi => ?_⟩
      exact absurd (List.mem_finRange i) hi
  | reparent rest status =>
      obtain ⟨hne, hvisited⟩ := hstands
      cases rest with
      | nil =>
          cases hs
          refine h.keep hpc (.refl _) Iff.rfl id (fun _ => False.elim) False.elim ⟨hne, fun i => ?_, rfl, fun q _ _ => ?_⟩
          · exact hvisited i List.not_mem_nil
          · exact List.mem_finRange q
      | cons i rest =>
          simp only [ExitWait.exitStep] at hs
          split_ifs at hs with hi
          · cases hs
            rw [h.initproc]
            exact h.passed hpc hi (.modify fun hs => ⟨hs, rfl⟩) (phases_modify_same rfl) (parents_modify ..)
          · cases hs
            refine h.keep hpc (.refl _) Iff.rfl id (fun _ => False.elim) False.elim ⟨hne, fun j hj => ?_⟩
            by_cases hji : j = i
            · exact hji ▸ hi
            · exact hvisited j (by simp [hji, hj])
  | wakeInit wake rest status =>
      obtain ⟨hne, hvisited⟩ := hstands
      cases wake with
      | nil =>
          cases hs
          exact h.keep hpc (.refl _) Iff.rfl id (fun _ => False.elim) (fun hw => by cases hw) ⟨hne, hvisited⟩
      | cons i wake =>
          obtain ⟨k, hk, rfl⟩ := Option.map_eq_some_iff.mp hs
          have hcalm := wakeupStep_calm hk
          refine h.keep hpc hcalm Iff.rfl id (fun _ => False.elim) (fun hw hasleep => ?_) ⟨hne, ?_⟩
          · rcases List.mem_cons.mp hw with rfl | hw
            · rw [h.initproc] at hk
              exact absurd hasleep (wakeupStep_awake h hk id)
            · exact hw
          · rw [put_parent, hcalm.parents]
            exact hvisited
  | wakeParent parent wake status =>
      obtain ⟨hne, hchildless, hparent, hwake⟩ := hstands
      cases wake with
      | nil =>
          cases hs
          refine h.keep hpc (.refl _) Iff.rfl id (fun _ => False.elim) False.elim ⟨hne, hchildless, fun q hq hasleep => ?_⟩
          have hmem := hwake q (hparent.symm.trans hq) (asleep_put (.refl _) id hasleep).2
          cases hmem
      | cons i wake =>
          obtain ⟨k, hk, rfl⟩ := Option.map_eq_some_iff.mp hs
          have hcalm := wakeupStep_calm hk
          refine h.keep hpc hcalm Iff.rfl id (fun _ => False.elim) False.elim ⟨hne, ?_, ?_, fun q hq hasleep => ?_⟩
          · rw [put_parent, hcalm.parents]
            exact hchildless
          · rw [put_parent, hcalm.parents]
            exact hparent
          · rcases List.mem_cons.mp (hwake q hq (asleep_put hcalm.drowsy id hasleep).2) with rfl | hw
            · rw [hq] at hk
              exact absurd hasleep (wakeupStep_awake h hk id)
            · exact hw
  | zombie status =>
      cases hs
      exact h.died hpc (halive (by simp)) (.awake (by simp)) (phases_modify ..) (parents_modify_same rfl)
  | exiting =>
      cases hs
      exact h.idle hpc (.refl _) id trivial
  | _ => cases hs

/-! ## Wait -/

theorem scanning (h : Inv init s) {addr : Nat} (halive : s.phase p = .alive) (hfree : s.waitLock = none)
    (hpc : s.pc p = .waitLock addr ∨ s.pc p = .asleep addr) :
    Inv init (s.put p s.kernel (some p) (.scan slots false addr)) := by
  have hstands : Stands init (s.put p s.kernel (some p) (.scan slots false addr)) p (.scan slots false addr) :=
    ⟨by simp, fun i hi => absurd (List.mem_finRange i) hi⟩
  rcases hpc with hpc | hpc
  · exact h.acquire hpc hfree halive trivial id (fun _ => False.elim) id hstands
  · exact h.acquire hpc hfree halive trivial id (fun _ => False.elim) id hstands

theorem waitStep (h : Inv init s) (halive : s.pc p ≠ .exiting → s.phase p = .alive)
    (hs : waitStep s p ok (s.pc p) = some s') : Inv init s' := by
  have hstands := h.stands p
  generalize hpc : s.pc p = pc at hs hstands halive
  cases pc with
  | waitLock addr =>
      simp only [ExitWait.waitStep] at hs
      split_ifs at hs with hfree
      cases hs
      exact h.scanning (halive (by simp)) hfree (.inl hpc)
  | asleep addr =>
      simp only [ExitWait.waitStep] at hs
      split_ifs at hs with hfree
      cases hs
      exact h.scanning (halive (by simp)) hfree (.inr hpc)
  | scan rest havekids addr =>
      obtain ⟨hkids, hvisited⟩ := hstands
      cases rest with
      | nil =>
          simp only [ExitWait.waitStep] at hs
          split_ifs at hs with hgive
          · cases hs
            exact h.release hpc trivial id id (fun _ => False.elim) id trivial
          · cases hs
            have hkid : havekids = true := by simpa using fun he => hgive (.inl he)
            exact h.keep hpc (.refl _) Iff.rfl id (fun _ => False.elim) False.elim
              ⟨hkids hkid, fun i hi => (hvisited i List.not_mem_nil hi).2⟩
      | cons i rest =>
          simp only [ExitWait.waitStep] at hs
          split_ifs at hs with hi hlocked hz hfail
          · cases hs
            exact h.release hpc trivial id id (fun _ => False.elim) id trivial
          · cases hs
            exact h.reaped hpc hi (by simp [System.phase, phases, hz, phaseOf]) (.awake (by simp [freeproc])) (phases_modify ..)
              (parents_modify ..)
          · cases hs
            refine h.keep hpc (.refl _) Iff.rfl id (fun _ => False.elim) False.elim
              ⟨fun _ => ⟨i, hi⟩, fun j hj hpar => ⟨rfl, ?_⟩⟩
            by_cases hji : j = i
            · exact hji ▸ fun he => hz (phaseOf_zombie he)
            · exact (hvisited j (by simp [hji, hj]) hpar).2
          · cases hs
            refine h.keep hpc (.refl _) Iff.rfl id (fun _ => False.elim) False.elim ⟨hkids, fun j hj hpar => ?_⟩
            by_cases hji : j = i
            · exact absurd (hji ▸ hpar) hi
            · exact hvisited j (by simp [hji, hj]) hpar
  | toSleep addr =>
      cases hs
      have hholds : (s.pc p).Holds := by rw [hpc]; trivial
      have hlock : LockMove p s.waitLock (s.pc p) none (.handOver addr) := by
        rw [(h.held p).mp hholds]
        exact .release id
      exact h.rest hlock trivial (.inr rfl) (by rw [hpc]; exact id) False.elim (.inr ⟨hholds, hstands⟩)
  | handOver addr =>
      cases hs
      have hslept : Inv init { s with kernel := sleep s.kernel p (.proc p) } :=
        h.slept (halive (by simp)) (by rw [hpc]; exact id)
      have hlock : LockMove p s.waitLock (s.pc p) s.waitLock (.asleep addr) := by
        rw [hpc]
        exact .keep Iff.rfl
      refine hslept.rest hlock trivial (.inl rfl) (by rw [hpc]; exact id) (fun _ _ => ?_) (.inl (.inl ?_))
      · simp [sleep]
      · rw [hpc]
        trivial
  | _ => cases hs

/-! ## All steps -/

theorem advance (h : Inv init s) (halive : s.pc p ≠ .exiting → s.phase p = .alive)
    (hs : advance s p ok = some s') : Inv init s' := by
  rcases advance_cases hs with hs | hs | hs | hs
  · refine h.forkStep (halive fun he => ?_) hs
    rw [he] at hs
    cases hs
  · exact h.signalStep hs
  · exact h.exitStep halive hs
  · exact h.waitStep halive hs

theorem enter (h : Inv init s) {c : Call} {r : Ret} (hpc : s.pc p = .user r) (hs : enter s p c = some s') :
    Inv init s' := by
  cases c with
  | fork | wait addr | wakeup chan | kill pid =>
      cases hs
      exact h.idle hpc (.refl _) id trivial
  | exit status =>
      simp only [ExitWait.enter] at hs
      split_ifs at hs with hinit
      cases hs
      refine h.keep hpc (.refl _) Iff.rfl id (fun _ => False.elim) False.elim fun he => ?_
      exact hinit (he ▸ h.initproc)

theorem step (h : Inv init s) (hs : step e s = some s') : Inv init s' := by
  cases step_stepped hs with
  | call hpc hs => exact h.enter hpc hs
  | @go p ok s' hrun hs =>
      refine h.advance (fun hne => ?_) hs
      simp [System.phase, phases, hrun hne, phaseOf]
  | @sleep p r hpc hrun chan =>
      exact h.slept (by simp [System.phase, phases, hrun, phaseOf]) (by rw [hpc]; exact id)
  | dispatch hready qtable => exact h.still (.dispatch qtable hready)
  | yield hrun => exact h.still (.yield hrun)
  | interrupt cur chan i => exact h.still (.wakeupSlot ..)

end Inv

/-! ## Boot -/

theorem boot_initproc (outside : QTable) : (boot outside).kernel.initproc = some 0 := by
  simp [boot, Kernel.boot, userinit, allocproc_taken (static_freeSlot outside), makeRunnable, addToQueue]

theorem boot_slot (outside : QTable) (i : Slot) : (boot outside).kernel.proc i =
    if i = 0 then (Proc.zero.allocated 1).awake else Proc.zero := by
  have hproc := congrFun (boot_proc outside) i
  rw [State.modify_proc] at hproc
  exact hproc

theorem boot_ne_zombie (outside : QTable) (i : Slot) : ((boot outside).kernel.proc i).state ≠ .zombie := by
  rw [boot_slot]
  split_ifs
  · simp [Proc.awake]
  · simp [Proc.zero]

theorem Inv.boot (outside : QTable) : Inv 0 (boot outside) := by
  have hparent : ∀ i, (ExitWait.boot outside).parent i = none := by
    intro i
    rw [System.parent, parents, boot_slot]
    split_ifs
    · rfl
    · rfl
  have hphase : ∀ i, (ExitWait.boot outside).phase i = if i = 0 then .alive else .unused := by
    intro i
    rw [System.phase, phases, boot_slot]
    split_ifs
    · rfl
    · rfl
  have hidle : ∀ q, ¬ (ExitWait.boot outside).Asleep q := fun q hq => hq.elim id And.left
  exact {
    initproc := boot_initproc outside
    kin := {
      root := hphase 0
      parents := fun i q hq => by cases (hparent i).symm.trans hq
      adopted := fun i hi hlive => by
        rw [hphase, if_neg hi] at hlive
        rcases hlive with hlive | hlive
        · cases hlive
        · cases hlive
      vacant := fun i _ => hparent i }
    held := fun q => iff_of_false id fun hq => by cases hq
    holder := fun q hq => by cases hq
    forkers := fun q q' i hq => False.elim hq
    stands := fun q => trivial
    children := fun q hq => absurd hq (hidle q)
    rests := fun q hq => absurd hq (hidle q)
    channel := fun q hq => False.elim hq }

theorem Inv.run {outside : QTable} {tr : List (Transition System Event)} (h : Run ExitWait.step (ExitWait.boot outside) tr s) :
    Inv 0 s :=
  h.invariant (.boot outside) fun _ _ hs hinv => hinv.step hs

end Xv6Mlfq.ExitWait
