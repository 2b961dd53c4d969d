import Xv6Mlfq.Kernel.Lemmas.Invariant

/-!
# What the scheduler switches to

As long as an iteration that looks at the lists finds one that is not empty, the scheduler switches to
RUNNABLE processes only, and a sleeping process runs again only after it was woken or killed.
-/

namespace Xv6Mlfq.Kernel

open Access Queue Runs

variable {idle : Idle} {m m' : Machine} {e : Event} {L : Fifos} {k k' k'' : State} {p i : Slot} {c : Chan}

/-! ## Sleeping processes -/

def Asleep (k : State) (i : Slot) (c : Chan) : Prop :=
  (k.proc i).state = .sleeping ∧ (k.proc i).chan = some c

/-- Sleeping processes sleep on, or `W` has made them RUNNABLE. RUNNABLE processes stay so. -/
structure Rouses (W : Slot → Chan → Prop) (k k' : State) : Prop where
  asleep : ∀ i c, Asleep k i c → Asleep k' i c ∨ (k'.proc i).state = .runnable ∧ W i c
  runnable : ∀ i, (k.proc i).state = .runnable → (k'.proc i).state = .runnable

abbrev NoWake : Slot → Chan → Prop := fun _ _ => False

namespace Rouses

variable {W W' : Slot → Chan → Prop} {f : Proc → Proc}

theorem mono (h : Rouses W k k') (hW : ∀ i c, W i c → W' i c) : Rouses W' k k' :=
  ⟨fun i c hi => (h.asleep i c hi).imp_right fun hr => ⟨hr.1, hW i c hr.2⟩, h.runnable⟩

theorem trans (h : Rouses W k k') (h' : Rouses W k' k'') : Rouses W k k'' := by
  refine ⟨fun i c hi => ?_, fun i hi => h'.runnable i (h.runnable i hi)⟩
  rcases h.asleep i c hi with hi' | ⟨hr, hw⟩
  · exact h'.asleep i c hi'
  · exact .inr ⟨h'.runnable i hr, hw⟩

theorem of_proc (h : k'.proc = k.proc) : Rouses W k k' :=
  ⟨fun i c hi => .inl (by rw [Asleep, h]; exact hi), fun i hi => by rw [h]; exact hi⟩

theorem keep (hs : (f (k.proc p)).state = (k.proc p).state) (hc : (f (k.proc p)).chan = (k.proc p).chan) :
    Rouses W k (k.modify p f) := by
  have hproc : ∀ i, ((k.modify p f).proc i).state = (k.proc i).state ∧
      ((k.modify p f).proc i).chan = (k.proc i).chan := fun i => by
    rw [State.modify_proc]
    split_ifs with h
    · subst h; exact ⟨hs, hc⟩
    · exact ⟨rfl, rfl⟩
  exact ⟨fun i c hi => .inl (by rw [Asleep, (hproc i).1, (hproc i).2]; exact hi),
    fun i hi => (hproc i).1.trans hi⟩

theorem other (hs : (k.proc p).state ≠ .sleeping) (hr : (k.proc p).state ≠ .runnable) :
    Rouses W k (k.modify p f) := by
  refine ⟨fun i c hi => .inl ?_, fun i hi => ?_⟩
  · have hip : i ≠ p := fun he => hs (he ▸ hi.1)
    rw [Asleep, State.modify_proc_of_ne hip]
    exact hi
  · have hip : i ≠ p := fun he => hr (he ▸ hi)
    rw [State.modify_proc_of_ne hip]
    exact hi

theorem wakeup (k : State) (cur : Option Slot) (chan : Option Chan) :
    Rouses (fun _ c => some c = chan) k (wakeup k cur chan) := by
  refine ⟨fun i c hi => ?_, fun i hi => ?_⟩
  · by_cases hs : Sleeper cur chan i (k.proc i)
    · exact .inr ⟨by simp [hs, Proc.awake], hi.2.symm.trans hs.2.2⟩
    · exact .inl (by simpa [Asleep, hs] using hi)
  · have hs : ¬ Sleeper cur chan i (k.proc i) := fun hs => by simp [Sleeper, hi] at hs
    simpa [hs] using hi

theorem fork (k : State) (p : Slot) (trapframe pagetable copy : Bool) :
    Rouses NoWake k (fork k p trapframe pagetable copy).2 := by
  rcases fork_cases k p trapframe pagetable copy with he | ⟨i, hi, he | he⟩
  · rw [he]; exact of_proc rfl
  all_goals
    have hs : (k.allocpid.proc i).state ≠ .sleeping := by simp [State.allocpid, hi]
    have hr : (k.allocpid.proc i).state ≠ .runnable := by simp [State.allocpid, hi]
    have halloc : Rouses NoWake k k.allocpid := of_proc rfl
    rw [he]
  · exact halloc.trans (other hs hr)
  · exact (halloc.trans (other (f := Proc.forked k.nextpid p) hs hr)).trans (of_proc rfl)

theorem makeRunnable (k : State) (p : Slot) : Rouses (fun i _ => i = p) k (makeRunnable k p) := by
  refine ⟨fun i c hi => ?_, fun i hi => ?_⟩
  · by_cases hip : i = p
    · exact .inr ⟨by simp [makeRunnable_proc, hip, Proc.awake], hip⟩
    · exact .inl (by simpa [Asleep, makeRunnable_proc, hip] using hi)
  · by_cases hip : i = p
    · simp [makeRunnable_proc, hip, Proc.awake]
    · simpa [makeRunnable_proc, hip] using hi

theorem kill (k : State) (pid : Int) : Rouses (fun i _ => (k.proc i).pid = pid) k (kill k pid).2 := by
  rcases kill_cases k pid with he | ⟨i, hi, ⟨-, he⟩ | ⟨-, he⟩⟩
  · rw [he]; exact of_proc rfl
  · rw [he]; exact keep rfl rfl
  · rw [he]
    refine trans (keep rfl rfl) ((makeRunnable (k.modify i Proc.slain) i).mono ?_)
    rintro j - rfl
    simpa using findSlot_some hi

theorem adopt (k : State) (p i : Slot) :
    Rouses (fun _ c => some c = k.initproc.map .proc) k (adopt k p i) :=
  (keep (f := fun q => { q with parent := k.initproc }) rfl rfl).trans (wakeup _ (some p) _)

/-- `reparent` wakes init only, and changes parents to init only. -/
theorem reparent (k : State) (p : Slot) :
    Rouses (fun _ c => some c = k.initproc.map .proc) k (reparent k p) ∧
      ∀ i, ((k.proc i).state = .running → ((Kernel.reparent k p).proc i).state = .running) ∧
        (((Kernel.reparent k p).proc i).parent = (k.proc i).parent ∨
          ((Kernel.reparent k p).proc i).parent = k.initproc) := by
  refine (reparent_induction (I := fun k' => k'.initproc = k.initproc ∧
    Rouses (fun _ c => some c = k.initproc.map .proc) k k' ∧
      ∀ i, ((k.proc i).state = .running → (k'.proc i).state = .running) ∧
        ((k'.proc i).parent = (k.proc i).parent ∨ (k'.proc i).parent = k.initproc)) ?_ ?_).2
  · exact ⟨rfl, of_proc rfl, fun i => ⟨id, .inl rfl⟩⟩
  · rintro k' i ⟨hinit, hr, hp⟩ -
    have hwake : Rouses (fun _ c => some c = k.initproc.map .proc) k' (Kernel.adopt k' p i) := hinit ▸ adopt k' p i
    refine ⟨((SameGlobals.adopt k' p i).initproc).trans hinit, hr.trans hwake, fun j => ?_⟩
    obtain ⟨hrun, hpar⟩ := adopt_proc k' p i j
    refine ⟨fun hj => hrun ((hp j).1 hj), ?_⟩
    rcases hpar with hpar | hpar
    · rw [hpar]; exact (hp j).2
    · exact .inr (hpar.trans hinit)

theorem exit {status : Int} (hp : (k.proc p).state = .running) (he : exit k p status = some k') :
    Rouses (fun _ c => ∃ j, c = .proc j ∧ (k.initproc = some j ∨ (k.proc p).parent = some j)) k k' := by
  unfold Kernel.exit at he
  split_ifs at he
  cases he
  obtain ⟨hr, hkeep⟩ := reparent k p
  obtain ⟨hrun, hpar⟩ := hkeep p
  have hwake := wakeup (Kernel.reparent k p) (some p) (((Kernel.reparent k p).proc p).parent.map .proc)
  have hlast : ((Kernel.wakeup (Kernel.reparent k p) (some p)
      (((Kernel.reparent k p).proc p).parent.map .proc)).proc p).state = .running := by
    have hs : ¬ Sleeper (some p) (((Kernel.reparent k p).proc p).parent.map .proc) p
        ((Kernel.reparent k p).proc p) := fun hs => hs.1 rfl
    simpa [hs] using hrun hp
  refine trans (hr.mono fun i c hc => ?_) (trans (hwake.mono fun i c hc => ?_) (other ?_ ?_))
  · obtain ⟨j, hj, rfl⟩ := Option.map_eq_some_iff.mp hc.symm
    exact ⟨j, rfl, .inl hj⟩
  · obtain ⟨j, hj, rfl⟩ := Option.map_eq_some_iff.mp hc.symm
    exact ⟨j, rfl, hpar.symm.imp (fun h => h.symm.trans hj) fun h => h.symm.trans hj⟩
  · rw [hlast]
    simp
  · rw [hlast]
    simp

theorem sleep (hp : (k.proc p).state = .running) (c : Chan) : Rouses NoWake k (sleep k p c) :=
  other (by simp [hp]) (by simp [hp])

theorem wait {copyout : Bool} {r : Option Int} (hp : (k.proc p).state = .running)
    (he : wait k p copyout = (r, k')) : Rouses NoWake k k' := by
  rcases wait_cases k p copyout with ⟨r', h⟩ | ⟨i, -, hz, h⟩ | ⟨-, -, -, h⟩
  all_goals cases he.symm.trans h
  · exact of_proc rfl
  · exact other (by simp [hz]) (by simp [hz])
  · exact sleep hp (.proc p)

theorem chargeTick (hp : (k.proc p).state = .running) : Rouses NoWake k (chargeTick k p) := by
  rw [chargeTick_eq (by simp [hp])]
  split_ifs
  · exact (other (f := Proc.demoted) (by simp [hp]) (by simp [hp])).trans (of_proc rfl)
  · exact (other (f := Proc.charged) (by simp [hp]) (by simp [hp])).trans (of_proc rfl)

theorem boost (hp : (k.proc p).state = .runnable) : Rouses NoWake k (boost k p) := by
  have hproc : ∀ i, ((Kernel.boost k p).proc i).state = (k.proc i).state ∧
      ((Kernel.boost k p).proc i).chan = (k.proc i).chan := fun i => by
    rw [boost_eq hp]
    by_cases hi : (k.proc i).state = .runnable
    · simp [hi, Proc.boosted]
    · simp [hi]
  exact ⟨fun i c hi => .inl (by rw [Asleep, (hproc i).1, (hproc i).2]; exact hi),
    fun i hi => (hproc i).1.trans hi⟩

theorem yield (hp : (k.proc p).state = .running) (hr : ((Kernel.chargeTick k p).proc p).state = .runnable) :
    Rouses NoWake k (yield k p) := by
  rw [yield_eq]
  split_ifs
  · exact (chargeTick hp).trans (boost hr)
  · exact chargeTick hp

end Rouses

/-! ## What each step does to the sleeping processes -/

/-- The event is a reason for slot `i` to wake up from channel `c`. -/
inductive Woken (m : Machine) (i : Slot) : Event → Chan → Prop
  | wakeup {c : Chan} : Woken m i (.wakeup c) c
  | tick {e : Event} (he : e = .usertrap ∨ e = .kerneltrap) : Woken m i e .ticks
  | exit {e : Event} {p j : Slot} (he : (∃ status, e = .exit status) ∨ e = .usertrap) (hp : m.cproc = some p)
      (hj : m.kernel.initproc = some j ∨ (m.kernel.proc p).parent = some j) : Woken m i e (.proc j)
  | kill {pid : Int} {c : Chan} (hi : (m.kernel.proc i).pid = pid) : Woken m i (.kill pid) c

theorem clockintr_proc (k : State) (cur : Option Slot) (i : Slot) :
    (clockintr k cur).proc i = if Sleeper cur (some .ticks) i (k.proc i) then (k.proc i).awake else k.proc i :=
  wakeup_proc

theorem Rouses.clockintr (k : State) (cur : Option Slot) :
    Rouses (fun _ c => c = .ticks) k (clockintr k cur) := by
  have hticks : Rouses (fun _ c => c = .ticks) k { k with ticks := (k.ticks + 1) % 2 ^ 32 } := of_proc rfl
  exact hticks.trans ((wakeup _ cur (some .ticks)).mono fun _ _ hc => Option.some.inj hc)

theorem clockintr_running (hp : (k.proc p).state = .running) (cur : Option Slot) :
    ((clockintr k cur).proc p) = k.proc p := by
  have hs : ¬ Sleeper cur (some .ticks) p (k.proc p) := fun hs => by simp [Sleeper, hp] at hs
  rw [clockintr_proc, if_neg hs]

theorem Rouses.atYield (hrun : (m.kernel.proc p).state = .running) (hc : m.cproc = some p)
    (hy : atYield m e = some (p, k)) : Rouses (fun i c => Woken m i e c) m.kernel k := by
  cases e with
  | nice inc =>
      simp only [Kernel.atYield, hc, Option.map_some, Option.some.injEq, Prod.mk.injEq, true_and] at hy
      subst hy
      have hs : (m.kernel.proc p).state ≠ .sleeping := by simp [hrun]
      have hr : (m.kernel.proc p).state ≠ .runnable := by simp [hrun]
      simp only [sysNice, State.modify_modify]
      exact (other hs hr).trans (of_proc rfl)
  | usertrap =>
      simp only [Kernel.atYield, hc, Option.bind_some] at hy
      split_ifs at hy
      cases hy
      refine ((clockintr m.kernel (some p)).mono fun i c h => ?_).trans (of_proc rfl)
      subst h
      exact .tick (.inl rfl)
  | kerneltrap =>
      simp only [Kernel.atYield, hc, Option.bind_some] at hy
      split_ifs at hy
      cases hy
      refine ((clockintr m.kernel (some p)).mono fun i c h => ?_).trans (of_proc rfl)
      subst h
      exact .tick (.inr rfl)
  | _ => simp [Kernel.atYield] at hy

theorem Coherent.rouses (h : Coherent m L) (hne : e ≠ .schedule) (he : Kernel.step idle e m = some m') :
    Rouses (fun i c => Woken m i e c) m.kernel m'.kernel := by
  have hrun : ∀ p, m.cproc = some p → (m.kernel.proc p).state = .running := fun p => (h.queued.running p).mpr
  cases hy : Kernel.atYield m e with
  | some pk =>
      obtain ⟨p, k⟩ := pk
      obtain ⟨hc, -, L₁, hq, -⟩ := atYield_queued h.queued (fun _ => id) hy
      rw [step_of_atYield hy he]
      refine (Rouses.atYield (hrun p hc) hc hy).trans ((Rouses.yield ?_ ?_).mono fun _ _ => False.elim)
      · exact (hq.running p).mpr hc
      · exact hq.chargeTick_runnable hc
  | none =>
      cases step_served hy hne he with
      | fork hc trapframe pagetable copy => exact (Rouses.fork ..).mono fun _ _ => False.elim
      | exit hc hk =>
          refine (Rouses.exit (hrun _ hc) hk).mono ?_
          rintro i c ⟨j, rfl, hj⟩
          exact .exit (.inl ⟨_, rfl⟩) hc hj
      | waited hc hw | waiting hc hw => exact (Rouses.wait (hrun _ hc) hw).mono fun _ _ => False.elim
      | sleep hc chan => exact (Rouses.sleep (hrun _ hc) chan).mono fun _ _ => False.elim
      | wakeup chan =>
          refine (Rouses.wakeup m.kernel m.cproc (some chan)).mono fun i c hi => ?_
          obtain rfl := Option.some.inj hi
          exact .wakeup
      | kill hc pid => exact (Rouses.kill m.kernel pid).mono fun i c hi => .kill hi
      | startlog hc => exact .of_proc rfl
      | @died p k' hc hkill hk =>
          have hp := clockintr_running (hrun p hc) (some p)
          have hinit := (SameGlobals.clockintr m.kernel (some p)).initproc
          refine ((Rouses.clockintr m.kernel (some p)).mono fun i c hi => ?_).trans
            ((Rouses.exit (by rw [hp]; exact hrun p hc) hk).mono ?_)
          · subst hi
            exact .tick (.inl rfl)
          · rintro i c ⟨j, rfl, hj⟩
            rw [hp, hinit] at hj
            exact .exit (.inr rfl) hc hj
      | tick =>
          refine ((Rouses.clockintr m.kernel m.cproc).mono fun i c hi => ?_).trans (.of_proc rfl)
          subst hi
          exact .tick (.inr rfl)

/-! ## Dispatch -/

/-- The iteration `x` of the scheduler switches to slot `i`. -/
def Dispatches (x : Transition Machine Event) (i : Slot) : Prop :=
  x.event = .schedule ∧ x.post.cproc = some i

/-- An iteration in this state does not look at the lists, or finds one that is not empty. -/
def FindsReady (m : Machine) : Prop := m.kernel.pKicked = true → ¬ NoneReady m.kernel.qtable

instance (m : Machine) : Decidable (FindsReady m) := inferInstanceAs (Decidable (_ → _))

/-- The scheduler switches to RUNNABLE processes only. A process that sleeps has been made RUNNABLE by a
wakeup on its channel or a kill before it runs again. -/
structure DispatchSafe (tr : List (Transition Machine Event)) : Prop where
  runnable : ∀ x ∈ tr, ∀ i, Dispatches x i → (x.pre.kernel.proc i).state = .runnable
  woken : ∀ tr₁ x tr₂ y tr₃ i c, tr = tr₁ ++ x :: (tr₂ ++ y :: tr₃) → Asleep x.post.kernel i c →
    Dispatches y i → ∃ z ∈ tr₂, Asleep z.pre.kernel i c ∧ (z.post.kernel.proc i).state = .runnable ∧
      Woken z.pre i z.event c

theorem Coherent.noneReady_iff (h : Coherent m L) : NoneReady m.kernel.qtable ↔ ∀ q, L q = [] :=
  Kernel.noneReady_iff h.queued.represents

/-- An iteration switches to a RUNNABLE process exactly if it did not find all lists empty. -/
theorem Coherent.dispatched_iff (h : Coherent m L) (he : Kernel.step idle .schedule m = some m')
    (hi : m'.cproc = some i) : (m.kernel.proc i).state = .runnable ↔ FindsReady m := by
  obtain ⟨L', -, hmove⟩ := h.step he
  cases hmove with
  | arrivals hne => exact absurd rfl hne
  | boost hy => simp [Kernel.atYield] at hy
  | @dequeue q j xs t _ _ htop hL _ hm =>
      subst hm
      cases hi
      refine iff_of_true ((h.queued.mem i q).mp (by simp [hL])).1 fun _ hno => ?_
      exact htop.1 (h.noneReady_iff.mp hno q)
  | resume _ hkick hp _ hm =>
      subst hm
      cases hi
      exact iff_of_true (h.queued.held i ⟨hkick, hp⟩) fun hk => by simp [hkick] at hk
  | rest _ _ _ _ hm =>
      subst hm
      simp [Kernel.step, Kernel.atYield, hi] at he
  | stray _ hkick hL _ hm =>
      subst hm
      cases hi
      refine iff_of_false (fun hr => ?_) fun hf => hf hkick (h.noneReady_iff.mpr hL)
      have hmem := h.queued.mem_of_runnable hr fun hk => by simp [Machine.Kept, hkick] at hk
      simp [hL] at hmem

/-- With the real `dequeue`, every iteration that ends switches to some process. -/
theorem Coherent.dispatches (h : Coherent m L) (he : Kernel.step .asWritten .schedule m = some m') :
    ∃ i, m'.cproc = some i := by
  obtain ⟨L', -, hmove⟩ := h.step he
  cases hmove with
  | arrivals hne => exact absurd rfl hne
  | boost hy => simp [Kernel.atYield] at hy
  | rest hidle => cases hidle
  | dequeue _ _ _ _ _ hm => subst hm; exact ⟨_, rfl⟩
  | resume _ _ _ _ hm => subst hm; exact ⟨_, rfl⟩
  | stray _ _ _ _ hm => subst hm; exact ⟨_, rfl⟩

theorem Coherent.schedule_asleep (h : Coherent m L) (he : Kernel.step idle .schedule m = some m')
    (hready : FindsReady m) (hi : Asleep m.kernel i c) : Asleep m'.kernel i c := by
  have hother : ∀ {j t}, m' = Kernel.dispatch { m.kernel with qtable := t } j → Asleep m'.kernel i c := by
    intro j t hm
    have hj : (m.kernel.proc j).state = .runnable := (h.dispatched_iff he (by rw [hm]; rfl)).mpr hready
    have hij : i ≠ j := fun heq => by
      have hs := hi.1
      rw [heq, hj] at hs
      cases hs
    rw [Asleep, hm, dispatch_proc, if_neg hij]
    exact hi
  obtain ⟨L', -, hmove⟩ := h.step he
  cases hmove with
  | arrivals hne => exact absurd rfl hne
  | boost hy => simp [Kernel.atYield] at hy
  | rest _ _ _ _ hm => exact hm ▸ hi
  | dequeue _ _ _ _ _ hm => exact hother hm
  | resume _ _ _ _ hm => exact hother hm
  | stray _ _ _ _ hm => exact hother hm

theorem Coherent.woken (h : Coherent m L) (he : Kernel.step idle e m = some m')
    (hready : e = .schedule → FindsReady m) (hi : Asleep m.kernel i c) (hno : ¬ Asleep m'.kernel i c) :
    (m'.kernel.proc i).state = .runnable ∧ Woken m i e c := by
  by_cases hne : e = .schedule
  · subst hne
    exact absurd (h.schedule_asleep he (hready rfl) hi) hno
  · exact ((h.rouses hne he).asleep i c hi).resolve_left hno

/-! ## The result -/

theorem dispatch_safe_iff {outside : QTable} {tr : List (Transition Machine Event)}
    (h : Run (step .asWritten) (boot outside) tr m) :
    DispatchSafe tr ↔ ∀ x ∈ tr, x.event = .schedule → FindsReady x.pre := by
  have hcoh : ∀ {tr₁ x tr₂}, tr = tr₁ ++ x :: tr₂ → ∃ L, Coherent x.pre L := by
    rintro tr₁ x tr₂ rfl
    exact Coherent.run h.middle.1
  constructor
  · intro hsafe x hx hs
    obtain ⟨tr₁, tr₂, htr⟩ := List.append_of_mem hx
    obtain ⟨L, hL⟩ := hcoh htr
    have he := h.step_of_mem hx
    rw [hs] at he
    by_contra hno
    obtain ⟨i, hi⟩ := hL.dispatches he
    exact hno ((hL.dispatched_iff he hi).mp (hsafe.runnable x hx i ⟨hs, hi⟩))
  · intro hready
    have hrun : ∀ x ∈ tr, ∀ i, Dispatches x i → (x.pre.kernel.proc i).state = .runnable := by
      rintro x hx i ⟨hs, hi⟩
      obtain ⟨tr₁, tr₂, htr⟩ := List.append_of_mem hx
      obtain ⟨L, hL⟩ := hcoh htr
      have he := h.step_of_mem hx
      rw [hs] at he
      exact (hL.dispatched_iff he hi).mpr (hready x hx hs)
    refine ⟨hrun, ?_⟩
    rintro tr₁ x tr₂ y tr₃ i c rfl hasleep hy
    -- between `x` and `y` some step ends the sleep: `y` finds the process RUNNABLE
    obtain ⟨-, -, hrest⟩ := h.middle
    have hy' : y ∈ tr₁ ++ x :: (tr₂ ++ y :: tr₃) := by simp
    have hno : ¬ Asleep y.pre.kernel i c := fun ha => by
      have := hrun y hy' i hy
      rw [ha.1] at this
      cases this
    obtain ⟨z, hz, ha, hna⟩ := hrest.middle.1.exists_change (P := fun m => Asleep m.kernel i c) hasleep hno
    have hz' : z ∈ tr₁ ++ x :: (tr₂ ++ y :: tr₃) := by simp [hz]
    obtain ⟨tr₄, tr₅, htr⟩ := List.append_of_mem hz'
    obtain ⟨L, hL⟩ := hcoh htr
    exact ⟨z, hz, ha, hL.woken (h.step_of_mem hz') (hready z hz') ha hna⟩

/-- The only process sleeps, and the scheduler switches to it all the same. -/
theorem dispatch_unsafe : ¬ ∀ outside tr m, Run (step .asWritten) (boot outside) tr m → DispatchSafe tr := by
  intro hall
  have hplay : (final (step .asWritten) (boot fun _ => 0) [.schedule, .sleep (.other 0)]).any
      (fun m => (m.kernel.proc 0).state = .sleeping ∧
        (step .asWritten .schedule m).any fun m' : Machine => m'.cproc = some 0) = true := by
    decide +kernel
  obtain ⟨tr, m, h, -, hm⟩ := Run.replay hplay
  obtain ⟨hs, hany⟩ := of_decide_eq_true hm
  obtain ⟨m', he, hi⟩ := (Option.any_eq_true _ _).mp hany
  have hr := (hall _ _ _ (h.snoc he)).runnable ⟨m, .schedule, m'⟩ (by simp) 0 ⟨rfl, of_decide_eq_true hi⟩
  rw [hs] at hr
  cases hr

/-- A process sleeps on a channel, a device wakes it, and it runs again. -/
theorem dispatch_safe_iff_woken :
    ∃ m tr, Run (step .asWritten) (boot fun _ => 0) tr m ∧
      tr.map Transition.event = [.schedule, .sleep (.other 7), .wakeup (.other 7), .schedule] ∧
      (DispatchSafe tr ↔ ∀ x ∈ tr, x.event = .schedule → FindsReady x.pre) := by
  have hplay : (final (step .asWritten) (boot fun _ => 0)
      [.schedule, .sleep (.other 7), .wakeup (.other 7), .schedule]).any
        (fun m => m.cproc = some 0) = true := by
    decide +kernel
  obtain ⟨tr, m, h, he, -⟩ := Run.replay hplay
  exact ⟨m, tr, h, he, dispatch_safe_iff h⟩

end Xv6Mlfq.Kernel
