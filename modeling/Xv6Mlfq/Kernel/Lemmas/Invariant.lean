import Xv6Mlfq.Kernel.Lemmas.Queued
import Xv6Mlfq.Kernel.Lemmas.Steps

/-!
# The invariant of one hart

`Coherent m L` is the run queue of the machine `m`, and `Moved` says what a step can do to its lists.
-/

namespace Xv6Mlfq.Kernel

open Access Queue Runs

/-- The process that the scheduler is about to resume because `p_kicked` is clear. -/
def Machine.Kept (m : Machine) (i : Slot) : Prop := m.kernel.pKicked = false ∧ m.p = some i

structure Coherent (m : Machine) (L : Fifos) : Prop where
  queued : Queued m.kernel m.Kept (fun i => m.cproc = some i) L
  current : ∀ i, m.cproc = some i → m.p = some i ∧ m.kernel.pKicked = true
  kept : m.kernel.pKicked = false → ∃ i, m.p = some i

inductive Moved (idle : Idle) (m : Machine) (e : Event) (m' : Machine) (L L' : Fifos) : Prop
  | arrivals (hne : e ≠ .schedule) (h : Extends L L') (hcproc : ∀ i, m'.cproc = some i → m.cproc = some i)
  | boost {p k} (hy : atYield m e = some (p, k)) (hdue : boostDue k) (h : L' = boostLists m'.kernel)
      (hcproc : m'.cproc = none)
  | dequeue {q i xs t} (he : e = .schedule) (hkick : m.kernel.pKicked = true) (htop : L.Top q)
      (hL : L q = i :: xs) (h : L' = Function.update L q xs)
      (hm : m' = dispatch { m.kernel with qtable := t } i)
  | resume {i} (he : e = .schedule) (hkick : m.kernel.pKicked = false) (hp : m.p = some i) (h : L' = L)
      (hm : m' = dispatch m.kernel i)
  | rest (hidle : idle = .asPromised) (he : e = .schedule) (hL : ∀ q, L q = []) (h : L' = L) (hm : m' = m)
  | stray {i t} (he : e = .schedule) (hkick : m.kernel.pKicked = true) (hL : ∀ q, L q = []) (h : L' = L)
      (hm : m' = dispatch { m.kernel with qtable := t } i)

variable {idle : Idle} {m m' : Machine} {e : Event} {L : Fifos} {held cur : Slot → Prop} {k : State} {p : Slot}

/-! ## The steps that do not yield -/

/-- What a step that neither schedules nor yields leaves: the hart's variables, and longer lists. -/
structure Quiet (m m' : Machine) (held cur : Slot → Prop) (L : Fifos) : Prop where
  queued : ∃ L', Queued m'.kernel held (fun i => cur i ∧ (m.cproc = some i → m'.cproc = some i)) L' ∧ Extends L L'
  p : m'.p = m.p
  pKicked : m'.kernel.pKicked = m.kernel.pKicked
  cproc : ∀ i, m'.cproc = some i → m.cproc = some i

section Quiet

variable {L' : Fifos} {k' : State}

theorem Quiet.stay (h : Queued k' held cur L') (he : Extends L L') (hk : k'.pKicked = m.kernel.pKicked) :
    Quiet m { m with kernel := k' } held cur L :=
  ⟨⟨L', h.congr (fun _ => Iff.rfl) fun _ => and_iff_left id, he⟩, rfl, hk, fun _ => id⟩

theorem Quiet.leave (h : Queued k' held (fun i => cur i ∧ i ≠ p) L') (he : Extends L L')
    (hk : k'.pKicked = m.kernel.pKicked) (hp : m.cproc = some p) :
    Quiet m { m with kernel := k', cproc := none } held cur L := by
  refine ⟨⟨L', h.congr (fun _ => Iff.rfl) fun i => ?_, he⟩, rfl, hk, fun i hi => by cases hi⟩
  simp [hp, eq_comm]

end Quiet

/-- A step without a choice of the scheduler and without `yield` only appends to the lists. -/
theorem step_quiet (h : Queued m.kernel held cur L) (hcur : ∀ i, m.cproc = some i → cur i)
    (hne : e ≠ .schedule) (hy : atYield m e = none) (he : step idle e m = some m') :
    Quiet m m' held cur L := by
  cases step_served hy hne he with
  | @fork p hc trapframe pagetable copy =>
      obtain ⟨L', hq, hx⟩ := h.fork p trapframe pagetable copy
      exact .stay hq hx (SameGlobals.fork ..).pKicked
  | exit hc hk =>
      obtain ⟨L', hq, hx⟩ := h.exit (hcur _ hc) hk
      exact .leave hq hx (SameGlobals.exit hk).pKicked hc
  | @waited p k' r copyout hc hw =>
      rcases h.wait (hcur p hc) copyout with ⟨r', k₁, hw', hq⟩ | ⟨k₁, hw', hq⟩
      · cases hw.symm.trans hw'
        exact .stay hq (.refl L) (SameGlobals.wait hw).pKicked
      · cases hw.symm.trans hw'
  | @waiting p k' copyout hc hw =>
      rcases h.wait (hcur p hc) copyout with ⟨r', k₁, hw', hq⟩ | ⟨k₁, hw', hq⟩
      · cases hw.symm.trans hw'
      · cases hw.symm.trans hw'
        exact .leave hq (.refl L) (SameGlobals.wait hw).pKicked hc
  | sleep hc chan => exact .leave (h.sleep (hcur _ hc) chan) (.refl L) rfl hc
  | wakeup chan =>
      obtain ⟨L', hq, hx⟩ := h.wakeup m.cproc (some chan)
      exact .stay hq hx (SameGlobals.wakeup ..).pKicked
  | kill hc pid =>
      obtain ⟨L', hq, hx⟩ := h.kill pid
      exact .stay hq hx (SameGlobals.kill ..).pKicked
  | startlog hc => exact .stay (h.of_eq rfl rfl) (.refl L) rfl
  | @died p k' hc hkill hk =>
      obtain ⟨L₁, hq₁, hx₁⟩ := h.clockintr (some p)
      obtain ⟨L₂, hq₂, hx₂⟩ := hq₁.exit (hcur p hc) hk
      exact .leave hq₂ (hx₁.trans hx₂)
        ((SameGlobals.clockintr m.kernel (some p)).trans (SameGlobals.exit hk)).pKicked hc
  | tick =>
      obtain ⟨L', hq, hx⟩ := h.clockintr m.cproc
      exact .stay (hq.of_eq rfl rfl) hx (SameGlobals.clockintr ..).pKicked

/-! ## The steps that yield -/

theorem atYield_queued (h : Queued m.kernel held cur L) (hcur : ∀ i, m.cproc = some i → cur i)
    (hy : atYield m e = some (p, k)) :
    m.cproc = some p ∧ (k.pKicked = m.kernel.pKicked ∨ k.pKicked = true) ∧
      ∃ L', Queued k held cur L' ∧ Extends L L' := by
  cases atYield_yielding hy with
  | nice hc inc => exact ⟨hc, .inr rfl, L, h.sysNice (hcur _ hc) inc, .refl L⟩
  | usertrap hc hkill =>
      obtain ⟨L', hq, hx⟩ := h.clockintr m.cproc
      exact ⟨hc, .inl (SameGlobals.clockintr ..).pKicked, L', hq.of_eq rfl rfl, hx⟩
  | kerneltrap hc =>
      obtain ⟨L', hq, hx⟩ := h.clockintr m.cproc
      exact ⟨hc, .inl (SameGlobals.clockintr ..).pKicked, L', hq.of_eq rfl rfl, hx⟩

theorem Coherent.loop (hq : Queued k held (fun _ => False) L)
    (hheld : ∀ i, held i ↔ k.pKicked = false ∧ m.p = some i) (hp : k.pKicked = false → ∃ i, m.p = some i) :
    Coherent { m with kernel := k, cproc := none } L := by
  refine ⟨hq.congr (fun i => (hheld i).symm) fun i => ?_, fun i hi => ?_, hp⟩
  · exact iff_of_false (by simp) id
  · cases hi

theorem Coherent.yield (h : Coherent m L) (hy : atYield m e = some (p, k)) :
    ∃ L', Coherent { m with kernel := yield k p, cproc := none } L' ∧
      Moved idle m e { m with kernel := Kernel.yield k p, cproc := none } L L' := by
  obtain ⟨hc, hkick, L₁, hq, hx⟩ := atYield_queued h.queued (fun _ => id) hy
  obtain ⟨hp, hkick'⟩ := h.current p hc
  have hne : e ≠ .schedule := by rintro rfl; simp [atYield] at hy
  have hkicked : k.pKicked = true := hkick.elim (·.trans hkick') id
  have hcur : ∀ i, False ↔ m.cproc = some i ∧ i ≠ p := fun i =>
    iff_of_false id fun hi => hi.2 (Option.some.inj (hi.1.symm.trans hc))
  have hheld : ∀ i, ¬ m.Kept i := fun i hi => by simp [Machine.Kept, hkick'] at hi
  rw [yield_eq]
  by_cases hdue : boostDue k
  · rw [if_pos hdue]
    have hrun := hq.chargeTick_runnable hc
    have hpk : (Kernel.boost (chargeTick k p) p).pKicked = true := by rw [boost_eq hrun]
    have hcharged : ∃ held L, Queued (chargeTick k p) held (fun i => m.cproc = some i ∧ i ≠ p) L := by
      by_cases hs : (k.proc p).Spent
      · exact ⟨_, _, hq.spent hc hs⟩
      · exact ⟨_, _, hq.kept hc hs⟩
    obtain ⟨held, L₂, hq₂⟩ := hcharged
    have hlists : boostLists (chargeTick k p) = boostLists (Kernel.boost (chargeTick k p) p) :=
      (Queued.boostLists_boost hrun).symm
    refine ⟨_, .loop ((hq₂.boost hrun).congr (fun _ => Iff.rfl) hcur) (fun i => ?_) fun hf => ?_,
      .boost hy hdue ?_ rfl⟩
    · simp [hpk]
    · simp [hpk] at hf
    · dsimp only
      exact hlists
  · rw [if_neg hdue]
    by_cases hs : (k.proc p).Spent
    · have hpk : (chargeTick k p).pKicked = true := by
        rw [chargeTick_eq (hq.not_unused hc), if_pos hs]
        exact hkicked
      have hx₂ := hx.trans (.append L₁ (lower (k.proc p).queue) p)
      refine ⟨_, ?_, .arrivals hne hx₂ fun i hi => by cases hi⟩
      refine .loop ((hq.spent hc hs).congr (fun _ => Iff.rfl) hcur) (fun i => ?_) fun hf => ?_
      · simp [hpk, hheld i]
      · simp [hpk] at hf
    · have hpk : (chargeTick k p).pKicked = false := by
        rw [chargeTick_eq (hq.not_unused hc), if_neg hs]
      refine ⟨L₁, ?_, .arrivals hne hx fun i hi => by cases hi⟩
      refine .loop ((hq.kept hc hs).congr (fun _ => Iff.rfl) hcur) (fun i => ?_) fun _ => ⟨p, hp⟩
      simp [hpk, hp, hheld i, eq_comm]

/-! ## One iteration of the scheduler -/

theorem noneReady_iff {t : QTable} (h : Represents t L) : NoneReady t ↔ ∀ q, L q = [] :=
  forall_congr' fun q => by rw [h.firstid_lt_iff]; exact not_not

theorem scheduler_dequeued {t : QTable} {i : Slot} (hkick : m.kernel.pKicked = true)
    (hidle : ¬ (idle = .asPromised ∧ NoneReady m.kernel.qtable))
    (ht : dequeue.exec m.kernel.qtable = (some (i : Int), t)) :
    scheduler idle m = some (dispatch { m.kernel with qtable := t } i) := by
  have hi := slot_lt i
  have hne : ((i : Nat) : Int) ≠ EMPTY := by simp only [EMPTY]; omega
  have hrange : (0 : Int) ≤ ((i : Nat) : Int) ∧ ((i : Nat) : Int) < (NPROC : Nat) := by
    simp only [NPROC]; omega
  have hslot : ∀ hlt : ((i : Nat) : Int).toNat < NPROC, (⟨((i : Nat) : Int).toNat, hlt⟩ : Slot) = i :=
    fun _ => Fin.ext (Int.toNat_natCast _)
  simp only [scheduler, hkick, if_true, hidle, if_false, ht, hne, hrange, and_self, dite_true, hslot]

/-- The hart runs slot `i`, which is in no list. -/
theorem Coherent.dispatch {i : Slot} (hq : Queued k held (fun _ => False) L) (hfree : L.Free i)
    (hheld : ∀ j, held j → j = i) : Coherent (dispatch k i) L := by
  refine ⟨(hq.run hfree).congr (fun j => ?_) fun j => ?_, fun j hj => ?_, fun hf => ?_⟩
  · refine iff_of_false (fun hk => ?_) fun hj => hj.2 (hheld j hj.1)
    simp [Machine.Kept, Kernel.dispatch, run] at hk
  · simp [Kernel.dispatch, eq_comm]
  · exact ⟨hj, rfl⟩
  · simp [Kernel.dispatch, run] at hf

theorem Coherent.schedule (h : Coherent m L) (hc : m.cproc = none) (he : scheduler idle m = some m') :
    ∃ L', Coherent m' L' ∧ Moved idle m .schedule m' L L' := by
  have hq : Queued m.kernel m.Kept (fun _ => False) L :=
    h.queued.congr (fun _ => Iff.rfl) fun i => iff_of_false id (by simp [hc])
  by_cases hkick : m.kernel.pKicked = true
  · have hheld : ∀ i, ¬ m.Kept i := fun i hi => by simp [Machine.Kept, hkick] at hi
    by_cases hidle : idle = .asPromised ∧ NoneReady m.kernel.qtable
    · simp only [scheduler, hkick, if_true, hidle, and_self, Option.some.injEq] at he
      subst he
      exact ⟨L, h, .rest hidle.1 rfl ((Kernel.noneReady_iff h.queued.represents).mp hidle.2) rfl rfl⟩
    · by_cases hL : ∀ q, L q = []
      · rcases h.queued.represents.dequeue_idle h.queued.unlinked hL with ht | ⟨i, t, ht, hrep, hun⟩
        · simp [scheduler, hkick, hidle, ht] at he
        · rw [scheduler_dequeued hkick hidle ht] at he
          cases he
          have hq' : Queued { m.kernel with qtable := t } m.Kept (fun _ => False) L :=
            ⟨hrep, hun, hq.mem, hq.held, hq.running⟩
          exact ⟨L, .dispatch hq' (fun q => by simp [hL q]) fun j hj => absurd hj (hheld j),
            .stray rfl hkick hL rfl rfl⟩
      · obtain ⟨q, htop⟩ := Fifos.exists_top (not_forall.mp hL)
        obtain ⟨i, xs, hLq⟩ := List.exists_cons_of_ne_nil htop.1
        obtain ⟨t, ht, hq'⟩ := hq.dequeue htop hLq
        rw [scheduler_dequeued hkick hidle ht] at he
        cases he
        refine ⟨_, .dispatch hq' (hq'.free_of_held (.inr rfl)) fun j hj => ?_, .dequeue rfl hkick htop hLq rfl rfl⟩
        exact hj.resolve_left (hheld j)
  · have hkick' : m.kernel.pKicked = false := by simpa using hkick
    obtain ⟨i, hp⟩ := h.kept hkick'
    have hi : m.Kept i := ⟨hkick', hp⟩
    simp only [scheduler, hkick, hp, Option.map_some] at he
    cases he
    refine ⟨L, .dispatch hq (hq.free_of_held hi) fun j hj => ?_, .resume rfl hkick' hp rfl rfl⟩
    exact Option.some.inj (hj.2.symm.trans hp)

/-! ## Every step, and every run -/

theorem Coherent.step (h : Coherent m L) (he : step idle e m = some m') :
    ∃ L', Coherent m' L' ∧ Moved idle m e m' L L' := by
  cases hy : atYield m e with
  | some pk =>
      rw [step_of_atYield hy he]
      exact h.yield hy
  | none =>
      by_cases hne : e = .schedule
      · subst hne
        cases hc : m.cproc with
        | none => exact h.schedule hc ((step_schedule hc).symm.trans he)
        | some p => simp [Kernel.step, atYield, hc] at he
      · obtain ⟨⟨L', hq, hx⟩, hp, hk, hcp⟩ := step_quiet h.queued (fun _ => id) hne hy he
        refine ⟨L', ⟨hq.congr (fun i => ?_) fun i => ?_, fun i hi => ?_, fun hf => ?_⟩, .arrivals hne hx hcp⟩
        · rw [Machine.Kept, Machine.Kept, hk, hp]
        · exact ⟨fun hi => ⟨hcp i hi, fun _ => hi⟩, fun hi => hi.2 hi.1⟩
        · rw [hp, hk]; exact h.current i (hcp i hi)
        · rw [hp]; exact h.kept (hk ▸ hf)

theorem procinit_queued (outside : QTable) :
    Queued (procinit (static outside)) (fun _ => False) (fun _ => False) Fifos.empty := by
  have hblank : ∀ i : Slot, Blank (next (static outside).qtable i) ∧ Blank (prev (static outside).qtable i) := by
    intro i
    have hi : (i : Nat) < QTABLE_SIZE := slot_inTable i
    simp [static, next, prev, hi, Blank]
  refine ⟨initialize_represents _, .setup hblank, fun i q => ?_, fun i hi => hi.elim, fun i => ?_⟩
  · exact iff_of_false List.not_mem_nil fun hr => by simp [procinit, static, Proc.zero] at hr
  · exact iff_of_false (by simp [procinit, static, Proc.zero]) id

theorem userinit_queued (h : Queued k held cur L) : ∃ L', Queued (userinit k) held cur L' := by
  unfold userinit
  rcases allocproc_cases k true true with he | ⟨i, hi, he | he⟩
  · rw [he]; exact ⟨L, h⟩
  all_goals
    have hr : (k.proc i).state ≠ .runnable := by simp [hi]
    have hc : ¬ cur i := fun hcur => by simp [(h.running i).mpr hcur] at hi
    have h' : Queued k.allocpid held cur L := h.of_eq rfl rfl
    rw [he]
  · exact ⟨L, h'.dormant hr hc (by simp [freeproc]) (by simp [freeproc])⟩
  · have h'' := h'.dormant (f := Proc.allocated k.nextpid) hr hc (by simp [Proc.allocated])
      (by simp [Proc.allocated])
    have hinit : Queued { k.allocpid.modify i (Proc.allocated k.nextpid) with initproc := some i } held cur L :=
      h''.of_eq rfl rfl
    obtain ⟨L', hL', -⟩ := hinit.makeRunnable (i := i) (by simp [Proc.allocated]) hc
    exact ⟨L', hL'⟩

theorem userinit_pKicked (k : State) : (userinit k).pKicked = k.pKicked := by
  unfold userinit
  rcases allocproc_cases k true true with he | ⟨i, -, he | he⟩
  · rw [he]
  · rw [he]; rfl
  · rw [he]; rfl

theorem Coherent.boot (outside : QTable) : ∃ L, Coherent (boot outside) L := by
  obtain ⟨L, hL⟩ := userinit_queued (procinit_queued outside)
  have hkick : (userinit (procinit (static outside))).pKicked = true := userinit_pKicked _
  refine ⟨L, .loop (m := Kernel.boot outside) hL (fun i => ?_) fun hf => ?_⟩
  · exact iff_of_false id fun hi => by rw [hkick] at hi; simp at hi
  · rw [hkick] at hf; cases hf

theorem Coherent.run {outside : QTable} {tr : List (Transition Machine Event)}
    (h : Run (Kernel.step idle) (Kernel.boot outside) tr m) : ∃ L, Coherent m L :=
  h.invariant (I := fun m => ∃ L, Coherent m L) (Coherent.boot outside) fun _ _ he ⟨_, hL⟩ =>
    let ⟨L', hL', _⟩ := hL.step he
    ⟨L', hL'⟩

theorem Reachable.coherent (h : Reachable idle m) : ∃ L, Coherent m L := by
  obtain ⟨outside, tr, hrun⟩ := h
  exact Coherent.run hrun

end Xv6Mlfq.Kernel
