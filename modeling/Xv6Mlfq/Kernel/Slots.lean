import Xv6Mlfq.Kernel.Dispatch
import Xv6Mlfq.Kernel.Lemmas.Slots
import Xv6Mlfq.Kernel.RunQueue

/-!
# Clean process slots

`allocproc` sets the number, the state and the level of the slot it takes. Everything else in a new process is
what the UNUSED slot held.
-/

namespace Xv6Mlfq.Kernel

open Access Queue Runs

variable {idle : Idle} {m m' : Machine} {e : Event} {L : Fifos} {k k' : State} {p i : Slot} {n : Nat} {pid : Int}
  {outside : QTable} {tr : List (Transition Machine Event)}

/-! ## The slots that `allocproc` returns -/

/-- A slot as `freeproc` leaves it. -/
structure Proc.Vacant (p : Proc) : Prop where
  state : p.state = .unused
  pid : p.pid = 0
  parent : p.parent = none
  chan : p.chan = none
  killed : p.killed = false
  xstate : p.xstate = 0
  nice : p.nice = 0
  runtime : p.runtime = 0
  queue : p.queue = 0

/-- `allocproc` has returned slot `i`; `n` slots have been taken before. -/
structure Fresh (k : State) (i : Slot) (n : Nat) : Prop where
  state : (k.proc i).state = .used
  killed : (k.proc i).killed = false
  chan : (k.proc i).chan = none
  xstate : (k.proc i).xstate = 0
  nice : (k.proc i).nice = 0
  runtime : (k.proc i).runtime = 0
  queue : (k.proc i).queue = QUEUE_MEDIUM
  unlinked : ∃ L, Holds k.qtable L ∧ L.Free i
  pid : n < 2 ^ 31 → ∀ j, j ≠ i → (k.proc j).pid ≠ (k.proc i).pid

/-- A fork has taken slot `i` in `k` and given it back. -/
structure Returned (k k' : State) (i : Slot) : Prop where
  vacant : (k'.proc i).Vacant
  unlinked : ∃ L, Holds k'.qtable L ∧ L.Free i
  others : ∀ j, j ≠ i → k'.proc j = k.proc j
  qtable : k'.qtable = k.qtable

/-- What a creation that succeeds returns, and what a fork that fails leaves. -/
structure Clean (k : State) (n : Nat) : Prop where
  fresh : ∀ trapframe pagetable i k', allocproc k trapframe pagetable = (some i, k') → Fresh k' i n
  returned : ∀ p trapframe pagetable copy i, freeSlot k = some i →
    ¬ (trapframe = true ∧ pagetable = true ∧ copy = true) → Returned k (fork k p trapframe pagetable copy).2 i

/-! ## The history of a run -/

/-- The step is a fork that allocates a slot; it may still fail. -/
def Allocates (x : Transition Machine Event) : Prop := x.event.isFork ∧ (freeSlot x.pre.kernel).isSome

instance (x : Transition Machine Event) : Decidable (Allocates x) := inferInstanceAs (Decidable (_ ∧ _))

/-- The slots taken so far, that of the first process included. -/
def taken (tr : List (Transition Machine Event)) : Nat := 1 + tr.countP fun x => Allocates x

/-- The step is a `kill` whose search ends in an UNUSED slot. -/
def Strikes (x : Transition Machine Event) : Prop :=
  ∃ pid i, x.event = .kill pid ∧ findSlot (fun j => (x.pre.kernel.proc j).pid = pid) = some i ∧
    (x.pre.kernel.proc i).state = .unused

/-! ## Process numbers -/

/-- One of the numbers that `allocpid` has given out in `n` calls, or 0. -/
def Issued (n : Nat) (pid : Int) : Prop := pid = 0 ∨ ∃ j : Nat, 1 ≤ j ∧ j ≤ n ∧ pid = int32 j

theorem Issued.succ (h : Issued n pid) : Issued (n + 1) pid := by
  rcases h with h | ⟨j, hj, hle, h⟩
  · exact .inl h
  · exact .inr ⟨j, hj, by omega, h⟩

theorem Issued.last (n : Nat) : Issued (n + 1) (int32 ((n : Int) + 1)) :=
  .inr ⟨n + 1, by omega, le_rfl, by push_cast; rfl⟩

theorem Issued.ne_next (h : Issued n pid) (hn : n < 2 ^ 31) : pid ≠ int32 ((n : Int) + 1) := by
  rcases h with h | ⟨j, hj, hle, h⟩
  · rw [h]
    simp only [int32, Int.bmod_def]
    omega
  · rw [h, int32_eq_self (by omega) (by omega)]
    simp only [int32, Int.bmod_def]
    omega

/-! ## One step -/

/-- The slot holds the same process. -/
structure Proc.Remains (p p' : Proc) : Prop where
  pid : p'.pid = p.pid
  unused : p'.state = .unused ↔ p.state = .unused
  idle : p.state = .unused → p.parent = none → p' = p

theorem Proc.Steady.remains {p p' : Proc} (h : p.Steady p') : p.Remains p' := ⟨h.pid, h.unused, h.idle⟩

theorem Proc.Remains.trans {p p' p'' : Proc} (h : p.Remains p') (h' : p'.Remains p'') : p.Remains p'' where
  pid := h'.pid.trans h.pid
  unused := h'.unused.trans h.unused
  idle hu hp := by
    have he := h.idle hu hp
    rw [he] at h'
    rw [h'.idle hu hp]

theorem Proc.Remains.of_used {p p' : Proc} (hpid : p'.pid = p.pid) (hu : p.state ≠ .unused) (hu' : p'.state ≠ .unused) :
    p.Remains p' := ⟨hpid, iff_of_false hu' hu, fun h => absurd h hu⟩

theorem chargeTick_remains (hu : (k.proc p).state ≠ .unused) (i : Slot) :
    (k.proc i).Remains ((chargeTick k p).proc i) := by
  rw [chargeTick_proc hu]
  split_ifs with hi hs
  · subst hi
    exact .of_used rfl hu (by simp [Proc.demoted, Proc.charged])
  · subst hi
    exact .of_used rfl hu (by simp [Proc.charged])
  · exact (Proc.Steady.refl _).remains

theorem boost_remains (hp : (k.proc p).state = .runnable) (i : Slot) : (k.proc i).Remains ((boost k p).proc i) := by
  rw [boost_proc hp]
  split_ifs with hr
  · exact .of_used rfl (by simp [hr]) (by simp [Proc.boosted, hr])
  · exact (Proc.Steady.refl _).remains

theorem yield_remains (hu : (k.proc p).state ≠ .unused) (i : Slot) : (k.proc i).Remains ((yield k p).proc i) := by
  rw [yield_eq]
  split_ifs with hdue
  · exact (chargeTick_remains hu i).trans (boost_remains (chargeTick_self hu) i)
  · exact chargeTick_remains hu i

theorem chargeTick_nextpid (hu : (k.proc p).state ≠ .unused) : (chargeTick k p).nextpid = k.nextpid := by
  rw [chargeTick_eq hu]
  split_ifs
  · rfl
  · rfl

theorem logBoost_nextpid (k : State) : (logBoost k).nextpid = k.nextpid := by
  unfold logBoost
  split_ifs
  · rfl
  · rfl

theorem yield_nextpid (hu : (k.proc p).state ≠ .unused) : (yield k p).nextpid = k.nextpid := by
  rw [yield_eq]
  split_ifs with hdue
  · rw [boost_eq (chargeTick_self hu)]
    dsimp only
    rw [logBoost_nextpid, chargeTick_nextpid hu]
  · exact chargeTick_nextpid hu

theorem atYield_remains (hL : Coherent m L) (hy : atYield m e = some (p, k)) :
    (k.proc p).state ≠ .unused ∧ (∀ i, (m.kernel.proc i).Remains (k.proc i)) ∧ k.nextpid = m.kernel.nextpid := by
  have htick : m.cproc = some p → m.kernel.Steady k →
      (k.proc p).state ≠ .unused ∧ (∀ i, (m.kernel.proc i).Remains (k.proc i)) ∧ k.nextpid = m.kernel.nextpid :=
    fun hc hs => ⟨mt (hs.slots p).unused.mp (hL.queued.not_unused hc), fun i => (hs.slots i).remains, hs.nextpid⟩
  cases atYield_yielding hy with
  | usertrap hc hkill => exact htick hc (.tick ..)
  | kerneltrap hc => exact htick hc (.tick ..)
  | nice hc inc =>
      have hu := hL.queued.not_unused hc
      refine ⟨by simpa [sysNice] using hu, fun i => ?_, rfl⟩
      by_cases hi : i = p
      · subst hi
        exact .of_used (by simp [sysNice]) hu (by simpa [sysNice] using hu)
      · simp only [sysNice, State.modify_proc_of_ne hi]
        exact (Proc.Steady.refl _).remains

theorem yield_step (hL : Coherent m L) (hy : atYield m e = some (p, k)) (he : step idle e m = some m') :
    (∀ i, (m.kernel.proc i).Remains (m'.kernel.proc i)) ∧ m'.kernel.nextpid = m.kernel.nextpid := by
  obtain ⟨hu, hremains, hnext⟩ := atYield_remains hL hy
  rw [step_of_atYield hy he]
  exact ⟨fun i => (hremains i).trans (yield_remains hu i), (yield_nextpid hu).trans hnext⟩

/-! ## The invariant -/

/-- The numbers of `n` processes have been given out. -/
structure Numbered (k : State) (n : Nat) : Prop where
  nextpid : k.nextpid = int32 ((n : Int) + 1)
  issued : ∀ i, Issued n (k.proc i).pid

/-- Every UNUSED slot is as `freeproc` leaves it. -/
def Vacancies (k : State) : Prop := ∀ i, (k.proc i).state = .unused → (k.proc i).Vacant

theorem Numbered.of_eq (h : Numbered k n) (hp : ∀ i, (k'.proc i).pid = (k.proc i).pid)
    (hn : k'.nextpid = k.nextpid) : Numbered k' n := ⟨hn.trans h.nextpid, fun i => by rw [hp]; exact h.issued i⟩

theorem Numbered.freed (h : Numbered k n) (i : Slot) : Numbered (k.modify i freeproc) n where
  nextpid := h.nextpid
  issued j := by
    rw [State.modify_proc]
    split_ifs
    · exact .inl rfl
    · exact h.issued j

theorem Numbered.allocpid (h : Numbered k n) : Numbered k.allocpid (n + 1) where
  nextpid := by
    have hnext : k.allocpid.nextpid = int32 (k.nextpid + 1) := rfl
    rw [hnext, h.nextpid, int32_succ]
    push_cast
    rfl
  issued i := (h.issued i).succ

theorem Numbered.created (h : Numbered k n) {f : Proc → Proc} (hf : (f (k.proc i)).pid = k.nextpid) :
    Numbered (k.allocpid.modify i f) (n + 1) where
  nextpid := h.allocpid.nextpid
  issued j := by
    rw [State.modify_proc]
    split_ifs with hj
    · subst hj
      have hpid : (f (k.allocpid.proc j)).pid = int32 ((n : Int) + 1) := hf.trans h.nextpid
      rw [hpid]
      exact Issued.last n
    · exact h.allocpid.issued j

def allocates (x : Transition Machine Event) : Nat := if Allocates x then 1 else 0

theorem allocates_of_not_fork (hf : e.isFork = false) : allocates ⟨m, e, m'⟩ = 0 := by
  simp [allocates, Allocates, hf]

theorem Numbered.step (h : Numbered m.kernel n) (hL : Coherent m L) (he : step idle e m = some m') :
    Numbered m'.kernel (n + allocates ⟨m, e, m'⟩) := by
  cases hy : atYield m e with
  | some pk =>
      obtain ⟨p, k⟩ := pk
      have hf : e.isFork = false := by
        cases atYield_yielding hy with
        | _ => rfl
      obtain ⟨hremains, hnext⟩ := yield_step hL hy he
      rw [allocates_of_not_fork hf]
      exact h.of_eq (fun i => (hremains i).pid) hnext
  | none =>
      cases hf : e.isFork with
      | true =>
          cases e with
          | fork trapframe pagetable copy =>
              cases step_served hy (by simp) he with
              | @fork p hc =>
                  dsimp only
                  cases hfree : freeSlot m.kernel with
                  | none =>
                      rw [fork_full hfree, allocates, if_neg (by simp [Allocates, hfree])]
                      exact h
                  | some i =>
                      rw [allocates, if_pos (by simp [Allocates, Event.isFork, hfree])]
                      by_cases hall : trapframe = true ∧ pagetable = true ∧ copy = true
                      · obtain ⟨rfl, rfl, rfl⟩ := hall
                        rw [fork_created hfree]
                        have hnew := h.created (i := i) (f := Proc.forked m.kernel.nextpid p) rfl
                        exact hnew.of_eq (fun i => rfl) rfl
                      · rw [fork_failed hfree p hall]
                        exact h.allocpid.freed i
          | _ => cases hf
      | false =>
          rw [allocates_of_not_fork hf]
          cases step_changed hL hy he with
          | steady hs => exact h.of_eq (fun i => (hs.slots i).pid) hs.nextpid
          | freed i hz hk => rw [hk]; exact h.freed i
          | failed i hf' => rw [hf] at hf'; cases hf'
          | created i p hf' => rw [hf] at hf'; cases hf'
          | slain i pid he' hi hu hk =>
              refine h.of_eq (fun j => ?_) (by rw [hk]; rfl)
              rw [hk, State.modify_proc]
              split_ifs with hj
              · rw [hj]; rfl
              · rfl
          | stray i hu hp hn =>
              refine h.of_eq (fun j => ?_) hn
              rw [hp, State.modify_proc]
              split_ifs with hj
              · rw [hj]; rfl
              · rfl

theorem Proc.Vacant.remains {p p' : Proc} (h : p.Vacant) (hr : p.Remains p') : p'.Vacant := by
  rw [hr.idle h.state h.parent]
  exact h

theorem freeproc_vacant (p : Proc) : (freeproc p).Vacant := ⟨rfl, rfl, rfl, rfl, rfl, rfl, rfl, rfl, rfl⟩

/-- UNUSED slots stay clean but for a `kill` that strikes one. -/
theorem Vacancies.step (h : Vacancies m.kernel) (hL : Coherent m L) (he : step idle e m = some m')
    (hx : ¬ Strikes ⟨m, e, m'⟩) : Vacancies m'.kernel := by
  intro i hu'
  cases hy : atYield m e with
  | some pk =>
      obtain ⟨p, k⟩ := pk
      have hremains := (yield_step hL hy he).1 i
      exact (h i (hremains.unused.mp hu')).remains hremains
  | none =>
      have hupdate : ∀ (j : Slot) (f : Proc → Proc), m'.kernel.proc = (m.kernel.modify j f).proc →
          ((f (m.kernel.proc j)).state = .unused → (f (m.kernel.proc j)).Vacant) → (m'.kernel.proc i).Vacant := by
        intro j f hk hf
        rw [hk, State.modify_proc] at hu' ⊢
        split_ifs at hu' ⊢ with hi
        · rw [hi] at hu' ⊢
          exact hf hu'
        · exact h i hu'
      cases step_changed hL hy he with
      | steady hs => exact (h i ((hs.slots i).unused.mp hu')).remains (hs.slots i).remains
      | freed j hz hk => exact hupdate j freeproc (by rw [hk]) fun _ => freeproc_vacant _
      | failed j hf hj hk => exact hupdate j freeproc (by rw [hk]; rfl) fun _ => freeproc_vacant _
      | created j p hf hj hk =>
          exact hupdate j (Proc.forked m.kernel.nextpid p) (by rw [hk]; rfl) fun hu => by simp [Proc.forked] at hu
      | slain j pid he' hj hu hk => exact absurd ⟨pid, j, he', hj, hu⟩ hx
      | stray j hu hp hn => exact hupdate j Proc.dispatched hp fun hu => by simp [Proc.dispatched] at hu

/-! ## Creation -/

theorem Proc.Vacant.priority {p : Proc} (h : p.Vacant) : priority p = QUEUE_MEDIUM := by
  unfold Kernel.priority
  rw [h.nice]
  rfl

theorem Vacancies.fresh (h : Vacancies k) (hn : Numbered k n) {held cur : Slot → Prop} (hL : Queued k held cur L)
    (hi : freeSlot k = some i) : Fresh (k.allocpid.modify i (Proc.allocated k.nextpid)) i n := by
  have hu := freeSlot_unused hi
  have hv := h i hu
  have hfree := hL.free_of_ne (i := i) (by simp [hu])
  have hself : (k.allocpid.modify i (Proc.allocated k.nextpid)).proc i = (k.proc i).allocated k.nextpid :=
    State.modify_proc_self
  refine ⟨?_, ?_, ?_, ?_, ?_, ?_, ?_, ⟨L, hL.represents.holds, hfree⟩, fun hlt j hj => ?_⟩
  · rw [hself]; rfl
  · rw [hself]; exact hv.killed
  · rw [hself]; exact hv.chan
  · rw [hself]; exact hv.xstate
  · rw [hself]; exact hv.nice
  · rw [hself]; exact hv.runtime
  · rw [hself]; exact hv.priority
  · rw [hself, State.modify_proc_of_ne hj]
    have hpid : ((k.proc i).allocated k.nextpid).pid = int32 ((n : Int) + 1) := hn.nextpid
    rw [hpid]
    exact (hn.issued j).ne_next hlt

theorem Queued.returned {held cur : Slot → Prop} (hL : Queued k held cur L) (hi : freeSlot k = some i) :
    Returned k (k.allocpid.modify i freeproc) i := by
  have hfree := hL.free_of_ne (i := i) (by simp [freeSlot_unused hi])
  refine ⟨?_, ⟨L, hL.represents.holds, hfree⟩, fun j hj => State.modify_proc_of_ne hj, rfl⟩
  rw [State.modify_proc_self]
  exact freeproc_vacant _

theorem Vacancies.clean (h : Vacancies k) (hn : Numbered k n) {held cur : Slot → Prop} (hL : Queued k held cur L) :
    Clean k n where
  fresh trapframe pagetable i k' he := by
    cases hfree : freeSlot k with
    | none =>
        rw [allocproc_full hfree] at he
        cases he
    | some j =>
        by_cases hall : trapframe = true ∧ pagetable = true
        · obtain ⟨rfl, rfl⟩ := hall
          rw [allocproc_taken hfree] at he
          cases he
          exact h.fresh hn hL hfree
        · rw [allocproc_failed hfree hall] at he
          cases he
  returned p trapframe pagetable copy i hi hno := by
    rw [fork_failed hi p hno]
    exact hL.returned hi

/-- The slot that a `kill` strikes is the one that the next process gets. -/
theorem Strikes.freeSlot (hv : Vacancies m.kernel) (he : Kernel.step idle e m = some m')
    (hx : Strikes ⟨m, e, m'⟩) :
    ∃ i, Kernel.freeSlot m'.kernel = some i ∧ (m'.kernel.proc i).killed = true := by
  obtain ⟨pid, i, rfl, hfind, hu⟩ := hx
  dsimp only at hfind hu
  have hpid : pid = 0 := by
    have hi : (m.kernel.proc i).pid = pid := by simpa using findSlot_some hfind
    exact hi.symm.trans (hv i hu).pid
  -- the slots before `i` have another number, so they are not UNUSED
  have hfree : Kernel.freeSlot m.kernel = some i := by
    obtain ⟨-, as, bs, hslots, has⟩ := List.find?_eq_some_iff_append.mp hfind
    refine List.find?_eq_some_iff_append.mpr ⟨decide_eq_true hu, as, bs, hslots, fun j hj => ?_⟩
    have hne : (m.kernel.proc j).pid ≠ pid := by simpa using has j hj
    have hused : (m.kernel.proc j).state ≠ .unused := fun hj' => hne ((hv j hj').pid.trans hpid.symm)
    simpa using hused
  have hstate : ∀ j, ((m.kernel.modify i Proc.slain).proc j).state = (m.kernel.proc j).state := by
    intro j
    rw [State.modify_proc]
    split_ifs with hj
    · rw [hj]; rfl
    · rfl
  cases step_served rfl (by simp) he with
  | kill hc =>
      refine ⟨i, ?_, ?_⟩
      · dsimp only
        rw [kill_slain hfind (by simp [hu])]
        simp only [Kernel.freeSlot, hstate]
        exact hfree
      · dsimp only
        rw [kill_slain hfind (by simp [hu]), State.modify_proc_self]
        rfl

/-! ## Every run -/

theorem boot_clean (outside : QTable) : Numbered (boot outside).kernel 1 ∧ Vacancies (boot outside).kernel := by
  have hstart : Numbered (procinit (static outside)) 0 := ⟨rfl, fun i => .inl rfl⟩
  constructor
  · have hnew := hstart.created (i := 0) (f := Proc.awake ∘ Proc.allocated 1) rfl
    refine hnew.of_eq (fun i => by rw [boot_proc]) ?_
    simp only [boot, userinit, allocproc_taken (static_freeSlot outside)]
    rfl
  · intro i hu
    rw [boot_proc, State.modify_proc] at hu ⊢
    split_ifs at hu ⊢
    · simp [Proc.awake] at hu
    · exact ⟨rfl, rfl, rfl, rfl, rfl, rfl, rfl, rfl, rfl⟩

theorem taken_snoc (tr : List (Transition Machine Event)) (x : Transition Machine Event) :
    taken (tr ++ [x]) = taken tr + allocates x := by
  simp [taken, allocates, List.countP_append, List.countP_cons, add_assoc]

theorem Numbered.run (h : Run (Kernel.step idle) (boot outside) tr m) : Numbered m.kernel (taken tr) := by
  induction h with
  | nil => exact (boot_clean outside).1
  | snoc h he ih =>
      obtain ⟨L, hL⟩ := Coherent.run h
      rw [taken_snoc]
      exact ih.step hL he

theorem Vacancies.run (h : Run (Kernel.step idle) (boot outside) tr m) (hx : ∀ x ∈ tr, ¬ Strikes x) :
    Vacancies m.kernel := by
  induction h with
  | nil => exact (boot_clean outside).2
  | @snoc tr t e u h he ih =>
      obtain ⟨L, hL⟩ := Coherent.run h
      exact (ih fun x hx' => hx x (List.mem_append_left _ hx')).step hL he (hx ⟨t, e, u⟩ (by simp))

/-- A run in which slots are clean at all times. -/
def CleanThroughout (idle : Idle) (outside : QTable) (tr : List (Transition Machine Event)) : Prop :=
  ∀ tr₁ m₁, tr₁ <+: tr → Run (step idle) (boot outside) tr₁ m₁ → Clean m₁.kernel (taken tr₁)

theorem cleanThroughout_iff (h : Run (step idle) (boot outside) tr m) :
    CleanThroughout idle outside tr ↔ ∀ x ∈ tr, ¬ Strikes x := by
  constructor
  · intro hall
    induction h with
    | nil => exact fun x hx => absurd hx List.not_mem_nil
    | @snoc tr t e u h he ih =>
        have hbefore := ih fun tr₁ m₁ hp => hall tr₁ m₁ (hp.trans (List.prefix_append ..))
        intro x hx
        rcases List.mem_append.mp hx with hx | hx
        · exact hbefore x hx
        · obtain rfl := List.mem_singleton.mp hx
          intro hstrike
          obtain ⟨i, hfree, hkilled⟩ := hstrike.freeSlot (Vacancies.run h hbefore) he
          have hfresh := (hall _ u List.prefix_rfl (h.snoc he)).fresh true true i _ (allocproc_taken hfree)
          have hself := hfresh.killed
          rw [State.modify_proc_self] at hself
          have htrue : ((u.kernel.proc i).allocated u.kernel.nextpid).killed = true := hkilled
          exact absurd (hself.symm.trans htrue) (by decide)
  · intro hall tr₁ m₁ hinit h₁
    obtain ⟨L, hL⟩ := Coherent.run h₁
    exact (Vacancies.run h₁ fun x hx => hall x (hinit.subset hx)).clean (Numbered.run h₁) hL.queued

/-! ## The words behind `qtable` -/

/-- No iteration of the real scheduler finds the three lists empty. What it would write then behind `qtable`, where the
linker has put `proc`, is not modelled. -/
def StaysInTable (idle : Idle) (tr : List (Transition Machine Event)) : Prop :=
  idle = .asWritten → ∀ x ∈ tr, x.event = .schedule → FindsReady x.pre

theorem StaysInTable.earlier {tr₁ : List (Transition Machine Event)} (h : StaysInTable idle tr) (hp : tr₁ <+: tr) :
    StaysInTable idle tr₁ := fun hidle x hx => h hidle x (hp.subset hx)

/-- The scheduler that finds a process does as the comment of `dequeue` promises. -/
theorem scheduler_promised (h : idle = .asWritten → FindsReady m) : scheduler idle m = scheduler .asPromised m := by
  cases idle with
  | asPromised => rfl
  | asWritten =>
      by_cases hkick : m.kernel.pKicked = true
      · simp only [scheduler, if_pos hkick, h rfl hkick, and_false, if_false]
      · simp only [scheduler, if_neg hkick]

theorem step_promised (h : idle = .asWritten → e = .schedule → FindsReady m) : step idle e m = step .asPromised e m := by
  cases e with
  | schedule =>
      cases hc : m.cproc with
      | none => simpa only [step, atYield, hc] using scheduler_promised fun hidle => h hidle rfl
      | some p => simp only [step, atYield, hc]
  | _ =>
      cases hc : m.cproc with
      | none => simp only [step, hc]
      | some p => simp only [step, hc]

theorem run_promised (hin : StaysInTable idle tr) :
    Run (step idle) (boot outside) tr m ↔ Run (step .asPromised) (boot outside) tr m := by
  have hlast {tr t e u} (hin : StaysInTable idle (tr ++ [(⟨t, e, u⟩ : Transition Machine Event)])) :
      step idle e t = step .asPromised e t := step_promised fun hidle => hin hidle ⟨t, e, u⟩ (by simp)
  constructor
  · intro h
    induction h with
    | nil => exact .nil
    | snoc h he ih => exact (ih (hin.earlier (List.prefix_append ..))).snoc (hlast hin ▸ he)
  · intro h
    induction h with
    | nil => exact .nil
    | snoc h he ih => exact (ih (hin.earlier (List.prefix_append ..))).snoc ((hlast hin).trans he)

/-- Slots are clean at all times exactly if no `kill` ends its search in an UNUSED slot. -/
theorem slots_clean_iff (h : Run (step idle) (boot outside) tr m) (hin : StaysInTable idle tr) :
    CleanThroughout idle outside tr ↔ ∀ x ∈ tr, ¬ Strikes x := by
  rw [← cleanThroughout_iff ((run_promised hin).mp h)]
  exact forall₂_congr fun tr₁ m₁ => forall_congr' fun hp => imp_congr_left (run_promised (hin.earlier hp))

/-- The first process calls `kill(0)`: the process that gets slot 1 is born killed. -/
theorem slots_not_clean :
    ¬ ∀ idle outside tr m, Run (step idle) (boot outside) tr m → Clean m.kernel (taken tr) := by
  intro hall
  have hplay : (final (step .asWritten) (boot fun _ => 0) [.schedule, .kill 0]).any (fun m =>
      freeSlot m.kernel = some 1 ∧ (m.kernel.proc 1).killed = true) = true := by
    decide +kernel
  obtain ⟨tr, m, h, -, hm⟩ := Run.replay hplay
  obtain ⟨hfree, hkilled⟩ := of_decide_eq_true hm
  have hself := ((hall _ _ tr m h).fresh true true 1 _ (allocproc_taken hfree)).killed
  rw [State.modify_proc_self] at hself
  have htrue : ((m.kernel.proc 1).allocated m.kernel.nextpid).killed = true := hkilled
  exact absurd (hself.symm.trans htrue) (by decide)

/-- The first process forks, kills and reaps a child, and its slot is taken again. -/
theorem slots_clean_iff_reused :
    ∃ tr m, (m.kernel.proc 1).pid = 3 ∧ (m.kernel.proc 1).killed = false ∧
      Run (step .asWritten) (boot fun _ => 0) tr m ∧
      (CleanThroughout .asWritten (fun _ => 0) tr ↔ ∀ x ∈ tr, ¬ Strikes x) := by
  have hplay : (final (guarded (fun e m => decide (e = .schedule → FindsReady m)) (step .asWritten)) (boot fun _ => 0)
      [.schedule, .fork true true true, .kill 2, .wait true, .schedule, .usertrap, .schedule, .wait true,
        .fork true true true]).any
      (fun m => (m.kernel.proc 1).pid = 3 ∧ (m.kernel.proc 1).killed = false) = true := by
    decide +kernel
  obtain ⟨tr, m, h, -, hm⟩ := Run.replay hplay
  obtain ⟨hpid, hkilled⟩ := of_decide_eq_true hm
  obtain ⟨h, hready⟩ := h.of_guarded
  exact ⟨tr, m, hpid, hkilled, h, slots_clean_iff h fun _ x hx => of_decide_eq_true (hready x hx)⟩

end Xv6Mlfq.Kernel
