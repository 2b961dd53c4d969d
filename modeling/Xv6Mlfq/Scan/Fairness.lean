import Xv6Mlfq.Scan.Machine

/-!
# The scan is fair

A process that is ready stays ready until the scan comes to its slot, and the scan comes there before it sees any
other slot twice.
-/

namespace Xv6Mlfq.Scan

open Queue Runs
open Kernel (Chan ProcState findSlot)

variable {m m' : Machine} {e : Event} {k k' : State} {p q i : Slot} {tr tr' : List (Transition Machine Event)}

/-- The process is ready or runs. -/
def Live (k : State) (i : Slot) : Prop := (k.proc i).state = .runnable ∨ (k.proc i).state = .running

/-- Live processes other than `p` keep their state. -/
def Kept (p : Option Slot) (k k' : State) : Prop :=
  ∀ i, some i ≠ p → Live k i → (k'.proc i).state = (k.proc i).state

namespace Kept

variable {o : Option Slot}

theorem refl (o : Option Slot) (k : State) : Kept o k k := fun _ _ _ => rfl

theorem mono (h : Kept none k k') (o : Option Slot) : Kept o k k' := fun i _ hi => h i (Option.some_ne_none i) hi

theorem trans {k'' : State} (h : Kept o k k') (h' : Kept o k' k'') : Kept o k k'' := by
  intro i hi hlive
  have hstate := h i hi hlive
  exact (h' i hi (by rwa [Live, hstate])).trans hstate

/-- The process of one slot changes; it was not live, or keeps its state. -/
theorem modify (i : Slot) (f : Proc → Proc)
    (h : some i = o ∨ ¬ Live k i ∨ (f (k.proc i)).state = (k.proc i).state) : Kept o k (k.modify i f) := by
  intro j hj hlive
  by_cases hji : j = i
  · subst hji
    rcases h with h | h | h
    · exact absurd h hj
    · exact absurd hlive h
    · simpa [State.modify] using h
  · simp [State.modify, hji]

theorem foldl {f : State → Slot → State} (h : ∀ k i, Kept none k (f k i)) (is : List Slot) (k : State) :
    Kept none k (is.foldl f k) := by
  induction is generalizing k with
  | nil => exact refl none k
  | cons i is ih => exact (h k i).trans (ih (f k i))

theorem not_live_of_eq {st : ProcState} (h : (k.proc i).state = st) (hst : st ≠ .runnable ∧ st ≠ .running) :
    ¬ Live k i := by
  rintro (hr | hr)
  · exact hst.1 (h.symm.trans hr)
  · exact hst.2 (h.symm.trans hr)

theorem findSlot_some {test : Slot → Bool} (h : findSlot test = some i) : test i = true := List.find?_some h

theorem fork (k : State) (p : Slot) (trapframe pagetable copy : Bool) :
    Kept none k (fork k p trapframe pagetable copy).2 := by
  -- Only the slot that was free is written.
  have hwrite (np : Slot) (hnp : ¬ Live k np) (k' : State) (hk : ∀ j, j ≠ np → k'.proc j = k.proc j) :
      Kept none k k' := by
    intro j _ hlive
    rw [hk j fun heq => hnp (heq ▸ hlive)]
  unfold Scan.fork allocproc
  cases hfind : findSlot fun i => (k.proc i).state = .unused with
  | none => exact refl none k
  | some np =>
      have hnp : ¬ Live k np := not_live_of_eq (of_decide_eq_true (findSlot_some hfind)) (by simp)
      refine hwrite np hnp _ fun j hj => ?_
      cases trapframe with
      | false => simp [State.modify, hj]
      | true =>
          cases pagetable with
          | false => simp [State.modify, hj]
          | true =>
              cases copy with
              | false => simp [State.modify, hj]
              | true => simp [State.modify, hj]

theorem wakeup (k : State) (cur : Option Slot) (chan : Option Chan) : Kept none k (wakeup k cur chan) := by
  refine foldl (fun k i => ?_) _ k
  unfold wakeupSlot
  split_ifs with hcur hchan
  · exact modify i _ (.inr (.inl (not_live_of_eq hchan.1 (by simp))))
  · exact refl none k
  · exact refl none k

theorem clockintr (k : State) (cur : Option Slot) : Kept none k (clockintr k cur) :=
  wakeup { k with ticks := (k.ticks + 1) % 2 ^ 32 } cur _

theorem kill (k : State) (pid : Int) : Kept none k (kill k pid).2 := by
  unfold Scan.kill
  cases findSlot fun i => (k.proc i).pid = pid with
  | none => exact refl none k
  | some i =>
      dsimp only
      have hkilled : Kept none k (k.modify i fun p => { p with killed := true }) := modify i _ (.inr (.inr rfl))
      split_ifs with hsleep
      · exact hkilled.trans (modify i _ (.inr (.inl (not_live_of_eq hsleep (by simp)))))
      · exact hkilled

theorem reparent (k : State) (p : Slot) : Kept none k (reparent k p) := by
  refine foldl (fun k i => ?_) _ k
  unfold reparentSlot
  split_ifs
  · have hparent : Kept none k (k.modify i fun q => { q with parent := k.initproc }) := modify i _ (.inr (.inr rfl))
    exact hparent.trans (wakeup _ _ _)
  · exact refl none k

theorem exit {status : Int} (h : exit k p status = some k') : Kept (some p) k k' := by
  unfold Scan.exit at h
  split_ifs at h
  cases h
  exact ((reparent k p).trans (wakeup _ _ _)).mono (some p) |>.trans (modify p _ (.inl rfl))

theorem sleep (k : State) (p : Slot) (chan : Chan) : Kept (some p) k (sleep k p chan) := modify p _ (.inl rfl)

/-- `wait` returns, or puts the process to sleep. -/
theorem wait {copyout : Bool} {r : Option Int} (h : wait k p copyout = (r, k')) :
    Kept (some p) k k' ∧ (r.isSome → Kept none k k') := by
  unfold Scan.wait at h
  cases hfind : findSlot fun np => (k.proc np).parent = some p ∧ (k.proc np).state = .zombie with
  | none =>
      rw [hfind] at h
      dsimp only at h
      split_ifs at h
      · obtain ⟨rfl, rfl⟩ := Prod.mk.inj h
        exact ⟨refl _ k, fun _ => refl _ k⟩
      · obtain ⟨rfl, rfl⟩ := Prod.mk.inj h
        exact ⟨sleep k p _, fun hr => by cases hr⟩
  | some np =>
      have hzombie := of_decide_eq_true (findSlot_some hfind)
      have hfree : Kept none k (k.modify np freeproc) := modify np _ (.inr (.inl (not_live_of_eq hzombie.2 (by simp))))
      rw [hfind] at h
      dsimp only at h
      split_ifs at h
      · obtain ⟨rfl, rfl⟩ := Prod.mk.inj h
        exact ⟨refl _ k, fun _ => refl _ k⟩
      · obtain ⟨rfl, rfl⟩ := Prod.mk.inj h
        exact ⟨hfree.mono _, fun _ => hfree⟩

end Kept

/-! ## Every step -/

/-- A step of a process leaves the scan alone, and the other live processes; the process may leave the hart. -/
structure Stays (m m' : Machine) : Prop where
  p : m'.p = m.p
  kept : Kept m.cproc m.kernel m'.kernel
  cproc : m'.cproc = none ∨ m'.cproc = m.cproc ∧ Kept none m.kernel m'.kernel

theorem Stays.calls {o : Option Slot} (hc : m.cproc = o) (h : Kept none m.kernel k) : Stays m ⟨k, m.p, o⟩ :=
  ⟨rfl, h.mono _, .inr ⟨hc.symm, h⟩⟩

theorem Stays.leaves (h : Kept m.cproc m.kernel k) : Stays m { m with kernel := k, cproc := none } := ⟨rfl, h, .inl rfl⟩

theorem atYield_kept (hy : atYield m e = some (p, k)) : e ≠ .schedule ∧ m.cproc = some p ∧ Kept none m.kernel k := by
  cases e with
  | usertrap =>
      simp only [atYield, Option.bind_eq_some_iff] at hy
      obtain ⟨q, hq, hy⟩ := hy
      split_ifs at hy
      cases hy
      exact ⟨by simp, hq, .clockintr m.kernel m.cproc⟩
  | kerneltrap =>
      simp only [atYield, Option.bind_eq_some_iff] at hy
      obtain ⟨q, hq, hy⟩ := hy
      split_ifs at hy
      cases hy
      exact ⟨by simp, hq, .clockintr m.kernel m.cproc⟩
  | _ => cases hy

theorem step_stays (he : step e m = some m') :
    (e ≠ .schedule ∧ Stays m m') ∨ (e = .schedule ∧ m.cproc = none ∧ m' = scheduler m) := by
  unfold step at he
  cases hy : atYield m e with
  | some pk =>
      obtain ⟨p, k⟩ := pk
      obtain ⟨hne, hc, hkept⟩ := atYield_kept hy
      rw [hy] at he
      obtain rfl := Option.some.inj he
      have hyield : Kept m.cproc k (k.modify p fun p => { p with state := .runnable }) := .modify p _ (.inl hc.symm)
      exact .inl ⟨hne, .leaves ((hkept.mono m.cproc).trans hyield)⟩
  | none =>
      rw [hy] at he
      dsimp only at he
      cases hc : m.cproc with
      | none =>
          rw [hc] at he
          cases e with
          | wakeup chan =>
              obtain rfl := Option.some.inj he
              exact .inl ⟨by simp, Stays.calls hc (Kept.wakeup m.kernel none (some chan))⟩
          | kerneltrap =>
              obtain rfl := Option.some.inj he
              exact .inl ⟨by simp, Stays.calls hc (Kept.clockintr m.kernel none)⟩
          | schedule =>
              obtain rfl := Option.some.inj he
              exact .inr ⟨rfl, rfl, rfl⟩
          | _ => cases he
      | some p =>
          rw [hc] at he
          cases e with
          | fork trapframe pagetable copy =>
              obtain rfl := Option.some.inj he
              exact .inl ⟨by simp, Stays.calls hc (Kept.fork m.kernel p trapframe pagetable copy)⟩
          | exit status =>
              obtain ⟨k, hk, rfl⟩ := Option.map_eq_some_iff.mp he
              exact .inl ⟨by simp, .leaves (by rw [hc]; exact .exit hk)⟩
          | wait copyout =>
              cases hw : wait m.kernel p copyout with
              | mk r k =>
                  simp only [hw] at he
                  cases r with
                  | none =>
                      obtain rfl := Option.some.inj he
                      exact .inl ⟨by simp, .leaves (by rw [hc]; exact (Kept.wait hw).1)⟩
                  | some r =>
                      obtain rfl := Option.some.inj he
                      exact .inl ⟨by simp, Stays.calls hc ((Kept.wait hw).2 rfl)⟩
          | sleep chan =>
              obtain rfl := Option.some.inj he
              exact .inl ⟨by simp, .leaves (by rw [hc]; exact .sleep m.kernel p chan)⟩
          | wakeup chan =>
              obtain rfl := Option.some.inj he
              exact .inl ⟨by simp, Stays.calls hc (Kept.wakeup m.kernel (some p) (some chan))⟩
          | kill pid =>
              obtain rfl := Option.some.inj he
              exact .inl ⟨by simp, Stays.calls hc (Kept.kill m.kernel pid)⟩
          | nice inc =>
              obtain rfl := Option.some.inj he
              have hnice : Kept none m.kernel (sysNice m.kernel p inc).2 :=
                .modify p (fun p => { p with nice := _ }) (.inr (.inr rfl))
              exact .inl ⟨by simp, Stays.calls hc hnice⟩
          | startlog =>
              obtain rfl := Option.some.inj he
              have hlog : (sysStartlog m.kernel).2.proc = m.kernel.proc := by
                unfold sysStartlog
                split_ifs
                · rfl
                · rfl
              exact .inl ⟨by simp, Stays.calls hc fun i _ _ => by rw [hlog]⟩
          | getlog copyout =>
              obtain rfl := Option.some.inj he
              exact .inl ⟨by simp, rfl, .refl _ _, .inr ⟨rfl, .refl none m.kernel⟩⟩
          | usertrap =>
              obtain ⟨k, hk, rfl⟩ := Option.map_eq_some_iff.mp he
              have hclock : Kept (some p) m.kernel (clockintr m.kernel (some p)) := (Kept.clockintr _ _).mono _
              exact .inl ⟨by simp, .leaves (by rw [hc]; exact hclock.trans (.exit hk))⟩
          | kerneltrap =>
              obtain rfl := Option.some.inj he
              exact .inl ⟨by simp, Stays.calls hc (Kept.clockintr m.kernel (some p))⟩
          | schedule => cases he

/-! ## The distance of the scan -/

/-- How many slots the scan looks at before it comes to `q`. -/
def distance (p q : Slot) : Nat := (q + NPROC - p) % NPROC

theorem distance_lt (p q : Slot) : distance p q < NPROC := Nat.mod_lt _ (by decide)

theorem distance_nextSlot (h : p ≠ q) : distance (nextSlot p) q + 1 = distance p q := by
  have hne : (p : Nat) ≠ q := fun heq => h (Fin.ext heq)
  have hp : (p : Nat) < 64 := p.isLt
  have hq : (q : Nat) < 64 := q.isLt
  have hN : NPROC = 64 := rfl
  unfold distance nextSlot
  split_ifs with hlast
  · simp only [hN] at hlast ⊢
    omega
  · simp only [hN, Fin.val_zero] at hlast ⊢
    omega

/-! ## A process that waits -/

/-- The process on the hart runs. -/
def Running (m : Machine) : Prop := ∀ p, m.cproc = some p → (m.kernel.proc p).state = .running

theorem dispatch_proc (k : State) (p : Slot) :
    ((dispatch k p).kernel.proc p).state = .running ∧
      ∀ i, i ≠ p → ((dispatch k p).kernel.proc i).state = (k.proc i).state := by
  have hlog (k : State) (p : Slot) : (logDispatch k p).proc = k.proc := by
    unfold logDispatch
    split_ifs
    · rfl
    · rfl
  have hresume (r : Proc) : (sleepResume r).state = r.state := rfl
  constructor
  · simp [dispatch, run, State.modify, hresume, hlog]
  · intro i hi
    simp [dispatch, run, State.modify, hlog, hi]

theorem Running.step (hm : Running m) (he : Scan.step e m = some m') : Running m' := by
  intro p hp
  rcases step_stays he with ⟨-, hstays⟩ | ⟨-, hnone, rfl⟩
  · rcases hstays.cproc with hout | ⟨hin, hkept⟩
    · rw [hout] at hp
      cases hp
    · have hrun := hm p (hin ▸ hp)
      exact (hkept p (Option.some_ne_none p) (.inr hrun)).trans hrun
  · unfold scheduler at hp ⊢
    split_ifs at hp ⊢ with hready
    · obtain rfl := Option.some.inj hp
      exact (dispatch_proc _ _).1
    · exact absurd (hnone.symm.trans hp) (by simp)

theorem Running.run (h : Run Scan.step boot tr m) : Running m :=
  h.invariant (I := Running) (fun p hp => absurd hp (by simp [boot])) fun _ _ he hm => hm.step he

/-- The slots that the scan handed the hart to, in order. -/
def turns (tr : List (Transition Machine Event)) : List Slot :=
  tr.filterMap fun x => if x.event = .schedule then x.post.cproc else none

/-- The slots that the scan looked at. -/
def looks (tr : List (Transition Machine Event)) : Nat := tr.countP fun x => x.event = .schedule

/-- What a step leaves of a wait of `q`: the scan that looked at another slot is one slot nearer. -/
theorem waits_step (hm : Running m) (hq : (m.kernel.proc q).state = .runnable) (he : step e m = some m')
    (hno : m'.cproc ≠ some q) :
    (m'.kernel.proc q).state = .runnable ∧
      ((e ≠ .schedule ∧ m'.p = m.p) ∨
        (e = .schedule ∧ m.p ≠ q ∧ m'.p = nextSlot m.p ∧ (m'.cproc = none ∨ m'.cproc = some m.p))) := by
  have hfree : some q ≠ m.cproc := by
    intro hc
    have hrun := hm q hc.symm
    rw [hq] at hrun
    cases hrun
  rcases step_stays he with ⟨hne, hstays⟩ | ⟨hlook, hnone, rfl⟩
  · exact ⟨(hstays.kept q hfree (.inl hq)).trans hq, .inl ⟨hne, hstays.p⟩⟩
  · unfold scheduler at hno ⊢
    split_ifs at hno ⊢ with hready
    · have hpq : m.p ≠ q := fun heq => hno (congrArg some heq)
      refine ⟨((dispatch_proc m.kernel m.p).2 q hpq.symm).trans hq, .inr ⟨hlook, hpq, rfl, .inr rfl⟩⟩
    · have hpq : m.p ≠ q := fun heq => hready (heq ▸ hq)
      exact ⟨hq, .inr ⟨hlook, hpq, rfl, .inl hnone⟩⟩

/-- While a process that is ready has not had its turn, it stays ready, each slot the scan looks at brings the scan
one nearer, and nobody else has a second turn. -/
theorem ready_served (h : Run step boot tr m) (hq : (m.kernel.proc q).state = .runnable) (h' : Run step m tr' m')
    (hno : ∀ x ∈ tr', x.post.cproc ≠ some q) :
    (m'.kernel.proc q).state = .runnable ∧ looks tr' + distance m'.p q = distance m.p q ∧ (turns tr').Nodup ∧
      looks tr' < NPROC := by
  -- A slot that had its turn lies farther before `q` than the scan does now.
  suffices hwait : Running m' ∧ (m'.kernel.proc q).state = .runnable ∧ looks tr' + distance m'.p q = distance m.p q ∧
      (turns tr').Nodup ∧ ∀ i ∈ turns tr', distance m'.p q < distance i q by
    obtain ⟨-, hready, hlooks, hturns, -⟩ := hwait
    exact ⟨hready, hlooks, hturns, by have := distance_lt m.p q; omega⟩
  induction h' with
  | nil => exact ⟨Running.run h, hq, by simp [looks], by simp [turns], by simp [turns]⟩
  | @snoc tr' t e u _ he ih =>
      obtain ⟨hrunning, hready, hlooks, hturns, hfar⟩ := ih fun x hx => hno x (by simp [hx])
      obtain ⟨hready', hstep⟩ := waits_step hrunning hready he (hno ⟨t, e, u⟩ (by simp))
      refine ⟨hrunning.step he, hready', ?_⟩
      rcases hstep with ⟨hne, hp⟩ | ⟨rfl, hpq, hp, hturn⟩
      · have hl : looks (tr' ++ [⟨t, e, u⟩]) = looks tr' := by simp [looks, hne]
        have ht : turns (tr' ++ [⟨t, e, u⟩]) = turns tr' := by simp [turns, hne]
        rw [hl, ht, hp]
        exact ⟨hlooks, hturns, hfar⟩
      · have hnear := distance_nextSlot hpq
        have hl : looks (tr' ++ [⟨t, .schedule, u⟩]) = looks tr' + 1 := by simp [looks]
        have ht : turns (tr' ++ [⟨t, .schedule, u⟩]) = turns tr' ++ u.cproc.toList := by
          cases hc : u.cproc with
          | none => simp [turns, hc]
          | some i => simp [turns, hc]
        rw [hl, ht, hp]
        refine ⟨by omega, ?_⟩
        rcases hturn with hc | hc
        · rw [hc]
          simp only [Option.toList_none, List.append_nil]
          exact ⟨hturns, fun i hi => by have := hfar i hi; omega⟩
        · rw [hc]
          simp only [Option.toList_some]
          refine ⟨List.nodup_append.mpr ⟨hturns, by simp, ?_⟩, ?_⟩
          · rintro i hi j hj rfl
            obtain rfl := List.mem_singleton.mp hj
            exact absurd (hfar _ hi) (lt_irrefl _)
          · intro i hi
            rcases List.mem_append.mp hi with hi | hi
            · have := hfar i hi
              omega
            · obtain rfl := List.mem_singleton.mp hi
              omega

/-- The first process forks a child and yields: the scan hands the hart to the child, and is 62 slots away. -/
theorem ready_served_child :
    ∃ (m m' : Machine) (tr tr' : List (Transition Machine Event)), Run step boot tr m ∧ Run step m tr' m' ∧
      turns tr' = [1] ∧ (m'.kernel.proc 0).state = .runnable ∧ looks tr' + distance m'.p 0 = distance m.p 0 ∧
        distance m'.p 0 = 62 := by
  have hplay : (final step boot [.schedule, .fork true true true, .usertrap]).any (fun m =>
      (m.kernel.proc 0).state = .runnable ∧
        (step .schedule m).any fun m' => m'.cproc = some 1 ∧ distance m'.p 0 = 62) = true := by
    decide +kernel
  obtain ⟨tr, m, h, -, hm⟩ := Run.replay hplay
  obtain ⟨hready, hnext⟩ := of_decide_eq_true hm
  obtain ⟨m', he, hm'⟩ := (Option.any_eq_true _ _).mp hnext
  obtain ⟨hc, hd⟩ := of_decide_eq_true hm'
  have hno : ∀ x ∈ [(⟨m, .schedule, m'⟩ : Transition Machine Event)], x.post.cproc ≠ some 0 := by
    simp [hc]
  obtain ⟨hready', hlooks, -, -⟩ := ready_served h hready (Run.single he) hno
  exact ⟨m, m', tr, _, h, Run.single he, by simp [turns, hc], hready', hlooks, hd⟩

end Xv6Mlfq.Scan
