import Xv6Mlfq.Counts.Tally
import Xv6Mlfq.Threads.Posix

/-!
# Adding under a mutex (`mutex_add.cpp`)

Any number of threads run `adder`; `main` creates two. The increment of `total` is a load and a store.
-/

namespace Xv6Mlfq.Threads.MutexAdd

open Posix Counts

/-! ## The program -/

inductive Mutex
  | mutex
  deriving DecidableEq

/-- The statements of `adder`, with the local variable `i` and the register of `++total`. -/
inductive AdderAt
  | test (i : Nat)
  | lock (i : Nat)
  | load (i : Nat)
  | store (i : Nat) (r : UInt64)
  | unlock (i : Nat)
  | incr (i : Nat)
  | done

def ITERATIONS : Nat := 100000000

def EXPECTED : Nat := ITERATIONS <<< 1

/-- `adder` with `n` iterations. -/
def adder (n : Nat) : AdderAt → Instr Empty Mutex Empty UInt64 AdderAt
  | .test i => .act fun total => some (total, if i < n then .lock i else .done)
  | .lock i => .lock .mutex (.load i)
  | .load i => .act fun total => some (total, .store i total)
  | .store i r => .act fun _ => some (r + 1, .unlock i)
  | .unlock i => .unlock .mutex (.incr i)
  | .incr i => .act fun total => some (total, .test (i + 1))
  | .done => .done

variable {τ : Type}

def code (n : Nat) : Program (fun _ : τ => AdderAt) Empty Mutex Empty UInt64 := fun _ => adder n

/-- The threads have been created. -/
def start : World (fun _ : τ => AdderAt) Empty Mutex Empty UInt64 where
  status _ := .ready (.test 0)
  sem := Empty.elim
  owner _ := none
  data := 0

/-! ## The critical section -/

namespace AdderAt

/-- The statements between `pthread_mutex_lock` and `pthread_mutex_unlock`. -/
def Inside : AdderAt → Prop
  | .load _ | .store _ _ | .unlock _ => True
  | _ => False

/-- What the thread has loaded is still there. -/
def Sees (total : UInt64) : AdderAt → Prop
  | .store _ r => r = total
  | _ => True

/-- The increments that the thread has made. -/
def made (n : Nat) : AdderAt → Nat
  | .test i | .lock i | .load i | .store i _ => i
  | .unlock i | .incr i => i + 1
  | .done => n

def Within (n : Nat) : AdderAt → Prop
  | .test i => i ≤ n
  | .lock i | .load i | .store i _ | .unlock i | .incr i => i < n
  | .done => True

/-- The statements that the thread has still to execute. -/
def left (n : Nat) : AdderAt → Nat
  | .test i => 6 * (n - i) + 1
  | .lock i => 6 * (n - i)
  | .load i => 6 * (n - i) - 1
  | .store i _ => 6 * (n - i) - 2
  | .unlock i => 6 * (n - i) - 3
  | .incr i => 6 * (n - i) - 4
  | .done => 0

theorem sees_of_outside {l : AdderAt} {total : UInt64} (h : ¬ l.Inside) : l.Sees total := by
  cases l with
  | store i r => exact absurd trivial h
  | _ => trivial

end AdderAt

abbrev State (τ : Type) := World (fun _ : τ => AdderAt) Empty Mutex Empty UInt64

variable [Fintype τ] {n : Nat} {w w' : State τ} {t : τ} {l next : AdderAt}

def increments (n : Nat) (w : State τ) : Nat := ∑ t, (w.status t).label.made n

def left (n : Nat) (w : State τ) : Nat := ∑ t, (w.status t).label.left n

structure Inv (n : Nat) (w : State τ) : Prop where
  ready : ∀ t, w.status t = .ready (w.status t).label
  owns : ∀ t, w.owner .mutex = some t ↔ (w.status t).label.Inside
  sees : ∀ t, (w.status t).label.Sees w.data
  within : ∀ t, (w.status t).label.Within n
  total : w.data = UInt64.ofNat (increments n w)

theorem Inv.start : Inv n (start : State τ) where
  ready _ := rfl
  owns _ := ⟨fun h => (by cases h), fun h => h.elim⟩
  sees _ := trivial
  within _ := Nat.zero_le n
  total := by
    have hzero : increments n (MutexAdd.start : State τ) = 0 := Finset.sum_eq_zero fun _ _ => rfl
    rw [hzero]
    rfl

theorem Inv.complete (h : Inv n w) (hfin : Finished (code n) w) : w.data = UInt64.ofNat (Fintype.card τ * n) := by
  have hmade : ∀ t, (w.status t).label.made n = n := by
    intro t
    obtain ⟨l, hl, hdone⟩ := hfin t
    rw [hl]
    cases l with
    | done => rfl
    | _ => cases hdone
  have hsum : increments n w = Fintype.card τ * n := by
    calc
      increments n w = ∑ _t : τ, n := Finset.sum_congr rfl fun t _ => hmade t
      _ = Fintype.card τ * n := by simp
  rw [h.total, hsum]

variable [DecidableEq τ]

/-- The thread that moves stays inside, or does not change `total`. -/
theorem Inv.moved {owner : Mutex → Option τ} {data : UInt64} (h : Inv n w) (hat : w.status t = .ready l)
    (hself : owner .mutex = some t ↔ next.Inside) (hothers : ∀ u, u ≠ t → (owner .mutex = some u ↔ w.owner .mutex = some u))
    (hdata : l.Inside ∨ data = w.data) (hsees : next.Sees data) (hwithin : next.Within n)
    (htotal : data + UInt64.ofNat (l.made n) = w.data + UInt64.ofNat (next.made n)) (hleft : next.left n < l.left n) :
    Inv n { w.set t (.ready next) with owner := owner, data := data } ∧
      left n { w.set t (.ready next) with owner := owner, data := data } < left n w := by
  have hlabel : (w.status t).label = l := congrArg Status.label hat
  have hupdate (f : AdderAt → Nat) : (fun u => f ((w.set t (.ready next)).status u).label) =
      Function.update (fun u => f (w.status u).label) t (f next) := by
    funext u
    by_cases hu : u = t
    · subst hu
      simp
    · rw [World.set_of_ne hu, Function.update_of_ne hu]
  have hsum (f : AdderAt → Nat) := sum_update (fun u => f (w.status u).label) t (f next)
  simp only [← hupdate, hlabel] at hsum
  refine ⟨⟨fun u => ?_, fun u => ?_, fun u => ?_, fun u => ?_, ?_⟩, ?_⟩
  · by_cases hu : u = t
    · subst hu
      simp
    · simpa only [World.set_of_ne hu] using h.ready u
  · by_cases hu : u = t
    · subst hu
      simpa only [World.set_self, Status.label_ready] using hself
    · rw [hothers u hu]
      simpa only [World.set_of_ne hu] using h.owns u
  · by_cases hu : u = t
    · subst hu
      simpa only [World.set_self, Status.label_ready] using hsees
    · simp only [World.set_of_ne hu]
      rcases hdata with hin | hdata
      · -- the mutex belongs to the thread that moves
        refine AdderAt.sees_of_outside fun hin' => hu ?_
        have howner := (h.owns t).mpr (hlabel ▸ hin)
        exact Option.some.inj (((h.owns u).mpr hin').symm.trans howner)
      · rw [hdata]
        exact h.sees u
  · by_cases hu : u = t
    · subst hu
      simpa only [World.set_self, Status.label_ready] using hwithin
    · simpa only [World.set_of_ne hu] using h.within u
  · have hmade := congrArg UInt64.ofNat (hsum (AdderAt.made n))
    rw [UInt64.ofNat_add, UInt64.ofNat_add] at hmade
    refine (UInt64.add_left_inj (UInt64.ofNat (l.made n))).mp ?_
    rw [htotal, h.total]
    exact hmade.symm
  · have hrank := hsum (AdderAt.left n)
    simp only [left]
    omega

/-- A step of thread `t` preserves the invariant, and leaves less to do. -/
theorem Inv.fires (h : Inv n w) (hat : w.status t = .ready l) (hf : Fires t (adder n l) w w') :
    Inv n w' ∧ left n w' < left n w := by
  have hlabel : (w.status t).label = l := congrArg Status.label hat
  have hwithin : l.Within n := hlabel ▸ h.within t
  have howns : w.owner .mutex = some t ↔ l.Inside := hlabel ▸ h.owns t
  cases l with
  | test i =>
      obtain ⟨d, next, he, rfl⟩ := hf.of_act
      cases he
      have hi : i ≤ n := hwithin
      by_cases hlt : i < n
      · simp only [if_pos hlt]
        refine h.moved hat howns (fun _ _ => Iff.rfl) (.inr rfl) trivial hlt rfl ?_
        exact Nat.lt_succ_self _
      · obtain rfl : i = n := by omega
        simp only [if_neg hlt]
        exact h.moved hat howns (fun _ _ => Iff.rfl) (.inr rfl) trivial trivial rfl (Nat.succ_pos _)
  | lock i =>
      obtain ⟨hfree, rfl⟩ := hf.of_lock
      have hi : i < n := hwithin
      refine h.moved hat ?_ (fun u hu => ?_) (.inr rfl) trivial hi rfl ?_
      · exact iff_of_true (Function.update_self ..) trivial
      · rw [Function.update_self, hfree]
        exact iff_of_false (fun he => hu (Option.some.inj he).symm) (Option.some_ne_none u).symm
      · change 6 * (n - i) - 1 < 6 * (n - i)
        omega
  | load i =>
      obtain ⟨d, next, he, rfl⟩ := hf.of_act
      cases he
      have hi : i < n := hwithin
      refine h.moved hat howns (fun _ _ => Iff.rfl) (.inr rfl) rfl hi rfl ?_
      change 6 * (n - i) - 2 < 6 * (n - i) - 1
      omega
  | store i r =>
      obtain ⟨d, next, he, rfl⟩ := hf.of_act
      cases he
      have hi : i < n := hwithin
      have hr : r = w.data := by
        have hsees := h.sees t
        rw [hlabel] at hsees
        exact hsees
      refine h.moved hat howns (fun _ _ => Iff.rfl) (.inl trivial) trivial hi ?_ ?_
      · change r + 1 + UInt64.ofNat i = w.data + UInt64.ofNat (i + 1)
        rw [UInt64.ofNat_add, hr, UInt64.add_assoc, UInt64.add_comm 1]
        rfl
      · change 6 * (n - i) - 3 < 6 * (n - i) - 2
        omega
  | unlock i =>
      obtain ⟨howner, rfl⟩ := hf.of_unlock
      have hi : i < n := hwithin
      refine h.moved hat ?_ (fun u hu => ?_) (.inr rfl) trivial hi rfl ?_
      · rw [Function.update_self]
        exact iff_of_false (Option.some_ne_none t).symm id
      · rw [Function.update_self, howner]
        exact iff_of_false (Option.some_ne_none u).symm fun he => hu (Option.some.inj he).symm
      · change 6 * (n - i) - 4 < 6 * (n - i) - 3
        omega
  | incr i =>
      obtain ⟨d, next, he, rfl⟩ := hf.of_act
      cases he
      have hi : i < n := hwithin
      refine h.moved hat howns (fun _ _ => Iff.rfl) (.inr rfl) trivial hi rfl ?_
      change 6 * (n - (i + 1)) + 1 < 6 * (n - i) - 4
      omega
  | done => exact hf.of_done.elim

theorem Inv.step (h : Inv n w) (hs : Step (code n) w w') : Inv n w' ∧ left n w' < left n w := by
  cases hs with
  | @fires t l w' hat hf => exact h.fires hat hf
  | @relock t m next hat hfree => cases (h.ready t).symm.trans hat

theorem Inv.reaches (hw : Reaches (code n) MutexAdd.start w) : Inv n w := by
  refine hw.invariant .start (fun w w' h hs => (h.step hs).1) fun w w' h hs => ?_
  cases hs with
  | @wake t c m next hat => exact c.elim

/-! ## The total -/

/-- The thread inside can move; if there is none, every thread that has not finished can. -/
theorem Inv.live (h : Inv n w) : Finished (code n) w ∨ ∃ w', Step (code n) w w' := by
  have hstep (t : τ) (hen : Enabled t w (adder n (w.status t).label)) : ∃ w', Step (code n) w w' :=
    Enabled.step (h.ready t) hen
  by_cases hin : ∃ t, (w.status t).label.Inside
  · obtain ⟨t, hin⟩ := hin
    refine .inr (hstep t ?_)
    have howner := (h.owns t).mpr hin
    generalize (w.status t).label = l at hin
    cases l with
    | unlock i => exact howner
    | load i | store i r => exact rfl
    | _ => exact hin.elim
  · have hfree : w.owner .mutex = none := by
      refine Option.eq_none_iff_forall_ne_some.mpr fun t howner => hin ⟨t, (h.owns t).mp howner⟩
    by_cases hdone : ∀ t, (w.status t).label = .done
    · exact .inl fun t => ⟨.done, (h.ready t).trans (congrArg _ (hdone t)), rfl⟩
    · obtain ⟨t, hdone⟩ := not_forall.mp hdone
      refine .inr (hstep t ?_)
      have hout := not_exists.mp hin t
      generalize (w.status t).label = l at hdone hout
      cases l with
      | lock i => exact hfree
      | test i | incr i => exact rfl
      | done => exact absurd rfl hdone
      | _ => exact absurd trivial hout

/-- What is expected of each state that the threads reach. -/
structure Adds (n : Nat) (w : State τ) : Prop where
  exclusive : ∀ t u, (w.status t).label.Inside → (w.status u).label.Inside → t = u
  live : Finished (code n) w ∨ ∃ w', Step (code n) w w'
  complete : Finished (code n) w → w.data = UInt64.ofNat (Fintype.card τ * n)

theorem Inv.adds (h : Inv n w) : Adds n w where
  exclusive t u ht hu := Option.some.inj (((h.owns t).mpr ht).symm.trans ((h.owns u).mpr hu))
  live := h.live
  complete := h.complete

/-- No increment is lost in any interleaving, no interleaving blocks, and all of them end. -/
theorem total_exact (n : Nat) :
    (∀ w : State τ, Reaches (code n) start w → Adds n w) ∧
      (∀ w w' : State τ, Reaches (code n) start w → Step (code n) w w' → left n w' < left n w) ∧
        ∃ w : State τ, Reaches (code n) start w ∧ Finished (code n) w := by
  refine ⟨fun w hw => (Inv.reaches hw).adds, fun w w' hw hs => ((Inv.reaches hw).step hs).2, ?_⟩
  obtain ⟨w, hw, -, hfin⟩ := exists_finished (I := Inv n) (left n) (fun w h => h.live)
    (fun w w' h hs => (h.step hs).1) (fun w w' h hs => (h.step hs).2) (Inv.start : Inv n (start : State τ))
  exact ⟨w, hw, hfin⟩

-- the two threads of `main`
example : UInt64.ofNat (Fintype.card Bool * ITERATIONS) = UInt64.ofNat EXPECTED := by decide

end Xv6Mlfq.Threads.MutexAdd
