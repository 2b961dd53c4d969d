import Xv6Mlfq.Threads.FooBar.Alternation

/-!
# `FooBar` with semaphores (`semaphore_foo_bar.cpp`)
-/

namespace Xv6Mlfq.Threads.FooBar

open Posix

namespace Semaphore

/-! ## The program -/

inductive Sem
  | f
  | b
  deriving DecidableEq

/-- The statements of `foo` and of `bar`, with the local variable `i`. -/
inductive LoopAt
  | test (i : Nat)
  | wait (i : Nat)
  | call (i : Nat)
  | post (i : Nat)
  | incr (i : Nat)
  | done

/-- The loop of a thread, which waits for the semaphore `mine` and posts the semaphore `theirs`. -/
def loop (n : Nat) (mine theirs : Sem) (print : Call) : LoopAt → Instr Sem Empty Empty (List Call) LoopAt
  | .test i => .act fun calls => some (calls, if i < n then .wait i else .done)
  | .wait i => .semWait mine (.call i)
  | .call i => .act fun calls => some (calls ++ [print], .post i)
  | .post i => .semPost theirs (.incr i)
  | .incr i => .act fun calls => some (calls, .test (i + 1))
  | .done => .done

def foo (n : Nat) : LoopAt → Instr Sem Empty Empty (List Call) LoopAt := loop n .f .b .foo

def bar (n : Nat) : LoopAt → Instr Sem Empty Empty (List Call) LoopAt := loop n .b .f .bar

def code (n : Nat) : Program (fun _ : Call => LoopAt) Sem Empty Empty (List Call)
  | .foo => foo n
  | .bar => bar n

/-- One thread runs `foo` and one runs `bar` on a new object. -/
def start : World (fun _ : Call => LoopAt) Sem Empty Empty (List Call) where
  status _ := .ready (.test 0)
  sem
    | .f => 1
    | .b => 0
  owner := Empty.elim
  data := []

/-! ## The token

One unit is in one of the semaphores, or with a thread between its `sem_wait` and its `sem_post`. -/

/-- The semaphore that the thread waits for. -/
def semOf : Call → Sem
  | .foo => .f
  | .bar => .b

theorem code_eq (n : Nat) (t : Call) : code n t = loop n (semOf t) (semOf t.other) t := by
  cases t with
  | _ => rfl

theorem semOf_ne {t : Call} : semOf t.other ≠ semOf t := by
  cases t with
  | _ => exact Sem.noConfusion

namespace LoopAt

/-- The thread has the token, and has not called. -/
def granted : LoopAt → Nat
  | .call _ => 1
  | _ => 0

/-- The thread has the token, and has called. -/
def used : LoopAt → Nat
  | .post _ => 1
  | _ => 0

/-- The calls that the thread has made. -/
def made (n : Nat) : LoopAt → Nat
  | .test i | .wait i | .call i => i
  | .post i | .incr i => i + 1
  | .done => n

def Within (n : Nat) : LoopAt → Prop
  | .test i => i ≤ n
  | .wait i | .call i | .post i | .incr i => i < n
  | .done => True

/-- The statements that the thread has still to execute. -/
def left (n : Nat) : LoopAt → Nat
  | .test i => 5 * (n - i) + 1
  | .wait i => 5 * (n - i)
  | .call i => 5 * (n - i) - 1
  | .post i => 5 * (n - i) - 2
  | .incr i => 5 * (n - i) - 3
  | .done => 0

theorem made_le {n : Nat} {l : LoopAt} (h : l.Within n) : l.made n ≤ n := by
  cases l with
  | done => exact Nat.le_refl n
  | test i => exact h
  | wait i | call i => exact Nat.le_of_lt h
  | post i | incr i => exact h

end LoopAt

/-- Thread `t` stands at `l` and its semaphore has the value `s`; `l'` and `s'` belong to the other thread. -/
structure Turns (n : Nat) (t : Call) (l l' : LoopAt) (s s' : Nat) (calls : List Call) : Prop where
  token : s + s' + (l.granted + l.used) + (l'.granted + l'.used) = 1
  balance : l.made n + t.lead = l'.made n + s' + l'.granted + l.used
  within : l.Within n
  within' : l'.Within n
  calls : calls = alternate (l.made n + l'.made n)

variable {n : Nat} {t : Call} {l l' : LoopAt} {s s' : Nat} {calls : List Call}

theorem Turns.swap (h : Turns n t l l' s s' calls) : Turns n t.other l' l s' s calls where
  token := by
    have htoken := h.token
    omega
  balance := by
    have htoken := h.token
    have hbalance := h.balance
    have hlead := t.lead_add_other
    omega
  within := h.within'
  within' := h.within
  calls := by rw [h.calls, Nat.add_comm]

/-! ## Steps of a thread -/

theorem Turns.test {i : Nat} (h : Turns n t (.test i) l' s s' calls) :
    Turns n t (if i < n then .wait i else .done) l' s s' calls := by
  have hi : i ≤ n := h.within
  by_cases hlt : i < n
  · rw [if_pos hlt]
    exact { h with within := hlt }
  · obtain rfl : i = n := by omega
    rw [if_neg hlt]
    exact { h with within := trivial }

theorem Turns.wait {i : Nat} (h : Turns n t (.wait i) l' s s' calls) (hpos : 0 < s) :
    Turns n t (.call i) l' (s - 1) s' calls where
  token := by
    have htoken : s + s' + (0 + 0) + (l'.granted + l'.used) = 1 := h.token
    change s - 1 + s' + (1 + 0) + (l'.granted + l'.used) = 1
    omega
  balance := h.balance
  within := h.within
  within' := h.within'
  calls := h.calls

/-- The thread that has the token is the one whose turn it is. -/
theorem Turns.call {i : Nat} (h : Turns n t (.call i) l' s s' calls) :
    Turns n t (.post i) l' s s' (calls ++ [t]) := by
  have htoken : s + s' + (1 + 0) + (l'.granted + l'.used) = 1 := h.token
  have hbalance : i + t.lead = l'.made n + s' + l'.granted + 0 := h.balance
  have hmade : l'.made n = i + t.lead := by omega
  exact {
    token := h.token
    balance := by
      change i + 1 + t.lead = l'.made n + s' + l'.granted + 1
      omega
    within := h.within
    within' := h.within'
    calls :=
      calc
        calls ++ [t] = alternate (i + l'.made n) ++ [nth (i + (i + t.lead))] := by rw [nth_eq]; rw [h.calls]; rfl
        _ = alternate (i + l'.made n + 1) := by rw [alternate_succ, hmade]
        _ = alternate (i + 1 + l'.made n) := by rw [Nat.add_right_comm] }

theorem Turns.post {i : Nat} (h : Turns n t (.post i) l' s s' calls) :
    Turns n t (.incr i) l' s (s' + 1) calls where
  token := by
    have htoken : s + s' + (0 + 1) + (l'.granted + l'.used) = 1 := h.token
    change s + (s' + 1) + (0 + 0) + (l'.granted + l'.used) = 1
    omega
  balance := by
    have hbalance : i + 1 + t.lead = l'.made n + s' + l'.granted + 1 := h.balance
    change i + 1 + t.lead = l'.made n + (s' + 1) + l'.granted + 0
    omega
  within := h.within
  within' := h.within'
  calls := h.calls

theorem Turns.incr {i : Nat} (h : Turns n t (.incr i) l' s s' calls) : Turns n t (.test (i + 1)) l' s s' calls :=
  { h with within := Nat.succ_le_of_lt h.within }

/-! ## Every state that is reached -/

abbrev State := World (fun _ : Call => LoopAt) Sem Empty Empty (List Call)

def Inv (n : Nat) (w : State) : Prop :=
  Turns n .foo (w.status .foo).label (w.status .bar).label (w.sem .f) (w.sem .b) w.data

variable {w w' : State}

theorem inv_iff (t : Call) : Inv n w ↔
    Turns n t (w.status t).label (w.status t.other).label (w.sem (semOf t)) (w.sem (semOf t.other)) w.data := by
  cases t with
  | foo => exact Iff.rfl
  | bar => exact ⟨Turns.swap, Turns.swap⟩

theorem Inv.start (n : Nat) : Inv n start where
  token := rfl
  balance := rfl
  within := Nat.zero_le n
  within' := Nat.zero_le n
  calls := rfl

def total (n : Nat) (w : State) : Nat := (w.status .foo).label.left n + (w.status .bar).label.left n

theorem Inv.moved {next : LoopAt} (hat : w.status t = .ready l) (hself : w'.status t = .ready next)
    (hother : w'.status t.other = w.status t.other)
    (hturns : Turns n t next (w.status t.other).label (w'.sem (semOf t)) (w'.sem (semOf t.other)) w'.data)
    (hleft : next.left n < l.left n) : Inv n w' ∧ total n w' < total n w := by
  constructor
  · rw [inv_iff t, hself, hother]
    exact hturns
  · refine sum_lt (fun s => (w.status s).label.left n) (fun s => (w'.status s).label.left n) t ?_ ?_
    · simpa only [hself, hat, Status.label_ready] using hleft
    · simp only [hother]

/-- A step of thread `t` preserves the invariant, and leaves less to do. -/
theorem Inv.fires (h : Inv n w) (hat : w.status t = .ready l)
    (hf : Fires t (loop n (semOf t) (semOf t.other) t l) w w') : Inv n w' ∧ total n w' < total n w := by
  have hturns := (inv_iff t).mp h
  rw [hat] at hturns
  have hwithin : l.Within n := hturns.within
  cases l with
  | test i =>
      obtain ⟨d, next, he, rfl⟩ := hf.of_act
      cases he
      refine Inv.moved hat World.set_self set_other hturns.test ?_
      split_ifs with hlt
      · change 5 * (n - i) < 5 * (n - i) + 1
        omega
      · exact Nat.succ_pos _
  | wait i =>
      obtain ⟨hpos, rfl⟩ := hf.of_semWait
      have hi : i < n := hwithin
      refine Inv.moved hat World.set_self set_other ?_ (Nat.sub_lt ?_ Nat.one_pos)
      · simpa only [World.set_data, Function.update_self, Function.update_of_ne semOf_ne] using hturns.wait hpos
      · omega
  | call i =>
      obtain ⟨d, next, he, rfl⟩ := hf.of_act
      cases he
      have hi : i < n := hwithin
      refine Inv.moved hat World.set_self set_other hturns.call ?_
      change 5 * (n - i) - 2 < 5 * (n - i) - 1
      omega
  | post i =>
      obtain rfl := hf.of_semPost
      have hi : i < n := hwithin
      refine Inv.moved hat World.set_self set_other ?_ ?_
      · simpa only [World.set_data, Function.update_self, Function.update_of_ne semOf_ne.symm] using hturns.post
      · change 5 * (n - i) - 3 < 5 * (n - i) - 2
        omega
  | incr i =>
      obtain ⟨d, next, he, rfl⟩ := hf.of_act
      cases he
      have hi : i < n := hwithin
      refine Inv.moved hat World.set_self set_other hturns.incr ?_
      change 5 * (n - (i + 1)) + 1 < 5 * (n - i) - 3
      omega
  | done => exact hf.of_done.elim

theorem Inv.step (h : Inv n w) (hs : Step (code n) w w') : Inv n w' ∧ total n w' < total n w := by
  cases hs with
  | @relock t m next hat hfree => exact m.elim
  | @fires t l w' hat hf =>
      rw [code_eq] at hf
      exact h.fires hat hf

theorem Inv.reaches (h : Reaches (code n) Semaphore.start w) : Inv n w := by
  refine h.invariant (.start n) (fun w w' hinv hs => (hinv.step hs).1) ?_
  rintro w w' - hs
  cases hs with
  | @wake t c m next hat => exact c.elim

/-! ## Alternation -/

theorem Inv.order (h : Inv n w) : w.data <+: fooBar n := by
  rw [h.calls, ← alternate_double]
  exact alternate_le (Nat.add_le_add (LoopAt.made_le h.within) (LoopAt.made_le h.within'))

theorem eq_ready (st : Status Empty Empty LoopAt) : st = .ready st.label := by
  cases st with
  | ready l => rfl
  | waiting c m next => exact c.elim
  | relocking m next => exact m.elim

/-- A thread that cannot move has finished, or waits for its semaphore. -/
theorem moves (w : State) (t : Call) : (∃ w', Step (code n) w w') ∨ w.status t = .ready .done ∨
    ∃ i, w.status t = .ready (.wait i) ∧ w.sem (semOf t) = 0 := by
  have hat := eq_ready (w.status t)
  generalize (w.status t).label = l at hat
  have hstep : Enabled t w (loop n (semOf t) (semOf t.other) t l) → ∃ w', Step (code n) w w' := fun hen =>
    Enabled.step hat (by rwa [code_eq])
  cases l with
  | done => exact .inr (.inl hat)
  | wait i =>
      rcases Nat.eq_zero_or_pos (w.sem (semOf t)) with hzero | hpos
      · exact .inr (.inr ⟨i, hat, hzero⟩)
      · exact .inl (hstep hpos)
  | post i => exact .inl (hstep trivial)
  | _ => exact .inl (hstep rfl)

/-- The semaphores cannot both be 0 while both threads wait, nor while one waits and the other has finished. -/
theorem Turns.not_wait {i : Nat} (h : Turns n t (.wait i) l' 0 s' calls)
    (hrest : l' = .done ∨ ∃ j, l' = .wait j ∧ s' = 0) : False := by
  have hi : i < n := h.within
  rcases hrest with rfl | ⟨j, rfl, rfl⟩
  · have htoken : 0 + s' + (0 + 0) + (0 + 0) = 1 := h.token
    have hbalance : i + t.lead = n + s' + 0 + 0 := h.balance
    have hlead := t.lead_add_other
    omega
  · cases h.token

theorem Inv.live (h : Inv n w) : Finished (code n) w ∨ ∃ w', Step (code n) w w' := by
  rcases moves w .foo with hs | hfoo
  · exact .inr hs
  rcases moves w .bar with hs | hbar
  · exact .inr hs
  have hturns : ∀ t, Turns n t _ _ _ _ _ := fun t => (inv_iff t).mp h
  rcases hfoo with hfoo | ⟨i, hfoo, hf⟩
  · rcases hbar with hbar | ⟨j, hbar, hb⟩
    · refine .inl fun t => ⟨.done, ?_, ?_⟩
      · cases t with
        | foo => exact hfoo
        | bar => exact hbar
      · cases t with
        | _ => rfl
    · have hbar' := hturns .bar
      simp only [Call.other, hfoo, hbar, hb, Status.label_ready] at hbar'
      exact (hbar'.not_wait (.inl rfl)).elim
  · have hfoo' := hturns .foo
    simp only [Call.other, hfoo, hf, Status.label_ready] at hfoo'
    refine (hfoo'.not_wait ?_).elim
    rcases hbar with hbar | ⟨j, hbar, hb⟩
    · exact .inl (congrArg Status.label hbar)
    · exact .inr ⟨j, congrArg Status.label hbar, hb⟩

theorem Inv.complete (h : Inv n w) (hfin : Finished (code n) w) : w.data = fooBar n := by
  have hdone : ∀ t, (w.status t).label = .done := by
    intro t
    obtain ⟨l, hl, hdone⟩ := hfin t
    rw [code_eq] at hdone
    rw [hl]
    cases l with
    | done => rfl
    | _ => cases hdone
  rw [h.calls, hdone, hdone]
  exact alternate_double n

/-- In every interleaving of the two threads. -/
theorem alternation (h : Reaches (code n) Semaphore.start w) : Alternation (code n) id n w where
  order := (Inv.reaches h).order
  live := (Inv.reaches h).live
  complete := (Inv.reaches h).complete

theorem exists_complete (n : Nat) : ∃ w, Reaches (code n) Semaphore.start w ∧ Finished (code n) w := by
  obtain ⟨w, hw, -, hfin⟩ := exists_finished (I := Inv n) (total n) (fun w h => h.live)
    (fun w w' h hs => (h.step hs).1) (fun w w' h hs => (h.step hs).2) (.start n)
  exact ⟨w, hw, hfin⟩

end Semaphore

end Xv6Mlfq.Threads.FooBar
