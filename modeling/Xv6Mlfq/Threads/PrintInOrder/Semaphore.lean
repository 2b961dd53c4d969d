import Xv6Mlfq.Threads.PrintInOrder.Order

/-!
# Print in order with semaphores (`semaphore_print_in_order.cpp`)
-/

namespace Xv6Mlfq.Threads.PrintInOrder

open Posix

namespace Semaphore

/-! ## The program -/

inductive Sem
  | firstDone
  | secondDone
  deriving DecidableEq

inductive FirstAt
  | print
  | post
  | done

inductive SecondAt
  | wait
  | print
  | post
  | done

inductive ThirdAt
  | wait
  | print
  | done

def first : FirstAt → Instr Sem Empty Empty (List Call) FirstAt
  | .print => .act fun calls => some (calls ++ [.first], .post)
  | .post => .semPost .firstDone .done
  | .done => .done

def second : SecondAt → Instr Sem Empty Empty (List Call) SecondAt
  | .wait => .semWait .firstDone .print
  | .print => .act fun calls => some (calls ++ [.second], .post)
  | .post => .semPost .secondDone .done
  | .done => .done

def third : ThirdAt → Instr Sem Empty Empty (List Call) ThirdAt
  | .wait => .semWait .secondDone .print
  | .print => .act fun calls => some (calls ++ [.third], .done)
  | .done => .done

abbrev At : Call → Type
  | .first => FirstAt
  | .second => SecondAt
  | .third => ThirdAt

def code : Program At Sem Empty Empty (List Call)
  | .first => first
  | .second => second
  | .third => third

/-- One thread for each method of a new object. -/
def start : World At Sem Empty Empty (List Call) where
  status
    | .first => .ready .print
    | .second => .ready .wait
    | .third => .ready .wait
  sem _ := 0
  owner := Empty.elim
  data := []

/-! ## The units of the semaphores -/

namespace FirstAt

def made : FirstAt → Nat
  | .print => 0
  | .post | .done => 1

def posted : FirstAt → Nat
  | .print | .post => 0
  | .done => 1

def left : FirstAt → Nat
  | .print => 2
  | .post => 1
  | .done => 0

end FirstAt

namespace SecondAt

def taken : SecondAt → Nat
  | .wait => 0
  | .print | .post | .done => 1

def made : SecondAt → Nat
  | .wait | .print => 0
  | .post | .done => 1

def posted : SecondAt → Nat
  | .wait | .print | .post => 0
  | .done => 1

def left : SecondAt → Nat
  | .wait => 3
  | .print => 2
  | .post => 1
  | .done => 0

end SecondAt

namespace ThirdAt

def taken : ThirdAt → Nat
  | .wait => 0
  | .print | .done => 1

def made : ThirdAt → Nat
  | .wait | .print => 0
  | .done => 1

def left : ThirdAt → Nat
  | .wait => 2
  | .print => 1
  | .done => 0

end ThirdAt

/-- The threads stand at `l₁`, `l₂` and `l₃`; the semaphores have the values `s₁` and `s₂`. -/
structure Units (l₁ : FirstAt) (l₂ : SecondAt) (l₃ : ThirdAt) (s₁ s₂ : Nat) (calls : List Call) : Prop where
  firstDone : s₁ + l₂.taken = l₁.posted
  secondDone : s₂ + l₃.taken = l₂.posted
  calls : calls = inOrder.take (l₁.made + l₂.made + l₃.made)

abbrev State := World At Sem Empty Empty (List Call)

def Inv (w : State) : Prop :=
  Units (w.status .first).label (w.status .second).label (w.status .third).label (w.sem .firstDone)
    (w.sem .secondDone) w.data

def left (w : State) : Nat :=
  FirstAt.left (w.status .first).label + SecondAt.left (w.status .second).label +
    ThirdAt.left (w.status .third).label

variable {w w' : State} {l₁ : FirstAt} {l₂ : SecondAt} {l₃ : ThirdAt} {s₁ s₂ : Nat} {calls : List Call}

/-! ## Steps of the threads -/

theorem Units.first_print (h : Units .print l₂ l₃ s₁ s₂ calls) : Units .post l₂ l₃ s₁ s₂ (calls ++ [.first]) where
  firstDone := h.firstDone
  secondDone := h.secondDone
  calls := by
    have htaken : s₁ + l₂.taken = 0 := h.firstDone
    have hposted := h.secondDone
    -- nobody has called before
    cases l₂ with
    | wait =>
        cases l₃ with
        | wait => rw [h.calls]; rfl
        | _ => simp [SecondAt.posted, ThirdAt.taken] at hposted
    | _ => simp [SecondAt.taken] at htaken

theorem Units.second_print (h : Units l₁ .print l₃ s₁ s₂ calls) : Units l₁ .post l₃ s₁ s₂ (calls ++ [.second]) where
  firstDone := h.firstDone
  secondDone := h.secondDone
  calls := by
    have htaken : s₁ + 1 = l₁.posted := h.firstDone
    have hposted : s₂ + l₃.taken = 0 := h.secondDone
    cases l₁ with
    | done =>
        cases l₃ with
        | wait => rw [h.calls]; rfl
        | _ => simp [ThirdAt.taken] at hposted
    | _ => simp [FirstAt.posted] at htaken

theorem Units.third_print (h : Units l₁ l₂ .print s₁ s₂ calls) : Units l₁ l₂ .done s₁ s₂ (calls ++ [.third]) where
  firstDone := h.firstDone
  secondDone := h.secondDone
  calls := by
    have hposted : s₂ + 1 = l₂.posted := h.secondDone
    have htaken := h.firstDone
    cases l₂ with
    | done =>
        cases l₁ with
        | done => rw [h.calls]; rfl
        | _ => simp [FirstAt.posted, SecondAt.taken] at htaken
    | _ => simp [SecondAt.posted] at hposted

theorem Units.first_post (h : Units .post l₂ l₃ s₁ s₂ calls) : Units .done l₂ l₃ (s₁ + 1) s₂ calls where
  firstDone := by
    have hfirst : s₁ + l₂.taken = 0 := h.firstDone
    change s₁ + 1 + l₂.taken = 1
    omega
  secondDone := h.secondDone
  calls := h.calls

theorem Units.second_wait (h : Units l₁ .wait l₃ s₁ s₂ calls) (hpos : 0 < s₁) :
    Units l₁ .print l₃ (s₁ - 1) s₂ calls where
  firstDone := by
    have hfirst : s₁ + 0 = l₁.posted := h.firstDone
    change s₁ - 1 + 1 = l₁.posted
    omega
  secondDone := h.secondDone
  calls := h.calls

theorem Units.second_post (h : Units l₁ .post l₃ s₁ s₂ calls) : Units l₁ .done l₃ s₁ (s₂ + 1) calls where
  firstDone := h.firstDone
  secondDone := by
    have hsecond : s₂ + l₃.taken = 0 := h.secondDone
    change s₂ + 1 + l₃.taken = 1
    omega
  calls := h.calls

theorem Units.third_wait (h : Units l₁ l₂ .wait s₁ s₂ calls) (hpos : 0 < s₂) :
    Units l₁ l₂ .print s₁ (s₂ - 1) calls where
  firstDone := h.firstDone
  secondDone := by
    have hsecond : s₂ + 0 = l₂.posted := h.secondDone
    change s₂ - 1 + 1 = l₂.posted
    omega
  calls := h.calls

theorem sem_ne : Sem.secondDone ≠ .firstDone := Sem.noConfusion

/-- A step of thread `t` preserves the invariant, and leaves less to do. -/
theorem Inv.fires (h : Inv w) {t : Call} {l : At t} (hat : w.status t = .ready l) (hf : Fires t (code t l) w w') :
    Inv w' ∧ left w' < left w := by
  have hother (u : Call) (hu : u ≠ t) (st : Status Empty Empty (At t)) : (w.set t st).status u = w.status u :=
    World.set_of_ne hu
  cases t with
  | first =>
      have hself := hother .second (by decide)
      have hself' := hother .third (by decide)
      simp only [Inv, left, hat, Status.label_ready] at h ⊢
      cases l with
      | print =>
          obtain ⟨d, next, he, rfl⟩ := hf.of_act
          cases he
          simp only [World.set_self, hself, hself', Status.label_ready, World.set_sem]
          exact ⟨h.first_print, by simp [FirstAt.left]⟩
      | post =>
          obtain rfl := hf.of_semPost
          simp only [World.set_self, hself, hself', Status.label_ready, Function.update_self,
            Function.update_of_ne sem_ne]
          exact ⟨h.first_post, by simp [FirstAt.left]⟩
      | done => exact hf.of_done.elim
  | second =>
      have hself := hother .first (by decide)
      have hself' := hother .third (by decide)
      simp only [Inv, left, hat, Status.label_ready] at h ⊢
      cases l with
      | wait =>
          obtain ⟨hpos, rfl⟩ := hf.of_semWait
          simp only [World.set_self, hself, hself', Status.label_ready, Function.update_self,
            Function.update_of_ne sem_ne]
          exact ⟨h.second_wait hpos, by simp [SecondAt.left]⟩
      | print =>
          obtain ⟨d, next, he, rfl⟩ := hf.of_act
          cases he
          simp only [World.set_self, hself, hself', Status.label_ready, World.set_sem]
          exact ⟨h.second_print, by simp [SecondAt.left]⟩
      | post =>
          obtain rfl := hf.of_semPost
          simp only [World.set_self, hself, hself', Status.label_ready, Function.update_self,
            Function.update_of_ne sem_ne.symm]
          exact ⟨h.second_post, by simp [SecondAt.left]⟩
      | done => exact hf.of_done.elim
  | third =>
      have hself := hother .first (by decide)
      have hself' := hother .second (by decide)
      simp only [Inv, left, hat, Status.label_ready] at h ⊢
      cases l with
      | wait =>
          obtain ⟨hpos, rfl⟩ := hf.of_semWait
          simp only [World.set_self, hself, hself', Status.label_ready, Function.update_self,
            Function.update_of_ne sem_ne.symm]
          exact ⟨h.third_wait hpos, by simp [ThirdAt.left]⟩
      | print =>
          obtain ⟨d, next, he, rfl⟩ := hf.of_act
          cases he
          simp only [World.set_self, hself, hself', Status.label_ready, World.set_sem]
          exact ⟨h.third_print, by simp [ThirdAt.left]⟩
      | done => exact hf.of_done.elim

theorem Inv.step (h : Inv w) (hs : Step code w w') : Inv w' ∧ left w' < left w := by
  cases hs with
  | @relock t m next hat hfree => exact m.elim
  | @fires t l w' hat hf => exact h.fires hat hf

theorem Inv.start : Inv Semaphore.start := ⟨rfl, rfl, rfl⟩

theorem Inv.reaches (h : Reaches code Semaphore.start w) : Inv w := by
  refine h.invariant .start (fun w w' hinv hs => (hinv.step hs).1) fun w w' hinv hs => ?_
  cases hs with
  | @wake t c m next hat => exact c.elim

/-! ## The order of the calls -/

theorem eq_ready {ℓ : Type} (st : Status Empty Empty ℓ) : st = .ready st.label := by
  cases st with
  | ready l => rfl
  | waiting c m next => exact c.elim
  | relocking m next => exact m.elim

/-- Each thread waits only for one that has not finished. -/
theorem Inv.live (h : Inv w) : Finished code w ∨ ∃ w', Step code w w' := by
  have hstep (t : Call) (hen : Enabled t w (code t (w.status t).label)) : ∃ w', Step code w w' :=
    Enabled.step (eq_ready (w.status t)) hen
  have hfirst := h.firstDone
  have hsecond := h.secondDone
  cases h₁ : (w.status .first).label with
  | print => exact .inr (hstep .first (by rw [h₁]; rfl))
  | post => exact .inr (hstep .first (by rw [h₁]; trivial))
  | done => cases h₂ : (w.status .second).label with
    | wait =>
        rw [h₁, h₂] at hfirst
        refine .inr (hstep .second ?_)
        rw [h₂]
        have hone : w.sem .firstDone + 0 = 1 := hfirst
        exact Nat.lt_of_lt_of_eq Nat.one_pos hone.symm
    | print => exact .inr (hstep .second (by rw [h₂]; rfl))
    | post => exact .inr (hstep .second (by rw [h₂]; trivial))
    | done => cases h₃ : (w.status .third).label with
      | wait =>
          rw [h₂, h₃] at hsecond
          refine .inr (hstep .third ?_)
          rw [h₃]
          have hone : w.sem .secondDone + 0 = 1 := hsecond
          exact Nat.lt_of_lt_of_eq Nat.one_pos hone.symm
      | print => exact .inr (hstep .third (by rw [h₃]; rfl))
      | done =>
          refine .inl fun t => ⟨_, eq_ready (w.status t), ?_⟩
          cases t with
          | first => rw [h₁]; rfl
          | second => rw [h₂]; rfl
          | third => rw [h₃]; rfl

theorem Inv.complete (h : Inv w) (hfin : Finished code w) : w.data = inOrder := by
  obtain ⟨l₁, h₁, hdone₁⟩ := hfin .first
  obtain ⟨l₂, h₂, hdone₂⟩ := hfin .second
  obtain ⟨l₃, h₃, hdone₃⟩ := hfin .third
  rw [h.calls, h₁, h₂, h₃]
  cases l₁ with
  | done => cases l₂ with
    | done => cases l₃ with
      | done => rfl
      | _ => cases hdone₃
    | _ => cases hdone₂
  | _ => cases hdone₁

/-- In every interleaving of the three threads. -/
theorem ordered (h : Reaches code Semaphore.start w) :
    InOrder w.data (Finished code w) (∃ w', Step code w w') where
  order := by
    rw [(Inv.reaches h).calls]
    exact List.take_prefix _ _
  live := (Inv.reaches h).live
  complete := (Inv.reaches h).complete

theorem exists_complete : ∃ w, Reaches code Semaphore.start w ∧ Finished code w := by
  obtain ⟨w, hw, -, hfin⟩ := exists_finished (I := Inv) left (fun w h => h.live)
    (fun w w' h hs => (h.step hs).1) (fun w w' h hs => (h.step hs).2) .start
  exact ⟨w, hw, hfin⟩

end Semaphore

end Xv6Mlfq.Threads.PrintInOrder
