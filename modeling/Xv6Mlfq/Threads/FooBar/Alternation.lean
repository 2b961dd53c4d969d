import Mathlib.Data.Set.Insert
import Xv6Mlfq.Threads.Posix

/-!
# Calls in turn

What is expected of an object on which one thread runs `foo` and another one `bar`.
-/

namespace Xv6Mlfq.Threads.FooBar

open Posix

/-- A callback, and the thread that invokes it. -/
inductive Call
  | foo
  | bar
  deriving DecidableEq

namespace Call

def other : Call → Call
  | .foo => .bar
  | .bar => .foo

/-- The calls before the first one of this kind. -/
def lead : Call → Nat
  | .foo => 0
  | .bar => 1

variable {t : Call}

theorem other_ne : t.other ≠ t := by
  cases t with
  | _ => exact Call.noConfusion

@[simp] theorem other_other : t.other.other = t := by
  cases t with
  | _ => rfl

theorem lead_add_other : t.lead + t.other.lead = 1 := by
  cases t with
  | _ => rfl

theorem eq_or_other (s t : Call) : s = t ∨ s = t.other := by
  cases s with
  | _ => cases t with
    | foo => simp [other]
    | bar => simp [other]

end Call

/-- `(foo bar)^n` -/
def fooBar (n : Nat) : List Call := (List.replicate n [.foo, .bar]).flatten

def nth (m : Nat) : Call := if m % 2 = 0 then .foo else .bar

/-- The first `m` calls, if they alternate. -/
def alternate (m : Nat) : List Call := (List.range m).map nth

theorem nth_eq (k : Nat) (t : Call) : nth (k + (k + t.lead)) = t := by
  cases t with
  | foo => exact if_pos (by simp only [Call.lead]; omega)
  | bar => exact if_neg (by simp only [Call.lead]; omega)

theorem alternate_succ (m : Nat) : alternate (m + 1) = alternate m ++ [nth m] := by
  simp [alternate, List.range_succ]

theorem alternate_le {m m' : Nat} (h : m ≤ m') : alternate m <+: alternate m' := by
  induction h with
  | refl => exact List.prefix_rfl
  | step _ ih => exact ih.trans ⟨_, (alternate_succ _).symm⟩

theorem alternate_double (n : Nat) : alternate (n + n) = fooBar n := by
  induction n with
  | zero => rfl
  | succ n ih =>
      have hfoo : nth (n + n) = .foo := nth_eq n .foo
      have hbar : nth (n + n + 1) = .bar := nth_eq n .bar
      calc
        alternate (n + 1 + (n + 1)) = alternate (n + n + 1 + 1) := by rw [Nat.add_add_add_comm n 1 n 1]
        _ = alternate (n + n) ++ [.foo] ++ [.bar] := by rw [alternate_succ, alternate_succ, hfoo, hbar]
        _ = fooBar n ++ [.foo, .bar] := by rw [ih, List.append_assoc, List.singleton_append]
        _ = fooBar (n + 1) := by simp [fooBar, List.replicate_succ']

/-! ## The object and its threads -/

variable {κ μ χ σ : Type} {ℓ : Call → Type}

theorem set_other {w : World ℓ κ μ χ σ} {t : Call} {st : Status μ χ (ℓ t)} :
    (w.set t st).status t.other = w.status t.other := World.set_of_ne Call.other_ne

/-- A step of one thread makes its part of a sum smaller. -/
theorem sum_lt (f f' : Call → Nat) (t : Call) (hself : f' t < f t) (hother : f' t.other = f t.other) :
    f' .foo + f' .bar < f .foo + f .bar := by
  cases t with
  | foo => exact Nat.add_lt_add_of_lt_of_le hself (Nat.le_of_eq hother)
  | bar => exact Nat.add_lt_add_of_le_of_lt (Nat.le_of_eq hother) hself

variable [DecidableEq κ] [DecidableEq μ]

/-- What is expected of each state that the two threads reach. -/
structure Alternation (code : Program ℓ κ μ χ σ) (calls : σ → List Call) (n : Nat) (w : World ℓ κ μ χ σ) : Prop where
  order : calls w.data <+: fooBar n
  live : Finished code w ∨ ∃ w', Step code w w'
  complete : Finished code w → calls w.data = fooBar n

/-- The calls that have been made when both threads have finished. -/
def completeTraces (code : Program ℓ κ μ χ σ) (start : World ℓ κ μ χ σ) (calls : σ → List Call) :
    Set (List Call) :=
  { trace | ∃ w, Reaches code start w ∧ Finished code w ∧ calls w.data = trace }

theorem completeTraces_eq {code : Program ℓ κ μ χ σ} {start : World ℓ κ μ χ σ} {calls : σ → List Call} {n : Nat}
    (h : ∀ w, Reaches code start w → Alternation code calls n w)
    (hfin : ∃ w, Reaches code start w ∧ Finished code w) : completeTraces code start calls = {fooBar n} := by
  ext trace
  constructor
  · rintro ⟨w, hw, hfin, rfl⟩
    exact (h w hw).complete hfin
  · rintro rfl
    obtain ⟨w, hw, hfin⟩ := hfin
    exact ⟨w, hw, hfin, (h w hw).complete hfin⟩

end Xv6Mlfq.Threads.FooBar
