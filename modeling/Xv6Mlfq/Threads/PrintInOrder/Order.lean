import Mathlib.Data.List.Infix
import Xv6Mlfq.Threads.Posix

/-!
# Calls in order

What is expected of an object on which three threads run `first`, `second` and `third`, once each.
-/

namespace Xv6Mlfq.Threads.PrintInOrder

open Posix

/-- A callback, and the thread that invokes it. -/
inductive Call
  | first
  | second
  | third
  deriving DecidableEq

namespace Call

/-- The number of calls that must come before this one. -/
def rank : Call → Nat
  | .first => 0
  | .second => 1
  | .third => 2

/-- A value for each of the threads, added up. -/
def sum (f : Call → Nat) : Nat := f .first + f .second + f .third

variable {f g : Call → Nat} {t : Call}

/-- One summand changes. -/
theorem sum_of_ne (h : ∀ u, u ≠ t → g u = f u) : sum g + f t = sum f + g t := by
  unfold sum
  cases t with
  | first => rw [h .second (by decide), h .third (by decide)]; omega
  | second => rw [h .first (by decide), h .third (by decide)]; omega
  | third => rw [h .first (by decide), h .second (by decide)]; omega

theorem rank_inj {u : Call} (h : t.rank = u.rank) : t = u := by
  cases t with
  | _ => cases u with
    | _ => simp_all [rank]

end Call

/-- The calls in their order. -/
def inOrder : List Call := [.first, .second, .third]

theorem take_rank (t : Call) : inOrder.take (t.rank + 1) = inOrder.take t.rank ++ [t] := by
  cases t with
  | _ => rfl

/-- What is expected of each state that the three threads reach. -/
structure InOrder (calls : List Call) (finished moves : Prop) : Prop where
  order : calls <+: inOrder
  live : finished ∨ moves
  complete : finished → calls = inOrder

end Xv6Mlfq.Threads.PrintInOrder
