import Mathlib.Logic.Function.Basic

/-!
# Linked stacks

Nodes hold the next node, and the last one holds a null node that is not in the stack.
-/

namespace Links

variable {ι : Type*}

/-- From `top` the links lead through the nodes of the list to `null`. -/
def Stacked (next : ι → ι) (null : ι) : ι → List ι → Prop
  | top, [] => top = null
  | top, x :: xs => top = x ∧ x ≠ null ∧ Stacked next null (next x) xs

variable {next next' : ι → ι} {null top x v : ι} {xs : List ι}

namespace Stacked

theorem congr (h : Stacked next null top xs) (hsame : ∀ x ∈ xs, next' x = next x) : Stacked next' null top xs := by
  induction xs generalizing top with
  | nil => exact h
  | cons x xs ih =>
      refine ⟨h.1, h.2.1, ?_⟩
      rw [hsame x List.mem_cons_self]
      exact ih h.2.2 fun y hy => hsame y (List.mem_cons_of_mem _ hy)

variable [DecidableEq ι]

theorem write (h : Stacked next null top xs) (hx : x ∉ xs) : Stacked (Function.update next x v) null top xs :=
  h.congr fun _ hy => Function.update_of_ne (ne_of_mem_of_not_mem hy hx) ..

theorem push (h : Stacked next null top xs) (hx : x ∉ xs) (hnull : x ≠ null) :
    Stacked (Function.update next x top) null x (x :: xs) := by
  refine ⟨rfl, hnull, ?_⟩
  rw [Function.update_self]
  exact h.write hx

end Stacked

end Links
