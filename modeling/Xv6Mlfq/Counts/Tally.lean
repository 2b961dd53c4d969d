import Mathlib.Algebra.BigOperators.Ring.Finset
import Mathlib.Algebra.Order.BigOperators.Group.Finset
import Mathlib.Data.Fintype.Card

/-!
# Counting the places that refer to something

A finite table of values changes one place at a time, and a counter follows the number of its places with some
property.
-/

namespace Counts

variable {α γ : Type*} [Fintype α]

/-- The number of places at which `f` has a value with the property `p`. -/
def tally (f : α → γ) (p : γ → Bool) : Nat := (Finset.univ.filter fun a => p (f a) = true).card

variable {f : α → γ} {p : γ → Bool}

theorem tally_le : tally f p ≤ Fintype.card α := Finset.card_filter_le ..

theorem tally_pos_iff : 0 < tally f p ↔ ∃ a, p (f a) = true := by
  rw [tally, Finset.card_pos]
  exact ⟨fun ⟨a, ha⟩ => ⟨a, (Finset.mem_filter.mp ha).2⟩, fun ⟨a, ha⟩ => ⟨a, Finset.mem_filter.mpr ⟨Finset.mem_univ a, ha⟩⟩⟩

theorem tally_eq_zero (h : ∀ a, p (f a) = false) : tally f p = 0 := by
  refine Nat.eq_zero_of_not_pos fun hpos => ?_
  obtain ⟨a, ha⟩ := tally_pos_iff.mp hpos
  simp [h a] at ha

theorem tally_eq_sum (f : α → γ) (p : γ → Bool) : tally f p = ∑ a, (p (f a)).toNat := by
  rw [tally, Finset.card_filter]
  refine Finset.sum_congr rfl fun a _ => ?_
  cases p (f a) with
  | true => rfl
  | false => rfl

/-- A sum that takes at most `k` from each of the places. -/
theorem sum_le_tally {w : α → Nat} {k : Nat} (h : ∀ a, w a ≤ k * (p (f a)).toNat) : ∑ a, w a ≤ k * tally f p := by
  rw [tally_eq_sum, Finset.mul_sum]
  exact Finset.sum_le_sum fun a _ => h a

variable [DecidableEq α]

/-- One summand changes. -/
theorem sum_update (f : α → Nat) (a : α) (v : Nat) : ∑ b, Function.update f a v b + f a = ∑ b, f b + v := by
  rw [← Finset.add_sum_erase _ _ (Finset.mem_univ a), ← Finset.add_sum_erase _ f (Finset.mem_univ a),
    Function.update_self]
  have hrest : ∑ b ∈ Finset.univ.erase a, Function.update f a v b = ∑ b ∈ Finset.univ.erase a, f b :=
    Finset.sum_congr rfl fun b hb => Function.update_of_ne (Finset.ne_of_mem_erase hb) ..
  omega

/-- One place changes from a value to another. -/
theorem tally_update (f : α → γ) (p : γ → Bool) (a : α) (v : γ) :
    tally (Function.update f a v) p + (p (f a)).toNat = tally f p + (p v).toNat := by
  have hupdate : (fun b => (p (Function.update f a v b)).toNat) =
      Function.update (fun b => (p (f b)).toNat) a (p v).toNat := by
    funext b
    by_cases hb : b = a
    · rw [hb, Function.update_self, Function.update_self]
    · rw [Function.update_of_ne hb, Function.update_of_ne hb]
  rw [tally_eq_sum, tally_eq_sum f, hupdate]
  exact sum_update ..

end Counts
