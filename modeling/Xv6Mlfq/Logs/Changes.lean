import Mathlib.Data.List.Chain
import Xv6Mlfq.Logs.Bounded

/-!
# The changes of a stream

`record` compares an event with the entry that is stored last, `changes` with the event just before it. The two leave
out the same events if repetition is an equivalence.
-/

namespace Logs

variable {α : Type*}

section Changes

variable (same : α → α → Prop) [DecidableRel same]

/-- What the stream adds after `b`. -/
def changesAfter (b : α) : List α → List α
  | [] => []
  | a :: as => if same b a then changesAfter a as else a :: changesAfter a as

/-- The stream without each event that repeats the event just before it. -/
def changes : List α → List α
  | [] => []
  | a :: as => a :: changesAfter same a as

variable {same} {as : List α} {a b c : α}

theorem changesAfter_snoc (hc : (b :: as).getLast? = some c) (a : α) : changesAfter same b (as ++ [a]) =
    if same c a then changesAfter same b as else changesAfter same b as ++ [a] := by
  induction as generalizing b with
  | nil =>
      obtain rfl : b = c := by simpa using hc
      rfl
  | cons d as ih =>
      rw [List.getLast?_cons_cons] at hc
      simp only [List.cons_append, changesAfter, ih hc]
      split_ifs
      · rfl
      · rfl
      · rfl
      · rfl

theorem changes_of_same (hb : as.getLast? = some b) (h : same b a) : changes same (as ++ [a]) = changes same as := by
  cases as with
  | nil => cases hb
  | cons c as => rw [List.cons_append, changes, changesAfter_snoc hb, if_pos h, changes]

theorem changes_of_not_same (hb : as.getLast? = some b) (h : ¬ same b a) :
    changes same (as ++ [a]) = changes same as ++ [a] := by
  cases as with
  | nil => cases hb
  | cons c as => rw [List.cons_append, changes, changesAfter_snoc hb, if_neg h, changes, List.cons_append]

/-! ## Entries and events -/

/-- The last entry stands for the last event. -/
theorem recordAll_getLast? (hs : Equivalence same) (hb : as.getLast? = some b) :
    ∃ c, (recordAll same as).getLast? = some c ∧ same c b := by
  obtain ⟨as, rfl⟩ := List.getLast?_eq_some_iff.mp hb
  rw [recordAll_snoc]
  rcases record_cases same (recordAll same as) b with ⟨c, hc, hcb, hr⟩ | ⟨-, hr⟩
  · rw [hr]
    exact ⟨c, hc, hcb⟩
  · rw [hr]
    exact ⟨b, List.getLast?_concat, hs.refl b⟩

/-- The log holds the changes of the stream. -/
theorem recordAll_eq_changes (hs : Equivalence same) (as : List α) : recordAll same as = changes same as := by
  induction as using List.reverseRecOn with
  | nil => rfl
  | append_singleton as a ih =>
      rw [recordAll_snoc]
      cases hb : as.getLast? with
      | none =>
          obtain rfl := List.getLast?_eq_none_iff.mp hb
          rfl
      | some b =>
          obtain ⟨c, hc, hcb⟩ := recordAll_getLast? hs hb
          by_cases h : same b a
          · rw [record_of_same hc (hs.trans hcb h), changes_of_same hb h, ih]
          · have hno : ∀ d, (recordAll same as).getLast? = some d → ¬ same d a := by
              intro d hd hda
              obtain rfl := Option.some.inj (hc.symm.trans hd)
              exact h (hs.trans (hs.symm hcb) hda)
            rw [record_of_not_same hno, changes_of_not_same hb h, ih]

/-- Neighbouring entries differ. -/
theorem recordAll_isChain (as : List α) : (recordAll same as).IsChain fun b a => ¬ same b a := by
  induction as using List.reverseRecOn with
  | nil => exact .nil
  | append_singleton as a ih =>
      rw [recordAll_snoc]
      rcases record_cases same (recordAll same as) a with ⟨c, -, -, hr⟩ | ⟨hno, hr⟩
      · rw [hr]
        exact ih
      · rw [hr]
        refine List.isChain_append.mpr ⟨ih, .singleton a, fun c hc d hd => ?_⟩
        obtain rfl : a = d := by simpa using hd
        exact hno c hc

end Changes

end Logs
