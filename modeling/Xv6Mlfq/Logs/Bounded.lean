import Mathlib.Data.List.Induction

/-!
# Bounded logs

A log without a bound records events in order and leaves out an event that repeats the entry just before it.
An array with a counter stores as much of it as it has room for.
-/

namespace Logs

variable {α β : Type*}

/-! ## The log without a bound -/

section Record

variable (same : α → α → Prop) [DecidableRel same]

def record (l : List α) (a : α) : List α :=
  if l.getLast?.any (fun b => same b a) then l else l ++ [a]

def recordAll (as : List α) : List α := as.foldl (record same) []

variable {same} {l as : List α} {a b : α}

theorem record_of_same (hb : l.getLast? = some b) (h : same b a) : record same l a = l := by
  simp [record, hb, h]

theorem record_of_not_same (h : ∀ b, l.getLast? = some b → ¬ same b a) : record same l a = l ++ [a] := by
  unfold record
  cases hl : l.getLast? with
  | none => simp
  | some b => simp [h b hl]

variable (same) in
theorem record_cases (l : List α) (a : α) :
    (∃ b, l.getLast? = some b ∧ same b a ∧ record same l a = l) ∨
      (∀ b, l.getLast? = some b → ¬ same b a) ∧ record same l a = l ++ [a] := by
  by_cases h : ∃ b, l.getLast? = some b ∧ same b a
  · obtain ⟨b, hb, hba⟩ := h
    exact .inl ⟨b, hb, hba, record_of_same hb hba⟩
  · have hno : ∀ b, l.getLast? = some b → ¬ same b a := fun b hb hba => h ⟨b, hb, hba⟩
    exact .inr ⟨hno, record_of_not_same hno⟩

theorem recordAll_snoc (as : List α) (a : α) :
    recordAll same (as ++ [a]) = record same (recordAll same as) a := by
  simp [recordAll]

theorem record_sublist (l : List α) (a : α) : (record same l a).Sublist (l ++ [a]) := by
  unfold record
  split_ifs
  · exact List.sublist_append_left l [a]
  · exact List.Sublist.refl _

/-- The log keeps the order of the events. -/
theorem recordAll_sublist (as : List α) : (recordAll same as).Sublist as := by
  induction as using List.reverseRecOn with
  | nil => exact List.Sublist.refl _
  | append_singleton as a ih =>
      rw [recordAll_snoc]
      exact (record_sublist _ a).trans (ih.append_right [a])

end Record

/-! ## The array -/

/-- `entry` and `count` hold the first `cap` elements of `l`; `R` says which element an entry stands for. -/
structure Stores (R : β → α → Prop) (cap : Nat) (entry : Int → β) (count : Int) (l : List α) : Prop where
  count : count = (min l.length cap : Nat)
  entry : ∀ n (h : n < l.length), n < cap → R (entry n) l[n]

namespace Stores

variable {R : β → α → Prop} {cap : Nat} {entry : Int → β} {count : Int} {l : List α} {a : α} {b : β}

theorem nil : Stores R cap entry 0 ([] : List α) :=
  ⟨by simp, fun n h => absurd h (Nat.not_lt_zero n)⟩

theorem push (h : Stores R cap entry count l) (hroom : count < cap) (hb : R b a) :
    Stores R cap (Function.update entry count b) (count + 1) (l ++ [a]) := by
  have hcount := h.count
  have hlen : l.length < cap := by omega
  have hlast : count = (l.length : Nat) := by omega
  refine ⟨by simp only [List.length_append, List.length_singleton]; omega, fun n hn hcap => ?_⟩
  by_cases hnl : n < l.length
  · have hne : (n : Int) ≠ count := by omega
    rw [Function.update_of_ne hne, List.getElem_append_left hnl]
    exact h.entry n hnl hcap
  · have hnl' : n = l.length := by
      simp only [List.length_append, List.length_singleton] at hn
      omega
    subst hnl'
    rw [hlast, Function.update_self]
    simpa using hb

theorem skip (h : Stores R cap entry count l) (hfull : ¬ count < cap) (a : α) :
    Stores R cap entry count (l ++ [a]) := by
  have hcount := h.count
  have hlen : cap ≤ l.length := by omega
  refine ⟨by simp only [List.length_append, List.length_singleton]; omega, fun n hn hcap => ?_⟩
  have hnl : n < l.length := by omega
  rw [List.getElem_append_left hnl]
  exact h.entry n hnl hcap

/-- With room left, the last entry stands for the last element. -/
theorem last (h : Stores R cap entry count l) (hroom : count < cap) (hl : l.getLast? = some a) :
    count ≠ 0 ∧ R (entry (count - 1)) a := by
  have hcount := h.count
  obtain ⟨l', rfl⟩ := List.getLast?_eq_some_iff.mp hl
  simp only [List.length_append, List.length_singleton] at hcount
  have hn : l'.length < (l' ++ [a]).length := by simp
  have hr := h.entry l'.length hn (by omega)
  have hidx : count - 1 = (l'.length : Nat) := by omega
  rw [hidx]
  exact ⟨by omega, by simpa using hr⟩

theorem exists_last (h : Stores R cap entry count l) (hroom : count < cap) (hne : count ≠ 0) :
    ∃ a, l.getLast? = some a ∧ R (entry (count - 1)) a := by
  cases hl : l.getLast? with
  | none =>
      obtain rfl := List.getLast?_eq_none_iff.mp hl
      exact absurd h.count (by simpa using hne)
  | some a => exact ⟨a, rfl, (h.last hroom hl).2⟩

/-! ## Recording into the array -/

section Record

variable {same : α → α → Prop} [DecidableRel same]

theorem recorded (h : Stores R cap entry count l) (hb : R b a) (hroom : count < cap)
    (hno : ∀ c, l.getLast? = some c → ¬ same c a) :
    Stores R cap (Function.update entry count b) (count + 1) (record same l a) := by
  rw [record_of_not_same hno]
  exact h.push hroom hb

/-- An event that is not stored repeats the last entry, or finds the array full. -/
theorem unrecorded (h : Stores R cap entry count l) (hsame : count < cap → ∃ c, l.getLast? = some c ∧ same c a) :
    Stores R cap entry count (record same l a) := by
  by_cases hroom : count < cap
  · obtain ⟨c, hc, hca⟩ := hsame hroom
    rw [record_of_same hc hca]
    exact h
  · rcases record_cases same l a with ⟨-, -, -, hr⟩ | ⟨-, hr⟩
    · rw [hr]
      exact h
    · rw [hr]
      exact h.skip hroom a

end Record

/-- What is stored is determined by the array, as far as its length goes. -/
theorem length_eq {l' : List α} (h : Stores R cap entry count l) (h' : Stores R cap entry count l') :
    min l.length cap = min l'.length cap := by
  have hcount := h.count
  have hcount' := h'.count
  omega

end Stores

/-! ## The array as a list -/

/-- The entries below the counter. -/
def stored (entry : Int → β) (count : Int) : List β := (List.range count.toNat).map fun n : Nat => entry n

theorem Stores.stored_eq {cap : Nat} {entry : Int → α} {count : Int} {l : List α} (h : Stores Eq cap entry count l) :
    stored entry count = l.take cap := by
  have hcount : count.toNat = min l.length cap := by
    rw [h.count]
    rfl
  refine List.ext_getElem (by simp [stored, hcount, Nat.min_comm]) fun n hn hn' => ?_
  rw [List.length_take] at hn'
  obtain ⟨hcap, hlen⟩ := Nat.lt_min.mp hn'
  simpa [stored] using h.entry n hlen hcap

end Logs
