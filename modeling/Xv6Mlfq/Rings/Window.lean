import Mathlib.Data.Nat.ModEq
import Mathlib.Logic.Function.Basic

/-!
# Ring buffers with counters that wrap

The places of a table of size `n` are used in turn; two counters of 32 bits that are only ever increased say what is
in use. They may wrap around as long as `n` divides `2 ^ 31`.
-/

namespace Rings

variable {α : Type*} {n : Nat} [NeZero n]

/-- The place in the table for a counter. -/
def place (n : Nat) [NeZero n] (c : UInt32) : Fin n := Fin.ofNat n c.toNat

def span (r e : UInt32) : Nat := (e - r).toNat

/-- What lies from the counter `r` up to `e`. -/
def window (data : Fin n → α) (r e : UInt32) : List α :=
  (List.range (span r e)).map fun i => data (place n (r + UInt32.ofNat i))

variable {data : Fin n → α} {r w e : UInt32} {i k : Nat} {a : α}

/-! ## Counters -/

theorem span_lt (r e : UInt32) : span r e < 2 ^ 32 := (e - r).toNat_lt

@[simp] theorem span_self (r : UInt32) : span r r = 0 := by simp [span]

theorem add_span (r e : UInt32) : r + UInt32.ofNat (span r e) = e := by
  rw [span, UInt32.ofNat_toNat, UInt32.add_comm, UInt32.sub_add_cancel]

theorem span_add (r : UInt32) (hk : k < 2 ^ 32) : span r (r + UInt32.ofNat k) = k := by
  rw [span, UInt32.add_comm, UInt32.add_sub_cancel, UInt32.toNat_ofNat_of_lt' hk]

theorem span_eq_zero : span r e = 0 ↔ r = e := by
  constructor
  · intro h
    simpa [h] using add_span r e
  · rintro rfl
    exact span_self r

/-- The test that a ring of `k` places is full. -/
theorem span_eq_iff (hk : k < 2 ^ 32) : span r e = k ↔ e = r + UInt32.ofNat k := by
  constructor
  · rintro rfl
    exact (add_span r e).symm
  · rintro rfl
    exact span_add r hk

theorem ofNat_succ (k : Nat) : UInt32.ofNat (k + 1) = UInt32.ofNat k + 1 := UInt32.ofNat_add ..

theorem span_succ (h : span r e < k) (hk : k < 2 ^ 32) : span r (e + 1) = span r e + 1 := by
  have he : e + 1 = r + UInt32.ofNat (span r e + 1) := by
    rw [ofNat_succ, ← UInt32.add_assoc, add_span]
  exact (span_eq_iff (by omega)).mpr he

theorem span_pred (h : r ≠ e) : span (r + 1) e + 1 = span r e := by
  have hpos : span r e ≠ 0 := fun hz => h (span_eq_zero.mp hz)
  have he : e = r + 1 + UInt32.ofNat (span r e - 1) := by
    rw [UInt32.add_assoc, UInt32.add_comm 1, ← ofNat_succ, Nat.sub_add_cancel (Nat.one_le_iff_ne_zero.mpr hpos),
      add_span]
  have hlt := span_lt r e
  have hspan : span (r + 1) e = span r e - 1 := (span_eq_iff (by omega)).mpr he
  omega

theorem span_back (h : r ≠ e) : span r (e - 1) + 1 = span r e := by
  have hpos : span r e ≠ 0 := fun hz => h (span_eq_zero.mp hz)
  have he : e - 1 = r + UInt32.ofNat (span r e - 1) := by
    refine (UInt32.add_left_inj 1).mp ?_
    rw [UInt32.sub_add_cancel, UInt32.add_assoc, ← ofNat_succ, Nat.sub_add_cancel (Nat.one_le_iff_ne_zero.mpr hpos),
      add_span]
  have hlt := span_lt r e
  have hspan : span r (e - 1) = span r e - 1 := (span_eq_iff (by omega)).mpr he
  omega

/-! ## Places -/

variable (hn : n ∣ 2 ^ 31)

include hn in
theorem place_add (r : UInt32) (i : Nat) : (place n (r + UInt32.ofNat i)).val = (r.toNat + i) % n := by
  have hdvd : n ∣ 2 ^ 32 := hn.trans (by decide)
  have hval : (r + UInt32.ofNat i).toNat % n = (r.toNat + i) % n := by
    rw [UInt32.toNat_add, UInt32.toNat_ofNat', Nat.mod_mod_of_dvd _ hdvd, Nat.add_mod, Nat.mod_mod_of_dvd _ hdvd,
      ← Nat.add_mod]
  exact hval

include hn in
/-- The places in use are all different. -/
theorem place_inj (hi : i < n) (hk : k < n) (h : place n (r + UInt32.ofNat i) = place n (r + UInt32.ofNat k)) :
    i = k := by
  have hval := congrArg Fin.val h
  rw [place_add hn, place_add hn] at hval
  exact Nat.ModEq.eq_of_lt_of_lt (Nat.ModEq.add_left_cancel' r.toNat hval) hi hk

/-! ## What is in the ring -/

@[simp] theorem length_window : (window data r e).length = span r e := by simp [window]

@[simp] theorem window_self : window data r r = [] := by simp [window]

theorem window_eq_nil : window data r e = [] ↔ r = e := by
  rw [← List.length_eq_zero_iff, length_window, span_eq_zero]

/-- The oldest entry is taken. -/
theorem window_cons (h : r ≠ e) : window data r e = data (place n r) :: window data (r + 1) e := by
  rw [window, ← span_pred h, List.range_succ_eq_map, List.map_cons, List.map_map]
  refine congrArg₂ List.cons ?_ (List.map_congr_left fun i _ => ?_)
  · simp
  · have hcomm : r + UInt32.ofNat (i + 1) = r + 1 + UInt32.ofNat i := by
      rw [ofNat_succ, UInt32.add_assoc, UInt32.add_comm 1]
    rw [Function.comp_apply, hcomm]

/-- The newest entry is taken back. -/
theorem window_back (h : r ≠ e) : window data r e = window data r (e - 1) ++ [data (place n (e - 1))] := by
  rw [window, ← span_back h, List.range_succ, List.map_append, List.map_singleton, add_span]
  rfl

theorem window_append (h : span r w + span w e = span r e) :
    window data r e = window data r w ++ window data w e := by
  rw [window, ← h, List.range_add, List.map_append, List.map_map]
  refine congrArg₂ HAppend.hAppend rfl (List.map_congr_left fun i _ => ?_)
  rw [Function.comp_apply, UInt32.ofNat_add, ← UInt32.add_assoc, add_span]

include hn in
/-- An entry is added behind the others. -/
theorem window_snoc (h : span r e < n) :
    window (Function.update data (place n e) a) r (e + 1) = window data r e ++ [a] := by
  have hsize : n ≤ 2 ^ 31 := Nat.le_of_dvd (by decide) hn
  rw [window, span_succ h (hsize.trans_lt (by decide)), List.range_succ, List.map_append, List.map_singleton, add_span,
    Function.update_self]
  refine congrArg (· ++ [a]) (List.map_congr_left fun i hi => Function.update_of_ne (fun heq => ?_) ..)
  have hi := List.mem_range.mp hi
  rw [← add_span r e] at heq
  exact hi.ne (place_inj hn (hi.trans h) h heq)

include hn in
/-- An entry that is added later leaves those up to `w` alone. -/
theorem window_update (h : span r w + span w e < n) :
    window (Function.update data (place n e) a) r w = window data r w := by
  refine List.map_congr_left fun i hi => Function.update_of_ne (fun heq => ?_) ..
  have hi := List.mem_range.mp hi
  have he : e = r + UInt32.ofNat (span r w + span w e) := by
    rw [UInt32.ofNat_add, ← UInt32.add_assoc, add_span, add_span]
  rw [he] at heq
  have hlt : i < span r w + span w e := Nat.lt_add_right _ hi
  exact hlt.ne (place_inj hn (hlt.trans h) h heq)

end Rings
