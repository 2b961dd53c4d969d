import Mathlib.Data.Nat.ModEq
import Mathlib.Logic.Function.Basic

/-!
# A ring that one party fills and another empties

The index of each party counts without bound, but for its `w` bits; entry `i` is at the place `i % n`. The two agree on what
is in the ring as long as no more than `n` entries are, and `n` divides `2 ^ w`.
-/

namespace Rings

variable {α : Type*} {w n : Nat} [NeZero n]

def entry (n : Nat) [NeZero n] (i : BitVec w) : Fin n := Fin.ofNat n i.toNat

/-- The entries from `head` up to `tail`. -/
def Queued (ring : Fin n → α) : BitVec w → BitVec w → List α → Prop
  | head, tail, [] => head = tail
  | head, tail, x :: xs => ring (entry n head) = x ∧ Queued ring (head + 1) tail xs

variable {ring : Fin n → α} {head tail : BitVec w} {x : α} {xs : List α} {k : Nat}

theorem entry_add_ne (hdvd : n ∣ 2 ^ w) (hpos : 0 < k) (hk : k < n) (i : BitVec w) :
    entry n (i + BitVec.ofNat w k) ≠ entry n i := by
  intro h
  have hmod := congrArg Fin.val h
  simp only [entry, Fin.val_ofNat, BitVec.toNat_add, BitVec.toNat_ofNat, Nat.add_mod_mod,
    Nat.mod_mod_of_dvd _ hdvd] at hmod
  have hcongr : i.toNat + k ≡ i.toNat + 0 [MOD n] := hmod
  have hzero := Nat.ModEq.add_left_cancel' _ hcongr
  rw [Nat.ModEq, Nat.mod_eq_of_lt hk, Nat.zero_mod] at hzero
  omega

namespace Queued

theorem tail_eq (h : Queued ring head tail xs) : tail = head + BitVec.ofNat w xs.length := by
  induction xs generalizing head with
  | nil =>
      obtain rfl : head = tail := h
      simp
  | cons x xs ih =>
      rw [ih h.2, BitVec.add_assoc, List.length_cons, Nat.add_comm, BitVec.ofNat_add]
      rfl

/-- The two indices show how many entries there are. -/
theorem length_iff (h : Queued ring head tail xs) (hlen : xs.length < 2 ^ w) (hk : k < 2 ^ w) :
    tail = head + BitVec.ofNat w k ↔ xs.length = k := by
  rw [h.tail_eq, BitVec.add_right_inj]
  constructor
  · intro heq
    have hmod := congrArg BitVec.toNat heq
    rwa [BitVec.toNat_ofNat, BitVec.toNat_ofNat, Nat.mod_eq_of_lt hlen, Nat.mod_eq_of_lt hk] at hmod
  · rintro rfl
    rfl

theorem eq_nil (h : Queued ring head head xs) (hlen : xs.length < 2 ^ w) : xs = [] :=
  List.length_eq_zero_iff.mp ((h.length_iff hlen (Nat.two_pow_pos w)).mp (BitVec.add_zero head).symm)

theorem push (h : Queued ring head tail xs) (hdvd : n ∣ 2 ^ w) (hroom : xs.length < n) :
    Queued (Function.update ring (entry n tail) x) head (tail + 1) (xs ++ [x]) := by
  induction xs generalizing head with
  | nil =>
      obtain rfl : head = tail := h
      exact ⟨Function.update_self .., rfl⟩
  | cons y ys ih =>
      have hne : entry n head ≠ entry n tail := by
        rw [h.tail_eq]
        exact (entry_add_ne hdvd (Nat.succ_pos _) hroom head).symm
      exact ⟨(Function.update_of_ne hne ..).trans h.1, ih h.2 (Nat.lt_of_succ_lt hroom)⟩

end Queued

end Rings
