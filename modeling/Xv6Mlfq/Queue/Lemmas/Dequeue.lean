import Mathlib.Tactic.FinCases
import Xv6Mlfq.Queue.Lemmas.Represents

/-!
# Dequeue on a table with a non-empty level

The loop of `dequeue` is unrolled over the three levels; below them it runs on over stale links.
-/

namespace Xv6Mlfq.Queue

open Access Access.Prog Links

variable {t : QTable} {L : Fifos} {i : Slot} {q : Level}

/-! ## The loop, unrolled -/

/-- What `dequeue` does with the head that the loop has found. -/
def takeFrom (head : Nat) : Prog Addr Nat (Option Int) := do
  let toDelete ← firstid head
  removePid (int32 toDelete)
  pure (some (int64 toDelete))

/-- What `dequeue` does with the outcome of the loop. -/
def finish : Option Int → Prog Addr Nat (Option Int)
  | none => pure none
  | some head =>
      if head = EMPTY then pure (some head)
      else do
        let toDelete ← firstid (index head)
        removePid (int32 toDelete)
        pure (some (int64 toDelete))

theorem dequeue_eq_finish : dequeue = findHead (2 ^ 30) QUEUE_HIGH >>= finish := rfl

theorem finish_gethead (q : Level) : finish (some (gethead q : Int)) = takeFrom (gethead q) := by
  have hq := level_lt q
  have hne : (gethead q : Int) ≠ EMPTY := by
    simp only [gethead_eq, EMPTY]; omega
  have hidx : index (gethead q : Int) = gethead q := by
    simp only [index, gethead_eq]; omega
  simp only [finish, takeFrom, hne, if_false, hidx]

theorem findHead_level (fuel : Nat) (q : Level) :
    findHead (fuel + 1) q = (do
      if (← firstid (gethead q)) < NPROC then pure (some (gethead q : Int))
      else findHead fuel ((q + (2 ^ 64 - 1)) % 2 ^ 64)) := by
  have hq := level_lt q
  have hidx : (NPROC + ((q : Nat) <<< 1)) % 2 ^ 64 = gethead q := by
    simp only [gethead, NPROC, Nat.shiftLeft_eq]; omega
  have hint : int32 (gethead q) = gethead q := by
    simp only [int32, gethead_eq, Int.bmod_def]; omega
  have hlow : QUEUE_LOW.val ≤ (q : Nat) := Nat.zero_le _
  simp only [findHead, hlow, if_true, hidx, hint]

/-- The loop below the three levels: `i` has wrapped around. -/
def scanBelow : Prog Addr Nat (Option Int) :=
  findHead (2 ^ 30 - 3) (2 ^ 64 - 1) >>= finish

theorem finish_ite (p : Prop) [Decidable p] (x : Prog Addr Nat (Option Int)) :
    ((if p then pure (some (gethead q : Int)) else x) >>= finish) =
      if p then takeFrom (gethead q) else x >>= finish := by
  by_cases h : p
  · simp only [h, if_true]; exact finish_gethead q
  · simp only [h, if_false]

/-- Look at the list of level `q` and go on with `rest` if it is empty. -/
def probe (q : Level) (rest : Prog Addr Nat (Option Int)) : Prog Addr Nat (Option Int) := do
  if (← firstid (gethead q)) < NPROC then takeFrom (gethead q) else rest

theorem findHead_finish (fuel : Nat) (q : Level) :
    findHead (fuel + 1) q >>= finish =
      probe q (findHead fuel ((q + (2 ^ 64 - 1)) % 2 ^ 64) >>= finish) := by
  rw [findHead_level, bind_assoc]
  exact congrArg (firstid (gethead q) >>= ·) (funext fun v => finish_ite _ _)

theorem dequeue_eq :
    dequeue = probe QUEUE_HIGH (probe QUEUE_MEDIUM (probe QUEUE_LOW scanBelow)) := by
  have h₂ : findHead (2 ^ 30) QUEUE_HIGH >>= finish = _ := findHead_finish (2 ^ 30 - 1) QUEUE_HIGH
  have h₁ : findHead (2 ^ 30 - 1) 1 >>= finish = _ := findHead_finish (2 ^ 30 - 2) QUEUE_MEDIUM
  have h₀ : findHead (2 ^ 30 - 2) 0 >>= finish = _ := findHead_finish (2 ^ 30 - 3) QUEUE_LOW
  have e₂ : ((QUEUE_HIGH : Nat) + (2 ^ 64 - 1)) % 2 ^ 64 = 1 := rfl
  have e₁ : ((QUEUE_MEDIUM : Nat) + (2 ^ 64 - 1)) % 2 ^ 64 = 0 := rfl
  have e₀ : ((QUEUE_LOW : Nat) + (2 ^ 64 - 1)) % 2 ^ 64 = 2 ^ 64 - 1 := rfl
  rw [dequeue_eq_finish, h₂, e₂, h₁, e₁, h₀, e₀]
  rfl

section Probe

variable {rest : Prog Addr Nat (Option Int)}

theorem probe_exec_hit (h : t (gethead q, .next) < NPROC) :
    (probe q rest).exec t = (takeFrom (gethead q)).exec t := by
  simp [probe, firstid, h]

theorem probe_exec_miss (h : ¬ t (gethead q, .next) < NPROC) :
    (probe q rest).exec t = rest.exec t := by
  simp [probe, firstid, h]

theorem probe_touched_hit (h : t (gethead q, .next) < NPROC) :
    (probe q rest).touched t = (gethead q, .next) :: (takeFrom (gethead q)).touched t := by
  simp [probe, firstid, h]

theorem probe_touched_miss (h : ¬ t (gethead q, .next) < NPROC) :
    (probe q rest).touched t = (gethead q, .next) :: rest.touched t := by
  simp [probe, firstid, h]

end Probe

/-! ## The front of the highest non-empty level -/

/-- `q` is the highest level that has a process. -/
def Fifos.Top (L : Fifos) (q : Level) : Prop := L q ≠ [] ∧ ∀ r, q < r → L r = []

theorem Fifos.exists_top (h : ∃ q, L q ≠ []) : ∃ q, L.Top q := by
  by_cases h₂ : L 2 = []
  · by_cases h₁ : L 1 = []
    · obtain ⟨q, hq⟩ := h
      have h₀ : L 0 ≠ [] := fun h₀ => hq (by fin_cases q <;> assumption)
      exact ⟨0, h₀, fun r hr => by fin_cases r <;> first | assumption | exact absurd hr (by decide)⟩
    · exact ⟨1, h₁, fun r hr => by fin_cases r <;> first | assumption | exact absurd hr (by decide)⟩
  · exact ⟨2, h₂, fun r hr => by fin_cases r <;> exact absurd hr (by decide)⟩

theorem takeFrom_exec (h : t (gethead q, .next) = i) :
    (takeFrom (gethead q)).exec t = (some (i : Int), ((removePid (int32 (i : Nat))).exec t).2) := by
  have hi := slot_lt i
  have h64 : int64 (i : Nat) = i := by
    simp only [int64, Int.bmod_def]; omega
  simp only [takeFrom, firstid, exec_bind, exec_read, h, exec_pure, h64]

/-- The loop passes the empty levels and stops at the first other one. -/
theorem dequeue_exec_top (h : Represents t L) (hq : L.Top q) :
    dequeue.exec t = (takeFrom (gethead q)).exec t := by
  have hit : t (gethead q, .next) < NPROC := (h.firstid_lt_iff q).mpr hq.1
  have miss : ∀ r, q < r → ¬ t (gethead r, .next) < NPROC :=
    fun r hr => mt (h.firstid_lt_iff r).mp (not_not.mpr (hq.2 r hr))
  rw [dequeue_eq]
  match q with
  | 0 => rw [probe_exec_miss (miss 2 (by decide)), probe_exec_miss (miss 1 (by decide)),
      probe_exec_hit hit]
  | 1 => rw [probe_exec_miss (miss 2 (by decide)), probe_exec_hit hit]
  | 2 => rw [probe_exec_hit hit]

theorem Represents.dequeue_spec (h : Represents t L) (hq : L.Top q) {xs : List Slot}
    (hL : L q = i :: xs) :
    dequeue.exec t = (some (i : Int), ((removePid (int32 (i : Nat))).exec t).2) ∧
      Represents ((removePid (int32 (i : Nat))).exec t).2 (Function.update L q xs) := by
  have hL' : L q = [] ++ i :: xs := hL
  refine ⟨?_, h.removePid_spec (index_int32 i) hL'⟩
  rw [dequeue_exec_top h hq, takeFrom_exec (h.firstid_eq hL)]

end Xv6Mlfq.Queue
