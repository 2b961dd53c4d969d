import Xv6Mlfq.Threads.Posix

/-!
# Threads that broadcast

The statements of `Posix`, and `pthread_cond_broadcast`, which wakes every thread that waits for the condition
variable.
-/

namespace Posix

universe u

/-- A statement of a program that may broadcast. -/
inductive Stmt (κ μ χ σ ℓ : Type u)
  | plain (instr : Instr κ μ χ σ ℓ)
  | condBroadcast (c : χ) (next : ℓ)

variable {τ κ μ χ σ : Type u} {ℓ : τ → Type u} [DecidableEq τ]

namespace World

/-- The state after the wakeup of all that wait for `c`. -/
def Roused (w : World ℓ κ μ χ σ) (c : χ) (t : τ) (next : ℓ t) (w' : World ℓ κ μ χ σ) : Prop :=
  ∃ woken : τ → Bool, (∀ u, woken u = true ↔ w.WaitsOn c u) ∧ w' = (w.wake woken).set t (.ready next)

variable {w w' : World ℓ κ μ χ σ} {c : χ} {t u : τ} {next : ℓ t}

theorem Roused.self (h : w.Roused c t next w') : w'.status t = .ready next := by
  obtain ⟨woken, -, rfl⟩ := h
  exact set_self

theorem Roused.same (h : w.Roused c t next w') : w'.sem = w.sem ∧ w'.owner = w.owner ∧ w'.data = w.data := by
  obtain ⟨woken, -, rfl⟩ := h
  exact ⟨rfl, rfl, rfl⟩

/-- Nobody is left asleep on the condition variable, and nothing else happens to the other threads. -/
theorem Roused.other (h : w.Roused c t next w') (hu : u ≠ t) :
    ¬ w'.WaitsOn c u ∧ (w'.status u = w.status u ∨ w'.status u = (w.status u).wake) := by
  obtain ⟨woken, hwoken, rfl⟩ := h
  have hstatus : ((w.wake woken).set t (.ready next)).status u =
      if woken u then (w.status u).wake else w.status u := set_of_ne hu
  constructor
  · rintro ⟨m, next', hw⟩
    rw [hstatus] at hw
    split_ifs at hw with hwake
    · exact Status.wake_ne_waiting hw
    · exact hwake ((hwoken u).mpr ⟨m, next', hw⟩)
  · rw [hstatus]
    split_ifs
    · exact .inr rfl
    · exact .inl rfl

end World

variable [DecidableEq κ] [DecidableEq μ]

/-- The code of each thread. -/
abbrev Script (ℓ : τ → Type u) (κ μ χ σ : Type u) := (t : τ) → ℓ t → Stmt κ μ χ σ (ℓ t)

inductive Move (code : Script ℓ κ μ χ σ) (w : World ℓ κ μ χ σ) : World ℓ κ μ χ σ → Prop
  | fires {t l instr w'} (hat : w.status t = .ready l) (hcode : code t l = .plain instr)
      (hfires : Fires t instr w w') : Move code w w'
  | broadcast {t l c next w'} (hat : w.status t = .ready l) (hcode : code t l = .condBroadcast c next)
      (hroused : w.Roused c t next w') : Move code w w'
  | relock {t m next} (hat : w.status t = .relocking m next) (hfree : w.owner m = none) :
      Move code w { w.set t (.ready next) with owner := Function.update w.owner m (some t) }

/-- Any interleaving of the threads, with spurious wakeups. -/
def Arrives (code : Script ℓ κ μ χ σ) : World ℓ κ μ χ σ → World ℓ κ μ χ σ → Prop :=
  Relation.ReflTransGen fun w w' => Move code w w' ∨ Spurious w w'

def Ended (code : Script ℓ κ μ χ σ) (w : World ℓ κ μ χ σ) : Prop :=
  ∀ t, ∃ l, w.status t = .ready l ∧ code t l = .plain .done

variable {code : Script ℓ κ μ χ σ} {w w₀ : World ℓ κ μ χ σ} {t : τ} {l : ℓ t}

/-! ## Rules -/

/-- A thread at an enabled statement can move. -/
theorem Enabled.move {instr : Instr κ μ χ σ (ℓ t)} (hat : w.status t = .ready l) (hcode : code t l = .plain instr)
    (h : Enabled t w instr) : ∃ w', Move code w w' := by
  obtain ⟨w', hw'⟩ := h.fires
  exact ⟨w', .fires hat hcode hw'⟩

/-- A broadcast is never held up. -/
theorem exists_broadcast {c : χ} {next : ℓ t} (hat : w.status t = .ready l)
    (hcode : code t l = .condBroadcast c next) : ∃ w', Move code w w' := by
  classical
  exact ⟨_, .broadcast hat hcode ⟨fun u => decide (w.WaitsOn c u), fun u => decide_eq_true_iff, rfl⟩⟩

theorem Arrives.invariant {I : World ℓ κ μ χ σ → Prop} (h : Arrives code w₀ w) (h₀ : I w₀)
    (hmove : ∀ w w', I w → Move code w w' → I w') (hspurious : ∀ w w', I w → Spurious w w' → I w') : I w :=
  invariant_of_steps h h₀ hmove hspurious

theorem exists_ended {I : World ℓ κ μ χ σ → Prop} (rank : World ℓ κ μ χ σ → Nat)
    (hlive : ∀ w, I w → Ended code w ∨ ∃ w', Move code w w') (hmove : ∀ w w', I w → Move code w w' → I w')
    (hrank : ∀ w w', I w → Move code w w' → rank w' < rank w) (h₀ : I w₀) :
    ∃ w, Arrives code w₀ w ∧ I w ∧ Ended code w :=
  exists_final rank hlive hmove hrank h₀

end Posix
