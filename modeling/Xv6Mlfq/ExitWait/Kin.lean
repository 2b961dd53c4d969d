import Mathlib.Logic.Function.Basic

/-!
# Parents and children

A table of processes with their parents, in terms of what the protocol needs: which slots are free, taken by a
`fork` that is not complete, alive, or dead and not yet reaped. Every change of the table is one of the five below.
-/

namespace Xv6Mlfq.ExitWait

inductive Phase
  | unused
  | used
  | alive
  | zombie
  deriving DecidableEq

/-- All parents are alive, and only `init` and processes that are not complete lack one. -/
structure Kin {ι : Type*} (init : ι) (phase : ι → Phase) (parent : ι → Option ι) : Prop where
  root : phase init = .alive
  parents : ∀ i q, parent i = some q → phase q = .alive
  adopted : ∀ i, i ≠ init → phase i = .alive ∨ phase i = .zombie → parent i ≠ none
  vacant : ∀ i, phase i = .unused → parent i = none

namespace Kin

variable {ι : Type*} {init i p : ι} {phase : ι → Phase} {parent : ι → Option ι}

theorem childless (h : Kin init phase parent) (hp : phase p ≠ .alive) (i : ι) : parent i ≠ some p :=
  fun hi => hp (h.parents i p hi)

theorem ne_init (h : Kin init phase parent) (hp : phase p ≠ .alive) : p ≠ init := by
  rintro rfl
  exact hp h.root

variable [DecidableEq ι]

theorem zombie_of_update {phase' : ι → Phase} {x : Phase} (h : phase' = Function.update phase i x) (hx : x ≠ .zombie)
    (j : ι) (hj : phase' j = .zombie) : phase j = .zombie := by
  rw [h] at hj
  by_cases hji : j = i
  · rw [hji, Function.update_self] at hj
    exact absurd hj hx
  · rwa [Function.update_of_ne hji] at hj

/-- One slot changes. -/
theorem set {x : Phase} {o : Option ι} (h : Kin init phase parent) (hroot : i = init → x = .alive)
    (hchildren : x = .alive ∨ ∀ j, parent j ≠ some i) (hparent : ∀ q, o = some q → Function.update phase i x q = .alive)
    (hadopted : i ≠ init → x = .alive ∨ x = .zombie → o ≠ none) (hvacant : x = .unused → o = none) :
    Kin init (Function.update phase i x) (Function.update parent i o) where
  root := by
    by_cases hi : init = i
    · rw [hi, Function.update_self]
      exact hroot hi.symm
    · rw [Function.update_of_ne hi]
      exact h.root
  parents j q hq := by
    by_cases hj : j = i
    · rw [hj, Function.update_self] at hq
      exact hparent q hq
    · rw [Function.update_of_ne hj] at hq
      by_cases hqi : q = i
      · rw [hqi, Function.update_self]
        exact hchildren.resolve_right fun hno => hno j (hqi ▸ hq)
      · rw [Function.update_of_ne hqi]
        exact h.parents j q hq
  adopted j hj hphase := by
    by_cases hji : j = i
    · rw [hji, Function.update_self] at hphase
      rw [hji, Function.update_self]
      exact hadopted (hji ▸ hj) hphase
    · rw [Function.update_of_ne hji] at hphase ⊢
      exact h.adopted j hj hphase
  vacant j hphase := by
    by_cases hji : j = i
    · rw [hji, Function.update_self] at hphase
      rw [hji, Function.update_self]
      exact hvacant hphase
    · rw [Function.update_of_ne hji] at hphase ⊢
      exact h.vacant j hphase

theorem create (h : Kin init phase parent) (hi : phase i = .unused) :
    Kin init (Function.update phase i .used) parent := by
  have hne : phase i ≠ .alive := by simp [hi]
  rw [← Function.update_eq_self i parent]
  refine h.set (fun he => absurd he (h.ne_init hne)) (.inr (h.childless hne)) (fun q hq => ?_) (by simp) (by simp)
  exact absurd ((h.vacant i hi).symm.trans hq) (Option.some_ne_none q).symm

theorem adopt (h : Kin init phase parent) (hp : phase p = .alive) (hi : phase i ≠ .unused) :
    Kin init phase (Function.update parent i (some p)) := by
  rw [← Function.update_eq_self i phase]
  refine h.set (fun he => he ▸ h.root) ?_ (fun q hq => ?_) (fun _ _ => Option.some_ne_none p) fun hu => absurd hu hi
  · by_cases halive : phase i = .alive
    · exact .inl halive
    · exact .inr (h.childless halive)
  · cases hq
    rwa [Function.update_eq_self]

theorem launch (h : Kin init phase parent) (hparent : parent i ≠ none) :
    Kin init (Function.update phase i .alive) parent := by
  rw [← Function.update_eq_self i parent]
  refine h.set (fun _ => rfl) (.inl rfl) (fun q hq => ?_) (fun _ _ => hparent) (by simp)
  by_cases hqi : q = i
  · rw [hqi, Function.update_self]
  · rw [Function.update_of_ne hqi]
    exact h.parents i q hq

theorem exit (h : Kin init phase parent) (hp : p ≠ init) (halive : phase p = .alive)
    (hchildless : ∀ j, parent j ≠ some p) : Kin init (Function.update phase p .zombie) parent := by
  rw [← Function.update_eq_self p parent]
  refine h.set (fun he => absurd he hp) (.inr hchildless) (fun q hq => ?_) (fun _ _ => h.adopted p hp (.inl halive))
    (by simp)
  have hqp : q ≠ p := by
    rintro rfl
    exact hchildless q hq
  rw [Function.update_of_ne hqp]
  exact h.parents p q hq

theorem reap (h : Kin init phase parent) (hi : phase i = .zombie) :
    Kin init (Function.update phase i .unused) (Function.update parent i none) := by
  have hne : phase i ≠ .alive := by simp [hi]
  exact h.set (fun he => absurd he (h.ne_init hne)) (.inr (h.childless hne)) (by simp) (by simp) fun _ => rfl

end Kin

end Xv6Mlfq.ExitWait
