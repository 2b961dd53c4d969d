import Mathlib.Data.List.Induction
import Mathlib.Order.Defs.PartialOrder

/-!
# Runs of a step function

A run is the list of its transitions, each with the state before it, the event and the state after it.
Properties of a whole run are read off that list.
-/

namespace Runs

variable {σ ε : Type*}

structure Transition (σ ε : Type*) where
  pre : σ
  event : ε
  post : σ

inductive Run (step : ε → σ → Option σ) (s : σ) : List (Transition σ ε) → σ → Prop
  | nil : Run step s [] s
  | snoc {tr t e u} : Run step s tr t → step e t = some u → Run step s (tr ++ [⟨t, e, u⟩]) u

/-- The state that a sequence of events leads to. -/
def final (step : ε → σ → Option σ) : σ → List ε → Option σ
  | s, [] => some s
  | s, e :: es => (step e s).bind fun t => final step t es

/-- The steps whose event passes a test in the state in which it happens. -/
def guarded (P : ε → σ → Bool) (step : ε → σ → Option σ) : ε → σ → Option σ :=
  fun e s => if P e s then step e s else none

variable {step : ε → σ → Option σ} {s t u : σ} {tr tr' : List (Transition σ ε)}
  {x : Transition σ ε}

theorem final_append (s : σ) (es es' : List ε) :
    final step s (es ++ es') = (final step s es).bind fun t => final step t es' := by
  induction es generalizing s with
  | nil => rfl
  | cons e es ih => simp only [List.cons_append, final, Option.bind_assoc, ih]

namespace Run

theorem append (h : Run step s tr t) (h' : Run step t tr' u) : Run step s (tr ++ tr') u := by
  induction h' with
  | nil => simpa using h
  | snoc _ he ih => rw [← List.append_assoc]; exact ih.snoc he

theorem single {e : ε} (he : step e s = some t) : Run step s [⟨s, e, t⟩] t := Run.nil.snoc he

theorem of_final {es : List ε} (h : final step s es = some t) :
    ∃ tr, Run step s tr t ∧ tr.map Transition.event = es := by
  induction es generalizing s with
  | nil => cases h; exact ⟨[], .nil, rfl⟩
  | cons e es ih =>
      obtain ⟨v, hv, hes⟩ := Option.bind_eq_some_iff.mp h
      obtain ⟨tr, htr, hmap⟩ := ih hes
      exact ⟨⟨s, e, v⟩ :: tr, (single hv).append htr, by simp [hmap]⟩

/-- A run is found by playing its events. -/
theorem replay {es : List ε} {P : σ → Bool} (h : (final step s es).any P = true) :
    ∃ tr t, Run step s tr t ∧ tr.map Transition.event = es ∧ P t = true := by
  obtain ⟨t, ht, hP⟩ := (Option.any_eq_true P _).mp h
  obtain ⟨tr, htr, he⟩ := of_final ht
  exact ⟨tr, t, htr, he, hP⟩

theorem of_guarded {P : ε → σ → Bool} (h : Run (guarded P step) s tr t) :
    Run step s tr t ∧ ∀ x ∈ tr, P x.event x.pre = true := by
  induction h with
  | nil => exact ⟨.nil, fun x hx => absurd hx List.not_mem_nil⟩
  | @snoc tr t e u h he ih =>
      obtain ⟨hP, he⟩ := Option.ite_none_right_eq_some.mp he
      exact ⟨ih.1.snoc he, List.forall_mem_append.mpr ⟨ih.2, List.forall_mem_singleton.mpr hP⟩⟩

theorem split (h : Run step s (tr ++ tr') u) : ∃ t, Run step s tr t ∧ Run step t tr' u := by
  induction tr' using List.reverseRecOn generalizing u with
  | nil => exact ⟨u, by simpa using h, .nil⟩
  | append_singleton l x ih =>
      rw [← List.append_assoc] at h
      generalize hw : tr ++ l ++ [x] = w at h
      cases h with
      | nil => simp at hw
      | snoc h he =>
          obtain ⟨rfl, hx⟩ := List.append_inj' hw rfl
          cases List.singleton_inj.mp hx
          obtain ⟨t, h₁, h₂⟩ := ih h
          exact ⟨t, h₁, h₂.snoc he⟩

theorem eq_of_nil (h : Run step s [] u) : u = s := by
  generalize hw : ([] : List (Transition σ ε)) = w at h
  cases h with
  | nil => rfl
  | snoc h he => simp at hw

theorem single_inv (h : Run step s ([] ++ [x]) u) : x.pre = s ∧ x.post = u ∧ step x.event s = some u := by
  generalize hw : [] ++ [x] = w at h
  cases h with
  | nil => simp at hw
  | snoc h he =>
      obtain ⟨rfl, hx⟩ := List.append_inj' hw rfl
      cases List.singleton_inj.mp hx
      obtain rfl := h.eq_of_nil
      exact ⟨rfl, rfl, he⟩

theorem cons_inv (h : Run step s (x :: tr) u) :
    x.pre = s ∧ step x.event s = some x.post ∧ Run step x.post tr u := by
  have hx : x :: tr = ([] ++ [x]) ++ tr := rfl
  obtain ⟨t, h₁, h₂⟩ := (hx ▸ h).split
  obtain ⟨hpre, rfl, he⟩ := h₁.single_inv
  exact ⟨hpre, he, h₂⟩

theorem middle {tr₁ tr₂ : List (Transition σ ε)} (h : Run step s (tr₁ ++ x :: tr₂) u) :
    Run step s tr₁ x.pre ∧ step x.event x.pre = some x.post ∧ Run step x.post tr₂ u := by
  obtain ⟨t, h₁, h₂⟩ := h.split
  obtain ⟨rfl, he, h₃⟩ := h₂.cons_inv
  exact ⟨h₁, he, h₃⟩

theorem step_of_mem (h : Run step s tr u) (hx : x ∈ tr) : step x.event x.pre = some x.post := by
  obtain ⟨tr₁, tr₂, rfl⟩ := List.append_of_mem hx
  exact h.middle.2.1

/-- What holds at the start and is preserved by every step of the run holds at its end. -/
theorem invariant {I : σ → Prop} (h : Run step s tr t) (hs : I s)
    (hstep : ∀ x ∈ tr, step x.event x.pre = some x.post → I x.pre → I x.post) : I t := by
  induction h with
  | nil => exact hs
  | @snoc tr t e u h he ih =>
      exact hstep ⟨t, e, u⟩ (by simp) he (ih fun x hx => hstep x (by simp [hx]))

/-- A quantity that no step of the run lowers. -/
theorem pairwise_le {β : Type*} [Preorder β] {f : σ → β} (h : Run step s tr t)
    (hstep : ∀ x ∈ tr, f x.pre ≤ f x.post) :
    tr.Pairwise (fun x y => f x.post ≤ f y.pre) ∧ ∀ x ∈ tr, f x.post ≤ f t := by
  induction h with
  | nil => exact ⟨List.Pairwise.nil, fun x hx => absurd hx List.not_mem_nil⟩
  | @snoc tr t e u h he ih =>
      obtain ⟨hpair, hall⟩ := ih fun x hx => hstep x (List.mem_append_left _ hx)
      have hle : f t ≤ f u := hstep ⟨t, e, u⟩ (by simp)
      refine ⟨List.pairwise_append.mpr ⟨hpair, List.pairwise_singleton _ _, fun x hx y hy => ?_⟩, ?_⟩
      · obtain rfl := List.mem_singleton.mp hy
        exact hall x hx
      · refine List.forall_mem_append.mpr ⟨fun x hx => le_trans (hall x hx) hle, ?_⟩
        exact List.forall_mem_singleton.mpr le_rfl

/-- A property that is lost along a run is lost by one of its steps. -/
theorem exists_change {P : σ → Prop} (h : Run step s tr t) (hs : P s) (ht : ¬ P t) :
    ∃ x ∈ tr, P x.pre ∧ ¬ P x.post := by
  by_contra hno
  push Not at hno
  exact ht (h.invariant hs fun x hx _ => hno x hx)

end Run

end Runs
