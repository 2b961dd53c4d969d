import Xv6Mlfq.Runs.Run

/-!
# Simulation of one step function by another

Each step is matched by a run of the other step function that shows the same, and so is a whole run.
-/

namespace Runs

variable {σ ε σ' ε' ο : Type*} {step : ε → σ → Option σ} {step' : ε' → σ' → Option σ'} {seen : ε → Option ο}
  {seen' : ε' → Option ο} {allowed : ε → Prop} {R : σ → σ' → Prop} {s t : σ} {s' : σ'}

/-- What a run shows to the outside. -/
def trace (seen : ε → Option ο) (tr : List (Transition σ ε)) : List ο := tr.filterMap fun x => seen x.event

theorem trace_append (seen : ε → Option ο) (tr tr' : List (Transition σ ε)) :
    trace seen (tr ++ tr') = trace seen tr ++ trace seen tr' := List.filterMap_append ..

theorem trace_single (seen : ε → Option ο) (x : Transition σ ε) : trace seen [x] = (seen x.event).toList := by
  cases h : seen x.event with
  | none => simp [trace, h]
  | some o => simp [trace, h]

/-- From related states every allowed step is matched by a run that shows the same, to related states again. -/
structure Simulates (step : ε → σ → Option σ) (step' : ε' → σ' → Option σ') (seen : ε → Option ο)
    (seen' : ε' → Option ο) (allowed : ε → Prop) (R : σ → σ' → Prop) : Prop where
  matched : ∀ {s s' e t}, R s s' → allowed e → step e s = some t →
    ∃ tr t', Run step' s' tr t' ∧ trace seen' tr = (seen e).toList ∧ R t t'

theorem Simulates.run {tr : List (Transition σ ε)} (h : Simulates step step' seen seen' allowed R)
    (hrun : Run step s tr t) (hs : R s s') (hallowed : ∀ x ∈ tr, allowed x.event) :
    ∃ tr' t', Run step' s' tr' t' ∧ trace seen' tr' = trace seen tr ∧ R t t' := by
  induction hrun with
  | nil => exact ⟨[], s', .nil, rfl, hs⟩
  | @snoc tr t e u hrun he ih =>
      obtain ⟨tr₁, t', h₁, htrace₁, ht⟩ := ih fun x hx => hallowed x (List.mem_append_left _ hx)
      obtain ⟨tr₂, u', h₂, htrace₂, hu⟩ := h.matched ht (hallowed ⟨t, e, u⟩ (by simp)) he
      refine ⟨tr₁ ++ tr₂, u', h₁.append h₂, ?_, hu⟩
      rw [trace_append, trace_append, htrace₁, htrace₂, trace_single]

end Runs
