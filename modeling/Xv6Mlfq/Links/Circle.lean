import Mathlib.Data.List.Chain
import Mathlib.Data.List.Lemmas

/-!
# A circle of nodes

The nodes of a list are met one after the other from the node `base` on, and the last one leads back to it. A walk may
start at any of them.
-/

namespace Links

variable {ι : Type*}

def Circle (next : ι → ι) (base : ι) (xs : List ι) : Prop := (base :: (xs ++ [base])).IsChain fun a b => next a = b

/-- The first node with the property `p` on the way from `i`; `none` after the given number of nodes. -/
def walk (next : ι → ι) (p : ι → Bool) : Nat → ι → Option ι
  | 0, _ => none
  | n + 1, i => if p i then some i else walk next p n (next i)

variable {next next' : ι → ι} {p : ι → Bool} {base i q : ι} {xs us vs : List ι} {n : Nat}

/-- A chain reads `next` at all nodes but its last. -/
theorem isChain_congr {l : List ι} (hc : l.IsChain fun a b => next a = b) (hn : ∀ c ∈ l.dropLast, next' c = next c) :
    l.IsChain fun a b => next' a = b := by
  induction hc with
  | nil => exact .nil
  | singleton a => exact .singleton a
  | @cons_cons a b l hab hc ih =>
      simp only [List.dropLast_cons_cons, List.mem_cons, forall_eq_or_imp] at hn
      exact .cons_cons (hn.1.trans hab) (ih hn.2)

theorem walk_chain (hc : (us ++ q :: vs).IsChain fun a b => next a = b) (hi : (us ++ [q]).head? = some i)
    (hus : ∀ u ∈ us, p u = false) (hq : p q = true) (hn : us.length < n) : walk next p n i = some q := by
  induction us generalizing n i with
  | nil =>
      obtain rfl := Option.some.inj hi
      obtain ⟨n, rfl⟩ := Nat.exists_eq_succ_of_ne_zero (Nat.ne_of_gt hn)
      exact if_pos hq
  | cons u us ih =>
      obtain rfl := Option.some.inj hi
      obtain ⟨n, rfl⟩ := Nat.exists_eq_succ_of_ne_zero (Nat.ne_of_gt (Nat.zero_lt_of_lt hn))
      have hnext : (us ++ [q]).head? = some (next u) := by
        cases us with
        | nil => exact congrArg some (List.isChain_cons_cons.mp hc).1.symm
        | cons w us => exact congrArg some (List.isChain_cons_cons.mp hc).1.symm
      have hstep : walk next p (n + 1) u = walk next p n (next u) :=
        if_neg (by simp [hus u List.mem_cons_self])
      rw [hstep]
      exact ih hc.tail hnext (fun w hw => hus w (List.mem_cons_of_mem u hw)) (Nat.lt_of_succ_lt_succ hn)

namespace Circle

theorem chain (h : Circle next base xs) (hxs : base :: xs = us ++ i :: vs) :
    (us ++ i :: (vs ++ [base])).IsChain fun a b => next a = b := by
  have heq : us ++ i :: (vs ++ [base]) = base :: (xs ++ [base]) := by
    calc
      us ++ i :: (vs ++ [base]) = us ++ i :: vs ++ [base] := by simp
      _ = base :: (xs ++ [base]) := by rw [← hxs, List.cons_append]
  rw [heq]
  exact h

/-- The two halves of a circle, and the links between them. -/
theorem halves : Circle next base (us ++ vs) ↔ (base :: us).IsChain (fun a b => next a = b) ∧
    next (us.getLastD base) = vs.headD base ∧ (vs ++ [base]).IsChain fun a b => next a = b := by
  have hlast : (base :: us).getLast? = some (us.getLastD base) := by
    rw [List.getLast?_cons, List.getLastD_eq_getLast?]
  have hhead : (vs ++ [base]).head? = some (vs.headD base) := by
    cases vs with
    | nil => rfl
    | cons v vs => rfl
  rw [Circle, List.append_assoc, ← List.cons_append, List.isChain_append]
  simp only [hlast, hhead, Option.mem_some_iff, forall_eq']
  exact ⟨fun ⟨h₁, h₂, h₃⟩ => ⟨h₁, h₃, h₂⟩, fun ⟨h₁, h₂, h₃⟩ => ⟨h₁, h₃, h₂⟩⟩

/-- The circle may be cut open at any of its nodes. -/
theorem rotate (h : Circle next base xs) (hxs : base :: xs = us ++ i :: vs) :
    (i :: (vs ++ (us ++ [i]))).IsChain fun a b => next a = b := by
  have hc := h.chain hxs
  obtain ⟨hus, hvs⟩ := List.isChain_split.mp hc
  cases us with
  | nil =>
      obtain ⟨rfl, rfl⟩ := List.cons.inj hxs
      exact h
  | cons u us =>
      obtain ⟨rfl, -⟩ := List.cons.inj hxs
      have hjoin : (i :: vs ++ base :: (us ++ [i])).IsChain fun a b => next a = b :=
        List.isChain_split.mpr ⟨hvs, hus⟩
      simpa using hjoin

/-- The only node of the circle with the property is found from any other. -/
theorem walk (h : Circle next base xs) (hi : i ∈ base :: xs) (hq : q ∈ base :: xs)
    (honly : ∀ x ∈ base :: xs, p x = true ↔ x = q) (hn : xs.length < n) : walk next p n i = some q := by
  obtain ⟨us, vs, hxs⟩ := List.append_of_mem hi
  have hc := h.rotate hxs
  have hmem : ∀ x, x ∈ i :: (vs ++ us) ↔ x ∈ base :: xs := by
    intro x
    rw [hxs]
    simp only [List.mem_cons, List.mem_append]
    tauto
  obtain ⟨as, bs, hsplit, hfirst⟩ := List.eq_append_cons_of_mem ((hmem q).mpr hq)
  have hlength := congrArg List.length hsplit
  have hlength' := congrArg List.length hxs
  simp only [List.length_cons, List.length_append] at hlength hlength'
  have hopen : (as ++ q :: (bs ++ [i])).IsChain fun a b => next a = b := by
    have heq : as ++ q :: (bs ++ [i]) = i :: (vs ++ (us ++ [i])) := by
      calc
        as ++ q :: (bs ++ [i]) = as ++ q :: bs ++ [i] := by simp
        _ = i :: (vs ++ us) ++ [i] := by rw [hsplit]
        _ = i :: (vs ++ (us ++ [i])) := by simp
    rw [heq]
    exact hc
  refine walk_chain hopen ?_ (fun u hu => ?_) ((honly q hq).mpr rfl) (by omega)
  · cases as with
    | nil => exact congrArg some (List.cons.inj hsplit).1.symm
    | cons a as => exact congrArg some (List.cons.inj hsplit).1.symm
  · have hu' : u ∈ base :: xs := (hmem u).mp (hsplit ▸ List.mem_append_left _ hu)
    have hne : u ≠ q := fun heq => hfirst (heq ▸ hu)
    exact Bool.eq_false_of_not_eq_true fun hp => hne ((honly u hu').mp hp)

end Circle

end Links
