import Xv6Mlfq.Links.Chain

/-!
# A doubly linked list around one sentinel

The list hangs in a circle from the sentinel `head`, which comes before its first node and after its last one.
-/

namespace Links

variable {ι : Type*}

structure Ring (next prev : ι → ι) (head : ι) (xs : List ι) : Prop where
  chained : Chained next prev (head :: (xs ++ [head]))
  nodup : (head :: xs).Nodup

/-- The first node with the property `p` on the way from `i` along `f`, up to `stop` and without it; the outer
`none` is a walk that takes more than the given number of nodes. -/
def search [DecidableEq ι] (f : ι → ι) (stop : ι) (p : ι → Bool) : Nat → ι → Option (Option ι)
  | 0, _ => none
  | n + 1, i => if i = stop then some none else if p i then some (some i) else search f stop p n (f i)

variable {next prev next' prev' : ι → ι} {head : ι} {xs us vs : List ι}

namespace Ring

theorem empty (hn : next head = head) (hp : prev head = head) : Ring next prev head [] :=
  ⟨.cons_cons ⟨hn, hp⟩ (.singleton head), List.nodup_singleton head⟩

theorem head_notMem (h : Ring next prev head xs) : head ∉ xs := (List.nodup_cons.mp h.nodup).1

theorem nodup_list (h : Ring next prev head xs) : xs.Nodup := (List.nodup_cons.mp h.nodup).2

theorem next_head_mem (h : Ring next prev head xs) : next head ∈ head :: xs := by
  have hn := h.chained.next_mem (a := head) (by rw [← List.cons_append, List.dropLast_concat]; exact List.mem_cons_self)
  simpa [or_comm] using hn

theorem next_ne {i : ι} (h : Ring next prev head xs) (hi : i ∈ xs) : next i ≠ i := by
  obtain ⟨us, vs, rfl⟩ := List.append_of_mem hi
  obtain ⟨b, l, hb⟩ := List.exists_cons_of_ne_nil (List.append_ne_nil_of_right_ne_nil vs (List.cons_ne_nil head []))
  have hc := h.chained
  rw [List.append_assoc, List.cons_append, hb, ← List.cons_append] at hc
  have hmem : next i ∈ vs ++ [head] := by simp [hb, hc.next_eq]
  have hnd : (i :: vs).Nodup := h.nodup_list.of_append_right
  intro heq
  rw [heq] at hmem
  rcases List.mem_append.mp hmem with hi' | hi'
  · exact (List.nodup_cons.mp hnd).1 hi'
  · exact h.head_notMem (List.mem_singleton.mp hi' ▸ hi)

/-! ## Splices -/

/-- The two halves of the circle around the link from `a` to `b` survive a splice there. -/
theorem halves {a i b : ι} {l₁ l₂ : List ι} (hf : Frame next prev next' prev' a i b)
    (h₁ : Chained next prev (head :: us)) (h₂ : Chained next prev (vs ++ [head]))
    (ha : head :: us = l₁ ++ [a]) (hb : vs ++ [head] = b :: l₂) (hnd : (head :: (us ++ vs)).Nodup)
    (hi : i ∉ head :: (us ++ vs)) : Chained next' prev' (head :: us) ∧ Chained next' prev' (vs ++ [head]) := by
  obtain ⟨hhead, hnd⟩ := List.nodup_cons.mp hnd
  obtain ⟨hus, hvs, hdisj⟩ := List.nodup_append'.mp hnd
  simp only [List.mem_append, List.mem_cons, not_or] at hhead hi
  have hau : a ∈ head :: us := by simp [ha]
  have hbv : b ∈ vs ++ [head] := by simp [hb]
  constructor
  · have hnd₁ : (l₁ ++ [a]).Nodup := ha ▸ List.nodup_cons.mpr ⟨hhead.1, hus⟩
    refine hf.chained h₁ ?_ (fun h => ?_) (by simp [hi])
    · rw [ha, List.dropLast_concat]
      exact (List.nodup_append_comm.mp hnd₁).notMem
    · rcases List.mem_append.mp hbv with hb | hb
      · exact hdisj h hb
      · exact hhead.1 (List.mem_singleton.mp hb ▸ h)
  · have hnd₂ : (vs ++ [head]).Nodup := List.nodup_append_comm.mp (List.nodup_cons.mpr ⟨hhead.2, hvs⟩)
    refine hf.chained h₂ (fun h => ?_) ?_ (by simp [hi])
    · rw [List.dropLast_concat] at h
      rcases List.mem_cons.mp hau with rfl | ha
      · exact hhead.2 h
      · exact hdisj ha h
    · rw [hb] at hnd₂ ⊢
      exact (List.nodup_cons.mp hnd₂).1

theorem insertFront {i b : ι} (h : Ring next prev head xs) (hi : i ∉ head :: xs) (hb : next head = b)
    (hf : Frame next prev next' prev' head i b) (hhi : Linked next' prev' head i)
    (hib : Linked next' prev' i b) : Ring next' prev' head (i :: xs) := by
  obtain ⟨b', l, hl⟩ := List.exists_cons_of_ne_nil (List.append_ne_nil_of_right_ne_nil xs
    (List.cons_ne_nil head []))
  have hc := h.chained
  rw [hl] at hc
  obtain rfl : b' = b := hc.head_next.symm.trans hb
  have hfront : [head] = [] ++ [head] := rfl
  obtain ⟨-, h₂⟩ := halves hf (.singleton head) (hl ▸ hc.tail) hfront hl h.nodup hi
  refine ⟨?_, ?_⟩
  · rw [List.cons_append, hl]
    exact .cons_cons hhi (.cons_cons hib (hl ▸ h₂))
  · obtain ⟨hhead, hnd⟩ := List.nodup_cons.mp h.nodup
    simp only [List.mem_cons, not_or] at hi
    exact List.nodup_cons.mpr ⟨by simp [hhead, Ne.symm hi.1], List.nodup_cons.mpr ⟨hi.2, hnd⟩⟩

theorem remove {i : ι} (h : Ring next prev head (us ++ i :: vs))
    (hf : Frame next prev next' prev' (prev i) i (next i)) (hab : Linked next' prev' (prev i) (next i)) :
    Ring next' prev' head (us ++ vs) := by
  obtain ⟨l₁, a, ha⟩ := List.eq_nil_or_concat' (head :: us) |>.resolve_left (List.cons_ne_nil _ _)
  obtain ⟨b, l₂, hb⟩ := List.exists_cons_of_ne_nil (List.append_ne_nil_of_right_ne_nil vs
    (List.cons_ne_nil head []))
  have hc := h.chained
  have hsplit : head :: (us ++ i :: vs ++ [head]) = l₁ ++ a :: i :: b :: l₂ := by
    rw [List.append_assoc, List.cons_append, hb, ← List.cons_append, ha]
    simp
  rw [hsplit] at hc
  obtain ⟨h₁, hai, h₂⟩ := List.isChain_append_cons_cons.mp hc
  have hib := (List.isChain_cons_cons.mp h₂).1
  obtain rfl : prev i = a := hai.2
  obtain rfl : next i = b := hib.1
  have hperm : (head :: (us ++ i :: vs)).Perm (i :: head :: (us ++ vs)) :=
    (List.Perm.cons head List.perm_middle).trans (.swap ..)
  obtain ⟨hi, hnd⟩ := List.nodup_cons.mp (hperm.nodup_iff.mp h.nodup)
  obtain ⟨k₁, k₂⟩ := halves hf (ha ▸ h₁) (hb ▸ h₂.tail) ha hb hnd hi
  refine ⟨?_, hnd⟩
  have hnew : head :: (us ++ vs ++ [head]) = l₁ ++ prev i :: next i :: l₂ := by
    rw [List.append_assoc, hb, ← List.cons_append, ha]
    simp
  rw [hnew]
  exact List.isChain_append_cons_cons.mpr ⟨ha ▸ k₁, hab, hb ▸ k₂⟩

/-! ## Searches -/

variable [DecidableEq ι] {p : ι → Bool} {n : Nat}

/-- A walk along a chain meets its nodes in their order. -/
theorem search_chained {h t : ι} (hc : Chained next prev (h :: (xs ++ [t]))) (ht : t ∉ xs) (hn : xs.length < n) :
    search next t p n (next h) = some (xs.find? p) := by
  induction xs generalizing h n with
  | nil =>
      obtain ⟨n, rfl⟩ := Nat.exists_eq_succ_of_ne_zero (Nat.ne_of_gt hn)
      have hht := hc.head_next
      simp [search, hht]
  | cons x xs ih =>
      obtain ⟨n, rfl⟩ := Nat.exists_eq_succ_of_ne_zero (Nat.ne_zero_of_lt hn)
      have hhx := hc.head_next
      obtain ⟨hx, ht⟩ := not_or.mp (mt List.mem_cons.mpr ht)
      have ih' := ih (n := n) hc.tail ht (by simpa using hn)
      rw [hhx, search, if_neg (Ne.symm hx), List.find?_cons]
      cases hp : p x with
      | true => simp
      | false => simpa using ih'

theorem search_next (h : Ring next prev head xs) (hn : xs.length < n) :
    search next head p n (next head) = some (xs.find? p) := search_chained h.chained h.head_notMem hn

theorem search_prev (h : Ring next prev head xs) (hn : xs.length < n) :
    search prev head p n (prev head) = some (xs.reverse.find? p) := by
  have hc : Chained prev next (head :: (xs.reverse ++ [head])) := by simpa using h.chained.reverse
  exact search_chained hc (by simpa using h.head_notMem) (by simpa using hn)

end Ring

end Links
