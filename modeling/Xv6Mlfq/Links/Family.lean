import Xv6Mlfq.Links.Chain

/-!
# Several doubly linked lists in one memory

Every list `q` of the family hangs between its own sentinels `head q` and `tail q`. No node is in two
rings, so a splice in one list leaves the others alone.
-/

namespace Links

variable {ι κ : Type*}

/-- The nodes of list `q` with its sentinels. -/
def ring (head tail : κ → ι) (L : κ → List ι) (q : κ) : List ι := head q :: (L q ++ [tail q])

structure Family (head tail : κ → ι) (next prev : ι → ι) (L : κ → List ι) : Prop where
  chained : ∀ q, Chained next prev (ring head tail L q)
  nodup : ∀ q, (ring head tail L q).Nodup
  disjoint : ∀ q r, q ≠ r → (ring head tail L q).Disjoint (ring head tail L r)

variable {head tail : κ → ι} {next prev next' prev' : ι → ι} {L : κ → List ι} {q : κ}

theorem head_mem_ring : head q ∈ ring head tail L q := by simp [ring]

theorem tail_mem_ring : tail q ∈ ring head tail L q := by simp [ring]

theorem mem_ring_of_mem {i : ι} (h : i ∈ L q) : i ∈ ring head tail L q := by simp [ring, h]

theorem ring_last (head tail : κ → ι) (L : κ → List ι) (q : κ) :
    ∃ l a, head q :: L q = l ++ [a] ∧ ring head tail L q = l ++ a :: tail q :: [] := by
  obtain ⟨l, a, h⟩ := List.eq_nil_or_concat' (head q :: L q) |>.resolve_left (List.cons_ne_nil _ _)
  exact ⟨l, a, h, by rw [ring, ← List.cons_append, h]; simp⟩

theorem ring_first (head tail : κ → ι) (L : κ → List ι) (q : κ) :
    ∃ b l, L q ++ [tail q] = b :: l ∧ ring head tail L q = [] ++ head q :: b :: l := by
  obtain ⟨b, l, h⟩ := List.exists_cons_of_ne_nil (List.append_ne_nil_of_right_ne_nil (L q)
    (List.cons_ne_nil (tail q) []))
  exact ⟨b, l, h, by rw [ring, h]; rfl⟩

theorem ring_around (head tail : κ → ι) {us vs : List ι} {i : ι} (h : L q = us ++ i :: vs) :
    ∃ l₁ a b l₂, head q :: us = l₁ ++ [a] ∧ vs ++ [tail q] = b :: l₂ ∧
      ring head tail L q = l₁ ++ a :: i :: b :: l₂ := by
  obtain ⟨l₁, a, ha⟩ :=
    List.eq_nil_or_concat' (head q :: us) |>.resolve_left (List.cons_ne_nil _ _)
  obtain ⟨b, l₂, hb⟩ := List.exists_cons_of_ne_nil (List.append_ne_nil_of_right_ne_nil vs
    (List.cons_ne_nil (tail q) []))
  refine ⟨l₁, a, b, l₂, ha, hb, ?_⟩
  rw [ring, h, List.append_assoc, List.cons_append, hb, ← List.cons_append, ha]
  simp

namespace Family

/-! ## What the sentinels and the nodes point at -/

theorem notMem_of_ne (hF : Family head tail next prev L) {r : κ} {i : ι}
    (hi : i ∈ ring head tail L q) (hqr : r ≠ q) : i ∉ ring head tail L r :=
  fun hr => hF.disjoint q r hqr.symm hi hr

theorem tail_notMem (hF : Family head tail next prev L) : tail q ∉ L q := by
  have h := hF.nodup q
  simp only [ring, List.nodup_cons, List.nodup_append', List.disjoint_singleton] at h
  exact h.2.2.2

theorem head_notMem (hF : Family head tail next prev L) : head q ∉ L q := by
  have h := hF.nodup q
  simp only [ring, List.nodup_cons, List.mem_append, not_or] at h
  exact h.1.1

theorem nodup_list (hF : Family head tail next prev L) : (L q).Nodup :=
  (hF.nodup q).tail.of_append_left

theorem next_head_cons (hF : Family head tail next prev L) {x : ι} {xs : List ι}
    (h : L q = x :: xs) : next (head q) = x := by
  have hc := hF.chained q
  rw [ring, h] at hc
  exact hc.head_next

theorem next_head_nil (hF : Family head tail next prev L) (h : L q = []) :
    next (head q) = tail q := by
  have hc := hF.chained q
  rw [ring, h] at hc
  exact hc.head_next

theorem prev_tail (hF : Family head tail next prev L) {l : List ι} {a : ι}
    (h : head q :: L q = l ++ [a]) : prev (tail q) = a ∧ next a = tail q := by
  have hc := hF.chained q
  rw [ring, ← List.cons_append, h, List.append_assoc, List.singleton_append] at hc
  exact ⟨hc.prev_eq, hc.next_eq⟩

theorem next_mem_ring (hF : Family head tail next prev L) {a : ι} (ha : a ∈ head q :: L q) :
    next a ∈ ring head tail L q := by
  refine (hF.chained q).next_mem ?_
  rwa [ring, ← List.cons_append, List.dropLast_concat]

theorem prev_mem_ring (hF : Family head tail next prev L) {a : ι} (ha : a ∈ L q ++ [tail q]) :
    prev a ∈ ring head tail L q :=
  (hF.chained q).prev_mem ha

/-- The neighbours of a node in the list, and the links between them and the node. -/
theorem around (hF : Family head tail next prev L) {us vs : List ι} {i : ι}
    (h : L q = us ++ i :: vs) :
    (∃ l, head q :: us = l ++ [prev i]) ∧ (∃ l, vs ++ [tail q] = next i :: l) ∧
      next (prev i) = i ∧ prev (next i) = i := by
  obtain ⟨l₁, a, b, l₂, ha, hb, hr⟩ := ring_around head tail h
  have hc := hF.chained q
  rw [hr] at hc
  have hai : next a = i ∧ prev i = a := ⟨hc.next_eq, hc.prev_eq⟩
  rw [List.append_cons] at hc
  have hib : next i = b ∧ prev b = i := ⟨hc.next_eq, hc.prev_eq⟩
  exact ⟨⟨l₁, hai.2 ▸ ha⟩, ⟨l₂, hib.1 ▸ hb⟩, by rw [hai.2, hai.1], by rw [hib.1, hib.2]⟩

theorem follow_next [DecidableEq ι] (hF : Family head tail next prev L) {n : Nat}
    (hn : (L q).length < n) : follow next (tail q) n (head q) = some (L q) :=
  (hF.chained q).follow_next hF.tail_notMem hn

theorem follow_prev [DecidableEq ι] (hF : Family head tail next prev L) {n : Nat}
    (hn : (L q).length < n) : follow prev (head q) n (tail q) = some (L q).reverse :=
  (hF.chained q).follow_prev hF.head_notMem hn

/-! ## Splices -/

variable [DecidableEq κ]

/-- A splice between two nodes of ring `q` gives a family again if it gives ring `q` a good chain. -/
theorem splice (hF : Family head tail next prev L) {a i b : ι} {xs : List ι}
    (hf : Frame next prev next' prev' a i b) (ha : a ∈ ring head tail L q)
    (hb : b ∈ ring head tail L q) (hi : ∀ r, r ≠ q → i ∉ ring head tail L r)
    (hc : Chained next' prev' (head q :: (xs ++ [tail q])))
    (hnd : (head q :: (xs ++ [tail q])).Nodup) (hxs : ∀ x ∈ xs, x = i ∨ x ∈ L q) :
    Family head tail next' prev' (Function.update L q xs) := by
  have hself : ring head tail (Function.update L q xs) q = head q :: (xs ++ [tail q]) := by
    simp [ring]
  have hother : ∀ r, r ≠ q → ring head tail (Function.update L q xs) r = ring head tail L r := by
    intro r hr; simp [ring, Function.update_of_ne hr]
  have hsub : ∀ r, r ≠ q → (head q :: (xs ++ [tail q])).Disjoint (ring head tail L r) := by
    intro r hr x hx hxr
    have hx' : x = i ∨ x ∈ ring head tail L q := by
      simp only [List.mem_cons, List.mem_append, List.not_mem_nil, or_false] at hx
      rcases hx with rfl | hx | rfl
      · exact Or.inr head_mem_ring
      · exact (hxs x hx).imp_right mem_ring_of_mem
      · exact Or.inr tail_mem_ring
    rcases hx' with rfl | hx'
    · exact hi r hr hxr
    · exact hF.notMem_of_ne hx' hr hxr
  constructor
  · intro r
    by_cases hr : r = q
    · subst hr; rwa [hself]
    · rw [hother r hr]
      exact hf.chained (hF.chained r) (fun h => hF.notMem_of_ne ha hr (List.dropLast_subset _ h))
        (fun h => hF.notMem_of_ne hb hr (List.mem_of_mem_tail h)) (hi r hr)
  · intro r
    by_cases hr : r = q
    · subst hr; rwa [hself]
    · rw [hother r hr]; exact hF.nodup r
  · intro r s hrs
    by_cases hr : r = q
    · subst hr; rw [hself, hother s hrs.symm]; exact hsub s hrs.symm
    · by_cases hs : s = q
      · subst hs; rw [hself, hother r hr]; exact fun x hx hx' => hsub r hr hx' hx
      · rw [hother r hr, hother s hs]; exact hF.disjoint r s hrs

theorem insertFront (hF : Family head tail next prev L) {i b : ι}
    (hi : ∀ r, i ∉ ring head tail L r) (hb : next (head q) = b)
    (hf : Frame next prev next' prev' (head q) i b) (hai : Linked next' prev' (head q) i)
    (hib : Linked next' prev' i b) :
    Family head tail next' prev' (Function.update L q (i :: L q)) := by
  obtain ⟨b', l, hl, hr⟩ := ring_first head tail L q
  have hc := hF.chained q
  have hnd := hF.nodup q
  have hiq := hi q
  rw [hr] at hc hnd hiq
  obtain rfl : b' = b := by rw [← hb]; exact hc.next_eq.symm
  have hnew : head q :: (i :: L q ++ [tail q]) = [] ++ head q :: i :: b' :: l := by
    simp [← hl]
  refine hF.splice hf head_mem_ring (by rw [hr]; simp) (fun r _ => hi r) ?_ ?_ (by simp)
  · rw [hnew]; exact hc.insert hnd hiq hf hai hib
  · have hsw : ([] ++ head q :: i :: b' :: l).Perm (i :: ([] ++ head q :: b' :: l)) := .swap ..
    rw [hnew]; exact hsw.nodup_iff.mpr (List.nodup_cons.mpr ⟨hiq, hnd⟩)

theorem insertBack (hF : Family head tail next prev L) {i a : ι}
    (hi : ∀ r, i ∉ ring head tail L r) (ha : prev (tail q) = a)
    (hf : Frame next prev next' prev' a i (tail q)) (hai : Linked next' prev' a i)
    (hib : Linked next' prev' i (tail q)) :
    Family head tail next' prev' (Function.update L q (L q ++ [i])) := by
  obtain ⟨l, a', hl, hr⟩ := ring_last head tail L q
  have hc := hF.chained q
  have hnd := hF.nodup q
  have hiq := hi q
  rw [hr] at hc hnd hiq
  obtain rfl : a' = a := by rw [← ha]; exact hc.prev_eq.symm
  have hnew : head q :: (L q ++ [i] ++ [tail q]) = l ++ a' :: i :: tail q :: [] := by
    rw [List.append_assoc, ← List.cons_append, hl]; simp
  refine hF.splice hf (by rw [hr]; simp) tail_mem_ring (fun r _ => hi r) ?_ ?_ ?_
  · rw [hnew]; exact hc.insert hnd hiq hf hai hib
  · rw [hnew]; exact (perm_front l [] a' i (tail q)).nodup_iff.mpr (List.nodup_cons.mpr ⟨hiq, hnd⟩)
  · intro x hx
    simpa [or_comm] using hx

theorem remove (hF : Family head tail next prev L) {us vs : List ι} {i : ι}
    (h : L q = us ++ i :: vs) (hf : Frame next prev next' prev' (prev i) i (next i))
    (hab : Linked next' prev' (prev i) (next i)) :
    Family head tail next' prev' (Function.update L q (us ++ vs)) := by
  obtain ⟨⟨l₁, hl₁⟩, ⟨l₂, hl₂⟩, -, -⟩ := hF.around h
  have hr : ring head tail L q = l₁ ++ prev i :: i :: next i :: l₂ := by
    rw [ring, h, List.append_assoc, List.cons_append, hl₂, ← List.cons_append, hl₁]; simp
  have hc := hF.chained q
  have hnd := hF.nodup q
  rw [hr] at hc hnd
  have hnew : head q :: (us ++ vs ++ [tail q]) = l₁ ++ prev i :: next i :: l₂ := by
    rw [List.append_assoc, hl₂, ← List.cons_append, hl₁]; simp
  have hiq : i ∈ ring head tail L q := by rw [hr]; simp
  refine hF.splice hf (by rw [hr]; simp) (by rw [hr]; simp)
    (fun r hrq => hF.notMem_of_ne hiq hrq) ?_ ?_ ?_
  · rw [hnew]; exact hc.remove hnd hf hab
  · rw [hnew]; exact (List.nodup_cons.mp ((perm_front ..).nodup_iff.mp hnd)).2
  · intro x hx
    rw [h]
    simp only [List.mem_append, List.mem_cons] at hx ⊢
    tauto

end Family

end Links
