import Mathlib.Data.List.Chain
import Mathlib.Data.List.Nodup

/-!
# Doubly linked lists in an index-linked memory

Two functions `next` and `prev` on nodes hold the links. A list of nodes is chained when each node and
the one after it point at each other. Splicing a node in or out rewrites the links of its neighbours.
-/

namespace Links

variable {ι : Type*}

/-- `a` and `b` point at each other. -/
def Linked (next prev : ι → ι) (a b : ι) : Prop := next a = b ∧ prev b = a

def Chained (next prev : ι → ι) (l : List ι) : Prop := l.IsChain (Linked next prev)

/-- The nodes met from `i` along `f`, up to `stop` and without it. -/
def follow [DecidableEq ι] (f : ι → ι) (stop : ι) : Nat → ι → Option (List ι)
  | 0, _ => none
  | n + 1, i => if f i = stop then some [] else (follow f stop n (f i)).map (f i :: ·)

variable {next prev next' prev' : ι → ι}

/-- A chain reads `next` at all nodes but its last and `prev` at all nodes but its first. -/
theorem Chained.congr {l : List ι} (hc : Chained next prev l)
    (hn : ∀ c ∈ l.dropLast, next' c = next c) (hp : ∀ c ∈ l.tail, prev' c = prev c) :
    Chained next' prev' l := by
  induction hc with
  | nil => exact .nil
  | singleton a => exact .singleton a
  | @cons_cons a b l hab hc ih =>
      simp only [List.dropLast_cons_cons, List.mem_cons, forall_eq_or_imp, List.tail_cons] at hn hp
      refine .cons_cons ⟨?_, ?_⟩ (ih hn.2 hp.2)
      · rw [hn.1]; exact hab.1
      · rw [hp.1]; exact hab.2

theorem Chained.of_isChain {l : List ι} (hn : l.IsChain fun a b => next a = b)
    (hp : l.IsChain fun a b => prev b = a) : Chained next prev l := by
  induction hn with
  | nil => exact .nil
  | singleton a => exact .singleton a
  | cons_cons hab hn ih => exact .cons_cons ⟨hab, (List.isChain_cons_cons.mp hp).1⟩ (ih hp.tail)

theorem Chained.reverse {l : List ι} (hc : Chained next prev l) : Chained prev next l.reverse :=
  List.isChain_reverse.mpr (hc.imp fun _ _ h => ⟨h.2, h.1⟩)

theorem Chained.next_eq {l₁ l₂ : List ι} {a b : ι} (hc : Chained next prev (l₁ ++ a :: b :: l₂)) :
    next a = b := (List.isChain_append_cons_cons.mp hc).2.1.1

theorem Chained.prev_eq {l₁ l₂ : List ι} {a b : ι} (hc : Chained next prev (l₁ ++ a :: b :: l₂)) :
    prev b = a := (List.isChain_append_cons_cons.mp hc).2.1.2

theorem Chained.head_next {l : List ι} {a b : ι} (hc : Chained next prev (a :: b :: l)) : next a = b :=
  (List.isChain_cons_cons.mp hc).1.1

theorem Chained.next_mem {l : List ι} {a : ι} (hc : Chained next prev l) (ha : a ∈ l.dropLast) :
    next a ∈ l := by
  induction hc with
  | nil => simp at ha
  | singleton b => simp at ha
  | @cons_cons b c l hbc hc ih =>
      rw [List.dropLast_cons_cons, List.mem_cons] at ha
      rcases ha with rfl | ha
      · simp [hbc.1]
      · exact List.mem_cons_of_mem _ (ih ha)

theorem Chained.prev_mem {l : List ι} {a : ι} (hc : Chained next prev l) (ha : a ∈ l.tail) :
    prev a ∈ l := by
  have hr := hc.reverse.next_mem (a := a) (by simpa [List.dropLast_reverse] using ha)
  simpa using hr

theorem perm_front (l₁ l₂ : List ι) (a i b : ι) :
    (l₁ ++ a :: i :: b :: l₂).Perm (i :: (l₁ ++ a :: b :: l₂)) := by
  have h : ((l₁ ++ [a]) ++ i :: b :: l₂).Perm (i :: ((l₁ ++ [a]) ++ b :: l₂)) := List.perm_middle
  simpa using h

/-! ## Splices -/

/-- The nodes other than `a` and `b` keep their links, but for those of a node `i` off the chain. -/
structure Frame (next prev next' prev' : ι → ι) (a i b : ι) : Prop where
  next_eq : ∀ c, c ≠ a → c ≠ i → next' c = next c
  prev_eq : ∀ c, c ≠ b → c ≠ i → prev' c = prev c

theorem Frame.chained {l : List ι} {a i b : ι} (hf : Frame next prev next' prev' a i b)
    (hc : Chained next prev l) (ha : a ∉ l.dropLast) (hb : b ∉ l.tail) (hi : i ∉ l) :
    Chained next' prev' l :=
  hc.congr
    (fun c hcl => hf.next_eq c (ne_of_mem_of_not_mem hcl ha)
      (ne_of_mem_of_not_mem (List.dropLast_subset _ hcl) hi))
    (fun c hcl => hf.prev_eq c (ne_of_mem_of_not_mem hcl hb)
      (ne_of_mem_of_not_mem (List.mem_of_mem_tail hcl) hi))

/-- The two halves of a duplicate-free chain around the link from `a` to `b` survive a splice there. -/
theorem Frame.halves {l₁ l₂ : List ι} {a i b : ι} (hf : Frame next prev next' prev' a i b)
    (h₁ : Chained next prev (l₁ ++ [a])) (h₂ : Chained next prev (b :: l₂))
    (hnd : (l₁ ++ a :: b :: l₂).Nodup) (hi : i ∉ l₁ ++ a :: b :: l₂) :
    Chained next' prev' (l₁ ++ [a]) ∧ Chained next' prev' (b :: l₂) := by
  simp only [List.nodup_append', List.nodup_cons, List.mem_cons, not_or, List.disjoint_cons_right,
    List.mem_append] at hnd hi
  obtain ⟨-, ⟨⟨hab, hal⟩, hbl, -⟩, ha, hb, -⟩ := hnd
  constructor
  · refine hf.chained h₁ (by simpa using ha) (fun h => ?_) (by simp [hi])
    have hb' := List.mem_of_mem_tail h
    simp only [List.mem_append, List.mem_singleton] at hb'
    exact hb'.elim hb (fun h => hab h.symm)
  · refine hf.chained h₂ (fun h => ?_) (by simpa using hbl) (by simp [hi])
    exact (List.mem_cons.mp (List.dropLast_subset _ h)).elim hab hal

theorem Chained.insert {l₁ l₂ : List ι} {a i b : ι} (hc : Chained next prev (l₁ ++ a :: b :: l₂))
    (hnd : (l₁ ++ a :: b :: l₂).Nodup) (hi : i ∉ l₁ ++ a :: b :: l₂)
    (hf : Frame next prev next' prev' a i b) (hai : Linked next' prev' a i)
    (hib : Linked next' prev' i b) : Chained next' prev' (l₁ ++ a :: i :: b :: l₂) := by
  obtain ⟨h₁, -, h₂⟩ := List.isChain_append_cons_cons.mp hc
  obtain ⟨k₁, k₂⟩ := hf.halves h₁ h₂ hnd hi
  exact List.isChain_append_cons_cons.mpr ⟨k₁, hai, .cons_cons hib k₂⟩

theorem Chained.remove {l₁ l₂ : List ι} {a i b : ι}
    (hc : Chained next prev (l₁ ++ a :: i :: b :: l₂)) (hnd : (l₁ ++ a :: i :: b :: l₂).Nodup)
    (hf : Frame next prev next' prev' a i b) (hab : Linked next' prev' a b) :
    Chained next' prev' (l₁ ++ a :: b :: l₂) := by
  obtain ⟨h₁, -, h₂⟩ := List.isChain_append_cons_cons.mp hc
  obtain ⟨hi, hnd'⟩ := List.nodup_cons.mp ((perm_front l₁ l₂ a i b).nodup_iff.mp hnd)
  obtain ⟨k₁, k₂⟩ := hf.halves h₁ h₂.tail hnd' hi
  exact List.isChain_append_cons_cons.mpr ⟨k₁, hab, k₂⟩

/-! ## Traversals -/

section Traversal

variable [DecidableEq ι]

theorem Chained.follow_next {h t : ι} {xs : List ι} (hc : Chained next prev (h :: (xs ++ [t])))
    (ht : t ∉ xs) {n : Nat} (hn : xs.length < n) : follow next t n h = some xs := by
  induction xs generalizing h n with
  | nil =>
      obtain ⟨n, rfl⟩ := Nat.exists_eq_succ_of_ne_zero (Nat.ne_of_gt hn)
      have hht := hc.head_next
      simp [follow, hht]
  | cons x xs ih =>
      obtain ⟨n, rfl⟩ := Nat.exists_eq_succ_of_ne_zero (Nat.ne_zero_of_lt hn)
      have hhx := hc.head_next
      simp only [List.mem_cons, not_or] at ht
      have ih' := ih (n := n) hc.tail ht.2 (by simpa using hn)
      simp [follow, hhx, Ne.symm ht.1, ih']

theorem Chained.follow_prev {h t : ι} {xs : List ι} (hc : Chained next prev (h :: (xs ++ [t])))
    (hh : h ∉ xs) {n : Nat} (hn : xs.length < n) : follow prev h n t = some xs.reverse := by
  have hr : Chained prev next (t :: (xs.reverse ++ [h])) := by simpa using hc.reverse
  exact hr.follow_next (by simpa using hh) (by simpa using hn)

/-- A walk that ends at `stop` is a chain of the links it takes. -/
theorem isChain_of_follow {f : ι → ι} {stop i : ι} {n : Nat} {xs : List ι} (h : follow f stop n i = some xs) :
    (i :: (xs ++ [stop])).IsChain fun a b => f a = b := by
  induction n generalizing i xs with
  | zero => cases h
  | succ n ih =>
      unfold follow at h
      split_ifs at h with hstop
      · cases h
        exact .cons_cons hstop (.singleton _)
      · obtain ⟨ys, hys, rfl⟩ := Option.map_eq_some_iff.mp h
        exact .cons_cons rfl (ih hys)

/-- Two walks that meet the same nodes in opposite orders make a doubly linked list. -/
theorem Chained.of_follow {h t : ι} {xs : List ι} {n n' : Nat} (hn : follow next t n h = some xs)
    (hp : follow prev h n' t = some xs.reverse) : Chained next prev (h :: (xs ++ [t])) := by
  refine .of_isChain (isChain_of_follow hn) (List.isChain_reverse.mp ?_)
  have hback := isChain_of_follow hp
  simpa using hback

end Traversal

end Links
