import Xv6Mlfq.Umalloc.FreeList

/-!
# What `malloc` gives

The loop ends at the first block that is large enough, with the whole block or its upper end. If there is none, it asks
the kernel for memory once.
-/

namespace Xv6Mlfq.Umalloc

open Arenas Links

variable {base : Nat} {h h' : Heap} {us vs xs ys : List Span} {b s t : Span} {nunits prevp p x : Nat} {granted : Bool}

theorem stop_setSize (h : Heap) (x n : Nat) : (h.setSize x n).stop x = x + HEADER * n := by
  simp only [Heap.stop, Heap.setSize, Function.update_self]

theorem stop_setSize_of_ne {y n : Nat} (hne : y ≠ x) : (h.setSize x n).stop y = h.stop y := by
  simp only [Heap.stop, Heap.setSize, Function.update_of_ne hne]

theorem exists_prior (hx : x ∈ nodes base xs) : ∃ us vs, xs = us ++ vs ∧ x = prior base us := by
  rcases List.mem_cons.mp hx with rfl | hx
  · exact ⟨[], xs, rfl, rfl⟩
  · obtain ⟨s, hs, rfl⟩ := List.mem_map.mp hx
    obtain ⟨us, vs, rfl⟩ := List.append_of_mem hs
    exact ⟨us ++ [s], vs, by simp, prior_concat.symm⟩

/-- What the loop of `malloc` does to the list: the block `b` leaves it. -/
structure Carved (base : Nat) (h h' : Heap) (xs ys : List Span) (b : Span) : Prop where
  listed : Listed base h' ys
  freep : h'.freep ∈ nodes base ys
  brk : h'.brk = h.brk
  stop : h'.stop b.lo = b.hi
  sizes : ∀ x, x ≠ b.lo → x ∉ nodes base xs → h'.size x = h.size x
  covers : ∀ a, Covers xs a ↔ Covers ys a ∨ b.Has a
  apart : ∀ s ∈ ys, b.Apart s
  inside : ∃ s ∈ xs, s.lo ≤ b.lo ∧ b.hi ≤ s.hi

namespace Listed

theorem unlink (hl : Listed base h (us ++ s :: vs)) :
    Carved base h { h.setPtr (prior base us) (h.ptr s.lo) with freep := prior base us } (us ++ s :: vs) (us ++ vs) s := by
  obtain ⟨hleft, -, -⟩ := hl.halves
  have hsplit : us ++ s :: vs = (us ++ [s]) ++ vs := by simp
  have hl' := hl
  rw [hsplit] at hl'
  obtain ⟨-, hnext, hright⟩ := hl'.halves
  rw [prior_concat] at hnext
  have hasc := hl.ascending
  rw [nodes_append, List.map_cons] at hasc
  obtain ⟨hus, -, hbefore⟩ := List.pairwise_append.mp hasc
  obtain ⟨hspus, hspvs, hspaced⟩ := List.pairwise_append.mp hl.spaced
  obtain ⟨hsvs, hspvs⟩ := List.pairwise_cons.mp hspvs
  have hlow : ∀ t ∈ us ++ vs, t ∈ us ++ s :: vs := fun t ht => by
    simp only [List.mem_append, List.mem_cons] at ht ⊢
    exact ht.imp_right .inr
  have hspaced' : Spaced (us ++ vs) :=
    List.pairwise_append.mpr ⟨hspus, hspvs, fun t ht w hw => hspaced t ht w (List.mem_cons_of_mem s hw)⟩
  have hlisted : Listed base (h.setPtr (prior base us) (h.ptr s.lo)) (us ++ vs) := by
    refine of_halves (chain_update hleft (prior_notMem_dropLast hus)) ((Function.update_self ..).trans hnext)
      (chain_update hright fun hmem => ?_) (fun t ht => hl.sizes t (hlow t ht)) hl.zero
      (fun t ht => hl.low t (hlow t ht)) hspaced'
    rw [List.dropLast_concat] at hmem
    exact (hbefore _ (prior_mem base us) _ (List.mem_cons_of_mem s.lo hmem)).ne rfl
  exact {
    listed := hlisted.congr (fun _ _ => rfl) fun _ _ => rfl
    freep := prior_mem_append base us vs
    brk := rfl
    stop := hl.sizes s (by simp)
    sizes := fun _ _ _ => rfl
    covers := by
      intro a
      simp only [covers_append, covers_cons]
      tauto
    apart := by
      intro t ht
      rcases List.mem_append.mp ht with ht | ht
      · exact .inr (hspaced t ht s List.mem_cons_self).le
      · exact .inl (hsvs t ht).le
    inside := ⟨s, by simp, le_rfl, le_rfl⟩ }

theorem cut (hl : Listed base h (us ++ s :: vs)) (hcut : s.Cut t b) {n m : Nat} (hn : s.lo + HEADER * n = t.hi) :
    Listed base ((h.setSize s.lo n).setSize b.lo m) (us ++ t :: vs) where
  circle := by
    have hc := hl.circle
    rw [List.map_append, List.map_cons] at hc ⊢
    rw [hcut.lo]
    exact hc
  sizes := by
    intro w hw
    rw [List.mem_append, List.mem_cons, or_left_comm] at hw
    obtain ⟨hlo, hmid, hhi⟩ := hcut
    have ht := t.lt
    have hb := b.lt
    rcases hw with rfl | hw
    · have hne : w.lo ≠ b.lo := by omega
      rw [stop_setSize_of_ne hne, hlo, stop_setSize, hn]
    · have hmem : w ∈ us ++ s :: vs := by
        rw [List.mem_append, List.mem_cons, or_left_comm]
        exact .inr hw
      have hstop := hl.sizes w hmem
      have haside := hl.spaced.aside (List.mem_append.mpr hw)
      have hlt := w.lt
      have hs' : w.lo ≠ s.lo := by omega
      have hb' : w.lo ≠ b.lo := by omega
      rw [stop_setSize_of_ne hb', stop_setSize_of_ne hs', hstop]
  zero := by
    have hbase := hl.low s (by simp)
    have hne : base ≠ b.lo := by
      have ht := t.lt
      have hlo := hcut.lo
      have hmid := hcut.mid
      omega
    exact (Function.update_of_ne hne ..).trans ((Function.update_of_ne hbase.ne ..).trans hl.zero)
  low := by
    intro w hw
    rw [List.mem_append, List.mem_cons, or_left_comm] at hw
    rcases hw with rfl | hw
    · rw [hcut.lo]
      exact hl.low s (by simp)
    · refine hl.low w ?_
      rw [List.mem_append, List.mem_cons, or_left_comm]
      exact .inr hw
  spaced := hl.spaced.cut hcut

/-- The upper end of a larger block is cut off. -/
theorem shrink (hl : Listed base h (us ++ s :: vs)) (hn : 0 < nunits) (hlt : nunits < h.size s.lo) :
    ∃ t b : Span, t.lo = s.lo ∧ b.lo = s.lo + HEADER * (h.size s.lo - nunits) ∧
      Carved base h { (h.setSize s.lo (h.size s.lo - nunits)).setSize b.lo nunits with freep := prior base us }
        (us ++ s :: vs) (us ++ t :: vs) b := by
  have hs : h.stop s.lo = s.hi := hl.sizes s (by simp)
  simp only [Heap.stop, HEADER] at hs
  let t : Span := ⟨s.lo, s.lo + HEADER * (h.size s.lo - nunits), by simp only [HEADER]; omega⟩
  let b : Span := ⟨s.lo + HEADER * (h.size s.lo - nunits), s.hi, by simp only [HEADER]; omega⟩
  have hcut : s.Cut t b := ⟨rfl, rfl, rfl⟩
  have hlisted : Listed base ((h.setSize s.lo (h.size s.lo - nunits)).setSize b.lo nunits) (us ++ t :: vs) := hl.cut hcut rfl
  exact ⟨t, b, rfl, rfl, {
    listed := hlisted.congr (fun _ _ => rfl) fun _ _ => rfl
    freep := prior_mem_append base us _
    brk := rfl
    stop := by
      simp only [Heap.stop, Heap.setSize, HEADER, Function.update_self, b]
      omega
    sizes := by
      intro x hx hnode
      have hne : x ≠ s.lo := by
        rintro rfl
        exact hnode (List.mem_cons_of_mem _ (List.mem_map_of_mem (by simp)))
      exact (Function.update_of_ne hx ..).trans (Function.update_of_ne hne ..)
    covers := fun _ => hcut.covers
    apart := hl.spaced.cut_apart hcut
    inside := ⟨s, by simp, Nat.le_add_right .., le_rfl⟩ }⟩

theorem carve_spec (hl : Listed base h xs) (hp : prevp ∈ nodes base xs) (hn : 0 < nunits)
    (hfit : nunits ≤ h.size (h.ptr prevp)) :
    ∃ ys b, (carve h nunits prevp (h.ptr prevp)).1 = b.lo + HEADER ∧ b.hi = b.lo + HEADER * nunits ∧
      Carved base h (carve h nunits prevp (h.ptr prevp)).2 xs ys b := by
  obtain ⟨us, vs, rfl, rfl⟩ := exists_prior hp
  have hnext := hl.halves.2.1
  cases vs with
  | nil =>
      have hzero : h.size (h.ptr (prior base us)) = 0 := by
        rw [hnext]
        exact hl.zero
      omega
  | cons s vs =>
      rw [after_cons] at hnext
      rw [hnext] at hfit ⊢
      have hs : h.stop s.lo = s.hi := hl.sizes s (by simp)
      rcases hfit.eq_or_lt' with heq | hlt
      · rw [carve, if_pos heq]
        refine ⟨us ++ vs, s, rfl, ?_, hl.unlink⟩
        rw [← hs, Heap.stop, heq]
      · obtain ⟨t, b, ht, hb, hcarved⟩ := hl.shrink hn hlt
        have hstart : (h.setSize s.lo (h.size s.lo - nunits)).stop s.lo = b.lo := by
          rw [hb, stop_setSize]
        rw [carve, if_neg hlt.ne']
        simp only [hstart]
        refine ⟨us ++ t :: vs, b, rfl, ?_, hcarved⟩
        rw [← hcarved.stop, Heap.stop]
        simp only [Heap.setSize, Function.update_self]

/-! ## The loop -/

theorem loop_skip {as bs : List Nat} (hc : (prevp :: (as ++ p :: bs)).IsChain fun a b => h.ptr a = b)
    (has : ∀ x ∈ as, h.size x < nunits ∧ x ≠ h.freep) (k : Nat) :
    ∃ q ∈ prevp :: as, h.ptr q = p ∧
      mallocLoop nunits granted (as.length + k) h prevp (h.ptr prevp) = mallocLoop nunits granted k h q p := by
  induction as generalizing prevp with
  | nil =>
      have hp := (List.isChain_cons_cons.mp hc).1
      exact ⟨prevp, List.mem_cons_self, hp, by rw [List.length_nil, Nat.zero_add, hp]⟩
  | cons x as ih =>
      obtain ⟨hx, hrest⟩ := List.isChain_cons_cons.mp hc
      obtain ⟨hsize, hne⟩ := has x List.mem_cons_self
      obtain ⟨q, hq, hptr, heq⟩ := ih hrest fun y hy => has y (List.mem_cons_of_mem x hy)
      refine ⟨q, List.mem_cons_of_mem _ hq, hptr, ?_⟩
      rw [List.length_cons, Nat.add_right_comm, hx, mallocLoop, if_neg (Nat.not_le.mpr hsize), if_neg hne, heq]

/-- The headers in the order in which the loop meets them. -/
theorem exists_round (hl : Listed base h xs) (hfreep : h.freep ∈ nodes base xs) :
    ∃ ws, (h.freep :: (ws ++ [h.freep])).IsChain (fun a b => h.ptr a = b) ∧ h.freep ∉ ws ∧ ws.length = xs.length ∧
      ∀ x, x ∈ ws ∨ x = h.freep ↔ x ∈ nodes base xs := by
  obtain ⟨us, vs, hsplit⟩ := List.append_of_mem hfreep
  have hc := hl.circle.rotate hsplit
  have hnodup : (us ++ h.freep :: vs).Nodup := hsplit ▸ hl.ascending.imp Nat.ne_of_lt
  have hlength := congrArg List.length hsplit
  simp only [nodes, List.length_cons, List.length_map, List.length_append] at hlength
  refine ⟨vs ++ us, by rwa [List.append_assoc], fun hmem => ?_, by simp only [List.length_append]; omega, fun x => ?_⟩
  · obtain ⟨-, hvs, hdisjoint⟩ := List.nodup_append.mp hnodup
    rcases List.mem_append.mp hmem with hmem | hmem
    · exact (List.nodup_cons.mp hvs).1 hmem
    · exact hdisjoint _ hmem _ List.mem_cons_self rfl
  · rw [hsplit]
    simp only [List.mem_append, List.mem_cons]
    tauto

theorem loop_fits (granted : Bool) (hl : Listed base h xs) (hfreep : h.freep ∈ nodes base xs) (hfit : ∃ s ∈ xs, nunits ≤ h.size s.lo)
    {k : Nat} (hk : xs.length < k) :
    ∃ prevp ∈ nodes base xs, nunits ≤ h.size (h.ptr prevp) ∧
      mallocLoop nunits granted k h h.freep (h.ptr h.freep) = some (carve h nunits prevp (h.ptr prevp)) := by
  obtain ⟨ws, hc, hnotMem, hlength, hround⟩ := hl.exists_round hfreep
  obtain ⟨s, hs, hsize⟩ := hfit
  have hmem : s.lo ∈ ws ++ [h.freep] := by
    have hs' := (hround s.lo).mpr (List.mem_cons_of_mem _ (List.mem_map_of_mem hs))
    simpa using hs'
  obtain ⟨p, hfind⟩ := Option.isSome_iff_exists.mp
    (List.find?_isSome (p := fun x => decide (nunits ≤ h.size x)).mpr ⟨s.lo, hmem, decide_eq_true hsize⟩)
  obtain ⟨hp, as, bs, heq, hsmall⟩ := List.find?_eq_some_iff_append.mp hfind
  have hfirst : as <+: ws := by
    rcases List.eq_nil_or_concat bs with rfl | ⟨bs, b, rfl⟩
    · exact (List.append_inj_left' heq rfl) ▸ List.prefix_rfl
    · rw [List.concat_eq_append, ← List.cons_append, ← List.append_assoc] at heq
      exact ⟨p :: bs, (List.append_inj_left' heq rfl).symm⟩
  have has : ∀ x ∈ as, h.size x < nunits ∧ x ≠ h.freep := by
    intro x hx
    refine ⟨?_, fun hfree => hnotMem (hfree ▸ hfirst.subset hx)⟩
    have hno := hsmall x hx
    simp only [Bool.not_eq_true', decide_eq_false_iff_not] at hno
    omega
  rw [heq] at hc
  have hk' : k = as.length + (k - as.length - 1 + 1) := by
    have hle := hfirst.length_le
    omega
  obtain ⟨q, hq, hptr, hloop⟩ := loop_skip hc has (k - as.length - 1 + 1)
  rw [hk', hloop, mallocLoop, if_pos (of_decide_eq_true hp), ← hptr]
  refine ⟨q, ?_, ?_, rfl⟩
  · rcases List.mem_cons.mp hq with rfl | hq
    · exact hfreep
    · exact (hround q).mp (.inl (hfirst.subset hq))
  · rw [hptr]
    exact of_decide_eq_true hp

/-- If there is none, the loop asks for memory when it is back at `freep`. -/
theorem loop_misses (hl : Listed base h xs) (hfreep : h.freep ∈ nodes base xs) (hn : 0 < nunits)
    (hfit : ∀ s ∈ xs, h.size s.lo < nunits) (k : Nat) :
    mallocLoop nunits granted (xs.length + (k + 1)) h h.freep (h.ptr h.freep) =
      (morecore h nunits granted).bind fun (p, h) =>
        if p = 0 then some (0, h) else mallocLoop nunits granted k h p (h.ptr p) := by
  obtain ⟨ws, hc, hnotMem, hlength, hround⟩ := hl.exists_round hfreep
  have hsmall : ∀ x ∈ nodes base xs, h.size x < nunits := by
    intro x hx
    rcases List.mem_cons.mp hx with rfl | hx
    · rw [hl.zero]
      exact hn
    · obtain ⟨s, hs, rfl⟩ := List.mem_map.mp hx
      exact hfit s hs
  obtain ⟨q, -, -, hloop⟩ := loop_skip hc (fun x hx => ⟨hsmall x ((hround x).mp (.inl hx)), ne_of_mem_of_not_mem hx hnotMem⟩)
    (k + 1)
  rw [← hlength, hloop, mallocLoop, if_neg (Nat.not_le.mpr (hsmall _ hfreep)), if_pos rfl]

end Listed

end Xv6Mlfq.Umalloc
