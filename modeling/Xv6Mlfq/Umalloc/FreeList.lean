import Mathlib.Data.List.Perm.Subperm
import Xv6Mlfq.Umalloc.Heap

/-!
# The list of free blocks

The free blocks hang in a circle from `base`, in the order of their addresses, and no two of them touch.
-/

namespace Xv6Mlfq.Umalloc

open Arenas Links

variable {base : Nat} {h h' : Heap} {us vs xs : List Span} {b s t : Span} {a p x y : Nat}

def nodes (base : Nat) (xs : List Span) : List Nat := base :: xs.map Span.lo

structure Listed (base : Nat) (h : Heap) (xs : List Span) : Prop where
  circle : Circle h.ptr base (xs.map Span.lo)
  sizes : ∀ s ∈ xs, h.stop s.lo = s.hi
  zero : h.size base = 0
  low : ∀ s ∈ xs, base < s.lo
  spaced : Spaced xs

/-- The last header before a place, and the first one after it. -/
def prior (base : Nat) (us : List Span) : Nat := (us.map Span.lo).getLastD base

def after (base : Nat) (vs : List Span) : Nat := (vs.map Span.lo).headD base

@[simp] theorem prior_nil : prior base [] = base := rfl

@[simp] theorem prior_concat : prior base (us ++ [s]) = s.lo := by simp [prior]

@[simp] theorem after_cons : after base (s :: vs) = s.lo := rfl

theorem prior_mem (base : Nat) (us : List Span) : prior base us ∈ nodes base us := by
  rcases List.eq_nil_or_concat us with rfl | ⟨us, u, rfl⟩
  · exact List.mem_cons_self
  · simp [nodes]

theorem nodes_append (base : Nat) (us vs : List Span) : nodes base (us ++ vs) = nodes base us ++ vs.map Span.lo := by
  simp [nodes]

theorem prior_mem_append (base : Nat) (us vs : List Span) : prior base us ∈ nodes base (us ++ vs) := by
  rw [nodes_append]
  exact List.mem_append_left _ (prior_mem base us)

theorem prior_notMem_dropLast (h : (nodes base us).Pairwise (· < ·)) : prior base us ∉ (nodes base us).dropLast := by
  rcases List.eq_nil_or_concat us with rfl | ⟨us, u, rfl⟩
  · simp [nodes]
  · rw [List.concat_eq_append] at *
    rw [nodes_append] at h ⊢
    rw [prior_concat, List.map_singleton, List.dropLast_concat]
    exact fun hmem => ((List.pairwise_append.mp h).2.2 _ hmem u.lo List.mem_cons_self).ne rfl

namespace Listed

theorem halves (hl : Listed base h (us ++ vs)) : (nodes base us).IsChain (fun a b => h.ptr a = b) ∧
    h.ptr (prior base us) = after base vs ∧ (vs.map Span.lo ++ [base]).IsChain fun a b => h.ptr a = b := by
  have hc := hl.circle
  rw [List.map_append] at hc
  exact Circle.halves.mp hc

theorem ascending (hl : Listed base h xs) : (nodes base xs).Pairwise (· < ·) := by
  refine List.pairwise_cons.mpr ⟨fun x hx => ?_, List.pairwise_map.mpr (hl.spaced.imp fun {s t} hst => s.lt.trans hst)⟩
  obtain ⟨s, hs, rfl⟩ := List.mem_map.mp hx
  exact hl.low s hs

theorem length_lt (hl : Listed base h xs) {m : Nat} (hbase : base < m) (hm : ∀ s ∈ xs, s.hi ≤ m) : xs.length < m := by
  have hnodup : (nodes base xs).Nodup := hl.ascending.imp Nat.ne_of_lt
  have hsub : nodes base xs ⊆ List.range m := by
    intro x hx
    refine List.mem_range.mpr ?_
    rcases List.mem_cons.mp hx with rfl | hx
    · exact hbase
    · obtain ⟨s, hs, rfl⟩ := List.mem_map.mp hx
      exact s.lt.trans_le (hm s hs)
  exact Nat.lt_of_succ_le (by simpa [nodes] using (List.subperm_of_subset hnodup hsub).length_le)

/-- The header after `x` is the next one by address, or `base` after the last one. -/
theorem next (hl : Listed base h xs) (hx : x ∈ nodes base xs) :
    (h.ptr x = base ∧ ∀ y ∈ nodes base xs, y ≤ x) ∨
      (x < h.ptr x ∧ h.ptr x ∈ nodes base xs ∧ ∀ y ∈ nodes base xs, y ≤ x ∨ h.ptr x ≤ y) := by
  obtain ⟨as, bs, hsplit⟩ := List.append_of_mem hx
  have hc := hl.circle.chain hsplit
  have hasc := hl.ascending
  rw [hsplit] at hasc ⊢
  obtain ⟨-, hbs, hbefore⟩ := List.pairwise_append.mp hasc
  have hbelow : ∀ y ∈ as, y < x := fun y hy => hbefore y hy x List.mem_cons_self
  cases bs with
  | nil =>
      refine .inl ⟨(List.isChain_append_cons_cons.mp hc).2.1, fun y hy => ?_⟩
      rcases List.mem_append.mp hy with hy | hy
      · exact (hbelow y hy).le
      · exact (List.mem_singleton.mp hy).le
  | cons w bs =>
      have hw : h.ptr x = w := (List.isChain_append_cons_cons.mp hc).2.1
      obtain ⟨hxbs, hwbs⟩ := List.pairwise_cons.mp hbs
      rw [hw]
      refine .inr ⟨hxbs w List.mem_cons_self, by simp, fun y hy => ?_⟩
      rcases List.mem_append.mp hy with hy | hy
      · exact .inl (hbelow y hy).le
      · rcases List.mem_cons.mp hy with rfl | hy
        · exact .inl le_rfl
        · rcases List.mem_cons.mp hy with rfl | hy
          · exact .inr le_rfl
          · exact .inr ((List.pairwise_cons.mp hwbs).1 y hy).le

/-- The loop of `free` ends at the last header below the block. -/
theorem stops_iff (hl : Listed base h xs) (hx : x ∈ nodes base xs) (hb : base < a) :
    stops h a x = true ↔ x < a ∧ ∀ y ∈ nodes base xs, y ≤ x ∨ a < y := by
  have hbase : base ≤ x := by
    rcases List.mem_cons.mp hx with rfl | hx
    · exact le_rfl
    · obtain ⟨s, hs, rfl⟩ := List.mem_map.mp hx
      exact (hl.low s hs).le
  rw [stops, decide_eq_true_iff]
  rcases hl.next hx with ⟨hptr, hmax⟩ | ⟨hlt, hmem, hgap⟩
  · rw [hptr]
    constructor
    · rintro (h | h)
      · omega
      · exact ⟨by omega, fun y hy => .inl (hmax y hy)⟩
    · rintro ⟨hxa, -⟩
      omega
  · constructor
    · rintro (h | h)
      · refine ⟨h.1, fun y hy => (hgap y hy).imp_right fun hy => ?_⟩
        omega
      · omega
    · rintro ⟨hxa, hno⟩
      have hafter := (hno _ hmem).resolve_left (by omega)
      exact .inl ⟨hxa, hafter⟩

theorem below_or_above (hl : Listed base h (us ++ vs)) (hub : ∀ u ∈ us, u.hi ≤ b.lo) (hbv : ∀ v ∈ vs, b.hi ≤ v.lo)
    (hb : base < b.lo) : prior base us < b.lo ∧ ∀ y ∈ nodes base (us ++ vs), y ≤ prior base us ∨ b.lo < y := by
  have hasc := hl.ascending
  have hlt := b.lt
  rw [nodes_append] at hasc ⊢
  obtain ⟨hleft, -, -⟩ := List.pairwise_append.mp hasc
  have hle : ∀ y ∈ nodes base us, y ≤ prior base us := by
    rcases List.eq_nil_or_concat us with rfl | ⟨us, u, rfl⟩
    · simp [nodes]
    · rw [List.concat_eq_append] at *
      rw [nodes_append] at hleft ⊢
      rw [prior_concat]
      obtain ⟨-, -, hlast⟩ := List.pairwise_append.mp hleft
      intro y hy
      rcases List.mem_append.mp hy with hy | hy
      · exact (hlast y hy u.lo List.mem_cons_self).le
      · exact (List.mem_singleton.mp hy).le
  refine ⟨?_, fun y hy => ?_⟩
  · rcases List.mem_cons.mp (prior_mem base us) with heq | hmem
    · rw [heq]
      exact hb
    · obtain ⟨u, hu, heq⟩ := List.mem_map.mp hmem
      have hule := hub u hu
      have hult := u.lt
      omega
  · rcases List.mem_append.mp hy with hy | hy
    · exact .inl (hle y hy)
    · obtain ⟨v, hv, rfl⟩ := List.mem_map.mp hy
      have hvle := hbv v hv
      exact .inr (by omega)

theorem walk_stops (hl : Listed base h (us ++ vs)) (hub : ∀ u ∈ us, u.hi ≤ b.lo) (hbv : ∀ v ∈ vs, b.hi ≤ v.lo)
    (hb : base < b.lo) (hfreep : h.freep ∈ nodes base (us ++ vs)) {m : Nat} (hm : (us ++ vs).length < m) :
    walk h.ptr (stops h b.lo) m h.freep = some (prior base us) := by
  obtain ⟨hprior, hgap⟩ := hl.below_or_above hub hbv hb
  have hmem := prior_mem_append base us vs
  refine hl.circle.walk hfreep hmem (fun x hx => ?_) (by simpa using hm)
  rw [hl.stops_iff hx hb]
  constructor
  · rintro ⟨hxa, hno⟩
    have h₁ := (hno _ hmem).resolve_right (by omega)
    have h₂ := (hgap x hx).resolve_right (by omega)
    omega
  · rintro rfl
    exact ⟨hprior, hgap⟩

/-- Cells that no header of the list lies at do not matter. -/
theorem congr (hl : Listed base h xs) (hptr : ∀ x ∈ nodes base xs, h'.ptr x = h.ptr x)
    (hsize : ∀ x ∈ nodes base xs, h'.size x = h.size x) : Listed base h' xs where
  circle := by
    refine isChain_congr hl.circle fun c hc => hptr c ?_
    rw [← List.cons_append, List.dropLast_concat] at hc
    exact hc
  sizes s hs := by
    have heq : h'.size s.lo = h.size s.lo := hsize s.lo (List.mem_cons_of_mem _ (List.mem_map_of_mem hs))
    rw [Heap.stop, heq]
    exact hl.sizes s hs
  zero := (hsize base List.mem_cons_self).trans hl.zero
  low := hl.low
  spaced := hl.spaced

/-! ## A block is freed -/

/-- After `linkUp` the block leads to the spans that it has not swallowed. -/
theorem linkUp_spec (hl : Listed base h (us ++ vs)) (hbv : ∀ v ∈ vs, b.hi ≤ v.lo) (hb : base < b.lo)
    (hsize : h.stop b.lo = b.hi) :
    (linkUp h b.lo (prior base us)).ptr b.lo = after base (reach b vs).2 ∧
      (linkUp h b.lo (prior base us)).stop b.lo = (reach b vs).1.hi ∧
        ∀ x, x ≠ b.lo → (linkUp h b.lo (prior base us)).ptr x = h.ptr x ∧
          (linkUp h b.lo (prior base us)).size x = h.size x := by
  have hprior := hl.halves.2.1
  have hlt := b.lt
  have hplain (hne : h.stop b.lo ≠ h.ptr (prior base us)) :
      linkUp h b.lo (prior base us) = h.setPtr b.lo (after base vs) := by
    rw [linkUp, if_neg hne, hprior]
  cases vs with
  | nil =>
      have hne : h.stop b.lo ≠ h.ptr (prior base us) := by
        rw [hprior, hsize]
        exact (hb.trans hlt).ne'
      rw [hplain hne]
      exact ⟨Function.update_self .., hsize, fun x hx => ⟨Function.update_of_ne hx .., rfl⟩⟩
  | cons v vs =>
      by_cases htouch : b.hi = v.lo
      · have hv := hl.sizes v (by simp)
        have hvlt := v.lt
        have hnext : h.ptr v.lo = after base vs := by
          have hlv : Listed base h ((us ++ [v]) ++ vs) := by simpa using hl
          simpa using hlv.halves.2.1
        have heq : h.stop b.lo = h.ptr (prior base us) := by
          rw [hprior, hsize]
          exact htouch
        have hup : linkUp h b.lo (prior base us) =
            (h.setSize b.lo (h.size b.lo + h.size v.lo)).setPtr b.lo (after base vs) := by
          rw [linkUp, if_pos heq, hprior, after_cons, hnext]
        have hreach : reach b (v :: vs) = (b.fuse v, vs) := if_pos htouch
        rw [hup, hreach]
        refine ⟨Function.update_self .., ?_, fun x hx => ⟨Function.update_of_ne hx .., Function.update_of_ne hx ..⟩⟩
        simp only [Heap.stop, HEADER] at hsize hv
        simp only [Heap.stop, HEADER, Heap.setPtr, Heap.setSize, Function.update_self, Span.fuse]
        omega
      · have hne : h.stop b.lo ≠ h.ptr (prior base us) := by
          rw [hprior, hsize]
          exact htouch
        have hreach : reach b (v :: vs) = (b, v :: vs) := if_neg htouch
        rw [hplain hne, hreach]
        exact ⟨Function.update_self .., hsize, fun x hx => ⟨Function.update_of_ne hx .., rfl⟩⟩

/-- Two halves of a list, the first of which ends at the header `p`, are linked. -/
theorem of_halves {ws : List Span} (hus : (nodes base us).IsChain fun a b => h.ptr a = b)
    (hlink : h.ptr (prior base us) = after base ws) (hws : (ws.map Span.lo ++ [base]).IsChain fun a b => h.ptr a = b)
    (hsizes : ∀ s ∈ us ++ ws, h.stop s.lo = s.hi) (hzero : h.size base = 0) (hlow : ∀ s ∈ us ++ ws, base < s.lo)
    (hspaced : Spaced (us ++ ws)) : Listed base h (us ++ ws) where
  circle := by
    rw [List.map_append]
    exact Circle.halves.mpr ⟨hus, hlink, hws⟩
  sizes := hsizes
  zero := hzero
  low := hlow
  spaced := hspaced

/-- What `linkDown` needs to know: the list up to `p`, and the block with the spans behind it. -/
structure Parts (base : Nat) (h : Heap) (us : List Span) (b : Span) (ws : List Span) : Prop where
  left : (nodes base us).IsChain fun a b => h.ptr a = b
  right : (ws.map Span.lo ++ [base]).IsChain fun a b => h.ptr a = b
  block : h.ptr b.lo = after base ws
  stop : h.stop b.lo = b.hi
  sizes : ∀ s ∈ us ++ ws, h.stop s.lo = s.hi
  zero : h.size base = 0
  low : ∀ s ∈ us ++ b :: ws, base < s.lo
  spaced : Spaced (attach us b ws)
  ascending : (nodes base us ++ b.lo :: ws.map Span.lo).Pairwise (· < ·)

theorem chain_update {l : List Nat} {v : Nat} (hc : l.IsChain fun a b => h.ptr a = b) (hp : p ∉ l.dropLast) :
    l.IsChain fun a b => (h.setPtr p v).ptr a = b :=
  isChain_congr hc fun _ hmem => Function.update_of_ne (ne_of_mem_of_not_mem hmem hp) ..

theorem Parts.behind {ws : List Span} (hp : Parts base h us b ws) :
    (b.lo :: ws.map Span.lo ++ [base]).IsChain fun a b => h.ptr a = b := by
  have hright := hp.right
  have hblock := hp.block
  cases ws with
  | nil => exact .cons_cons hblock (.singleton base)
  | cons w ws => exact .cons_cons hblock hright

theorem Parts.prior_notMem {ws : List Span} (hp : Parts base h us b ws) :
    prior base us ∉ (nodes base us).dropLast ∧ ∀ x ∈ b.lo :: ws.map Span.lo, x ≠ prior base us := by
  obtain ⟨hus, -, hasc⟩ := List.pairwise_append.mp hp.ascending
  exact ⟨prior_notMem_dropLast hus, fun x hx => (hasc _ (prior_mem base us) x hx).ne'⟩

theorem Parts.link {ws : List Span} (hp : Parts base h us b ws) (hspaced : Spaced (us ++ b :: ws)) :
    Listed base (h.setPtr (prior base us) b.lo) (us ++ b :: ws) := by
  obtain ⟨hleft, hright⟩ := hp.prior_notMem
  refine of_halves (chain_update hp.left hleft) (Function.update_self ..) ?_ (fun s hs => ?_) hp.zero hp.low hspaced
  · refine chain_update hp.behind fun hmem => ?_
    rw [List.dropLast_concat] at hmem
    exact hright _ hmem rfl
  · rcases List.mem_append.mp hs with hs | hs
    · exact hp.sizes s (List.mem_append_left _ hs)
    · rcases List.mem_cons.mp hs with rfl | hs
      · exact hp.stop
      · exact hp.sizes s (List.mem_append_right _ hs)

theorem Parts.swallow {ws : List Span} (hp : Parts base h (us ++ [u]) b ws) (htouch : u.hi = b.lo)
    (hspaced : Spaced (us ++ u.fuse b :: ws)) :
    Listed base ((h.setSize u.lo (h.size u.lo + h.size b.lo)).setPtr u.lo (after base ws)) (us ++ u.fuse b :: ws) := by
  obtain ⟨hleft, hright⟩ := hp.prior_notMem
  rw [prior_concat] at hleft hright
  have hnodes : nodes base (us ++ [u.fuse b]) = nodes base (us ++ [u]) := by simp [nodes, Span.fuse]
  have hsplit : us ++ u.fuse b :: ws = (us ++ [u.fuse b]) ++ ws := by simp
  have hasc := hp.ascending
  rw [hsplit] at hspaced ⊢
  have hother (s : Span) (hs : s ∈ us ∨ s ∈ ws) : s.lo ≠ u.lo := by
    rcases hs with hs | hs
    · have hus := (List.pairwise_append.mp hasc).1
      rw [nodes_append] at hus
      exact ((List.pairwise_append.mp hus).2.2 s.lo (List.mem_cons_of_mem _ (List.mem_map_of_mem hs)) u.lo
        List.mem_cons_self).ne
    · exact hright s.lo (List.mem_cons_of_mem _ (List.mem_map_of_mem hs))
  have hbase : base ≠ u.lo := (hp.low u (by simp)).ne
  refine of_halves ?_ ?_ ?_ (fun s hs => ?_) ?_ (fun s hs => ?_) hspaced
  · rw [hnodes]
    exact chain_update (h := h.setSize u.lo _) hp.left hleft
  · rw [prior_concat]
    exact Function.update_self ..
  · refine chain_update (h := h.setSize u.lo _) hp.right fun hmem => ?_
    rw [List.dropLast_concat] at hmem
    exact hright _ (List.mem_cons_of_mem _ hmem) rfl
  · have hplain (hs : s ∈ us ∨ s ∈ ws) : ((h.setSize u.lo (h.size u.lo + h.size b.lo)).setPtr u.lo
        (after base ws)).stop s.lo = s.hi := by
      have hsize : Function.update h.size u.lo (h.size u.lo + h.size b.lo) s.lo = h.size s.lo :=
        Function.update_of_ne (hother s hs) ..
      have hstop : h.stop s.lo = s.hi := hp.sizes s (by simpa using hs.elim (fun h => .inl h) fun h => .inr (.inr h))
      simpa only [Heap.stop, Heap.setPtr, Heap.setSize, hsize] using hstop
    rcases List.mem_append.mp hs with hs | hs
    · rcases List.mem_append.mp hs with hs | hs
      · exact hplain (.inl hs)
      · obtain rfl := List.mem_singleton.mp hs
        have hu := hp.sizes u (by simp)
        have hb := hp.stop
        have hblt := b.lt
        simp only [Heap.stop, HEADER] at hu hb
        simp only [Heap.stop, HEADER, Heap.setPtr, Heap.setSize, Span.fuse, Function.update_self]
        omega
    · exact hplain (.inr hs)
  · exact (Function.update_of_ne hbase ..).trans hp.zero
  · simp only [List.append_assoc, List.singleton_append, List.mem_append, List.mem_cons] at hs
    rcases hs with hs | rfl | hs
    · exact hp.low s (by simp [hs])
    · exact hp.low u (by simp)
    · exact hp.low s (by simp [hs])

theorem Parts.linkDown {ws : List Span} (hp : Parts base h us b ws) :
    Listed base (linkDown h b.lo (prior base us)) (attach us b ws) := by
  have hspaced := hp.spaced
  rcases List.eq_nil_or_concat us with rfl | ⟨us, u, rfl⟩
  · have hne : h.stop base ≠ b.lo := by
      have hbase := hp.low b (by simp)
      rw [Heap.stop, hp.zero]
      exact hbase.ne
    have hdown : Umalloc.linkDown h b.lo (prior base []) = h.setPtr (prior base []) b.lo := if_neg hne
    rw [hdown]
    exact hp.link hspaced
  · rw [List.concat_eq_append] at *
    have hu := hp.sizes u (by simp)
    rw [attach_append] at hspaced ⊢
    by_cases htouch : u.hi = b.lo
    · have hattach : attach [u] b ws = u.fuse b :: ws := if_pos htouch
      have hdown : Umalloc.linkDown h b.lo (prior base (us ++ [u])) =
          (h.setSize u.lo (h.size u.lo + h.size b.lo)).setPtr u.lo (after base ws) := by
        rw [Umalloc.linkDown, prior_concat, if_pos (hu.trans htouch), hp.block]
      rw [hattach] at hspaced ⊢
      rw [hdown]
      exact hp.swallow htouch hspaced
    · have hattach : attach [u] b ws = u :: b :: ws := if_neg htouch
      have hdown : Umalloc.linkDown h b.lo (prior base (us ++ [u])) = h.setPtr (prior base (us ++ [u])) b.lo :=
        if_neg (by rw [prior_concat, hu]; exact htouch)
      have hsplit : us ++ u :: b :: ws = (us ++ [u]) ++ b :: ws := by simp
      rw [hattach, hsplit] at hspaced ⊢
      rw [hdown]
      exact hp.link hspaced

theorem prior_mem_attach (base : Nat) (us : List Span) (b : Span) (ws : List Span) :
    prior base us ∈ nodes base (attach us b ws) := by
  rcases List.eq_nil_or_concat us with rfl | ⟨us, u, rfl⟩
  · exact List.mem_cons_self
  · rw [List.concat_eq_append, prior_concat, attach_append]
    by_cases htouch : u.hi = b.lo
    · simp [nodes, attach, htouch, Span.fuse]
    · simp [nodes, attach, htouch]

theorem parts (hl : Listed base h (us ++ vs)) (hub : ∀ u ∈ us, u.hi ≤ b.lo) (hbv : ∀ v ∈ vs, b.hi ≤ v.lo)
    (hb : base < b.lo) (hsize : h.stop b.lo = b.hi) :
    Parts base (linkUp h b.lo (prior base us)) us (reach b vs).1 (reach b vs).2 := by
  obtain ⟨hblock, hstop, hframe⟩ := hl.linkUp_spec hbv hb hsize
  obtain ⟨hleft, -, hright⟩ := hl.halves
  have hlt := b.lt
  have hsub : ∀ s ∈ (reach b vs).2, s ∈ vs := fun s hs => (reach_suffix b vs).subset hs
  have hus : ∀ x ∈ nodes base us, x < b.lo := by
    intro x hx
    rcases List.mem_cons.mp hx with rfl | hx
    · exact hb
    · obtain ⟨u, hu, rfl⟩ := List.mem_map.mp hx
      exact u.lt.trans_le (hub u hu)
  have hws : ∀ s ∈ (reach b vs).2, b.lo < s.lo := fun s hs => hlt.trans_le (hbv s (hsub s hs))
  have hsame : ∀ s ∈ us ++ (reach b vs).2, s.lo ≠ b.lo := by
    intro s hs
    rcases List.mem_append.mp hs with hs | hs
    · exact (hus s.lo (List.mem_cons_of_mem _ (List.mem_map_of_mem hs))).ne
    · exact (hws s hs).ne'
  have hmem : ∀ s ∈ us ++ (reach b vs).2, s ∈ us ++ vs := by
    intro s hs
    rcases List.mem_append.mp hs with hs | hs
    · exact List.mem_append_left _ hs
    · exact List.mem_append_right _ (hsub s hs)
  refine ⟨?_, ?_, ?_, ?_, fun s hs => ?_, ?_, fun s hs => ?_, join_spaced hl.spaced hub hbv, ?_⟩
  · exact isChain_congr hleft fun x hx => (hframe x (hus x (List.dropLast_subset _ hx)).ne).1
  · have hsuffix : (reach b vs).2.map Span.lo ++ [base] <:+ vs.map Span.lo ++ [base] := by
      obtain ⟨t, ht⟩ := reach_suffix b vs
      exact ⟨t.map Span.lo, by rw [← List.append_assoc, ← List.map_append, ht]⟩
    refine isChain_congr (hright.suffix hsuffix) fun x hx => ?_
    rw [List.dropLast_concat] at hx
    obtain ⟨s, hs, rfl⟩ := List.mem_map.mp hx
    exact (hframe s.lo (hws s hs).ne').1
  · rw [reach_lo]
    exact hblock
  · rw [reach_lo]
    exact hstop
  · rw [Heap.stop, (hframe s.lo (hsame s hs)).2]
    exact hl.sizes s (hmem s hs)
  · exact (hframe base hb.ne).2.trans hl.zero
  · rcases List.mem_append.mp hs with hs | hs
    · exact hl.low s (List.mem_append_left _ hs)
    · rcases List.mem_cons.mp hs with rfl | hs
      · rw [reach_lo]
        exact hb
      · exact hl.low s (List.mem_append_right _ (hsub s hs))
  · have hasc := hl.ascending
    rw [nodes_append] at hasc
    obtain ⟨hleft, hvs, -⟩ := List.pairwise_append.mp hasc
    have hrest := hvs.sublist ((reach_suffix b vs).sublist.map Span.lo)
    rw [reach_lo]
    refine List.pairwise_append.mpr ⟨hleft, List.pairwise_cons.mpr ⟨fun x hx => ?_, hrest⟩, fun x hx y hy => ?_⟩
    · obtain ⟨s, hs, rfl⟩ := List.mem_map.mp hx
      exact hws s hs
    · rcases List.mem_cons.mp hy with rfl | hy
      · exact hus x hx
      · obtain ⟨s, hs, rfl⟩ := List.mem_map.mp hy
        exact (hus x hx).trans (hws s hs)

/-- What `free` does: the block joins the list. -/
structure Freed (base : Nat) (h h' : Heap) (xs ys : List Span) (b : Span) : Prop where
  listed : Listed base h' ys
  freep : h'.freep ∈ nodes base ys
  brk : h'.brk = h.brk
  sizes : ∀ x, x ≠ b.lo → x ∉ nodes base xs → h'.size x = h.size x
  covers : ∀ a, Covers ys a ↔ Covers xs a ∨ b.Has a
  holds : ∃ s ∈ ys, s.lo ≤ b.lo ∧ b.hi ≤ s.hi

theorem linkDown_size (hx : x ≠ p) : (Umalloc.linkDown h a p).size x = h.size x := by
  unfold Umalloc.linkDown
  split_ifs
  · exact Function.update_of_ne hx ..
  · rfl

theorem linkDown_brk : (Umalloc.linkDown h a p).brk = h.brk := by
  unfold Umalloc.linkDown
  split_ifs
  · rfl
  · rfl

theorem linkUp_brk : (linkUp h a p).brk = h.brk := by
  unfold linkUp
  split_ifs
  · rfl
  · rfl

theorem free_spec (hl : Listed base h xs) (hfreep : h.freep ∈ nodes base xs) (hb : base < b.lo)
    (hbs : ∀ s ∈ xs, b.Apart s) (hsize : h.stop b.lo = b.hi) (hm : xs.length < MEMORY) :
    ∃ ys h', free h (b.lo + HEADER) = some h' ∧ Freed base h h' xs ys b := by
  obtain ⟨us, vs, rfl, hub, hbv⟩ := hl.spaced.split hbs
  have hparts := hl.parts hub hbv hb hsize
  obtain ⟨-, -, hframe⟩ := hl.linkUp_spec hbv hb hsize
  have hdown := hparts.linkDown
  rw [reach_lo] at hdown
  refine ⟨join us b vs, { linkDown (linkUp h b.lo (prior base us)) b.lo (prior base us) with freep := prior base us },
    ?_, ?_, ?_, ?_, fun x hx hnode => ?_, fun a => join_covers hub hbv, exists_mem_join hub⟩
  · have hwalk := hl.walk_stops hub hbv hb hfreep hm
    simp only [free, Nat.add_sub_cancel, hwalk, Option.map_some]
  · exact hdown.congr (fun _ _ => rfl) fun _ _ => rfl
  · exact prior_mem_attach base us (reach b vs).1 (reach b vs).2
  · exact linkDown_brk.trans linkUp_brk
  · have hprior : x ≠ prior base us := by
      rintro rfl
      exact hnode (prior_mem_append base us vs)
    exact (linkDown_size hprior).trans (hframe x hx).2

end Listed

end Xv6Mlfq.Umalloc
