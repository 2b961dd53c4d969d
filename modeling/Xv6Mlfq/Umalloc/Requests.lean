import Xv6Mlfq.Umalloc.Grant

/-!
# One call of `malloc`

A request fails only if no free block is large enough and the kernel refuses.
-/

namespace Xv6Mlfq.Umalloc

open Arenas Links
open Queue (int32 int32_eq_self)

variable {base : Nat} {h h' : Heap} {xs ys : List Span} {b s : Span} {nunits nbytes x a : Nat} {granted : Bool}

/-- A heap whose free blocks are `xs`. -/
structure Ready (base : Nat) (h : Heap) (xs : List Span) : Prop where
  listed : Listed base h xs
  freep : h.freep ∈ nodes base xs
  pos : 0 < base
  above : ∀ s ∈ xs, base + HEADER ≤ s.lo
  below : ∀ s ∈ xs, s.hi ≤ h.brk
  start : base + HEADER ≤ h.brk
  room : h.brk ≤ MEMORY

def least (nunits : Nat) : Nat := if nunits < 4096 then 4096 else nunits

theorem le_least : nunits ≤ least nunits := by
  unfold least
  split_ifs
  · omega
  · exact le_rfl

theorem morecore_eq : morecore h nunits granted = (sbrk h (int32 (least nunits * HEADER)) granted).elim (some (0, h))
    fun x => (free (x.2.setSize x.1 (least nunits)) (x.1 + HEADER)).map fun h => (h.freep, h) := rfl

theorem sbrk_least (hn : HEADER * least nunits < 2 ^ 31) (hpos : 0 < nunits) :
    sbrk h (int32 (least nunits * HEADER)) granted =
      if granted = true ∧ h.brk + HEADER * least nunits ≤ MEMORY then
        some (h.brk, { h with brk := h.brk + HEADER * least nunits })
      else none := by
  have hleast : nunits ≤ least nunits := le_least
  simp only [HEADER] at *
  have hint : int32 ((least nunits : Int) * (16 : Nat)) = (least nunits : Int) * (16 : Nat) :=
    int32_eq_self (by omega) (by omega)
  have hto : ((least nunits : Int) * (16 : Nat)).toNat = 16 * least nunits := by omega
  have hpos' : (0 : Int) < (least nunits : Int) * (16 : Nat) := by omega
  rw [sbrk, hint, if_pos hpos', hto]

/-- The requests whose sizes in bytes are numbers of type `int`. -/
def FITS : Nat := 2 ^ 31 - 32

theorem least_units_lt (hn : nbytes ≤ FITS) : HEADER * least (units nbytes) < 2 ^ 31 := by
  unfold FITS at hn
  unfold least units
  split_ifs
  · simp only [HEADER]
    omega
  · simp only [HEADER] at *
    omega

theorem units_pos : 0 < units nbytes := Nat.succ_pos _

theorem covers_of_mem_nodes (hx : x ∈ nodes base xs) (hne : x ≠ base) : Covers xs x := by
  obtain ⟨s, hs, rfl⟩ := List.mem_map.mp ((List.mem_cons.mp hx).resolve_left hne)
  exact ⟨s, hs, le_rfl, s.lt⟩

namespace Ready

theorem base_lt (hr : Ready base h xs) : base < h.brk := (Nat.lt_add_of_pos_right (by decide)).trans_le hr.start

theorem length_lt (hr : Ready base h xs) : xs.length < MEMORY :=
  (hr.listed.length_lt hr.base_lt hr.below).trans_le hr.room

theorem free (hr : Ready base h xs) (hb : base + HEADER ≤ b.lo) (hhi : b.hi ≤ h.brk) (hbs : ∀ s ∈ xs, b.Apart s)
    (hsize : h.stop b.lo = b.hi) :
    ∃ ys h', free h (b.lo + HEADER) = some h' ∧ Listed.Freed base h h' xs ys b ∧ Ready base h' ys := by
  have hbase : base < b.lo := by
    simp only [HEADER] at hb
    omega
  obtain ⟨ys, h', heq, hfreed⟩ :=
    hr.listed.free_spec hr.freep hbase hbs hsize hr.length_lt
  -- each address of the new list is one of the old list or of the block
  have hold (s : Span) (hs : s ∈ ys) : ∀ a, s.Has a → Covers xs a ∨ b.Has a :=
    fun a ha => (hfreed.covers a).mp ⟨s, hs, ha⟩
  refine ⟨ys, h', heq, hfreed, hfreed.listed, hfreed.freep, hr.pos, fun s hs => ?_, fun s hs => ?_, ?_, ?_⟩
  · rcases hold s hs s.lo ⟨le_rfl, s.lt⟩ with ⟨t, ht, hlo, -⟩ | ⟨hlo, -⟩
    · exact (hr.above t ht).trans hlo
    · exact hb.trans hlo
  · have hlt := s.lt
    rw [hfreed.brk]
    rcases hold s hs (s.hi - 1) ⟨by omega, by omega⟩ with ⟨t, ht, -, hhi'⟩ | ⟨-, hhi'⟩
    · have htop := hr.below t ht
      omega
    · omega
  · rw [hfreed.brk]
    exact hr.start
  · rw [hfreed.brk]
    exact hr.room

end Ready

/-- What `malloc` has done when it gives the block `b`. -/
structure Gave (base : Nat) (h h' : Heap) (xs ys : List Span) (b : Span) : Prop where
  ready : Ready base h' ys
  stop : h'.stop b.lo = b.hi
  brk : h.brk ≤ h'.brk
  /-- Headers outside the free list keep their sizes. -/
  sizes : ∀ x, x ≠ base → x < h.brk → ¬ Covers xs x → h'.size x = h.size x
  covers : ∀ a, Covers xs a ∨ (h.brk ≤ a ∧ a < h'.brk) ↔ Covers ys a ∨ b.Has a
  apart : ∀ s ∈ ys, b.Apart s
  above : base + HEADER ≤ b.lo
  below : b.hi ≤ h'.brk

namespace Ready

theorem loop_fits (granted : Bool) (hr : Ready base h xs) (hn : 0 < nunits) (hfit : ∃ s ∈ xs, nunits ≤ h.size s.lo) {k : Nat}
    (hk : xs.length < k) :
    ∃ ys b h', mallocLoop nunits granted k h h.freep (h.ptr h.freep) = some (b.lo + HEADER, h') ∧
      b.hi = b.lo + HEADER * nunits ∧ h'.brk = h.brk ∧ Gave base h h' xs ys b := by
  obtain ⟨prevp, hprevp, hsize, hloop⟩ := hr.listed.loop_fits granted hr.freep hfit hk
  obtain ⟨ys, b, hfst, hunits, hcarved⟩ := hr.listed.carve_spec hprevp hn hsize
  generalize hx : carve h nunits prevp (h.ptr prevp) = x at *
  obtain ⟨p, h'⟩ := x
  obtain rfl : p = b.lo + HEADER := hfst
  obtain ⟨s, hs, hlo, hhi⟩ := hcarved.inside
  have habove := (hr.above s hs).trans hlo
  have hbelow := hhi.trans (hr.below s hs)
  have hbrk : h'.brk = h.brk := hcarved.brk
  have hcovers (a : Nat) : Covers xs a ↔ Covers ys a ∨ b.Has a := hcarved.covers a
  refine ⟨ys, b, h', hloop, hunits, hbrk, ⟨hcarved.listed, hcarved.freep, hr.pos, fun t ht => ?_, fun t ht => ?_, ?_, ?_⟩,
    hcarved.stop, hbrk.ge, fun x hne _ hcov => ?_, fun a => ?_, hcarved.apart, habove, hbelow.trans_eq hbrk.symm⟩
  · obtain ⟨w, hw, hlow, -⟩ := (hcovers t.lo).mpr (.inl ⟨t, ht, le_rfl, t.lt⟩)
    exact (hr.above w hw).trans hlow
  · have hlt := t.lt
    obtain ⟨w, hw, -, hhiw⟩ := (hcovers (t.hi - 1)).mpr (.inl ⟨t, ht, by omega, by omega⟩)
    have htop := hr.below w hw
    omega
  · rw [hbrk]
    exact hr.start
  · rw [hbrk]
    exact hr.room
  · refine hcarved.sizes x (fun heq => hcov ?_) fun hmem => hcov (covers_of_mem_nodes hmem hne)
    exact (hcovers x).mpr (.inr ⟨heq.ge, heq ▸ b.lt⟩)
  · rw [← hcovers, hbrk, or_iff_left (by omega)]

/-- The memory that the kernel gives joins the list, and makes a block that is large enough. -/
theorem morecore (hr : Ready base h xs) (hn : HEADER * least nunits < 2 ^ 31) (hpos : 0 < nunits)
    (hroom : h.brk + HEADER * least nunits ≤ MEMORY) :
    ∃ ys h', morecore h nunits true = some (h'.freep, h') ∧ Ready base h' ys ∧ (∃ s ∈ ys, nunits ≤ h'.size s.lo) ∧
      h'.brk = h.brk + HEADER * least nunits ∧
        (∀ x, x ≠ base → x < h.brk → ¬ Covers xs x → h'.size x = h.size x) ∧
          ∀ a, Covers ys a ↔ Covers xs a ∨ (h.brk ≤ a ∧ a < h'.brk) := by
  have hleast : nunits ≤ least nunits := le_least
  let b : Span := ⟨h.brk, h.brk + HEADER * least nunits, by simp only [HEADER]; omega⟩
  let g : Heap := { h with brk := h.brk + HEADER * least nunits }.setSize h.brk (least nunits)
  have hbrk : h.brk ∉ nodes base xs := by
    intro hmem
    rcases List.mem_cons.mp hmem with heq | hmem
    · exact hr.base_lt.ne' heq
    · obtain ⟨s, hs, heq⟩ := List.mem_map.mp hmem
      have hlt := s.lt
      have hle := hr.below s hs
      omega
  have hlisted : Listed base g xs :=
    hr.listed.congr (fun _ _ => rfl) fun x hx => Function.update_of_ne (ne_of_mem_of_not_mem hx hbrk) ..
  have hg : Ready base g xs := ⟨hlisted, hr.freep, hr.pos, hr.above,
    fun s hs => (hr.below s hs).trans (Nat.le_add_right ..), hr.start.trans (Nat.le_add_right ..), hroom⟩
  have hstop : g.stop b.lo = b.hi := by
    simp only [g, b, Heap.stop, Heap.setSize, Function.update_self]
  obtain ⟨ys, h', heq, hfreed, hready⟩ := hg.free hr.start le_rfl (fun s hs => .inr (hr.below s hs)) hstop
  have hcall : Umalloc.morecore h nunits true = some (h'.freep, h') := by
    rw [morecore_eq, sbrk_least hn hpos, if_pos ⟨rfl, hroom⟩]
    exact congrArg (Option.map _) heq
  have hcov (a : Nat) : Covers ys a ↔ Covers xs a ∨ b.Has a := hfreed.covers a
  refine ⟨ys, h', hcall, hready, ?_, hfreed.brk, fun x hne hlt hcov => ?_, fun a => ?_⟩
  · obtain ⟨s, hs, hlo, hhi⟩ := hfreed.holds
    have hsize := hready.listed.sizes s hs
    refine ⟨s, hs, ?_⟩
    simp only [Heap.stop, HEADER, b] at hsize hlo hhi
    omega
  · have hnode : x ∉ nodes base xs := fun hmem => hcov (covers_of_mem_nodes hmem hne)
    exact (hfreed.sizes x hlt.ne hnode).trans (Function.update_of_ne hlt.ne ..)
  · rw [hcov, hfreed.brk]
    rfl

theorem morecore_refused (hn : HEADER * least nunits < 2 ^ 31) (hpos : 0 < nunits)
    (hrefused : ¬ (granted = true ∧ h.brk + HEADER * least nunits ≤ MEMORY)) :
    Umalloc.morecore h nunits granted = some (0, h) := by
  rw [morecore_eq, sbrk_least hn hpos, if_neg hrefused]
  rfl

theorem loop_grows (hr : Ready base h xs) (hn : HEADER * least nunits < 2 ^ 31) (hpos : 0 < nunits)
    (hfit : ∀ s ∈ xs, h.size s.lo < nunits) (hroom : h.brk + HEADER * least nunits ≤ MEMORY) :
    ∃ ys b h', mallocLoop nunits true (2 * MEMORY) h h.freep (h.ptr h.freep) = some (b.lo + HEADER, h') ∧
      b.hi = b.lo + HEADER * nunits ∧ Gave base h h' xs ys b := by
  obtain ⟨ys, g, hcall, hready, hlarge, hbrk, hsizes, hcov⟩ := hr.morecore hn hpos hroom
  have hxs := hr.length_lt
  have hys := hready.length_lt
  obtain ⟨zs, b, h', hloop, hunits, hbrk', hgave⟩ :=
    hready.loop_fits true hpos hlarge (show ys.length < 2 * MEMORY - xs.length - 1 by omega)
  have hturns : 2 * MEMORY = xs.length + (2 * MEMORY - xs.length - 1 + 1) := by omega
  have hne : g.freep ≠ 0 := by
    have hpos := hr.pos
    rcases List.mem_cons.mp hready.freep with heq | hmem
    · omega
    · obtain ⟨s, hs, heq⟩ := List.mem_map.mp hmem
      have hlow := hready.listed.low s hs
      omega
  refine ⟨zs, b, h', ?_, hunits, ⟨hgave.ready, hgave.stop, ?_, fun x hx hlt hno => ?_, fun a => ?_, hgave.apart,
    hgave.above, hgave.below⟩⟩
  · rw [hturns, hr.listed.loop_misses hr.freep hpos hfit, hcall, Option.bind_some]
    exact (if_neg hne).trans hloop
  · rw [hbrk', hbrk]
    exact Nat.le_add_right ..
  · have hno' : ¬ Covers ys x := by
      rw [hcov]
      rintro (hx | hx)
      · exact hno hx
      · omega
    exact (hgave.sizes x hx (by omega) hno').trans (hsizes x hx hlt hno)
  · have hcov' := hgave.covers a
    rw [hbrk', or_iff_left (by omega), hcov] at hcov'
    rw [hbrk', hcov']

theorem malloc (hr : Ready base (h.opened base) xs) (hn : nbytes ≤ FITS) (granted : Bool) :
    (∃ ys b h', malloc base h nbytes granted = some (b.lo + HEADER, h') ∧ b.hi = b.lo + HEADER * units nbytes ∧
        Gave base (h.opened base) h' xs ys b ∧
          ((∃ s ∈ xs, units nbytes ≤ (h.opened base).size s.lo) ∧ h'.brk = (h.opened base).brk ∨
            (∀ s ∈ xs, (h.opened base).size s.lo < units nbytes) ∧ granted = true ∧
              (h.opened base).brk + HEADER * least (units nbytes) ≤ MEMORY)) ∨
      (Umalloc.malloc base h nbytes granted = some (0, h.opened base) ∧
        (∀ s ∈ xs, (h.opened base).size s.lo < units nbytes) ∧
          ¬ (granted = true ∧ (h.opened base).brk + HEADER * least (units nbytes) ≤ MEMORY)) := by
  have hlt := least_units_lt hn
  have hxs := hr.length_lt
  by_cases hfit : ∃ s ∈ xs, units nbytes ≤ (h.opened base).size s.lo
  · obtain ⟨ys, b, h', hloop, hunits, hbrk, hgave⟩ :=
      hr.loop_fits granted units_pos hfit (show xs.length < 2 * MEMORY by omega)
    exact .inl ⟨ys, b, h', hloop, hunits, hgave, .inl ⟨hfit, hbrk⟩⟩
  · have hnone : ∀ s ∈ xs, (h.opened base).size s.lo < units nbytes :=
      fun s hs => Nat.lt_of_not_le fun hle => hfit ⟨s, hs, hle⟩
    by_cases hroom : granted = true ∧ (h.opened base).brk + HEADER * least (units nbytes) ≤ MEMORY
    · obtain ⟨rfl, hroom⟩ := hroom
      obtain ⟨ys, b, h', hloop, hunits, hgave⟩ := hr.loop_grows hlt units_pos hnone hroom
      exact .inl ⟨ys, b, h', hloop, hunits, hgave, .inr ⟨hnone, rfl, hroom⟩⟩
    · refine .inr ⟨?_, hnone, hroom⟩
      have hturns : 2 * MEMORY = xs.length + (2 * MEMORY - xs.length - 1 + 1) := by omega
      rw [Umalloc.malloc, hturns, hr.listed.loop_misses hr.freep units_pos hnone,
        morecore_refused hlt units_pos hroom, Option.bind_some]
      exact if_pos rfl

end Ready

end Xv6Mlfq.Umalloc
