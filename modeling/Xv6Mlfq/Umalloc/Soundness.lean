import Mathlib.Data.List.Forall2
import Xv6Mlfq.Umalloc.Requests

/-!
# The blocks of a program

Each pointer of the program has a block of its own. A byte that `malloc` has got from the kernel is in one block, which
is free or belongs to the program.
-/

namespace Xv6Mlfq.Umalloc

open Arenas Links Runs

variable {base brk nbytes : Nat} {h h' : Heap} {s t : System} {xs ys bs : List Span} {b c : Span} {x : Nat × Nat}
  {tr : List (Transition System Event)} {granted : Bool}

/-! ## The list before the first call -/

@[simp] theorem opened_brk : (h.opened base).brk = h.brk := by
  unfold Heap.opened
  split_ifs
  · rfl
  · rfl

theorem opened_of_ne (hne : h.freep ≠ 0) : h.opened base = h := if_neg hne

theorem opened_size {a : Nat} (ha : a ≠ base) : (h.opened base).size a = h.size a := by
  unfold Heap.opened
  split_ifs
  · exact Function.update_of_ne ha ..
  · rfl

theorem opened_setBrk (v : Nat) : Heap.opened base { h with brk := v } = { h.opened base with brk := v } := by
  unfold Heap.opened
  split_ifs
  · rfl
  · rfl

theorem Ready.freep_ne (hr : Ready base h xs) : h.freep ≠ 0 := by
  have hpos := hr.pos
  rcases List.mem_cons.mp hr.freep with heq | hmem
  · omega
  · obtain ⟨s, hs, heq⟩ := List.mem_map.mp hmem
    have hlow := hr.listed.low s hs
    omega

theorem ready_boot (hbase : 0 < base) (hstart : base + HEADER ≤ brk) (hroom : brk ≤ MEMORY) :
    Ready base ((boot brk).heap.opened base) [] where
  listed := ⟨.cons_cons (Function.update_self ..) (.singleton base), by simp, Function.update_self .., by simp,
    List.Pairwise.nil⟩
  freep := List.mem_cons_self
  pos := hbase
  above := by simp
  below := by simp
  start := by rwa [opened_brk]
  room := by rwa [opened_brk]

/-! ## The invariant -/

/-- The block of the pointer `x.1`, with the `x.2` bytes that the program has asked for. -/
structure Block (h : Heap) (b : Span) (x : Nat × Nat) : Prop where
  start : x.1 = b.lo + HEADER
  stop : h.stop b.lo = b.hi
  fits : x.1 + x.2 ≤ b.hi

theorem Block.congr (hb : Block h b x) (hsize : h'.size b.lo = h.size b.lo) : Block h' b x := by
  refine ⟨hb.start, ?_, hb.fits⟩
  rw [Heap.stop, hsize]
  exact hb.stop

structure Holds (base : Nat) (s : System) (xs bs : List Span) : Prop where
  ready : Ready base (s.heap.opened base) xs
  blocks : List.Forall₂ (Block s.heap) bs s.live
  apart : bs.Pairwise Span.Apart
  outside : ∀ b ∈ bs, ∀ f ∈ xs, b.Apart f
  above : ∀ b ∈ bs, base + HEADER ≤ b.lo
  below : ∀ b ∈ bs, b.hi ≤ s.heap.brk
  fresh : s.heap.freep = 0 → s.live = []

namespace Holds

theorem boot (hbase : 0 < base) (hstart : base + HEADER ≤ brk) (hroom : brk ≤ MEMORY) :
    Holds base (Umalloc.boot brk) [] [] where
  ready := ready_boot hbase hstart hroom
  blocks := .nil
  apart := .nil
  outside := by simp
  above := by simp
  below := by simp
  fresh _ := rfl

theorem base_lt (hs : Holds base s xs bs) (hb : b ∈ bs) : base < b.lo :=
  (Nat.lt_add_of_pos_right (by decide)).trans_le (hs.above b hb)

theorem not_covers (hs : Holds base s xs bs) (hb : b ∈ bs) {a : Nat} (ha : b.Has a) : ¬ Covers xs a :=
  fun ⟨f, hf, hfa⟩ => (hs.outside b hb f hf).not_has ha hfa

theorem lo_notMem (hs : Holds base s xs bs) (hb : b ∈ bs) : b.lo ∉ nodes base xs :=
  fun hmem => hs.not_covers hb ⟨le_rfl, b.lt⟩ (covers_of_mem_nodes hmem (hs.base_lt hb).ne')

theorem opened (hs : Holds base s xs bs) (hx : x ∈ s.live) : s.heap.opened base = s.heap :=
  opened_of_ne fun heq => List.ne_nil_of_mem hx (hs.fresh heq)

/-- The blocks of the program are not touched by what keeps the sizes outside the list. -/
theorem blocks_congr (hs : Holds base s xs bs) (hsize : ∀ b ∈ bs, h'.size b.lo = s.heap.size b.lo) :
    List.Forall₂ (Block h') bs s.live :=
  ((List.forall₂_and_left _ _).mpr ⟨hsize, hs.blocks⟩).imp fun _ _ hb => hb.2.congr hb.1

theorem exists_block (hs : Holds base s xs bs) (hx : x ∈ s.live) : ∃ b ∈ bs, Block s.heap b x := by
  obtain ⟨i, hi, rfl⟩ := List.mem_iff_getElem.mp hx
  obtain ⟨hlength, hall⟩ := List.forall₂_iff_get.mp hs.blocks
  exact ⟨bs.get ⟨i, hlength ▸ hi⟩, List.get_mem .., hall i (hlength ▸ hi) hi⟩

theorem eq_of_has (hs : Holds base s xs bs) (hb : b ∈ bs) (hc : c ∈ bs) {a : Nat} (hba : b.Has a) (hca : c.Has a) :
    b = c := by
  by_contra hne
  exact (hs.apart.forall hb hc hne).not_has hba hca

theorem gave {own : Nat} (hs : Holds base s xs bs) (hg : Gave base (s.heap.opened base) h' xs ys b)
    (hunits : b.hi = b.lo + HEADER * units nbytes) :
    Holds base ⟨h', (b.lo + HEADER, nbytes) :: s.live, own⟩ ys (b :: bs) := by
  have hne := hg.ready.freep_ne
  have hbrk := hg.brk
  have hcov := hg.covers
  rw [opened_brk] at hbrk
  simp only [opened_brk] at hcov
  have hold {c : Span} (hc : c ∈ bs) {a : Nat} (ha : c.Has a) : ¬ (Covers ys a ∨ b.Has a) := by
    rw [← hcov]
    rintro (hx | hx)
    · exact hs.not_covers hc ha hx
    · have htop := hs.below c hc
      have hlt := ha.2
      omega
  refine ⟨?_, .cons ⟨rfl, hg.stop, ?_⟩ (hs.blocks_congr fun c hc => ?_), List.pairwise_cons.mpr ⟨fun c hc => ?_, hs.apart⟩,
    fun c hc f hf => ?_, fun c hc => ?_, fun c hc => ?_, fun heq => absurd heq hne⟩
  · rw [opened_of_ne hne]
    exact hg.ready
  · rw [hunits]
    simp only [units, HEADER]
    omega
  · have hlo : c.Has c.lo := ⟨le_rfl, c.lt⟩
    have hbelow := c.lt.trans_le (hs.below c hc)
    rw [hg.sizes c.lo (hs.base_lt hc).ne' (by rwa [opened_brk]) (hs.not_covers hc hlo), opened_size (hs.base_lt hc).ne']
  · exact Span.apart_of_not_has fun a hb ha => hold hc ha (.inr hb)
  · rcases List.mem_cons.mp hc with rfl | hc
    · exact hg.apart f hf
    · exact Span.apart_of_not_has fun a hca hfa => hold hc hca (.inl ⟨f, hf, hfa⟩)
  · rcases List.mem_cons.mp hc with rfl | hc
    · exact hg.above
    · exact hs.above c hc
  · rcases List.mem_cons.mp hc with rfl | hc
    · exact hg.below
    · exact (hs.below c hc).trans hbrk

theorem refused {own : Nat} (hs : Holds base s xs bs) :
    Holds base { s with heap := s.heap.opened base, own := own } xs bs := by
  have hne := hs.ready.freep_ne
  refine ⟨?_, hs.blocks_congr fun b hb => opened_size (hs.base_lt hb).ne', hs.apart, hs.outside, hs.above, fun b hb => ?_,
    fun heq => absurd heq hne⟩
  · rw [opened_of_ne hne]
    exact hs.ready
  · rw [opened_brk]
    exact hs.below b hb

/-- The memory of the process ends elsewhere, but behind all blocks. -/
theorem resized (hs : Holds base s xs bs) {v own : Nat} (hstart : base + HEADER ≤ v)
    (hkept : ∀ a, Covers xs a ∨ Covers bs a → a < v) (hroom : v ≤ MEMORY) :
    Holds base { s with heap := { s.heap with brk := v }, own := own } xs bs := by
  have hr := hs.ready
  refine ⟨?_, hs.blocks_congr fun _ _ => rfl, hs.apart, hs.outside, hs.above, fun b hb => ?_, hs.fresh⟩
  · rw [opened_setBrk]
    refine ⟨hr.listed.congr (fun _ _ => rfl) fun _ _ => rfl, hr.freep, hr.pos, hr.above, fun f hf => ?_, hstart, hroom⟩
    have hlt := hkept _ (.inl ⟨f, hf, f.has_last⟩)
    dsimp only
    omega
  · have hlt := hkept _ (.inr ⟨b, hb, b.has_last⟩)
    dsimp only
    omega

/-- The program writes to its bytes, where no header is. -/
theorem written (hs : Holds base s xs bs) {a p n : Nat} (hx : x ∈ s.live) (hlow : x.1 < a + HEADER) (hhigh : a < x.1 + x.2) :
    Holds base { s with heap := (s.heap.setPtr a p).setSize a n } xs bs := by
  obtain ⟨b, hb, hbx⟩ := hs.exists_block hx
  have hstart := hbx.start
  have hfits := hbx.fits
  have hin : b.lo < a ∧ a < b.hi := by omega
  have hnode : a ∉ nodes base xs := by
    intro hmem
    have hbase := hs.base_lt hb
    exact hs.not_covers hb ⟨hin.1.le, hin.2⟩ (covers_of_mem_nodes hmem (hbase.trans hin.1).ne')
  have hblock (c : Span) (hc : c ∈ bs) : c.lo ≠ a := by
    rintro rfl
    obtain rfl := hs.eq_of_has hb hc ⟨hin.1.le, hin.2⟩ ⟨le_rfl, c.lt⟩
    exact hin.1.ne rfl
  have hopen := hs.opened hx
  have hr := hs.ready
  rw [hopen] at hr
  refine ⟨?_, hs.blocks_congr fun c hc => Function.update_of_ne (hblock c hc) .., hs.apart, hs.outside, hs.above, hs.below,
    hs.fresh⟩
  rw [opened_of_ne (show ((s.heap.setPtr a p).setSize a n).freep ≠ 0 from hr.freep_ne)]
  exact ⟨hr.listed.congr (fun y hy => Function.update_of_ne (ne_of_mem_of_not_mem hy hnode) ..)
    fun y hy => Function.update_of_ne (ne_of_mem_of_not_mem hy hnode) .., hr.freep, hr.pos, hr.above, hr.below, hr.start,
    hr.room⟩

theorem freed (hs : Holds base s xs bs) {ap : Nat} (hap : ap ∈ s.live.map Prod.fst) :
    ∃ ys cs h', free s.heap ap = some h' ∧ Holds base ⟨h', s.live.filter fun x => x.1 ≠ ap, s.own⟩ ys cs ∧
      h'.brk = s.heap.brk ∧ ∀ a, Covers ys a ∨ Covers cs a ↔ Covers xs a ∨ Covers bs a := by
  obtain ⟨x, hx, rfl⟩ := List.mem_map.mp hap
  obtain ⟨b, hb, hbx⟩ := hs.exists_block hx
  have hopen := hs.opened hx
  have hr := hs.ready
  rw [hopen] at hr
  obtain ⟨ys, h', heq, hfreed, hready⟩ := hr.free (hs.above b hb) (hs.below b hb) (hs.outside b hb) hbx.stop
  have hcov (a : Nat) : Covers ys a ↔ Covers xs a ∨ b.Has a := hfreed.covers a
  -- the other blocks are those that do not start at `b.lo`
  have hsame (c : Span) (hc : c ∈ bs) : c.lo + HEADER = x.1 ↔ c = b := by
    rw [hbx.start]
    constructor
    · intro heq
      have hlo : c.lo = b.lo := Nat.add_right_cancel heq
      exact hs.eq_of_has hc hb ⟨le_rfl, c.lt⟩ ⟨hlo.ge, hlo ▸ b.lt⟩
    · rintro rfl
      rfl
  have hmem (c : Span) : c ∈ bs.filter (fun c => c.lo + HEADER ≠ x.1) ↔ c ∈ bs ∧ c ≠ b := by
    simp only [List.mem_filter, decide_eq_true_eq, ne_eq]
    exact and_congr_right fun hc => not_congr (hsame c hc)
  have hlo (c : Span) (hc : c ∈ bs ∧ c ≠ b) : c.lo ≠ b.lo :=
    fun heq => hc.2 (hs.eq_of_has hc.1 hb ⟨le_rfl, c.lt⟩ ⟨heq.ge, heq ▸ b.lt⟩)
  refine ⟨ys, bs.filter fun c => c.lo + HEADER ≠ x.1, h', hbx.start ▸ heq, ⟨?_, ?_, hs.apart.filter _, fun c hc f hf => ?_,
    fun c hc => hs.above c ((hmem c).mp hc).1, fun c hc => ?_, fun heq => absurd heq hready.freep_ne⟩, hfreed.brk,
    fun a => ?_⟩
  · rw [opened_of_ne hready.freep_ne]
    exact hready
  · have hfilter : List.Forall₂ (Block s.heap) (bs.filter fun c => c.lo + HEADER ≠ x.1)
        (s.live.filter fun y => y.1 ≠ x.1) :=
      List.rel_filter (fun c y hcy => by simp only [hcy.start]) hs.blocks
    refine ((List.forall₂_and_left _ _).mpr ⟨fun c hc => ?_, hfilter⟩).imp fun _ _ hb => hb.2.congr hb.1
    have hc' := (hmem c).mp hc
    exact hfreed.sizes c.lo (hlo c hc') (hs.lo_notMem hc'.1)
  · obtain ⟨hcbs, hne⟩ := (hmem c).mp hc
    refine Span.apart_of_not_has fun a hca hfa => ?_
    rcases (hcov a).mp ⟨f, hf, hfa⟩ with hx | hba
    · exact hs.not_covers hcbs hca hx
    · exact hne (hs.eq_of_has hcbs hb hca hba)
  · rw [hfreed.brk]
    exact hs.below c ((hmem c).mp hc).1
  · have hblocks : Covers bs a ↔ b.Has a ∨ Covers (bs.filter fun c => c.lo + HEADER ≠ x.1) a := by
      constructor
      · rintro ⟨c, hc, hca⟩
        by_cases heq : c = b
        · exact .inl (heq ▸ hca)
        · exact .inr ⟨c, (hmem c).mpr ⟨hc, heq⟩, hca⟩
      · rintro (hba | ⟨c, hc, hca⟩)
        · exact ⟨b, hb, hba⟩
        · exact ⟨c, ((hmem c).mp hc).1, hca⟩
    rw [hcov, hblocks, or_assoc]

theorem sbrk_moves {n : Int} {p own : Nat} (hcall : sbrk h n granted = some (p, h')) (hroom : h.brk ≤ MEMORY)
    (hown : own ≤ h.brk) (hn : 0 ≤ own + n) : h' = { h with brk := (h.brk + n).toNat } ∧ (h.brk + n).toNat ≤ MEMORY := by
  unfold sbrk at hcall
  split_ifs at hcall with hpos hgranted hnonneg
  · obtain ⟨-, rfl⟩ := Prod.mk.inj (Option.some.inj hcall)
    have heq : (h.brk + n).toNat = h.brk + n.toNat := by omega
    exact ⟨by rw [heq], heq.trans_le hgranted.2⟩
  · obtain ⟨-, rfl⟩ := Prod.mk.inj (Option.some.inj hcall)
    exact ⟨rfl, by omega⟩
  · omega

/-- The memory that the program has got itself lies behind the blocks. -/
structure Owned (base : Nat) (s : System) (xs bs : List Span) : Prop where
  start : base + HEADER + s.own ≤ s.heap.brk
  behind : ∀ a, Covers xs a ∨ Covers bs a → a + s.own < s.heap.brk

/-- `malloc` takes what the kernel gives; behind that there is nothing of the program's own yet. -/
theorem Owned.grown {h' : Heap} {ys cs : List Span} {live : List (Nat × Nat)} (ho : Owned base s xs bs)
    (hbrk : s.heap.brk ≤ h'.brk)
    (hcov : ∀ a, Covers ys a ∨ Covers cs a ↔ (Covers xs a ∨ Covers bs a) ∨ s.heap.brk ≤ a ∧ a < h'.brk) :
    Owned base ⟨h', live, if h'.brk = s.heap.brk then s.own else 0⟩ ys cs := by
  have hstart := ho.start
  refine ⟨?_, fun a ha => ?_⟩
  · dsimp only
    split_ifs
    · omega
    · omega
  · dsimp only
    rcases (hcov a).mp ha with ha | ha
    · have hlt := ho.behind a ha
      split_ifs
      · omega
      · omega
    · rw [if_neg (by omega)]
      omega

/-- The bytes that a step moves from the kernel to the blocks. -/
def Moved (e : Event) (s t : System) (a : Nat) : Prop :=
  (∃ n g, e = .malloc n g) ∧ s.heap.brk ≤ a ∧ a < t.heap.brk

theorem step (hs : Holds base s xs bs) (ho : Owned base s xs bs) {e : Event} (hfits : e.request ≤ FITS)
    (hstep : Umalloc.step base e s = some t) :
    ∃ ys cs, Holds base t ys cs ∧ Owned base t ys cs ∧
      ∀ a, Covers ys a ∨ Covers cs a ↔ (Covers xs a ∨ Covers bs a) ∨ Moved e s t a := by
  have hroom := hs.ready.room
  rw [opened_brk] at hroom
  have hquiet {a : Nat} (hbrk : t.heap.brk = s.heap.brk) : ¬ Moved e s t a := by
    rintro ⟨-, hle, hlt⟩
    omega
  cases e with
  | malloc nbytes granted =>
      obtain ⟨⟨p, h'⟩, hcall, rfl⟩ := Option.map_eq_some_iff.mp hstep
      rcases hs.ready.malloc hfits granted with
        ⟨ys, b, h'', heq, hunits, hg, -⟩ | ⟨heq, -, -⟩
      · obtain ⟨rfl, rfl⟩ := Prod.mk.inj (Option.some.inj (heq.symm.trans hcall))
        have hne : b.lo + HEADER ≠ 0 := Nat.succ_ne_zero _
        simp only [if_neg hne]
        have hbrk := hg.brk
        rw [opened_brk] at hbrk
        have hcov (a : Nat) : Covers ys a ∨ Covers (b :: bs) a ↔
            (Covers xs a ∨ Covers bs a) ∨ s.heap.brk ≤ a ∧ a < h''.brk := by
          have hcov := hg.covers a
          rw [opened_brk] at hcov
          rw [covers_cons, ← or_assoc, ← hcov, or_right_comm]
        refine ⟨ys, b :: bs, hs.gave hg hunits, ho.grown hbrk hcov, fun a => (hcov a).trans (or_congr_right ?_)⟩
        exact (and_iff_right ⟨nbytes, granted, rfl⟩).symm
      · obtain ⟨rfl, rfl⟩ := Prod.mk.inj (Option.some.inj (heq.symm.trans hcall))
        refine ⟨xs, bs, hs.refused, ?_, fun a => (or_iff_left (hquiet opened_brk)).symm⟩
        simp only [opened_brk, if_true]
        exact ⟨opened_brk (h := s.heap) ▸ ho.start, fun a ha => opened_brk (h := s.heap) ▸ ho.behind a ha⟩
  | free ap =>
      simp only [Umalloc.step] at hstep
      split_ifs at hstep with hap
      obtain ⟨ys, cs, h', heq, hs', hbrk, hcov⟩ := hs.freed hap
      rw [heq] at hstep
      obtain rfl := Option.some.inj hstep
      refine ⟨ys, cs, hs', ⟨hbrk ▸ ho.start, fun a ha => ?_⟩, fun a => (hcov a).trans (or_iff_left (hquiet hbrk)).symm⟩
      exact hbrk ▸ ho.behind a ((hcov a).mp ha)
  | sbrk n granted =>
      simp only [Umalloc.step] at hstep
      split_ifs at hstep with hn
      obtain ⟨⟨p, h'⟩, hcall, rfl⟩ := Option.map_eq_some_iff.mp hstep
      have hstart := ho.start
      obtain ⟨rfl, hle⟩ := sbrk_moves hcall hroom (by omega) hn
      refine ⟨xs, bs, hs.resized (by omega) (fun a ha => ?_) hle, ⟨?_, fun a ha => ?_⟩, fun a => (or_iff_left ?_).symm⟩
      · have hlt := ho.behind a ha
        omega
      · dsimp only
        omega
      · have hlt := ho.behind a ha
        dsimp only
        omega
      · rintro ⟨⟨m, g, he⟩, -⟩
        cases he
  | write a p n =>
      simp only [Umalloc.step] at hstep
      split_ifs at hstep with hex
      obtain rfl := Option.some.inj hstep
      obtain ⟨x, hx, hlow, hhigh⟩ := hex
      exact ⟨xs, bs, hs.written hx hlow hhigh, ⟨ho.start, ho.behind⟩, fun a => (or_iff_left (hquiet rfl)).symm⟩

theorem run (hbase : 0 < base) (hstart : base + HEADER ≤ brk) (hroom : brk ≤ MEMORY)
    (hrun : Run (Umalloc.step base) (Umalloc.boot brk) tr s)
    (hfits : ∀ x ∈ tr, x.event.request ≤ FITS) :
    ∃ xs bs, Holds base s xs bs ∧ Owned base s xs bs ∧
      ∀ a, Covers xs a ∨ Covers bs a ↔ ∃ x ∈ tr, Moved x.event x.pre x.post a := by
  induction hrun with
  | nil => exact ⟨[], [], .boot hbase hstart hroom, ⟨hstart, by simp⟩, by simp⟩
  | @snoc tr t e u hrun he ih =>
      obtain ⟨xs, bs, hs, ho, hcov⟩ := ih fun x hx => hfits x (List.mem_append_left _ hx)
      obtain ⟨ys, cs, hs', ho', hcov'⟩ := hs.step ho (hfits ⟨t, e, u⟩ (by simp)) he
      refine ⟨ys, cs, hs', ho', fun a => ?_⟩
      rw [hcov', hcov]
      simp only [List.mem_append, List.mem_singleton, or_and_right, exists_or, exists_eq_left]

end Holds

/-! ## What holds of every run -/

def Given (tr : List (Transition System Event)) (a : Nat) : Prop :=
  ∃ x ∈ tr, (∃ n g, x.event = .malloc n g) ∧ x.pre.heap.brk ≤ a ∧ a < x.post.heap.brk

/-- The free list is in order, no two free blocks touch, each pointer of the program has a block of its own, and each
byte that `malloc` has got is in one block. -/
theorem blocks_apart (hbase : 0 < base) (hstart : base + HEADER ≤ brk) (hroom : brk ≤ MEMORY)
    (hrun : Run (step base) (boot brk) tr s) (hfits : ∀ x ∈ tr, x.event.request ≤ FITS) :
    ∃ xs bs, Listed base (s.heap.opened base) xs ∧ List.Forall₂ (Block s.heap) bs s.live ∧
      (xs ++ bs).Pairwise Span.Apart ∧ (∀ b ∈ xs ++ bs, base + HEADER ≤ b.lo ∧ b.hi + s.own ≤ s.heap.brk) ∧
        ∀ a, Covers (xs ++ bs) a ↔ Given tr a := by
  obtain ⟨xs, bs, hs, ho, hcov⟩ := Holds.run hbase hstart hroom hrun hfits
  have hr := hs.ready
  have hfree : xs.Pairwise Span.Apart := hr.listed.spaced.imp fun hlt => .inl hlt.le
  refine ⟨xs, bs, hr.listed, hs.blocks, ?_, fun b hb => ⟨?_, ?_⟩, fun a => covers_append.trans (hcov a)⟩
  · exact List.pairwise_append.mpr ⟨hfree, hs.apart, fun f hf b hb => (hs.outside b hb f hf).symm⟩
  · rcases List.mem_append.mp hb with hb | hb
    · exact hr.above b hb
    · exact hs.above b hb
  · have hlt := ho.behind _ (covers_append.mp ⟨b, hb, b.has_last⟩)
    omega

/-- Two blocks from one grant of the kernel; the second is freed, joins what is left, and is given again in part. -/
def twoBlocks : List Event :=
  [.malloc 100 true, .sbrk 4096 true, .sbrk (-96) true, .malloc 200 true, .write 69530 7 7, .free 69520, .malloc 40000 false,
    .malloc 70000 true, .free 69296, .malloc 24 false]

theorem run_twoBlocks : ∃ tr s, Run (step 16) (boot 4096) tr s ∧ s.live.length = 3 ∧
    ∀ x ∈ tr, x.event.request ≤ FITS := by
  have hfinal : (final (step 16) (boot 4096) twoBlocks).any (fun s => s.live.length = 3) = true := by
    decide +kernel
  obtain ⟨tr, s, hrun, hevents, hlive⟩ := Run.replay hfinal
  have hall : ∀ e ∈ twoBlocks, e.request ≤ FITS := by decide
  exact ⟨tr, s, hrun, of_decide_eq_true hlive,
    fun x hx => hall _ (hevents ▸ List.mem_map_of_mem (f := Transition.event) hx)⟩

theorem blocks_apart_two : ∃ (s : System) (xs bs : List Span), s.live.length = 3 ∧ Listed 16 (s.heap.opened 16) xs ∧
    List.Forall₂ (Block s.heap) bs s.live ∧ (xs ++ bs).Pairwise Span.Apart := by
  obtain ⟨tr, s, hrun, hlive, hfits⟩ := run_twoBlocks
  obtain ⟨xs, bs, h₁, h₂, h₃, -⟩ := blocks_apart (by decide) (by decide) (by decide +kernel) hrun hfits
  exact ⟨s, xs, bs, hlive, h₁, h₂, h₃⟩

/-- Each call returns. A request fails only if no free block is large enough and the kernel refuses, and the kernel is
asked only if no free block is large enough. -/
theorem calls_return (hbase : 0 < base) (hstart : base + HEADER ≤ brk) (hroom : brk ≤ MEMORY)
    (hrun : Run (step base) (boot brk) tr s) (hfits : ∀ x ∈ tr, x.event.request ≤ FITS) :
    (∀ ap ∈ s.live.map Prod.fst, ∃ h, free s.heap ap = some h) ∧
      ∃ xs, Listed base (s.heap.opened base) xs ∧ ∀ n ≤ FITS, ∀ granted, ∃ p h, malloc base s.heap n granted = some (p, h) ∧
        (p = 0 ↔ (∀ b ∈ xs, b.hi < b.lo + HEADER * units n) ∧
          ¬ (granted = true ∧ s.heap.brk + HEADER * least (units n) ≤ MEMORY)) ∧
        ((∃ b ∈ xs, b.lo + HEADER * units n ≤ b.hi) → h.brk = s.heap.brk) := by
  obtain ⟨xs, bs, hs, -, -⟩ := Holds.run hbase hstart hroom hrun hfits
  have hr := hs.ready
  refine ⟨fun ap hap => ?_, xs, hr.listed, fun n hn granted => ?_⟩
  · obtain ⟨ys, cs, h', heq, -⟩ := hs.freed hap
    exact ⟨h', heq⟩
  · have hsize (b : Span) (hb : b ∈ xs) (m : Nat) : m ≤ (s.heap.opened base).size b.lo ↔ b.lo + HEADER * m ≤ b.hi := by
      have hstop := hr.listed.sizes b hb
      simp only [Heap.stop, HEADER] at hstop ⊢
      omega
    rcases hr.malloc hn granted with ⟨ys, b, h', heq, hunits, hg, hwhy⟩ | ⟨heq, hnone, hrefused⟩
    · rw [opened_brk] at hwhy
      have hne : b.lo + HEADER ≠ 0 := Nat.succ_ne_zero _
      refine ⟨b.lo + HEADER, h', heq, iff_of_false hne ?_, fun hfits => ?_⟩
      · rintro ⟨hno, hrefused⟩
        rcases hwhy with ⟨⟨f, hf, hfit⟩, -⟩ | ⟨-, hroom⟩
        · exact (hno f hf).not_ge ((hsize f hf _).mp hfit)
        · exact hrefused hroom
      · rcases hwhy with ⟨-, hbrk⟩ | ⟨hno, -⟩
        · exact hbrk
        · obtain ⟨f, hf, hfit⟩ := hfits
          exact absurd ((hsize f hf _).mpr hfit) (hno f hf).not_ge
    · rw [opened_brk] at hrefused
      refine ⟨0, _, heq, iff_of_true rfl ⟨fun b hb => ?_, hrefused⟩, fun _ => opened_brk⟩
      exact Nat.lt_of_not_le fun hle => (hnone b hb).not_ge ((hsize b hb _).mpr hle)

theorem calls_return_two : ∃ s : System, s.live.length = 3 ∧ ∀ n ≤ FITS, ∀ granted,
    ∃ p h, malloc 16 s.heap n granted = some (p, h) := by
  obtain ⟨tr, s, hrun, hlive, hfits⟩ := run_twoBlocks
  obtain ⟨-, xs, -, hall⟩ := calls_return (by decide) (by decide) (by decide +kernel) hrun hfits
  refine ⟨s, hlive, fun n hn granted => ?_⟩
  obtain ⟨p, h, heq, -⟩ := hall n hn granted
  exact ⟨p, h, heq⟩

end Xv6Mlfq.Umalloc
