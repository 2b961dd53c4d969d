import Mathlib.Data.List.Nodup
import Mathlib.Data.List.Perm.Basic
import Xv6Mlfq.Links.Stack
import Xv6Mlfq.Runs.Run

/-!
# Physical pages (`kalloc.c`)

A free page holds the address of the next one. What the owners of the other pages write to them is arbitrary, and
includes what `kfree` and `kalloc` fill a page with outside the lock.
-/

namespace Xv6Mlfq.Kalloc

open Links Runs

abbrev PGSIZE : Nat := 4096
abbrev PHYSTOP : Nat := 0x80000000 + 128 * 1024 * 1024

/-- `PGROUNDUP(sz)`; no address is near `2 ^ 64`. -/
def pgroundup (sz : Nat) : Nat := (sz + PGSIZE - 1) / PGSIZE * PGSIZE

structure Kmem where
  /-- `((struct run *)pa)->next` -/
  next : Nat → Nat
  freelist : Nat

/-- `first` is the linker's `end`. -/
def kfree (first : Nat) (k : Kmem) (pa : Nat) : Option Kmem :=
  if pa % PGSIZE ≠ 0 ∨ pa < first ∨ PHYSTOP ≤ pa then none
  else some { next := Function.update k.next pa k.freelist, freelist := pa }

def kalloc (k : Kmem) : Nat × Kmem :=
  if k.freelist ≠ 0 then (k.freelist, { k with freelist := k.next k.freelist }) else (0, k)

/-- The loop of `freerange`, with the number of turns that it may take. -/
def freerangeFrom (first paEnd : Nat) : Nat → Nat → Kmem → Option Kmem
  | 0, _, _ => none
  | n + 1, p, k => if p + PGSIZE ≤ paEnd then (kfree first k p).bind (freerangeFrom first paEnd n (p + PGSIZE)) else some k

def freerange (first paStart paEnd : Nat) (k : Kmem) : Option Kmem :=
  freerangeFrom first paEnd (paEnd / PGSIZE + 1) (pgroundup paStart) k

structure System where
  kmem : Kmem
  /-- The pages that `kalloc` has handed out. -/
  live : List Nat
  panicked : Bool

inductive Event where
  | kalloc (pa : Nat)
  | kfree (pa : Nat)
  /-- The owner writes to the first bytes of a page. -/
  | write (pa v : Nat)

def step (first : Nat) (e : Event) (s : System) : Option System :=
  match e with
  | .kalloc pa =>
      if (kalloc s.kmem).1 = pa then
        some { s with kmem := (kalloc s.kmem).2, live := if pa = 0 then s.live else pa :: s.live }
      else none
  | .kfree pa =>
      if pa ∈ s.live then
        some ((kfree first s.kmem pa).elim { s with panicked := true } fun k =>
          { s with kmem := k, live := s.live.erase pa })
      else none
  | .write pa v =>
      if pa ∈ s.live then some { s with kmem := { s.kmem with next := Function.update s.kmem.next pa v } } else none

/-- `kinit` -/
def boot (first : Nat) (next : Nat → Nat) : Option System :=
  (freerange first first PHYSTOP ⟨next, 0⟩).map fun k => { kmem := k, live := [], panicked := false }

/-- A whole page of the memory behind the kernel. -/
def IsPage (first pa : Nat) : Prop := pa % PGSIZE = 0 ∧ first ≤ pa ∧ pa + PGSIZE ≤ PHYSTOP

instance (first pa : Nat) : Decidable (IsPage first pa) := inferInstanceAs (Decidable (_ ∧ _ ∧ _))

variable {first pa v n p : Nat} {k : Kmem} {free : List Nat} {s s' s₀ : System} {e : Event} {next : Nat → Nat}
  {tr : List (Transition System Event)}

theorem IsPage.ne_zero (h : IsPage first pa) (hfirst : 0 < first) : pa ≠ 0 := fun hzero =>
  absurd (hzero ▸ h.2.1) (Nat.not_le_of_lt hfirst)

theorem kfree_page (h : IsPage first pa) (k : Kmem) :
    kfree first k pa = some { next := Function.update k.next pa k.freelist, freelist := pa } := by
  refine if_neg ?_
  obtain ⟨halign, hle, hstop⟩ := h
  have hlt : pa < PHYSTOP := Nat.lt_of_lt_of_le (Nat.lt_add_of_pos_right (by decide)) hstop
  rintro (hne | hlow | hhigh)
  · exact hne halign
  · exact absurd hlow (Nat.not_lt.mpr hle)
  · exact absurd hlt (Nat.not_lt.mpr hhigh)

theorem step_kfree (hpa : pa ∈ s.live) (h : IsPage first pa) : step first (.kfree pa) s =
    some { s with kmem := ⟨Function.update s.kmem.next pa s.kmem.freelist, pa⟩, live := s.live.erase pa } := by
  rw [step, if_pos hpa, kfree_page h, Option.elim_some]

/-! ## `kinit` -/

/-- The loop has freed the pages below `p`. -/
theorem freerangeFrom_spec (hfirst : 0 < first) (hn : PHYSTOP < p + n * PGSIZE) (hp : p % PGSIZE = 0) (hle : first ≤ p)
    (hstack : Stacked k.next 0 k.freelist free) (hnodup : free.Nodup)
    (hfree : ∀ pa, pa ∈ free ↔ pa % PGSIZE = 0 ∧ first ≤ pa ∧ pa < p) (hstop : p ≤ PHYSTOP) :
    ∃ k' free', freerangeFrom first PHYSTOP n p k = some k' ∧ Stacked k'.next 0 k'.freelist free' ∧ free'.Nodup ∧
      ∀ pa, pa ∈ free' ↔ IsPage first pa := by
  induction n generalizing p k free with
  | zero =>
      rw [Nat.zero_mul] at hn
      omega
  | succ n ih =>
      rw [freerangeFrom]
      by_cases hroom : p + PGSIZE ≤ PHYSTOP
      · have hpage : IsPage first p := ⟨hp, hle, hroom⟩
        have hnew : p ∉ free := fun hmem => Nat.lt_irrefl p ((hfree p).mp hmem).2.2
        have hn' : PHYSTOP < p + PGSIZE + n * PGSIZE := by
          rw [Nat.succ_mul] at hn
          omega
        rw [if_pos hroom, kfree_page hpage, Option.bind_some]
        refine ih hn' (by rwa [Nat.add_mod_right]) (Nat.le_add_right_of_le hle)
          (hstack.push hnew (hpage.ne_zero hfirst)) (List.nodup_cons.mpr ⟨hnew, hnodup⟩) (fun pa => ?_) hroom
        rw [List.mem_cons, hfree]
        simp only [PGSIZE] at hp ⊢
        omega
      · refine ⟨k, free, if_neg hroom, hstack, hnodup, fun pa => (hfree pa).trans ?_⟩
        simp only [IsPage, PGSIZE, PHYSTOP] at hp hroom hstop ⊢
        omega

/-! ## Every step -/

/-- Each page is in the list of free pages or handed out, once. -/
structure Inv (first : Nat) (s : System) (free : List Nat) : Prop where
  live : s.panicked = false
  stacked : Stacked s.kmem.next 0 s.kmem.freelist free
  nodup : (free ++ s.live).Nodup
  page : ∀ pa, pa ∈ free ++ s.live ↔ IsPage first pa

namespace Inv

theorem notMem (h : Inv first s free) (hpa : pa ∈ s.live) : pa ∉ free := fun hmem =>
  (List.nodup_append.mp h.nodup).2.2 pa hmem pa hpa rfl

theorem of_perm {free' : List Nat} (h : Inv first s free) (hlive : s'.panicked = false)
    (hstacked : Stacked s'.kmem.next 0 s'.kmem.freelist free') (hperm : (free' ++ s'.live).Perm (free ++ s.live)) :
    Inv first s' free' :=
  ⟨hlive, hstacked, hperm.nodup_iff.mpr h.nodup, fun pa => hperm.mem_iff.trans (h.page pa)⟩

/-- `kalloc` fails if no page is free, and else takes the first. -/
theorem kalloc_cases (h : Inv first s free) : (kalloc s.kmem = (0, s.kmem) ∧ free = []) ∨
    ∃ pa free', free = pa :: free' ∧ pa ≠ 0 ∧ kalloc s.kmem = (pa, { s.kmem with freelist := s.kmem.next pa }) ∧
      Stacked s.kmem.next 0 (s.kmem.next pa) free' := by
  have hstacked := h.stacked
  cases free with
  | nil => exact .inl ⟨if_neg (not_not.mpr hstacked), rfl⟩
  | cons pa free' =>
      obtain ⟨htop, hnull, hrest⟩ := hstacked
      refine .inr ⟨pa, free', rfl, hnull, ?_, hrest⟩
      rw [kalloc, htop, if_pos hnull]

theorem step (h : Inv first s free) (hfirst : 0 < first) (hs : step first e s = some s') : ∃ free', Inv first s' free' := by
  cases e with
  | kalloc pa =>
      simp only [Kalloc.step, Option.ite_none_right_eq_some, Option.some.injEq] at hs
      obtain ⟨rfl, rfl⟩ := hs
      rcases h.kalloc_cases with ⟨heq, rfl⟩ | ⟨pa, free', rfl, hne, heq, hrest⟩
      · rw [heq, if_pos rfl]
        exact ⟨[], h.of_perm h.live h.stacked (List.Perm.refl _)⟩
      · rw [heq, if_neg hne]
        exact ⟨free', h.of_perm h.live hrest List.perm_middle⟩
  | kfree pa =>
      have hpa : pa ∈ s.live := by
        by_contra hpa
        rw [Kalloc.step, if_neg hpa] at hs
        cases hs
      have hpage := (h.page pa).mp (List.mem_append_right _ hpa)
      rw [step_kfree hpa hpage] at hs
      obtain rfl := Option.some.inj hs
      refine ⟨pa :: free, h.of_perm h.live (h.stacked.push (h.notMem hpa) (hpage.ne_zero hfirst)) ?_⟩
      exact List.perm_middle.symm.trans ((List.perm_cons_erase hpa).symm.append_left free)
  | write pa v =>
      simp only [Kalloc.step, Option.ite_none_right_eq_some, Option.some.injEq] at hs
      obtain ⟨hpa, rfl⟩ := hs
      exact ⟨free, h.of_perm h.live (h.stacked.write (h.notMem hpa)) (List.Perm.refl _)⟩

theorem boot (hfirst : 0 < first) (hstop : first ≤ PHYSTOP) (next : Nat → Nat) :
    ∃ s₀ free, boot first next = some s₀ ∧ Inv first s₀ free := by
  have hround : first ≤ pgroundup first ∧ pgroundup first < first + PGSIZE ∧ pgroundup first % PGSIZE = 0 ∧
      pgroundup first ≤ PHYSTOP := by
    simp only [pgroundup, PGSIZE, PHYSTOP] at hstop ⊢
    omega
  have hturns : PHYSTOP < pgroundup first + (PHYSTOP / PGSIZE + 1) * PGSIZE := by
    simp only [PGSIZE, PHYSTOP]
    omega
  have hnone (pa : Nat) : pa ∈ ([] : List Nat) ↔ pa % PGSIZE = 0 ∧ first ≤ pa ∧ pa < pgroundup first := by
    simp only [List.not_mem_nil, false_iff, pgroundup, PGSIZE]
    omega
  obtain ⟨k, free, heq, hstacked, hnodup, hpage⟩ :=
    freerangeFrom_spec (k := ⟨next, 0⟩) hfirst hturns hround.2.2.1 hround.1 (show Stacked next 0 0 [] from rfl)
      List.nodup_nil hnone hround.2.2.2
  refine ⟨_, free, by rw [Kalloc.boot, freerange, heq]; rfl, rfl, hstacked, ?_, fun pa => ?_⟩
  · rwa [List.append_nil]
  · rw [List.append_nil]
    exact hpage pa

end Inv

/-- In every run each page behind the kernel is on the free list or handed out, once; and the next `kalloc` gives a page
that nobody has, unless all are handed out. -/
theorem pages_kept (hfirst : 0 < first) (hstop : first ≤ PHYSTOP) (next : Nat → Nat) :
    ∃ s₀, boot first next = some s₀ ∧ ∀ tr s, Run (step first) s₀ tr s → s.panicked = false ∧
      (∃ free, Stacked s.kmem.next 0 s.kmem.freelist free ∧ (free ++ s.live).Nodup ∧
        ∀ pa, pa ∈ free ++ s.live ↔ IsPage first pa) ∧
      ((kalloc s.kmem).1 = 0 ↔ ∀ pa, IsPage first pa → pa ∈ s.live) ∧
        ((kalloc s.kmem).1 ≠ 0 → IsPage first (kalloc s.kmem).1 ∧ (kalloc s.kmem).1 ∉ s.live) := by
  obtain ⟨s₀, free₀, hboot, h₀⟩ := Inv.boot hfirst hstop next
  refine ⟨s₀, hboot, fun tr s hrun => ?_⟩
  have hinv : ∃ free, Inv first s free := by
    refine hrun.invariant (I := fun s => ∃ free, Inv first s free) ⟨free₀, h₀⟩ fun _ _ hs hpre => ?_
    obtain ⟨free, h⟩ := hpre
    exact h.step hfirst hs
  obtain ⟨free, h⟩ := hinv
  refine ⟨h.live, ⟨free, h.stacked, h.nodup, h.page⟩, ?_⟩
  rcases h.kalloc_cases with ⟨heq, rfl⟩ | ⟨pa, free', rfl, hne, heq, -⟩
  · rw [heq]
    exact ⟨⟨fun _ pa hpa => by simpa using (h.page pa).mpr hpa, fun _ => rfl⟩, fun hne => absurd rfl hne⟩
  · have hpage := (h.page pa).mp List.mem_cons_self
    have hnot : pa ∉ s.live := fun hpa => h.notMem hpa List.mem_cons_self
    rw [heq]
    exact ⟨⟨fun hzero => absurd hzero hne, fun hall => absurd (hall pa hpage) hnot⟩, fun _ => ⟨hpage, hnot⟩⟩

/-- Behind this kernel a page is handed out, freed, and is the next one to be handed out. -/
theorem pages_kept_kernel : ∃ s₀ tr s pa, boot 0x80023070 (fun _ => 0) = some s₀ ∧ Run (step 0x80023070) s₀ tr s ∧
    tr.map Transition.event = [.kalloc pa, .kfree pa] ∧ s.panicked = false ∧ (kalloc s.kmem).1 = pa ∧
      IsPage 0x80023070 pa := by
  have hfirst : 0 < 0x80023070 := by decide
  obtain ⟨s₀, hboot, hruns⟩ := pages_kept hfirst (by decide) fun _ => 0
  have hlive : s₀.live = [] := by
    obtain ⟨k, -, hk⟩ := Option.map_eq_some_iff.mp hboot
    exact hk ▸ rfl
  obtain ⟨-, -, hzero, hnext⟩ := hruns [] s₀ .nil
  have hne : (kalloc s₀.kmem).1 ≠ 0 := fun heq => by
    have hmem := hzero.mp heq 0x80024000 (by decide)
    rw [hlive] at hmem
    cases hmem
  have hpage := (hnext hne).1
  generalize hpa : (kalloc s₀.kmem).1 = pa at hne hpage
  have halloc : step 0x80023070 (.kalloc pa) s₀ = some { s₀ with kmem := (kalloc s₀.kmem).2, live := [pa] } := by
    rw [step, if_pos hpa, if_neg hne, hlive]
  have hrun := (Run.single halloc).snoc (step_kfree List.mem_cons_self hpage)
  exact ⟨s₀, _, _, pa, hboot, hrun, rfl, (hruns _ _ hrun).1, congrArg Prod.fst (if_pos hne), hpage⟩

end Xv6Mlfq.Kalloc
