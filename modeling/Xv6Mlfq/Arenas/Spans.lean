import Mathlib.Data.List.Pairwise
import Mathlib.Order.Basic

/-!
# Lists of spans that do not touch

A span is a stretch of addresses. In a spaced list the spans stand in order, with a gap before each but the first; a
span that is joined to such a list swallows those that it touches.
-/

namespace Arenas

/-- The addresses from `lo` on, below `hi`. -/
structure Span where
  lo : Nat
  hi : Nat
  lt : lo < hi

namespace Span

def Has (s : Span) (a : Nat) : Prop := s.lo ≤ a ∧ a < s.hi

/-- No address is in both. -/
def Apart (s t : Span) : Prop := s.hi ≤ t.lo ∨ t.hi ≤ s.lo

/-- Both, and what lies between them. -/
def fuse (s t : Span) : Span := ⟨s.lo, max s.hi t.hi, Nat.lt_of_lt_of_le s.lt (Nat.le_max_left ..)⟩

theorem fuse_has {s t : Span} {a : Nat} (h : s.hi = t.lo) : (s.fuse t).Has a ↔ s.Has a ∨ t.Has a := by
  have hs := s.lt
  have ht := t.lt
  simp only [Has, fuse]
  omega

theorem Apart.symm {s t : Span} (h : s.Apart t) : t.Apart s := Or.symm h

instance : Std.Symm Apart := ⟨fun _ _ => Apart.symm⟩

theorem has_last (s : Span) : s.Has (s.hi - 1) := by
  have hlt := s.lt
  exact ⟨by omega, by omega⟩

theorem apart_of_not_has {s t : Span} (h : ∀ a, s.Has a → ¬ t.Has a) : s.Apart t := by
  have hs := s.lt
  have ht := t.lt
  have hno := h (max s.lo t.lo)
  simp only [Has, Apart] at hno ⊢
  omega

theorem Apart.not_has {s t : Span} {a : Nat} (h : s.Apart t) (ha : s.Has a) : ¬ t.Has a := by
  rintro ⟨hlo, hhi⟩
  obtain ⟨hlo', hhi'⟩ := ha
  rcases h with h | h
  · omega
  · omega

end Span

def Covers (xs : List Span) (a : Nat) : Prop := ∃ s ∈ xs, s.Has a

def Spaced (xs : List Span) : Prop := xs.Pairwise fun s t => s.hi < t.lo

variable {us vs xs : List Span} {b s t u v : Span} {a : Nat}

@[simp] theorem covers_nil : ¬ Covers [] a := fun ⟨_, hs, _⟩ => List.not_mem_nil hs

@[simp] theorem covers_cons : Covers (s :: xs) a ↔ s.Has a ∨ Covers xs a := by simp [Covers]

@[simp] theorem covers_append : Covers (us ++ vs) a ↔ Covers us a ∨ Covers vs a := by
  simp only [Covers, List.mem_append, or_and_right, exists_or]

/-- The place of an address that is in none of the spans. -/
theorem Spaced.split (h : Spaced xs) (hb : ∀ s ∈ xs, b.Apart s) :
    ∃ us vs, xs = us ++ vs ∧ (∀ u ∈ us, u.hi ≤ b.lo) ∧ ∀ v ∈ vs, b.hi ≤ v.lo := by
  induction xs with
  | nil => exact ⟨[], [], rfl, by simp, by simp⟩
  | cons s xs ih =>
      obtain ⟨hs, hxs⟩ := List.pairwise_cons.mp h
      rcases hb s List.mem_cons_self with hbs | hsb
      · refine ⟨[], s :: xs, rfl, by simp, fun v hv => ?_⟩
        rcases List.mem_cons.mp hv with rfl | hv
        · exact hbs
        · have hlt := hs v hv
          have hs := s.lt
          omega
      · obtain ⟨us, vs, rfl, hus, hvs⟩ := ih hxs fun t ht => hb t (List.mem_cons_of_mem s ht)
        refine ⟨s :: us, vs, rfl, fun u hu => ?_, hvs⟩
        rcases List.mem_cons.mp hu with rfl | hu
        · exact hsb
        · exact hus u hu

/-! ## Joining a span -/

/-- The span swallows the next one if it touches it. -/
def reach (b : Span) : List Span → Span × List Span
  | [] => (b, [])
  | v :: vs => if b.hi = v.lo then (b.fuse v, vs) else (b, v :: vs)

/-- The span is swallowed by the last one before it, if that touches it. -/
def attach : List Span → Span → List Span → List Span
  | [], b, vs => b :: vs
  | [u], b, vs => if u.hi = b.lo then u.fuse b :: vs else u :: b :: vs
  | u :: us, b, vs => u :: attach us b vs

/-- `b` joins the list `us ++ vs` between the two parts. -/
def join (us : List Span) (b : Span) (vs : List Span) : List Span := attach us (reach b vs).1 (reach b vs).2

theorem reach_lo : (reach b vs).1.lo = b.lo := by
  cases vs with
  | nil => rfl
  | cons v vs =>
      dsimp only [reach]
      split_ifs
      · rfl
      · rfl

theorem reach_covers (hvs : ∀ v ∈ vs, b.hi ≤ v.lo) :
    (reach b vs).1.Has a ∨ Covers (reach b vs).2 a ↔ b.Has a ∨ Covers vs a := by
  cases vs with
  | nil => rfl
  | cons v vs =>
      dsimp only [reach]
      split_ifs with htouch
      · rw [Span.fuse_has htouch, covers_cons, or_assoc]
      · rfl

theorem reach_spaced (h : Spaced vs) (hvs : ∀ v ∈ vs, b.hi ≤ v.lo) : Spaced ((reach b vs).1 :: (reach b vs).2) := by
  cases vs with
  | nil => exact List.pairwise_singleton _ b
  | cons v vs =>
      obtain ⟨hv, hrest⟩ := List.pairwise_cons.mp h
      dsimp only [reach]
      split_ifs with htouch
      · refine List.pairwise_cons.mpr ⟨fun w hw => ?_, hrest⟩
        have hlt := hv w hw
        have hb := v.lt
        simp only [Span.fuse]
        omega
      · refine List.pairwise_cons.mpr ⟨fun w hw => ?_, h⟩
        have hle := hvs v List.mem_cons_self
        dsimp only at hle ⊢
        rcases List.mem_cons.mp hw with rfl | hw
        · omega
        · have hlt := hv w hw
          have hlt' := v.lt
          omega

theorem reach_suffix (b : Span) (vs : List Span) : (reach b vs).2 <:+ vs := by
  cases vs with
  | nil => exact List.suffix_rfl
  | cons v vs =>
      dsimp only [reach]
      split_ifs
      · exact List.suffix_cons v vs
      · exact List.suffix_rfl

theorem le_reach_hi : b.hi ≤ (reach b vs).1.hi := by
  cases vs with
  | nil => exact Nat.le_refl b.hi
  | cons v vs =>
      dsimp only [reach]
      split_ifs
      · exact Nat.le_max_left ..
      · exact Nat.le_refl b.hi

theorem attach_append (us : List Span) (u b : Span) (vs : List Span) :
    attach (us ++ [u]) b vs = us ++ attach [u] b vs := by
  induction us with
  | nil => rfl
  | cons w us ih =>
      cases us with
      | nil => rfl
      | cons x us => exact congrArg (w :: ·) ih

theorem exists_mem_attach (hus : ∀ u ∈ us, u.hi ≤ b.lo) : ∃ s ∈ attach us b vs, s.lo ≤ b.lo ∧ b.hi ≤ s.hi := by
  rcases List.eq_nil_or_concat us with rfl | ⟨us, u, rfl⟩
  · exact ⟨b, List.mem_cons_self, Nat.le_refl _, Nat.le_refl _⟩
  · have hu := hus u (by simp)
    have hlt := u.lt
    rw [List.concat_eq_append, attach_append]
    by_cases htouch : u.hi = b.lo
    · refine ⟨u.fuse b, ?_, by simp only [Span.fuse]; omega, Nat.le_max_right ..⟩
      simp [attach, htouch]
    · refine ⟨b, ?_, Nat.le_refl _, Nat.le_refl _⟩
      simp [attach, htouch]

theorem attach_covers (hus : ∀ u ∈ us, u.hi ≤ b.lo) : Covers (attach us b vs) a ↔ Covers us a ∨ b.Has a ∨ Covers vs a := by
  rcases List.eq_nil_or_concat us with rfl | ⟨us, u, rfl⟩
  · simp [attach]
  · rw [List.concat_eq_append, attach_append, covers_append, covers_append, or_assoc]
    refine or_congr_right ?_
    unfold attach
    split_ifs with htouch
    · rw [covers_cons, Span.fuse_has htouch, covers_cons, or_assoc]
      simp
    · simp

theorem attach_spaced (hus : Spaced us) (hbvs : Spaced (b :: vs)) (hub : ∀ u ∈ us, u.hi ≤ b.lo) :
    Spaced (attach us b vs) := by
  obtain ⟨hb, hvs⟩ := List.pairwise_cons.mp hbvs
  have hlt := b.lt
  rcases List.eq_nil_or_concat us with rfl | ⟨us, u, rfl⟩
  · exact hbvs
  · rw [List.concat_eq_append] at *
    obtain ⟨hleft, -, hlast⟩ := List.pairwise_append.mp hus
    have hu := hub u (by simp)
    have hult := u.lt
    rw [attach_append]
    refine List.pairwise_append.mpr ⟨hleft, ?_, fun x hx y hy => ?_⟩
    · unfold attach
      split_ifs with htouch
      · refine List.pairwise_cons.mpr ⟨fun v hv => ?_, hvs⟩
        have hbv := hb v hv
        simp only [Span.fuse]
        omega
      · refine List.pairwise_cons.mpr ⟨fun v hv => ?_, hbvs⟩
        rcases List.mem_cons.mp hv with rfl | hv
        · omega
        · have hbv := hb v hv
          omega
    · have hxu := hlast x hx u (by simp)
      unfold attach at hy
      split_ifs at hy with htouch
      · rcases List.mem_cons.mp hy with rfl | hy
        · exact hxu
        · have hby := hb y hy
          omega
      · rcases List.mem_cons.mp hy with rfl | hy
        · exact hxu
        · rcases List.mem_cons.mp hy with rfl | hy
          · omega
          · have hby := hb y hy
            omega

theorem join_spaced (h : Spaced (us ++ vs)) (hub : ∀ u ∈ us, u.hi ≤ b.lo) (hbv : ∀ v ∈ vs, b.hi ≤ v.lo) :
    Spaced (join us b vs) := by
  obtain ⟨hus, hvs, -⟩ := List.pairwise_append.mp h
  exact attach_spaced hus (reach_spaced hvs hbv) fun u hu => (hub u hu).trans_eq reach_lo.symm

theorem join_covers (hub : ∀ u ∈ us, u.hi ≤ b.lo) (hbv : ∀ v ∈ vs, b.hi ≤ v.lo) :
    Covers (join us b vs) a ↔ Covers (us ++ vs) a ∨ b.Has a := by
  rw [join, attach_covers fun u hu => (hub u hu).trans_eq reach_lo.symm, reach_covers hbv, covers_append, or_right_comm, or_assoc]

/-- One of the spans contains the one that has been joined. -/
theorem exists_mem_join (hub : ∀ u ∈ us, u.hi ≤ b.lo) : ∃ s ∈ join us b vs, s.lo ≤ b.lo ∧ b.hi ≤ s.hi := by
  have hub' : ∀ u ∈ us, u.hi ≤ (reach b vs).1.lo := fun u hu => (hub u hu).trans_eq reach_lo.symm
  obtain ⟨s, hs, hlo, hhi⟩ : ∃ s ∈ join us b vs, _ := exists_mem_attach hub'
  exact ⟨s, hs, Nat.le_trans hlo (Nat.le_of_eq reach_lo), Nat.le_trans le_reach_hi hhi⟩

/-! ## Cutting a span -/

/-- `t` and `b` are the lower and the upper part of `s`. -/
structure Span.Cut (s t b : Span) : Prop where
  lo : t.lo = s.lo
  mid : b.lo = t.hi
  hi : b.hi = s.hi

theorem Spaced.aside (h : Spaced (us ++ s :: vs)) (ht : t ∈ us ++ vs) : t.hi < s.lo ∨ s.hi < t.lo := by
  obtain ⟨-, hvs, hspaced⟩ := List.pairwise_append.mp h
  rcases List.mem_append.mp ht with ht | ht
  · exact .inl (hspaced t ht s List.mem_cons_self)
  · exact .inr ((List.pairwise_cons.mp hvs).1 t ht)

theorem Spaced.cut (h : Spaced (us ++ s :: vs)) (hcut : s.Cut t b) : Spaced (us ++ t :: vs) := by
  obtain ⟨hus, hvs, hspaced⟩ := List.pairwise_append.mp h
  obtain ⟨hafter, hvs⟩ := List.pairwise_cons.mp hvs
  obtain ⟨hlo, hmid, hhi⟩ := hcut
  have hb := b.lt
  refine List.pairwise_append.mpr ⟨hus, List.pairwise_cons.mpr ⟨fun v hv => ?_, hvs⟩, fun u hu v hv => ?_⟩
  · have hv := hafter v hv
    omega
  · rcases List.mem_cons.mp hv with rfl | hv
    · exact (hspaced u hu s List.mem_cons_self).trans_eq hlo.symm
    · exact hspaced u hu v (List.mem_cons_of_mem s hv)

theorem Spaced.cut_apart (h : Spaced (us ++ s :: vs)) (hcut : s.Cut t b) : ∀ u ∈ us ++ t :: vs, b.Apart u := by
  intro u hu
  obtain ⟨hlo, hmid, hhi⟩ := hcut
  have ht := t.lt
  rw [List.mem_append, List.mem_cons, or_left_comm] at hu
  rcases hu with rfl | hu
  · exact .inr (Nat.le_of_eq hmid.symm)
  · rcases h.aside (List.mem_append.mpr hu) with hlt | hlt
    · exact .inr (by omega)
    · exact .inl (by omega)

theorem Span.Cut.covers (hcut : s.Cut t b) : Covers (us ++ s :: vs) a ↔ Covers (us ++ t :: vs) a ∨ b.Has a := by
  have hparts : s.Has a ↔ t.Has a ∨ b.Has a := by
    obtain ⟨hlo, hmid, hhi⟩ := hcut
    have ht := t.lt
    have hb := b.lt
    simp only [Span.Has]
    omega
  simp only [covers_append, covers_cons, hparts, or_left_comm, or_comm]

end Arenas
