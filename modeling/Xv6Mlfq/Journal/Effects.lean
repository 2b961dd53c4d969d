import Xv6Mlfq.Journal.Log

/-!
# What the functions of the log do to the device

Each lemma gives the disk, the contents of the blocks and the references to the buffers after one function.
-/

namespace Xv6Mlfq.Journal

open Cache

variable {d d' : Device} {V : UInt32 → Block} {R : UInt32 → UInt32} {b : UInt32} {sb : Superblock}
  {bs : List UInt32} {tail : Nat}

theorem Ensures.pure {α : Type} {a : α} {Q : α → Device → Prop} (h : Q a d) : Ensures (Pure.pure a) d Q := by
  intro r hr
  obtain rfl := Option.some.inj hr
  exact h

theorem Ensures.mono {α : Type} {x : Io α} {P Q : α → Device → Prop} (hx : Ensures x d P)
    (h : ∀ a d', P a d' → Q a d') : Ensures x d Q := fun r hr => h _ _ (hx r hr)

/-- A reference is taken and given back. -/
theorem update_back (R : UInt32 → UInt32) (b r : UInt32) : Function.update (Function.update R b r) b (R b) = R := by
  rw [Function.update_idem, Function.update_eq_self]

theorem add_sub_one (r : UInt32) : r + 1 - 1 = r := by simp

namespace Shows

theorem read (h : Shows d V R) (hR : R b + 1 ≠ 0) :
    Ensures (read b) d fun v d' => v = V b ∧ d'.disk = d.disk ∧ Shows d' V R := by
  refine (h.bread hR).bind fun i d₁ ⟨hdisk₁, h₁, hi, _⟩ => ?_
  have hself : Function.update R b (R b + 1) b = R b + 1 := Function.update_self ..
  refine (h₁.getData hi (hself.symm ▸ hR)).bind ?_
  rintro _ _ ⟨rfl, rfl⟩
  refine (h₁.brelse hi (hself.symm ▸ hR) ?_).bind fun _ d₂ ⟨hdisk₂, h₂, _⟩ => ?_
  · rw [hself, add_sub_one, hdisk₁]
    exact h.clean b
  · rw [hself, add_sub_one, update_back] at h₂
    exact .pure ⟨rfl, hdisk₂.trans hdisk₁, h₂⟩

theorem readHead (h : Shows d V R) (hR : R sb.logstart = 0) :
    Ensures (readHead sb) d fun bs d' => loadHeader (V sb.logstart) = some bs ∧ d'.disk = d.disk ∧ Shows d' V R := by
  have hone : R sb.logstart + 1 ≠ 0 := by simp [hR]
  refine (h.bread hone).bind fun i d₁ ⟨hdisk₁, h₁, hi, _⟩ => ?_
  have hself : Function.update R sb.logstart (R sb.logstart + 1) sb.logstart = R sb.logstart + 1 :=
    Function.update_self ..
  refine (h₁.getData hi (hself.symm ▸ hone)).bind ?_
  rintro _ d₁' ⟨rfl, heq⟩
  subst d₁'
  refine Ensures.bind (P := fun bs d' => loadHeader (V sb.logstart) = some bs ∧ d₁ = d') ?_ ?_
  · rintro r hr
    obtain ⟨bs, hbs, hr⟩ := Option.bind_eq_some_iff.mp hr
    obtain rfl := Option.some.inj hr
    exact ⟨hbs, rfl⟩
  · rintro bs d₁ ⟨hbs, rfl⟩
    refine (h₁.brelse hi (hself.symm ▸ hone) ?_).bind fun _ d₂ ⟨hdisk₂, h₂, _⟩ => ?_
    · rw [hself, add_sub_one, hdisk₁]
      exact h.clean _
    · rw [hself, add_sub_one, update_back] at h₂
      exact .pure ⟨hbs, hdisk₂.trans hdisk₁, h₂⟩

theorem writeHead (h : Shows d V R) (hR : R sb.logstart = 0) (bs : List UInt32) :
    Ensures (writeHead sb bs) d fun _ d' =>
      d'.disk = Function.update d.disk sb.logstart (storeHeader bs (V sb.logstart)) ∧
        Shows d' (Function.update V sb.logstart (storeHeader bs (V sb.logstart))) R := by
  have hone : R sb.logstart + 1 ≠ 0 := by simp [hR]
  refine (h.bread hone).bind fun i d₁ ⟨hdisk₁, h₁, hi, _⟩ => ?_
  have hself : Function.update R sb.logstart (R sb.logstart + 1) sb.logstart = R sb.logstart + 1 :=
    Function.update_self ..
  have hne := hself.symm ▸ hone
  refine (h₁.getData hi hne).bind ?_
  rintro _ _ ⟨rfl, rfl⟩
  refine (h₁.memmove hi hne _).bind fun _ d₂ ⟨hdisk₂, h₂, hkeep₂⟩ => ?_
  have hi₂ := hkeep₂ _ _ hi
  refine (h₂.bwrite hi₂ hne).bind fun _ d₃ ⟨hdisk₃, h₃, hkeep₃⟩ => ?_
  have hdisk : d₃.disk = Function.update d.disk sb.logstart (storeHeader bs (V sb.logstart)) := by
    rw [hdisk₃, hdisk₂, hdisk₁, Function.update_self]
  refine (h₃.brelse (hkeep₃ _ _ hi₂) hne fun _ => ?_).mono fun _ d₄ ⟨hdisk₄, h₄, _⟩ => ⟨hdisk₄.trans hdisk, ?_⟩
  · rw [hdisk, Function.update_self, Function.update_self]
  · rwa [hself, add_sub_one, update_back] at h₄

/-- The log gets a copy of a pinned block. -/
theorem writeLog (h : Shows d V R) (hslot : R (sb.slot tail) = 0) (hb : R b = 1) :
    Ensures (writeLog sb tail b) d fun _ d' => d'.disk = Function.update d.disk (sb.slot tail) (V b) ∧
      Shows d' (Function.update V (sb.slot tail) (V b)) R := by
  have hne : b ≠ sb.slot tail := by
    rintro rfl
    exact absurd (hslot.symm.trans hb) (by decide)
  refine (h.bread (b := sb.slot tail) (by simp [hslot])).bind fun i d₁ ⟨hdisk₁, h₁, hi₁, _⟩ => ?_
  generalize hR₁ : Function.update R (sb.slot tail) (R (sb.slot tail) + 1) = R₁ at h₁
  have hs₁ : R₁ (sb.slot tail) = 1 := by simp [← hR₁, hslot]
  have hb₁ : R₁ b = 1 := by simp [← hR₁, hne, hb]
  refine (h₁.bread (b := b) (by simp [hb₁])).bind fun j d₂ ⟨hdisk₂, h₂, hj₂, hkeep₂⟩ => ?_
  have hi₂ := hkeep₂ _ _ hi₁ (by simp [hs₁])
  generalize hR₂ : Function.update R₁ b (R₁ b + 1) = R₂ at h₂
  have hs₂ : R₂ (sb.slot tail) = 1 := by simp [← hR₂, hne.symm, hs₁]
  have hb₂ : R₂ b = 1 + 1 := by simp [← hR₂, hb₁]
  refine (h₂.getData hj₂ (by simp [hb₂])).bind ?_
  rintro _ d₂' ⟨rfl, heq⟩
  subst d₂'
  refine (h₂.memmove hi₂ (by simp [hs₂]) _).bind fun _ d₃ ⟨hdisk₃, h₃, hkeep₃⟩ => ?_
  refine (h₃.bwrite (hkeep₃ _ _ hi₂) (by simp [hs₂])).bind fun _ d₄ ⟨hdisk₄, h₄, hkeep₄⟩ => ?_
  have hdisk : d₄.disk = Function.update d.disk (sb.slot tail) (V b) := by
    rw [hdisk₄, hdisk₃, hdisk₂, hdisk₁, Function.update_self]
  refine (h₄.brelse (hkeep₄ _ _ (hkeep₃ _ _ hj₂)) (by simp [hb₂]) (by simp [hb₂])).bind
    fun _ d₅ ⟨hdisk₅, h₅, hkeep₅⟩ => ?_
  have hi₅ := hkeep₅ _ _ (hkeep₄ _ _ (hkeep₃ _ _ hi₂))
  have hback : Function.update R₂ b (R₂ b - 1) = R₁ := by
    rw [← hR₂, Function.update_self, add_sub_one, update_back]
  rw [hback] at h₅
  refine (h₅.brelse hi₅ (by simp [hs₁]) fun _ => ?_).mono fun _ d₆ ⟨hdisk₆, h₆, _⟩ => ⟨?_, ?_⟩
  · rw [hdisk₅, hdisk, Function.update_self, Function.update_self]
  · rw [hdisk₆, hdisk₅, hdisk]
  · rwa [← hR₁, Function.update_self, add_sub_one, update_back] at h₆

/-- The home of a block gets the copy from the log, and loses its pin if it had one. -/
theorem installTrans (h : Shows d V R) (recovering : Bool) (hne : b ≠ sb.slot tail) (hslot : R (sb.slot tail) = 0)
    (hb : R b = if recovering then 0 else 1) :
    Ensures (installTrans sb recovering tail b) d fun _ d' =>
      d'.disk = Function.update d.disk b (V (sb.slot tail)) ∧
        Shows d' (Function.update V b (V (sb.slot tail))) (Function.update R b 0) := by
  refine (h.bread (b := sb.slot tail) (by simp [hslot])).bind fun i d₁ ⟨hdisk₁, h₁, hi₁, _⟩ => ?_
  generalize hR₁ : Function.update R (sb.slot tail) (R (sb.slot tail) + 1) = R₁ at h₁
  have hs₁ : R₁ (sb.slot tail) = 1 := by simp [← hR₁, hslot]
  have hb₁ : R₁ b = R b := by simp [← hR₁, hne]
  have hone : R₁ b + 1 ≠ 0 := by
    rw [hb₁, hb]
    cases recovering with
    | true => decide
    | false => decide
  refine (h₁.bread hone).bind fun j d₂ ⟨hdisk₂, h₂, hj₂, hkeep₂⟩ => ?_
  have hi₂ := hkeep₂ _ _ hi₁ (by simp [hs₁])
  generalize hR₂ : Function.update R₁ b (R₁ b + 1) = R₂ at h₂
  have hs₂ : R₂ (sb.slot tail) = 1 := by simp [← hR₂, hne.symm, hs₁]
  have hb₂ : R₂ b ≠ 0 := by simpa [← hR₂] using hone
  refine (h₂.getData hi₂ (by simp [hs₂])).bind ?_
  rintro _ d₂' ⟨rfl, heq⟩
  subst d₂'
  refine (h₂.memmove hj₂ hb₂ _).bind fun _ d₃ ⟨hdisk₃, h₃, hkeep₃⟩ => ?_
  refine (h₃.bwrite (hkeep₃ _ _ hj₂) hb₂).bind fun _ d₄ ⟨hdisk₄, h₄, hkeep₄⟩ => ?_
  have hdisk : d₄.disk = Function.update d.disk b (V (sb.slot tail)) := by
    rw [hdisk₄, hdisk₃, hdisk₂, hdisk₁, Function.update_self]
  have hi₄ := hkeep₄ _ _ (hkeep₃ _ _ hi₂)
  have hj₄ := hkeep₄ _ _ (hkeep₃ _ _ hj₂)
  -- With or without `bunpin`, one reference is left on each of the two buffers.
  refine Ensures.bind (P := fun _ d' => d'.disk = d₄.disk ∧
    Shows d' (Function.update V b (V (sb.slot tail))) (Function.update R₁ b 1) ∧
      ∀ b' j, Holds d₄.cache ROOTDEV b' j → Holds d'.cache ROOTDEV b' j) ?_ fun _ d₅ ⟨hdisk₅, h₅, hkeep₅⟩ => ?_
  · cases recovering with
    | true =>
        have hlast : R₂ = Function.update R₁ b 1 := by rw [← hR₂, hb₁, hb, if_pos rfl, UInt32.zero_add]
        exact .pure ⟨rfl, hlast ▸ h₄, fun _ _ hj => hj⟩
    | false =>
        have hlast : Function.update R₂ b (R₂ b - 1) = Function.update R₁ b 1 := by
          rw [← hR₂, Function.update_self, add_sub_one, Function.update_idem, hb₁, hb, if_neg Bool.false_ne_true]
        exact hlast ▸ h₄.bunpin hj₄ hb₂ fun _ => by rw [hdisk, Function.update_self, Function.update_self]
  · have hs₅ : Function.update R₁ b 1 (sb.slot tail) = 1 := by rw [Function.update_of_ne hne.symm, hs₁]
    refine (h₅.brelse (hkeep₅ _ _ hi₄) (by simp [hs₅]) fun _ => ?_).bind fun _ d₆ ⟨hdisk₆, h₆, hkeep₆⟩ => ?_
    · rw [hdisk₅, hdisk, Function.update_of_ne hne.symm, Function.update_of_ne hne.symm]
      exact h.clean _ hslot
    generalize hR₆ : Function.update (Function.update R₁ b 1) (sb.slot tail)
      (Function.update R₁ b 1 (sb.slot tail) - 1) = R₆ at h₆
    have hb₆ : R₆ b = 1 := by simp [← hR₆, hne]
    refine (h₆.brelse (hkeep₆ _ _ (hkeep₅ _ _ hj₄)) (by simp [hb₆]) fun _ => ?_).mono
      fun _ d₇ ⟨hdisk₇, h₇, _⟩ => ⟨?_, ?_⟩
    · rw [hdisk₆, hdisk₅, hdisk, Function.update_self, Function.update_self]
    · rw [hdisk₇, hdisk₆, hdisk₅, hdisk]
    · have hlast : Function.update R₆ b (R₆ b - 1) = Function.update R b 0 := by
        have hback : Function.update R (sb.slot tail) 0 = R := by rw [← hslot, Function.update_eq_self]
        rw [hb₆, ← hR₆, hs₅, UInt32.sub_self, Function.update_comm hne, Function.update_idem, ← hR₁,
          Function.update_idem, hback]
      exact hlast ▸ h₇

/-! ## `log_write` -/

theorem set_idxOf (b : UInt32) (bs : List UInt32) : bs.set (bs.idxOf b) b = bs := by
  induction bs with
  | nil => rfl
  | cons c cs ih =>
      by_cases hc : c = b
      · simp [hc]
      · simp [List.idxOf_cons_ne _ hc, ih]

theorem tooBig_iff {log : Log} : log.tooBig sb = true ↔ sb.capacity ≤ log.block.length := by
  unfold Log.tooBig Superblock.capacity
  rw [decide_eq_true_iff]
  omega

/-- The block is logged now, and was already or has got one reference more. -/
theorem logWrite (h : Shows d V R) (sb : Superblock) (log : Log) {i : Index} (hi : Holds d.cache ROOTDEV b i) (hR : R b ≠ 0)
    (hR' : R b + 1 ≠ 0) :
    Ensures (logWrite sb log i) d fun log' d' => d'.disk = d.disk ∧ log.block.length < sb.capacity ∧
      log' = { log with block := if b ∈ log.block then log.block else log.block ++ [b] } ∧
        Shows d' V (if b ∈ log.block then R else Function.update R b (R b + 1)) ∧
          ∀ b' j, Holds d.cache ROOTDEV b' j → Holds d'.cache ROOTDEV b' j := by
  unfold Journal.logWrite
  by_cases hfull : log.tooBig sb = true
  · rw [if_pos hfull]
    intro r hr
    cases hr
  by_cases hout : log.outstanding < 1
  · rw [if_neg hfull, if_pos hout]
    intro r hr
    cases hr
  · rw [if_neg hfull, if_neg hout]
    have hlength : log.block.length < sb.capacity := Nat.lt_of_not_le (mt tooBig_iff.mpr hfull)
    refine Ensures.bind (P := fun blockno d' => b = blockno ∧ d = d') ?_ ?_
    · rintro r hr
      obtain rfl := Option.some.inj hr
      exact ⟨hi.2.symm, rfl⟩
    · rintro _ _ ⟨rfl, rfl⟩
      dsimp only
      by_cases hmem : b ∈ log.block
      · have hidx : log.block.idxOf b ≠ log.block.length := (List.idxOf_lt_length_iff.mpr hmem).ne
        rw [if_neg hidx, set_idxOf, if_pos hmem, if_pos hmem]
        exact .pure ⟨rfl, hlength, rfl, h, fun _ _ hj => hj⟩
      · have hidx : log.block.idxOf b = log.block.length := List.idxOf_eq_length_iff.mpr hmem
        rw [if_pos hidx, if_neg hmem, if_neg hmem]
        exact (h.bpin hi hR hR').bind fun _ d₁ ⟨hdisk₁, h₁, hkeep₁⟩ => .pure ⟨hdisk₁, hlength, rfl, h₁, hkeep₁⟩

/-- The new contents show, on a logged and pinned block. -/
theorem write (h : Shows d V R) {log : Log} (hR : R b = if b ∈ log.block then 1 else 0) (v : Block) :
    Ensures (write sb log b v) d fun log' d' => d'.disk = d.disk ∧ log.block.length < sb.capacity ∧
      log' = { log with block := if b ∈ log.block then log.block else log.block ++ [b] } ∧
        Shows d' (Function.update V b v) (Function.update R b 1) := by
  have hcases : R b = 0 ∨ R b = 1 := by
    rw [hR]
    split_ifs
    · exact .inr rfl
    · exact .inl rfl
  have hone : R b + 1 ≠ 0 := by
    rcases hcases with h | h
    · simp [h]
    · simp [h]
  have htwo : R b + 1 + 1 ≠ 0 := by
    rcases hcases with h | h
    · simp [h]
    · simp [h]
  refine (h.bread hone).bind fun i d₁ ⟨hdisk₁, h₁, hi₁, _⟩ => ?_
  have hself : Function.update R b (R b + 1) b = R b + 1 := Function.update_self ..
  refine (h₁.memmove hi₁ (hself.symm ▸ hone) v).bind fun _ d₂ ⟨hdisk₂, h₂, hkeep₂⟩ => ?_
  have hi₂ := hkeep₂ _ _ hi₁
  refine (h₂.logWrite sb log hi₂ (hself.symm ▸ hone) (hself.symm ▸ htwo)).bind ?_
  rintro log' d₃ ⟨hdisk₃, hlength, hlog, h₃, hkeep₃⟩
  have hrefs : (if b ∈ log.block then Function.update R b (R b + 1) else
      Function.update (Function.update R b (R b + 1)) b (Function.update R b (R b + 1) b + 1)) =
        Function.update R b 2 := by
    rw [hself, Function.update_idem, hR]
    split_ifs
    · rfl
    · rfl
  rw [hrefs] at h₃
  refine (h₃.brelse (hkeep₃ _ _ hi₂) (by simp) (by simp)).bind fun _ d₄ ⟨hdisk₄, h₄, _⟩ => .pure ?_
  rw [Function.update_self, Function.update_idem] at h₄
  exact ⟨by rw [hdisk₄, hdisk₃, hdisk₂, hdisk₁], hlength, hlog, h₄⟩

end Shows

end Xv6Mlfq.Journal
