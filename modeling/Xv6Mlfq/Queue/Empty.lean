import Xv6Mlfq.Queue.Theorems
import Xv6Mlfq.Queue.Lemmas.Unlinked

/-!
# `dequeue` on empty lists

The loop of `dequeue` counts an unsigned level down and tests it with `i >= QUEUE_LOW`, so it has no exit of
its own. Past level LOW it takes the links of the slots for heads of levels.
-/

namespace Xv6Mlfq.Queue

open Access Access.Prog Links

variable {t : QTable} {L : Fifos} {i j : Slot} {ops : List Op} {rs : List (Option Slot)}

/-- The zero-initialised array, with `outside` in the words around it. -/
def zeroed (outside : QTable) : QTable := fun a => if a.1 < QTABLE_SIZE then 0 else outside a

/-- What the comment of `dequeue` promises of a call that finds nothing. -/
structure Idles (t : QTable) : Prop where
  returns : dequeue.exec t = (some EMPTY, t)
  inTable : InTable dequeue t

/-! ## The scan below level LOW -/

section Scan

variable {fuel : Nat} {z : Int}

/-- One round of the loop, at the unsigned `i` that stands for `z`. -/
theorem findHead_succ (hz : z ≤ 2) (hlow : - 2 ^ 30 < z) : findHead (fuel + 1) (index z) = (do
    if (← firstid (index (64 + 2 * z))) < NPROC then pure (some (64 + 2 * z))
    else findHead fuel (index (z - 1))) := by
  have hidx : (NPROC + (index z <<< 1)) % 2 ^ 64 = index (64 + 2 * z) := by
    simp only [index, NPROC, Nat.shiftLeft_eq]; omega
  have hhead : int32 (index (64 + 2 * z)) = 64 + 2 * z := by
    simp only [index, int32, Int.bmod_def]; omega
  have hprev : (index z + (2 ^ 64 - 1)) % 2 ^ 64 = index (z - 1) := by
    simp only [index]; omega
  have hlevel : QUEUE_LOW.val ≤ index z := Nat.zero_le _
  simp only [findHead, hlevel, if_true, hidx, hprev, hhead]

theorem findHead_hit (hz : z ≤ 2) (hlow : - 2 ^ 30 < z) (h : t (index (64 + 2 * z), .next) < NPROC) :
    (findHead (fuel + 1) (index z)).exec t = (some (64 + 2 * z), t) := by
  rw [findHead_succ hz hlow]
  simp [firstid, h]

theorem findHead_miss (fuel : Nat) (hz : z ≤ 2) (hlow : - 2 ^ 30 < z) (h : ¬ t (index (64 + 2 * z), .next) < NPROC) :
    (findHead (fuel + 1) (index z)).exec t = (findHead fuel (index (z - 1))).exec t ∧
      (findHead (fuel + 1) (index z)).touched t =
        (index (64 + 2 * z), .next) :: (findHead fuel (index (z - 1))).touched t := by
  rw [findHead_succ hz hlow]
  simp [firstid, h]

/-- The scan passes `n` heads whose links lead to no slot. -/
theorem findHead_skip (fuel : Nat) (z : Int) (n : Nat) (hz : z ≤ 2) (hlow : - 2 ^ 30 < z - n)
    (h : ∀ j < n, ¬ t (index (64 + 2 * (z - j)), .next) < NPROC) :
    (findHead (fuel + n) (index z)).exec t = (findHead fuel (index (z - n))).exec t ∧
      (findHead fuel (index (z - n))).touched t ⊆ (findHead (fuel + n) (index z)).touched t := by
  induction n generalizing z with
  | zero => simp
  | succ n ih =>
      push_cast at hlow
      have hskip := h 0 n.succ_pos
      rw [Nat.cast_zero, sub_zero] at hskip
      obtain ⟨he, hmem⟩ := findHead_miss (fuel + n) hz (by omega) hskip
      have hshift : z - 1 - n = z - (n + 1 : Nat) := by push_cast; omega
      obtain ⟨he', hmem'⟩ := ih (z - 1) (by omega) (by omega) fun j hj => by
        have hj' := h (j + 1) (by omega)
        push_cast at hj'
        rwa [show z - (j + 1) = z - 1 - j by omega] at hj'
      rw [hshift] at he' hmem'
      refine ⟨he.trans he', ?_⟩
      rw [← Nat.add_assoc, hmem]
      exact fun a ha => List.mem_cons_of_mem _ (hmem' ha)

end Scan

/-! ## What becomes of the call -/

theorem index_slot_head {j : Nat} (hj : j < 32) : index (64 + 2 * ((-1 : Int) - j)) = 62 - 2 * j := by
  simp only [index]; omega

/-- The three lists are empty, and the scan passes slots that a removal has marked. -/
theorem Represents.findHead_empty (h : Represents t L) (hL : ∀ q, L q = []) {n : Nat} (hn : n ≤ 32)
    (hmarks : ∀ j < n, next t (62 - 2 * j) = 999) (fuel : Nat) :
    (findHead (fuel + n + 3) QUEUE_HIGH).exec t = (findHead fuel (index (-1 - n))).exec t ∧
      (findHead fuel (index (-1 - n))).touched t ⊆ (findHead (fuel + n + 3) QUEUE_HIGH).touched t := by
  have hlevels : ∀ j : Nat, j < 3 → ¬ t (index (64 + 2 * ((2 : Int) - j)), .next) < NPROC := by
    intro j hj
    have hq : 2 - j < NUM_QUEUES := by simp only [NUM_QUEUES]; omega
    have hhead : index (64 + 2 * ((2 : Int) - j)) = gethead (⟨2 - j, hq⟩ : Level) := by
      rw [gethead_eq]
      simp only [index]
      omega
    rw [hhead, h.firstid_lt_iff]
    exact not_not.mpr (hL _)
  have hslots : ∀ j : Nat, j < n → ¬ t (index (64 + 2 * ((-1 : Int) - j)), .next) < NPROC := by
    intro j hj
    have hmark : t (62 - 2 * j, .next) = 999 := hmarks j hj
    rw [index_slot_head (by omega), hmark]
    decide
  obtain ⟨he, hmem⟩ := findHead_skip (fuel + n) 2 3 le_rfl (by decide) hlevels
  obtain ⟨he', hmem'⟩ := findHead_skip fuel (-1) n (by decide) (by omega) hslots
  exact ⟨he.trans he', fun a ha => hmem (hmem' ha)⟩

/-- If a slot with an even number was never used, the call returns slot 0. If none is left, it reads below
the array. -/
theorem Represents.dequeue_empty (h : Represents t L) (hu : Unlinked t L) (hL : ∀ q, L q = []) :
    ((∃ j < 32, next t (62 - 2 * j) = 0) ∧ (dequeue.exec t).1 = some 0) ∨
      (∀ j < 32, next t (62 - 2 * j) = 999) ∧ ¬ InTable dequeue t := by
  by_cases hall : ∀ j < 32, next t (62 - 2 * j) = 999
  · refine .inr ⟨hall, fun hin => ?_⟩
    obtain ⟨-, hmem⟩ := h.findHead_empty hL le_rfl hall (2 ^ 30 - 36 + 1)
    have hread : (index (-2), Field.next) ∈ (findHead (2 ^ 30 - 36 + 1) (index (-33))).touched t := by
      rw [findHead_succ (by decide) (by decide), touched_bind]
      exact List.mem_append_left _ (List.mem_singleton.mpr rfl)
    have hlow : index (-2) < QTABLE_SIZE := by
      refine hin (index (-2), .next) ?_
      rw [dequeue_eq_finish, touched_bind]
      exact List.mem_append_left _ (hmem hread)
    exact absurd hlow (by decide)
  · have hex : ∃ j, j < 32 ∧ next t (62 - 2 * j) ≠ 999 := by
      push Not at hall
      exact hall
    classical
    obtain ⟨hn, hne⟩ := Nat.find_spec hex
    have hmarks : ∀ j < Nat.find hex, next t (62 - 2 * j) = 999 := by
      intro j hj
      by_contra hj'
      exact Nat.find_min hex hj ⟨by omega, hj'⟩
    generalize Nat.find hex = n at hn hne hmarks
    have hzero : next t (62 - 2 * n) = 0 :=
      (hu ⟨62 - 2 * n, by simp only [NPROC]; omega⟩ fun q => by simp [hL q]).1.resolve_right hne
    refine .inl ⟨⟨n, hn, hzero⟩, ?_⟩
    obtain ⟨he, -⟩ := h.findHead_empty hL hn.le hmarks (2 ^ 30 - 4 - n + 1)
    have hfuel : 2 ^ 30 - 4 - n + 1 + n + 3 = 2 ^ 30 := by omega
    have hlink : t (index (64 + 2 * (-1 - (n : Int))), .next) = 0 := by
      rw [index_slot_head hn]
      exact hzero
    rw [hfuel, findHead_hit (by omega) (by omega) (by rw [hlink]; decide)] at he
    have hhead : 64 + 2 * (-1 - (n : Int)) ≠ EMPTY := by simp only [EMPTY]; omega
    rw [dequeue_eq_finish, exec_bind, he]
    simp [finish, hhead, firstid, hlink, int64, Int.bmod_def]

/-! ## Every history of the table -/

theorem Unlinked.enqueue (hu : Unlinked t L) (h : Represents t L) (hi : L.Free i) (q : Level) (pass : Nat) :
    Unlinked ((enqueue q i pass).exec t).2 (Function.update L q (i :: L q)) := by
  intro j hj
  have hji : j ≠ i := fun he => hj q (by rw [Function.update_self, he]; exact List.mem_cons_self)
  have hjL : L.Free j := by
    intro r hr
    by_cases hrq : r = q
    · subst hrq; exact hj r (by rw [Function.update_self]; exact List.mem_cons_of_mem _ hr)
    · exact hj r (by rwa [Function.update_of_ne hrq])
  have hne : gethead q ≠ i := fun he => slot_notMem_ring (hi q) (he ▸ head_mem_ring)
  have hjh : (j : Nat) ≠ gethead q := fun he => slot_notMem_ring (hjL q) (he ▸ head_mem_ring)
  have hjn : (j : Nat) ≠ t (gethead q, .next) := fun he => slot_notMem_ring (hjL q)
    (he ▸ Family.next_mem_ring h List.mem_cons_self)
  rw [enqueue_exec hne]
  simpa [spliceIn, next, prev, Fin.val_ne_of_ne hji, hjh, hjn] using hu j hjL

/-- Legal calls leave an entry in no list as it was, or marked. -/
theorem Op.unlinked {op : Op} {r : Option Slot} {L' : Fifos} (hu : Unlinked t L) (h : Represents t L)
    (hop : op ≠ .setup) (ha : op.apply L = some (r, L')) : Unlinked (op.prog.exec t).2 L' := by
  cases op with
  | setup => exact absurd rfl hop
  | enqueue q i pass =>
      simp only [Op.apply, Option.ite_none_right_eq_some, Option.some.injEq, Prod.mk.injEq] at ha
      obtain ⟨hi, rfl, rfl⟩ := ha
      exact hu.enqueue h hi q pass
  | enqueueBack q i pass =>
      simp only [Op.apply, Option.ite_none_right_eq_some, Option.some.injEq, Prod.mk.injEq] at ha
      obtain ⟨hi, rfl, rfl⟩ := ha
      exact hu.enqueueBack h hi q pass
  | dequeue =>
      simp only [Op.apply] at ha
      split at ha
      · cases ha
      · rename_i q hq
        split at ha
        · cases ha
        · rename_i i xs hL
          cases ha
          obtain ⟨he, -⟩ := h.dequeue_spec (Fifos.top_of_highest hq) hL
          have hL' : L q = [] ++ i :: xs := hL
          simpa [Op.prog, he] using hu.removePid h (index_int32 i) hL'
  | removePid i =>
      simp only [Op.apply, Option.ite_none_left_eq_some, Option.some.injEq, Prod.mk.injEq] at ha
      obtain ⟨hi, rfl, rfl⟩ := ha
      obtain ⟨q, hq⟩ := not_forall_not.mp hi
      obtain ⟨us, vs, hL⟩ := List.append_of_mem hq
      rw [← h.erase_eq hL]
      exact hu.removePid h (index_slot i) hL

theorem runOps_unlinked {L' : Fifos} (hu : Unlinked t L) (h : Represents t L) (hops : .setup ∉ ops)
    (ha : applyOps ops L = some (rs, L')) : Unlinked ((runOps ops).exec t).2 L' := by
  induction ops generalizing t L rs with
  | nil =>
      simp only [applyOps, Option.some.injEq, Prod.mk.injEq] at ha
      obtain ⟨-, rfl⟩ := ha
      exact hu
  | cons op ops ih =>
      obtain ⟨hop, hops⟩ := List.ne_and_not_mem_of_not_mem_cons hops
      simp only [applyOps] at ha
      split at ha
      · cases ha
      · rename_i r L₁ happly
        obtain ⟨⟨rs', L₂⟩, hrest, he⟩ := Option.map_eq_some_iff.mp ha
        cases he
        have hu₁ := Op.unlinked hu h (Ne.symm hop) happly
        obtain ⟨-, h₁, -⟩ := Op.refines h happly
        simpa [runOps] using ih hu₁ h₁ hops hrest

theorem session_represents (outside : QTable) (h : applyOps ops Fifos.empty = some (rs, L)) :
    Represents ((session ops).exec (zeroed outside)).2 L := by
  obtain ⟨-, hrep, -⟩ := runOps_refines (initialize_represents (zeroed outside)) h
  simpa [session] using hrep

theorem session_unlinked (outside : QTable) (hops : .setup ∉ ops)
    (h : applyOps ops Fifos.empty = some (rs, L)) : Unlinked ((session ops).exec (zeroed outside)).2 L := by
  have hblank : ∀ i : Slot, Blank (next (zeroed outside) i) ∧ Blank (prev (zeroed outside) i) := by
    intro i
    have hi := slot_inTable i
    simp [zeroed, next, prev, hi, Blank]
  have hu := runOps_unlinked (.setup hblank) (initialize_represents (zeroed outside)) hops h
  simpa [session] using hu

/-- A call with empty lists never does what it promises, whatever calls have led there: it returns slot 0
while some slot with an even number was never used, and reads below the array afterwards. -/
theorem dequeue_never_idles (outside : QTable) (ops : List Op) {rs : List (Option Slot)} {L : Fifos}
    (hops : .setup ∉ ops) (h : applyOps ops Fifos.empty = some (rs, L)) (hL : ∀ q, L q = []) :
    ¬ Idles ((session ops).exec (zeroed outside)).2 ∧
      ((dequeue.exec ((session ops).exec (zeroed outside)).2).1 = some 0 ∨
        ¬ InTable dequeue ((session ops).exec (zeroed outside)).2) := by
  rcases (session_represents outside h).dequeue_empty (session_unlinked outside hops h) hL with
    ⟨-, hzero⟩ | ⟨-, hout⟩
  · refine ⟨fun hidle => ?_, .inl hzero⟩
    rw [hidle.returns] at hzero
    exact absurd (Option.some.inj hzero) (by decide)
  · exact ⟨fun hidle => hout hidle.inTable, .inr hout⟩

/-- Right after `initialize` the call returns slot 0. -/
theorem dequeue_fails_to_idle :
    ¬ ∀ outside ops rs L, .setup ∉ ops → applyOps ops Fifos.empty = some (rs, L) → (∀ q, L q = []) →
      Idles ((session ops).exec (zeroed outside)).2 := by
  intro hall
  have hidle := hall (fun _ => 0) [] [] Fifos.empty (by decide) rfl fun _ => rfl
  have hzero : (dequeue.exec ((session []).exec (zeroed fun _ => 0)).2).1 = some 0 := by decide +kernel
  rw [hidle.returns] at hzero
  exact absurd (Option.some.inj hzero) (by decide)

/-- A process has come and gone at MEDIUM. -/
theorem dequeue_never_idles_emptied :
    ¬ Idles ((session [.enqueueBack 1 5 1, .dequeue]).exec (zeroed fun _ => 0)).2 :=
  (@dequeue_never_idles (fun _ => 0) [.enqueueBack 1 5 1, .dequeue] [none, some 5] _ (by decide) rfl (by decide)).1

end Xv6Mlfq.Queue
