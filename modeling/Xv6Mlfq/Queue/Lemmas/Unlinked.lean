import Xv6Mlfq.Queue.Lemmas.Dequeue

/-!
# Entries in no list

The links of an entry that is in no list are those of an entry never used, or those that `remove_pid`
leaves behind. `dequeue` on an empty table works on such entries.
-/

namespace Xv6Mlfq.Queue

open Access Access.Prog Links

variable {t : QTable} {L : Fifos} {i j : Slot} {q : Level}

/-- A link never set, or the mark of `remove_pid`. -/
def Blank (n : Nat) : Prop := n = 0 ∨ n = 999

def Unlinked (t : QTable) (L : Fifos) : Prop :=
  ∀ i : Slot, L.Free i → Blank (next t i) ∧ Blank (prev t i)

/-! ## What the calls leave alone -/

theorem Represents.enqueueBack_keeps (h : Represents t L) (hi : L.Free i) (hj : L.Free j) (hji : j ≠ i)
    (q : Level) (pass : Nat) :
    next ((enqueueBack q i pass).exec t).2 j = next t j ∧
      prev ((enqueueBack q i pass).exec t).2 j = prev t j := by
  obtain ⟨hne, hlast⟩ := h.prev_tail_ne hi q
  have hji' : (j : Nat) ≠ i := Fin.val_ne_of_ne hji
  have hjp : (j : Nat) ≠ t (gettail q, .prev) := Ne.symm (h.prev_tail_ne hj q).1
  have hjt : (j : Nat) ≠ gettail q := fun he => slot_notMem_ring (hj q) (he ▸ tail_mem_ring)
  have hlast' : t (t (gettail q, .prev), .next) = gettail q := hlast
  rw [enqueueBack_exec hne]
  simp [spliceIn, next, prev, hlast', hji', hjp, hjt]

theorem Represents.removePid_keeps (h : Represents t L) {x : Int} (hx : index x = i) (hi : i ∈ L q)
    (hj : L.Free j) :
    next ((removePid x).exec t).2 j = next t j ∧ prev ((removePid x).exec t).2 j = prev t j := by
  have hmem : (i : Nat) ∈ nodes L q := mem_nodes.mpr hi
  have hji : (j : Nat) ≠ i := fun he => hj q (Fin.ext he ▸ hi)
  have hjp : (j : Nat) ≠ t (i, .prev) := fun he => slot_notMem_ring (hj q)
    (he ▸ Family.prev_mem_ring h (q := q) (by simp [hmem]))
  have hjn : (j : Nat) ≠ t (i, .next) := fun he => slot_notMem_ring (hj q)
    (he ▸ Family.next_mem_ring h (q := q) (by simp [hmem]))
  rw [removePid_exec hx]
  simp [spliceOut, next, prev, hji, hjp, hjn]

theorem removePid_marks (t : QTable) {x : Int} (hx : index x = i) :
    next ((removePid x).exec t).2 i = 999 ∧ prev ((removePid x).exec t).2 i = 999 := by
  simp [removePid, hx, next, prev]

theorem initialize_keeps (t : QTable) (i : Slot) :
    next ((initializeQtable NUM_QUEUES).exec t).2 i = next t i ∧
      prev ((initializeQtable NUM_QUEUES).exec t).2 i = prev t i := by
  have hi := slot_lt i
  constructor <;>
    refine exec_snd_of_notMem fun hmem => ?_ <;>
    simp only [initialize_touched, List.mem_cons, Prod.mk.injEq, reduceCtorEq, and_true, and_false,
      List.not_mem_nil, false_or, or_false] at hmem <;>
    omega

/-- Taking out an entry undoes putting it in, if it was as removals leave entries. -/
theorem spliceOut_spliceIn {a pass : Nat} (hai : a ≠ i) (hbi : next t a ≠ i) (hba : prev t (next t a) = a)
    (hpass : t (i, .pass) = pass) (hn : next t i = 999) (hp : prev t i = 999) :
    spliceOut (spliceIn t a i pass) i = t := by
  obtain ⟨⟨-, hpi⟩, hni, hpb⟩ := spliceIn_links pass hai hbi
  simp only [next, prev] at hbi hba hn hp
  funext x
  obtain ⟨c, f⟩ := x
  rw [spliceOut, hpi, hni]
  cases f <;> simp only [spliceIn, next, Function.update_apply, Prod.mk.injEq, reduceCtorEq, and_true,
    and_false, if_false]
  · split_ifs with h
    · rw [h, hpass]
    · rfl
  · split_ifs with h h'
    · rw [h, hp]
    · rw [h', hba]
    · rfl
  · split_ifs with h h'
    · rw [h, hn]
    · rw [h']
    · rfl

/-! ## The links that the calls leave behind -/

theorem Unlinked.enqueueBack (hu : Unlinked t L) (h : Represents t L) (hi : L.Free i) (q : Level)
    (pass : Nat) : Unlinked ((enqueueBack q i pass).exec t).2 (Function.update L q (L q ++ [i])) := by
  intro j hj
  obtain ⟨hjL, hji⟩ := Fifos.free_append.mp hj
  obtain ⟨hn, hp⟩ := h.enqueueBack_keeps hi hjL hji q pass
  rw [hn, hp]
  exact hu j hjL

theorem Unlinked.removePid (hu : Unlinked t L) (h : Represents t L) {x : Int} (hx : index x = i)
    {us vs : List Slot} (hL : L q = us ++ i :: vs) :
    Unlinked ((removePid x).exec t).2 (Function.update L q (us ++ vs)) := by
  intro j hj
  by_cases hji : j = i
  · subst hji
    obtain ⟨hn, hp⟩ := removePid_marks t hx
    rw [hn, hp]
    exact ⟨.inr rfl, .inr rfl⟩
  · have hjL : L.Free j := Fifos.free_remove hL hj hji
    obtain ⟨hn, hp⟩ := h.removePid_keeps hx (q := q) (by simp [hL]) hjL
    rw [hn, hp]
    exact hu j hjL

theorem Unlinked.setup (hu : ∀ i : Slot, Blank (next t i) ∧ Blank (prev t i)) :
    Unlinked ((initializeQtable NUM_QUEUES).exec t).2 Fifos.empty := by
  intro i _
  obtain ⟨hn, hp⟩ := initialize_keeps t i
  rw [hn, hp]
  exact hu i

/-! ## `dequeue` with nothing to take -/

/-- The loop only reads, and stops at a head whose successor is a slot. `z` is the unsigned `i` as a
signed number; it stays above `- 2 ^ 30`, so that `head` keeps the whole of `idx`. -/
theorem findHead_exec (t : QTable) (fuel : Nat) (z : Int) (hz : z ≤ QUEUE_HIGH.val)
    (hlow : (fuel : Int) - 2 ^ 30 ≤ z) :
    ∃ r, (findHead fuel (index z)).exec t = (r, t) ∧
      ∀ head, r = some head → head ≠ EMPTY ∧ t (index head, .next) < NPROC := by
  induction fuel generalizing z with
  | zero => exact ⟨none, rfl, fun head h => by cases h⟩
  | succ fuel ih =>
      have hq : z ≤ 2 := hz
      have hidx : (NPROC + (index z <<< 1)) % 2 ^ 64 = index (64 + 2 * z) := by
        simp only [index, NPROC, Nat.shiftLeft_eq]; omega
      have hhead : int32 (index (64 + 2 * z)) = 64 + 2 * z := by
        simp only [index, int32, Int.bmod_def]; omega
      have hprev : (index z + (2 ^ 64 - 1)) % 2 ^ 64 = index (z - 1) := by
        simp only [index]; omega
      have hlevel : QUEUE_LOW.val ≤ index z := Nat.zero_le _
      obtain ⟨r, hr, hspec⟩ := ih (z - 1) (by omega) (by push_cast at hlow; omega)
      by_cases hslot : t (index (64 + 2 * z), .next) < NPROC
      · refine ⟨some (64 + 2 * z), ?_, ?_⟩
        · simp only [findHead, hlevel, if_true, hidx, firstid, exec_bind, exec_read, hslot, hhead, exec_pure]
        · rintro head ⟨⟩
          exact ⟨by simp only [EMPTY]; omega, hslot⟩
      · refine ⟨r, ?_, hspec⟩
        simp only [findHead, hlevel, if_true, hidx, hprev, firstid, exec_bind, exec_read, hslot, if_false, hr]

/-- Whatever the table holds, `dequeue` does not return or removes the slot that it returns. -/
theorem dequeue_exec (t : QTable) :
    dequeue.exec t = (none, t) ∨
      ∃ i : Slot, dequeue.exec t = (some (i : Int), ((removePid (int32 (i : Nat))).exec t).2) := by
  obtain ⟨r, hr, hspec⟩ := findHead_exec t (2 ^ 30) QUEUE_HIGH.val le_rfl (by decide)
  have hfind : (findHead (2 ^ 30) QUEUE_HIGH).exec t = (r, t) := hr
  rw [dequeue_eq_finish, exec_bind, hfind]
  cases r with
  | none => exact .inl rfl
  | some head =>
      obtain ⟨hne, hslot⟩ := hspec head rfl
      refine .inr ⟨⟨_, hslot⟩, ?_⟩
      have h64 : int64 (t (index head, .next) : Nat) = (t (index head, .next) : Nat) := by
        simp only [NPROC] at hslot
        simp only [int64, Int.bmod_def]; omega
      simp [finish, hne, firstid, h64]

/-- The entry itself and its neighbours are all that a removal writes. -/
theorem spliceOut_keeps {c : Nat} (hc : c ≠ i) (hn : c ≠ next t i) (hp : c ≠ prev t i) :
    next (spliceOut t i) c = next t c ∧ prev (spliceOut t i) c = prev t c := by
  have hn' : c ≠ t (i, .next) := hn
  have hp' : c ≠ t (i, .prev) := hp
  simp [spliceOut, next, prev, hc, hn', hp']

theorem spliceOut_blank (hn : Blank (next t i)) (hp : Blank (prev t i)) {c : Nat} (hcn : Blank (next t c))
    (hcp : Blank (prev t c)) : Blank (next (spliceOut t i) c) ∧ Blank (prev (spliceOut t i) c) := by
  have hmark : Blank 999 := .inr rfl
  simp only [next, prev] at hn hp hcn hcp
  simp only [spliceOut, next, prev, Function.update_apply, Prod.mk.injEq, reduceCtorEq, and_true, and_false,
    if_false]
  constructor
  · split_ifs <;> assumption
  · split_ifs <;> assumption

/-- With all lists empty the removal of any slot does not disturb them. -/
theorem Represents.removePid_free (h : Represents t L) (hu : Unlinked t L) {x : Int} (hx : index x = i)
    (hL : ∀ q, L q = []) :
    Represents ((removePid x).exec t).2 L ∧ Unlinked ((removePid x).exec t).2 L := by
  have hfree : ∀ j : Slot, L.Free j := fun j q => by simp [hL q]
  obtain ⟨hn, hp⟩ := hu i (hfree i)
  refine ⟨h.congr fun q c hc => ?_, fun j _ => ?_⟩
  · have hq := level_lt q
    have hi := slot_lt i
    have hc' : c = gethead q ∨ c = gettail q := by simpa [ring, nodes, hL q] using hc
    simp only [gethead_eq, gettail_eq] at hc'
    rw [removePid_exec hx]
    refine spliceOut_keeps (by omega) ?_ ?_
    · rcases hn with hn | hn <;> omega
    · rcases hp with hp | hp <;> omega
  · obtain ⟨hjn, hjp⟩ := hu j (hfree j)
    rw [removePid_exec hx]
    exact spliceOut_blank hn hp hjn hjp

/-- `dequeue` with all lists empty takes out some slot, if it returns at all. -/
theorem Represents.dequeue_idle (h : Represents t L) (hu : Unlinked t L) (hL : ∀ q, L q = []) :
    dequeue.exec t = (none, t) ∨
      ∃ (i : Slot) (t' : QTable), dequeue.exec t = (some (i : Int), t') ∧ Represents t' L ∧ Unlinked t' L := by
  rcases dequeue_exec t with he | ⟨i, he⟩
  · exact .inl he
  · exact .inr ⟨i, _, he, h.removePid_free hu (index_int32 i) hL⟩

end Xv6Mlfq.Queue
