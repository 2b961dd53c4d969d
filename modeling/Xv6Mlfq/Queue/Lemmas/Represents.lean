import Mathlib.Data.Fintype.Card
import Mathlib.Data.Fintype.Fin
import Mathlib.Data.List.NodupEquivFin
import Xv6Mlfq.Queue.Table

/-!
# The table as three sequences of slots

`Represents t L` reads the table `t` as the family of lists `L`. Every operation of `queue.c` gets one
lemma here, on the lists; nothing outside this file unfolds a splice.
-/

namespace Xv6Mlfq.Queue

open Access Access.Prog Links

/-- The abstract queue: a sequence of slots for each level. -/
abbrev Fifos := Level → List Slot

def Fifos.empty : Fifos := fun _ => []

def nodes (L : Fifos) (q : Level) : List Nat := (L q).map Fin.val

def Represents (t : QTable) (L : Fifos) : Prop :=
  Family (fun q : Level => gethead q) (fun q : Level => gettail q) (next t) (prev t) (nodes L)

/-- The slot is in no list. -/
def Fifos.Free (L : Fifos) (i : Slot) : Prop := ∀ q, i ∉ L q

variable {t : QTable} {L : Fifos} {i j : Slot} {q : Level}

theorem Fifos.free_append : Fifos.Free (Function.update L q (L q ++ [i])) j ↔ L.Free j ∧ j ≠ i := by
  constructor
  · refine fun h => ⟨fun r hr => h r ?_, fun he => h q (by simp [he])⟩
    by_cases hrq : r = q
    · subst hrq; simp [hr]
    · simpa [Function.update_of_ne hrq] using hr
  · rintro ⟨h, hji⟩ r
    by_cases hrq : r = q
    · subst hrq; simpa [hji] using h r
    · simpa [Function.update_of_ne hrq] using h r

theorem Fifos.free_remove {us vs : List Slot} (hL : L q = us ++ i :: vs)
    (h : Fifos.Free (Function.update L q (us ++ vs)) j) (hji : j ≠ i) : L.Free j := by
  intro r hr
  by_cases hrq : r = q
  · subst hrq
    rw [hL] at hr
    exact h r (by simpa [hji] using hr)
  · exact h r (by simpa [Function.update_of_ne hrq] using hr)

/-! ## Sentinels and slots -/

theorem slot_lt (i : Slot) : (i : Nat) < 64 := i.isLt

theorem slot_inTable (i : Slot) : (i : Nat) < QTABLE_SIZE := by
  have := slot_lt i
  simp only [QTABLE_SIZE, NPROC, NUM_QUEUES]; omega

theorem level_lt (q : Level) : (q : Nat) < 3 := q.isLt

theorem gethead_eq (q : Nat) : gethead q = 64 + 2 * q := by
  simp only [gethead, NPROC, Nat.shiftLeft_eq]; omega

theorem gettail_eq (q : Nat) : gettail q = 65 + 2 * q := by
  simp only [gettail, NPROC, Nat.shiftLeft_eq]; omega

theorem mem_nodes : (i : Nat) ∈ nodes L q ↔ i ∈ L q := by
  simp [nodes, Fin.val_inj]

theorem nodes_update [DecidableEq Level] (L : Fifos) (q : Level) (xs : List Slot) :
    nodes (Function.update L q xs) = Function.update (nodes L) q (xs.map Fin.val) := by
  funext r
  by_cases h : r = q
  · subst h; simp [nodes]
  · simp [nodes, Function.update_of_ne h]

theorem lt_of_mem_ring {a : Nat}
    (h : a ∈ ring (fun q : Level => gethead q) (fun q : Level => gettail q) (nodes L) q) :
    a < QTABLE_SIZE := by
  have hq := level_lt q
  simp only [ring, nodes, List.mem_cons, List.mem_append, List.mem_map, List.not_mem_nil, or_false,
    gethead_eq, gettail_eq] at h
  simp only [QTABLE_SIZE, NPROC, NUM_QUEUES]
  rcases h with h | ⟨j, -, h⟩ | h
  · omega
  · have := slot_lt j; omega
  · omega

theorem slot_notMem_ring (h : i ∉ L q) :
    (i : Nat) ∉ ring (fun q : Level => gethead q) (fun q : Level => gettail q) (nodes L) q := by
  have hi := slot_lt i
  have hn : (i : Nat) ∉ nodes L q := mt mem_nodes.mp h
  simp only [ring, List.mem_cons, List.mem_append, List.not_mem_nil, or_false, gethead_eq,
    gettail_eq, not_or]
  exact ⟨by omega, hn, by omega⟩

namespace Represents

/-! ## Reading the lists off the table -/

theorem nodup (h : Represents t L) (q : Level) : (L q).Nodup := by
  have hn : (nodes L q).Nodup := Family.nodup_list h
  exact hn.of_map _

theorem length_lt (h : Represents t L) (q : Level) : (nodes L q).length < QTABLE_SIZE := by
  have := (h.nodup q).length_le_card
  simp only [Fintype.card_fin, NPROC] at this
  simp only [nodes, List.length_map, QTABLE_SIZE, NPROC, NUM_QUEUES]
  omega

theorem disjoint (h : Represents t L) {r : Level} (hqr : q ≠ r) : (L q).Disjoint (L r) :=
  fun _ hq hr => Family.disjoint h q r hqr (mem_ring_of_mem (mem_nodes.mpr hq))
    (mem_ring_of_mem (mem_nodes.mpr hr))

theorem forward_eq (h : Represents t L) (q : Level) : forward t q = some (nodes L q) :=
  Family.follow_next h (h.length_lt q)

theorem backward_eq (h : Represents t L) (q : Level) : backward t q = some (nodes L q).reverse :=
  Family.follow_prev h (h.length_lt q)

theorem unique {L' : Fifos} (h : Represents t L) (h' : Represents t L') : L = L' := by
  funext q
  have hq := (h.forward_eq q).symm.trans (h'.forward_eq q)
  exact List.map_injective_iff.mpr Fin.val_injective (Option.some.inj hq)

/-- The lists read the links of their own entries only. -/
theorem congr {t' : QTable} (h : Represents t L)
    (hn : ∀ q, ∀ c ∈ ring (fun q : Level => gethead q) (fun q : Level => gettail q) (nodes L) q,
      next t' c = next t c ∧ prev t' c = prev t c) : Represents t' L := by
  refine ⟨fun q => ?_, fun q => Family.nodup h q, fun q r => Family.disjoint h q r⟩
  exact (Family.chained h q).congr (fun c hc => (hn q c (List.dropLast_subset _ hc)).1)
    (fun c hc => (hn q c (List.mem_of_mem_tail hc)).2)

theorem firstid_lt_iff (h : Represents t L) (q : Level) :
    t (gethead q, .next) < NPROC ↔ L q ≠ [] := by
  have hq := level_lt q
  cases hL : L q with
  | nil =>
      have hc : nodes L q = [] := by simp [nodes, hL]
      have hn := Family.next_head_nil h hc
      simp only [next, gettail_eq] at hn
      simp only [hn, ne_eq, not_true_eq_false, iff_false, NPROC]
      omega
  | cons x xs =>
      have hc : nodes L q = (x : Nat) :: xs.map Fin.val := by simp [nodes, hL]
      have hn := Family.next_head_cons h hc
      simp only [next] at hn
      simp [hn, x.isLt]

theorem firstid_eq (h : Represents t L) {xs : List Slot} (hL : L q = i :: xs) :
    t (gethead q, .next) = i := by
  have hc : nodes L q = (i : Nat) :: xs.map Fin.val := by simp [nodes, hL]
  exact Family.next_head_cons h hc

end Represents

/-! ## Insertion -/

/-- The table after `enqueue` or `enqueueBack` has put entry `i` behind entry `a`. -/
def spliceIn (t : QTable) (a i pass : Nat) : QTable :=
  Function.update (Function.update (Function.update (Function.update (Function.update t
    (i, .pass) pass) (i, .next) (next t a)) (i, .prev) a) (a, .next) i) (next t a, .prev) i

theorem spliceIn_frame (t : QTable) (a i pass : Nat) :
    Frame (next t) (prev t) (next (spliceIn t a i pass)) (prev (spliceIn t a i pass)) a i (next t a) := by
  constructor
  · intro c hca hci; simp [spliceIn, next, hca, hci]
  · intro c hcb hci; 
    have hcb' : c ≠ t (a, .next) := hcb
    simp [spliceIn, next, prev, hci, hcb']

theorem spliceIn_links (pass : Nat) {a i : Nat} (hai : a ≠ i) (hbi : next t a ≠ i) :
    Linked (next (spliceIn t a i pass)) (prev (spliceIn t a i pass)) a i ∧
      Linked (next (spliceIn t a i pass)) (prev (spliceIn t a i pass)) i (next t a) := by
  have hbi' : i ≠ t (a, .next) := Ne.symm hbi
  refine ⟨⟨?_, ?_⟩, ⟨?_, ?_⟩⟩
  · simp [spliceIn, next]
  · simp [spliceIn, prev, next, hbi']
  · simp [spliceIn, next, hai.symm]
  · simp [spliceIn, prev, next]

theorem enqueue_exec {q i pass : Nat} (h : gethead q ≠ i) :
    (enqueue q i pass).exec t = ((), spliceIn t (gethead q) i pass) := by
  simp [enqueue, spliceIn, next, h.symm, h]

theorem enqueueBack_exec {q i pass : Nat} (h : prev t (gettail q) ≠ i) :
    (enqueueBack q i pass).exec t = ((), spliceIn t (prev t (gettail q)) i pass) := by
  have h' : i ≠ t (gettail q, .prev) := Ne.symm h
  simp [enqueueBack, spliceIn, next, prev, h']

theorem Represents.enqueue_spec (h : Represents t L) (hi : L.Free i) (q : Level) (pass : Nat) :
    Represents ((enqueue q i pass).exec t).2 (Function.update L q (i :: L q)) := by
  have hring : ∀ r : Level, (i : Nat) ∉ ring _ _ (nodes L) r := fun r => slot_notMem_ring (hi r)
  have hhead : gethead q ≠ i := fun he => hring q (he ▸ head_mem_ring)
  obtain ⟨b, l, -, hr⟩ := ring_first (fun q : Level => gethead q) (fun q : Level => gettail q) (nodes L) q
  have hb : next t (gethead q) = b := (hr ▸ Family.chained h q).head_next
  have hbi : next t (gethead q) ≠ i := by
    rw [hb]; exact fun he => hring q (by rw [hr, ← he]; simp)
  obtain ⟨hai, hib⟩ := spliceIn_links pass hhead hbi
  rw [enqueue_exec hhead, Represents, nodes_update]
  exact Family.insertFront h hring rfl (spliceIn_frame ..) hai hib

theorem Represents.prev_tail_ne (h : Represents t L) (hi : L.Free i) (q : Level) :
    prev t (gettail q) ≠ i ∧ next t (prev t (gettail q)) = gettail q := by
  obtain ⟨l, a, hl, hr⟩ := ring_last (fun q : Level => gethead q) (fun q : Level => gettail q) (nodes L) q
  obtain ⟨hp, hn⟩ := Family.prev_tail h hl
  rw [hp]
  exact ⟨fun he => slot_notMem_ring (hi q) (by rw [hr, ← he]; simp), hn⟩

theorem Represents.enqueueBack_spec (h : Represents t L) (hi : L.Free i) (q : Level) (pass : Nat) :
    Represents ((enqueueBack q i pass).exec t).2 (Function.update L q (L q ++ [i])) := by
  have hring : ∀ r : Level, (i : Nat) ∉ ring _ _ (nodes L) r := fun r => slot_notMem_ring (hi r)
  obtain ⟨hai', hab⟩ := h.prev_tail_ne hi q
  have hbi : next t (prev t (gettail q)) ≠ i := by
    rw [hab]; exact fun he => hring q (he ▸ tail_mem_ring)
  obtain ⟨hai, hib⟩ := spliceIn_links pass hai' hbi
  have hf := spliceIn_frame t (prev t (gettail q)) i pass
  rw [hab] at hib hf
  rw [enqueueBack_exec hai', Represents, nodes_update, List.map_append]
  exact Family.insertBack h hring rfl hf hai hib

/-! ## Removal -/

/-- The table after `removePid` has joined the neighbours of entry `i`. -/
def spliceOut (t : QTable) (i : Nat) : QTable :=
  Function.update (Function.update (Function.update (Function.update t
    (prev t i, .next) (next t i)) (next t i, .prev) (prev t i)) (i, .next) 999) (i, .prev) 999

theorem index_slot (i : Slot) : index (i : Nat) = i := by
  have hi := slot_lt i
  simp only [index]
  omega

theorem index_int32 (i : Slot) : index (int32 (i : Nat)) = i := by
  have hi := slot_lt i
  simp only [index, int32, Int.bmod_def]
  omega

/-- The second load of the link to the next entry gives what the first one gave, even if the entry is its
own predecessor. -/
theorem removePid_exec {x : Int} (hx : index x = i) : (removePid x).exec t = ((), spliceOut t i) := by
  by_cases hp : t (i, .prev) = i
  · simp [removePid, hx, spliceOut, next, prev, hp]
  · have hp' : (i : Nat) ≠ t (i, .prev) := Ne.symm hp
    simp [removePid, hx, spliceOut, next, prev, hp']

/-- A linked slot is none of its own neighbours. -/
theorem Represents.neighbours_ne (h : Represents t L) (hi : i ∈ L q) :
    prev t i ≠ i ∧ next t i ≠ i := by
  obtain ⟨us, vs, hL⟩ := List.append_of_mem (mem_nodes.mpr hi)
  obtain ⟨⟨l₁, hl₁⟩, ⟨l₂, hl₂⟩, -, -⟩ := Family.around h hL
  have hr : ring (fun q : Level => gethead q) (fun q : Level => gettail q) (nodes L) q =
      l₁ ++ prev t i :: (i : Nat) :: next t i :: l₂ := by
    rw [ring, hL, List.append_assoc, List.cons_append, hl₂, ← List.cons_append, hl₁]; simp
  have hnd := Family.nodup h q
  rw [hr] at hnd
  simp only [List.nodup_append', List.nodup_cons, List.mem_cons, not_or] at hnd
  obtain ⟨-, ⟨⟨hpi, -⟩, ⟨hin, -⟩, -⟩, -⟩ := hnd
  exact ⟨hpi, Ne.symm hin⟩

theorem Represents.removePid_spec (h : Represents t L) {x : Int} (hx : index x = i)
    {us vs : List Slot} (hL : L q = us ++ i :: vs) :
    Represents ((removePid x).exec t).2 (Function.update L q (us ++ vs)) := by
  have hnodes : nodes L q = us.map Fin.val ++ (i : Nat) :: vs.map Fin.val := by simp [nodes, hL]
  obtain ⟨hpi, hin⟩ := h.neighbours_ne (q := q) (i := i) (by simp [hL])
  have hpi' : (i : Nat) ≠ t (i, .prev) := Ne.symm hpi
  have hin' : (i : Nat) ≠ t (i, .next) := Ne.symm hin
  rw [removePid_exec hx, Represents, nodes_update, List.map_append]
  refine Family.remove h hnodes ⟨?_, ?_⟩ ⟨?_, ?_⟩
  · intro c hc hci
    have hc' : c ≠ t (i, .prev) := hc
    simp [spliceOut, next, prev, hci, hc']
  · intro c hc hci
    have hc' : c ≠ t (i, .next) := hc
    simp [spliceOut, next, prev, hci, hc']
  · simp [spliceOut, next, prev, hpi'.symm]
  · simp [spliceOut, next, prev, hin'.symm]

/-! ## `initialize` -/

/-- `initialize` joins the head and the tail of every level. -/
theorem initialize_links (t : QTable) (q : Level) :
    next ((initializeQtable NUM_QUEUES).exec t).2 (gethead q) = gettail q ∧
      prev ((initializeQtable NUM_QUEUES).exec t).2 (gettail q) = gethead q := by
  match q with
  | 0 => exact ⟨rfl, rfl⟩
  | 1 => exact ⟨rfl, rfl⟩
  | 2 => exact ⟨rfl, rfl⟩

theorem initialize_represents (t : QTable) :
    Represents ((initializeQtable NUM_QUEUES).exec t).2 Fifos.empty := by
  have hring : ∀ q : Level, ring (fun q : Level => gethead q) (fun q : Level => gettail q)
      (nodes Fifos.empty) q = [gethead q, gettail q] := fun q => rfl
  refine ⟨fun q => ?_, fun q => ?_, fun q r hqr => ?_⟩
  · rw [hring]
    exact .cons_cons (initialize_links t q) (.singleton _)
  · rw [hring]
    simp [gethead_eq, gettail_eq]
  · have hne : (q : Nat) ≠ r := fun he => hqr (Fin.ext he)
    rw [hring, hring]
    intro a ha ha'
    simp only [List.mem_cons, List.not_mem_nil, or_false, gethead_eq, gettail_eq] at ha ha'
    omega

theorem initialize_touched (t : QTable) : (initializeQtable NUM_QUEUES).touched t =
    [(64, .next), (65, .prev), (64, .pass), (65, .pass), (66, .next), (67, .prev), (66, .pass),
      (67, .pass), (68, .next), (69, .prev), (68, .pass), (69, .pass)] := rfl

end Xv6Mlfq.Queue
