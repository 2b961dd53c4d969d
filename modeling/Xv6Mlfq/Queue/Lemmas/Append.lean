import Xv6Mlfq.Queue.Lemmas.Dequeue

/-!
# Several appends

A handler that makes processes RUNNABLE is a sequence of calls of `enqueue_back`. It shares no cell with the
removal of the front of a level, unless that front is also the end of a level that it appends to.
-/

namespace Xv6Mlfq.Queue

open Access Access.Prog Links

variable {t : QTable} {L : Fifos} {d i : Slot} {q r : Level} {xs : List Slot} {a : Addr} {ws : List (Level × Slot)}

/-- `enqueue_back` for each slot, at its level. -/
def appends : List (Level × Slot) → Prog Addr Nat Unit
  | [] => pure ()
  | (q, i) :: ws => do
      enqueueBack q i DEFAULT_PASS
      appends ws

/-- The lists after the appends. -/
def Fifos.appended (L : Fifos) : List (Level × Slot) → Fifos
  | [] => L
  | (q, i) :: ws => Fifos.appended (Function.update L q (L q ++ [i])) ws

/-- The slots are distinct, and in no list. -/
structure Fresh (L : Fifos) (ws : List (Level × Slot)) : Prop where
  free : ∀ w ∈ ws, L.Free w.2
  nodup : (ws.map Prod.snd).Nodup

theorem Fresh.cons (h : Fresh L ((q, i) :: ws)) : L.Free i ∧ Fresh (Function.update L q (L q ++ [i])) ws := by
  have hnd := List.nodup_cons.mp h.nodup
  refine ⟨h.free _ List.mem_cons_self, fun w hw => Fifos.free_append.mpr ⟨?_, fun he => ?_⟩, hnd.2⟩
  · exact h.free w (List.mem_cons_of_mem _ hw)
  · exact hnd.1 (List.mem_map.mpr ⟨w, hw, he⟩)

theorem Fresh.tail (h : Fresh L ws) (hL : L q = d :: xs) : Fresh (Function.update L q xs) ws := by
  refine ⟨fun w hw r hr => h.free w hw r ?_, h.nodup⟩
  by_cases hrq : r = q
  · subst hrq
    rw [Function.update_self] at hr
    exact hL ▸ List.mem_cons_of_mem d hr
  · rwa [Function.update_of_ne hrq] at hr

theorem Fifos.appended_eq (L : Fifos) (ws : List (Level × Slot)) (r : Level) :
    L.appended ws r = L r ++ (ws.filter fun w => w.1 = r).map Prod.snd := by
  induction ws generalizing L with
  | nil => simp [appended]
  | cons w ws ih =>
      obtain ⟨q, i⟩ := w
      rw [appended, ih]
      by_cases hq : q = r
      · subst hq; simp
      · simp [hq, Function.update_of_ne (Ne.symm hq)]

theorem Represents.appends_spec (h : Represents t L) (hw : Fresh L ws) :
    Represents ((appends ws).exec t).2 (L.appended ws) := by
  induction ws generalizing t L with
  | nil => exact h
  | cons w ws ih =>
      obtain ⟨q, i⟩ := w
      obtain ⟨hi, hw'⟩ := hw.cons
      simp only [appends, exec_bind]
      exact ih (h.enqueueBack_spec hi q DEFAULT_PASS) hw'

/-! ## The cells that the appends touch -/

theorem Represents.enqueueBack_notMem (h : Represents t L) (hi : L.Free i) (pass : Nat) (hslot : a.1 ≠ i)
    (htail : a ≠ (gettail q, .prev)) (hlast : a ≠ (prev t (gettail q), .next)) :
    a ∉ (enqueueBack q i pass).touched t := by
  obtain ⟨hne, hnext⟩ := h.prev_tail_ne hi q
  have hne' : (i : Nat) ≠ t (gettail q, .prev) := Ne.symm hne
  have hnext' : t (t (gettail q, .prev), .next) = gettail q := hnext
  have hslot' : ∀ f, a ≠ ((i : Nat), f) := fun f he => hslot (he ▸ rfl)
  have hlast' : a ≠ (t (gettail q, .prev), .next) := hlast
  simp only [enqueueBack, touched_bind, touched_write, touched_read, exec_write, exec_read]
  simp [hne', hnext', hslot', htail, hlast']

theorem Represents.enqueueBack_prev_tail (h : Represents t L) (hi : L.Free i) (q : Level) (pass : Nat)
    (r : Level) :
    prev ((enqueueBack q i pass).exec t).2 (gettail r) = if r = q then (i : Nat) else prev t (gettail r) := by
  by_cases hr : r = q
  · subst hr
    obtain ⟨hne, hnext⟩ := h.prev_tail_ne hi r
    have hni : next t (prev t (gettail r)) ≠ i := by
      rw [hnext]; exact fun he => slot_notMem_ring (hi r) (he ▸ tail_mem_ring)
    have hlink := (spliceIn_links pass hne hni).2.2
    rw [hnext] at hlink
    rw [enqueueBack_exec hne, if_pos rfl, hlink]
  · rw [if_neg hr]
    have htail : gettail r ≠ i := fun he => slot_notMem_ring (hi r) (he ▸ tail_mem_ring)
    have hneq : gettail r ≠ gettail q := by
      have : (r : Nat) ≠ q := fun he => hr (Fin.ext he)
      simp only [gettail_eq]; omega
    exact exec_snd_of_notMem (h.enqueueBack_notMem hi pass htail (by simp [hneq]) (by simp))

theorem Represents.appends_notMem (h : Represents t L) (hw : Fresh L ws) (hslot : ∀ w ∈ ws, a.1 ≠ w.2)
    (htail : ∀ w ∈ ws, a ≠ (gettail w.1, .prev)) (hlast : ∀ w ∈ ws, a ≠ (prev t (gettail w.1), .next)) :
    a ∉ (appends ws).touched t := by
  induction ws generalizing t L with
  | nil => exact List.not_mem_nil
  | cons w ws ih =>
      obtain ⟨q, i⟩ := w
      obtain ⟨hi, hw'⟩ := hw.cons
      simp only [List.mem_cons, forall_eq_or_imp] at hslot htail hlast
      simp only [appends, touched_bind, List.mem_append, not_or]
      refine ⟨h.enqueueBack_notMem hi DEFAULT_PASS hslot.1 htail.1 hlast.1, ?_⟩
      refine ih (h.enqueueBack_spec hi q DEFAULT_PASS) hw' hslot.2 htail.2 fun w hw => ?_
      rw [h.enqueueBack_prev_tail hi q DEFAULT_PASS]
      split_ifs
      · exact fun he => hslot.1 (he ▸ rfl)
      · exact hlast.2 w hw

/-! ## The front of a level and its neighbours -/

section Front

variable (h : Represents t L) (hL : L q = d :: xs)
include h hL

theorem Represents.front_prev : prev t d = gethead q := by
  have hnodes : nodes L q = [] ++ (d : Nat) :: xs.map Fin.val := by simp [nodes, hL]
  obtain ⟨⟨l, hl⟩, -⟩ := Family.around h hnodes
  cases l with
  | nil => exact (List.singleton_inj.mp hl).symm
  | cons b l => simp at hl

theorem Represents.front_next : next t d = match xs with
    | [] => gettail q
    | x :: _ => (x : Nat) := by
  have hnodes : nodes L q = [] ++ (d : Nat) :: xs.map Fin.val := by simp [nodes, hL]
  obtain ⟨-, ⟨l, hl⟩, -⟩ := Family.around h hnodes
  cases xs with
  | nil => exact (List.cons.inj hl).1.symm
  | cons x xs => exact (List.cons.inj hl).1.symm

/-- The front is followed by the tail of a level exactly if it is alone at this level. -/
theorem Represents.front_next_tail : next t d = gettail r ↔ xs = [] ∧ r = q := by
  rw [h.front_next hL]
  cases xs with
  | nil =>
      have hr : gettail q = gettail r ↔ r = q := by
        simp only [gettail_eq, Fin.ext_iff]; omega
      simp [hr]
  | cons x xs =>
      have hx := slot_lt x
      refine iff_of_false (fun he => ?_) fun hc => List.cons_ne_nil _ _ hc.1
      simp only [gettail_eq] at he
      omega

theorem Represents.free_front : Fifos.Free (Function.update L q xs) d := by
  have hnd := h.nodup q
  rw [hL, List.nodup_cons] at hnd
  intro r hr
  by_cases hrq : r = q
  · subst hrq
    rw [Function.update_self] at hr
    exact hnd.1 hr
  · rw [Function.update_of_ne hrq] at hr
    exact h.disjoint hrq hr (by simp [hL])

theorem Represents.removePid_touched : (removePid (int32 (d : Nat))).touched t =
    [((d : Nat), .next), ((d : Nat), .prev), (gethead q, .next), ((d : Nat), .prev), ((d : Nat), .next),
      (next t d, .prev), ((d : Nat), .next), ((d : Nat), .prev)] := by
  have hp : t ((d : Nat), .prev) = gethead q := h.front_prev hL
  have hne : (d : Nat) ≠ gethead q := by
    have := slot_lt d
    simp only [gethead_eq]; omega
  simp [removePid, index_int32, hp, hne, next]

theorem Represents.appends_front_prev (hw : Fresh L ws) : ((d : Nat), .prev) ∉ (appends ws).touched t := by
  have hd := slot_lt d
  refine h.appends_notMem hw (fun w hw' he => ?_) (fun w _ he => ?_) (by simp)
  · exact hw.free w hw' q (by simp [hL, ← Fin.ext he])
  · have he' : (d : Nat) = gettail w.1 := congrArg Prod.fst he
    simp only [gettail_eq] at he'
    omega

theorem Represents.appends_head_next (hw : Fresh L ws) : (gethead q, .next) ∉ (appends ws).touched t := by
  have hhead : next t (gethead q) = d := h.firstid_eq hL
  refine h.appends_notMem hw (fun w _ he => ?_) (by simp) fun w hw' he => ?_
  · have := slot_lt w.2
    simp only [gethead_eq] at he
    omega
  · have he' : gethead q = prev t (gettail w.1) := congrArg Prod.fst he
    have htail := (h.prev_tail_ne (hw.free w hw') w.1).2
    have hd := slot_lt d
    rw [← he', hhead, gettail_eq] at htail
    omega

/-- The appends work elsewhere, unless the front is the last of a level that they append to. -/
theorem Represents.removePid_disjoint (hw : Fresh L ws) (hsafe : xs = [] → ∀ w ∈ ws, w.1 ≠ q) :
    ∀ a ∈ (removePid (int32 (d : Nat))).touched t, a ∉ (appends ws).touched t := by
  have hfree : ∀ w ∈ ws, ∀ j ∈ L q, (j : Nat) ≠ w.2 := fun w hw' j hj he =>
    hw.free w hw' q (Fin.ext he ▸ hj)
  have hnext : ∀ w ∈ ws, next t d ≠ gettail w.1 := fun w hw' he => by
    obtain ⟨hxs, hq⟩ := (h.front_next_tail hL).mp he
    exact hsafe hxs w hw' hq
  rw [h.removePid_touched hL]
  intro a ha
  have ha' : a = ((d : Nat), .next) ∨ a = ((d : Nat), .prev) ∨ a = (gethead q, .next) ∨ a = (next t d, .prev) := by
    simp only [List.mem_cons, List.not_mem_nil, or_false] at ha
    tauto
  rcases ha' with rfl | rfl | rfl | rfl
  · refine h.appends_notMem hw (fun w hw' => hfree w hw' d (by simp [hL])) (by simp) fun w hw' he => ?_
    have he' : (d : Nat) = prev t (gettail w.1) := congrArg Prod.fst he
    exact hnext w hw' (he' ▸ (h.prev_tail_ne (hw.free w hw') w.1).2)
  · exact h.appends_front_prev hL hw
  · exact h.appends_head_next hL hw
  · refine h.appends_notMem hw (fun w hw' he => ?_) (fun w hw' he => hnext w hw' (congrArg Prod.fst he)) (by simp)
    rw [h.front_next hL] at he
    cases xs with
    | nil =>
        have := slot_lt w.2
        simp only [gettail_eq] at he
        omega
    | cons x xs => exact hfree w hw' x (by simp [hL]) he

end Front

/-! ## The removal of the front, before or after the appends -/

/-- Entry `i` goes behind the only entry `d` of a level, or into the level that is empty without it. -/
theorem spliceOut_spliceIn_alone {head tail pass : Nat} {t : QTable} {d i : Nat} (hnd : next t d = tail)
    (hpd : prev t d = head) (hid : i ≠ d) (hit : i ≠ tail) (hdh : d ≠ head) (hdt : d ≠ tail) :
    spliceOut (spliceIn t d i pass) d = spliceIn (spliceOut t d) head i pass := by
  simp only [next, prev] at hnd hpd
  funext x
  obtain ⟨c, f⟩ := x
  cases f <;>
    simp only [spliceOut, spliceIn, next, prev, hnd, hpd, Function.update_apply, Prod.mk.injEq, reduceCtorEq,
      and_true, and_false, if_false, if_true, hid.symm, hdh.symm, hdt]
  · split_ifs <;> simp_all
  · split_ifs <;> simp_all

theorem Represents.removePid_enqueueBack (h : Represents t L) (hL : L q = d :: xs) (hi : L.Free i) (r : Level) :
    ((removePid (int32 (d : Nat))).exec ((enqueueBack r i DEFAULT_PASS).exec t).2).2 =
      ((enqueueBack r i DEFAULT_PASS).exec ((removePid (int32 (d : Nat))).exec t).2).2 := by
  by_cases halone : xs = [] ∧ r = q
  · obtain ⟨rfl, rfl⟩ := halone
    have hd : d ∈ L r := by simp [hL]
    have hid : (i : Nat) ≠ d := fun he => hi r (Fin.ext he ▸ hd)
    have hpd : prev t d = gethead r := h.front_prev hL
    have hnd : next t d = gettail r := (h.front_next_tail hL).mpr ⟨rfl, rfl⟩
    obtain ⟨hpn, hnp⟩ : prev t (gettail r) = d ∧ next t d = gettail r :=
      Family.prev_tail h (l := [gethead r]) (by simp [nodes, hL])
    have hdh := slot_lt d
    have hit := slot_lt i
    have hpn' : prev (spliceOut t d) (gettail r) = gethead r := by
      have hsentinel : gettail r ≠ d := by simp only [gettail_eq]; omega
      simp only [next, prev] at hnd hpd
      simp [spliceOut, next, prev, hnd, hpd, hsentinel]
    rw [enqueueBack_exec (by rw [hpn]; exact Ne.symm hid), removePid_exec (index_int32 d),
      removePid_exec (index_int32 d), enqueueBack_exec (by rw [hpn', gethead_eq]; omega), hpn, hpn']
    refine spliceOut_spliceIn_alone hnd hpd hid ?_ ?_ ?_ <;> simp only [gethead_eq, gettail_eq] <;> omega
  · have hw : Fresh L [(r, i)] := ⟨by simpa using hi, by simp⟩
    have hdisj := h.removePid_disjoint hL hw (by simpa using fun hxs hr => halone ⟨hxs, hr⟩)
    have happ : ∀ t, ((appends [(r, i)]).exec t).2 = ((enqueueBack r i DEFAULT_PASS).exec t).2 := fun t => by
      simp [appends]
    have hcomm := exec_exec_of_disjoint hdisj
    rw [happ, happ] at hcomm
    rw [hcomm]

/-- Removing the front commutes with the appends. -/
theorem Represents.removePid_appends (h : Represents t L) (hL : L q = d :: xs) (hw : Fresh L ws) :
    ((removePid (int32 (d : Nat))).exec ((appends ws).exec t).2).2 =
      ((appends ws).exec ((removePid (int32 (d : Nat))).exec t).2).2 := by
  induction ws generalizing t L xs with
  | nil => rfl
  | cons w ws ih =>
      obtain ⟨r, i⟩ := w
      obtain ⟨hi, hw'⟩ := hw.cons
      have hfront : ∃ ys, Function.update L r (L r ++ [i]) q = d :: ys := by
        by_cases hq : q = r
        · subst hq; exact ⟨xs ++ [i], by simp [hL]⟩
        · exact ⟨xs, by rw [Function.update_of_ne hq, hL]⟩
      obtain ⟨ys, hys⟩ := hfront
      simp only [appends, exec_bind]
      rw [ih (h.enqueueBack_spec hi r DEFAULT_PASS) hys hw', h.removePid_enqueueBack hL hi]

end Xv6Mlfq.Queue
