import Xv6Mlfq.Counts.Tally
import Xv6Mlfq.Virtio.Disk

/-!
# Chains of descriptors

What `alloc3_desc` and `free_chain` do to the descriptors.
-/

namespace Xv6Mlfq.Virtio

open Counts
open Queue (Slot)

variable {β : Type*} {s : System β} {ids : List DescId} {i j : DescId} {p : Slot} {a : Args} {idx : Idx}

instance : LawfulBEq DescId := inferInstance

theorem wakeFree_frame (call : Slot → Call) (p : Slot) :
    (wakeFree call p).args = (call p).args ∧ (wakeFree call p).flight = (call p).flight := by
  unfold wakeFree
  cases call p with
  | _ => exact ⟨rfl, rfl⟩

theorem wakeFree_ne (call : Slot → Call) (p : Slot) (a : Args) : wakeFree call p ≠ .asleepFree a := by
  unfold wakeFree
  cases call p with
  | _ => exact Call.noConfusion

theorem wakeFree_asleep {call : Slot → Call} (h : wakeFree call p = .asleep a idx) : call p = .asleep a idx := by
  unfold wakeFree at h
  cases hp : call p with
  | asleep a' idx' => rwa [hp] at h
  | _ =>
      rw [hp] at h
      cases h

theorem wakeFree_wakeFree (call : Slot → Call) : wakeFree (wakeFree call) = wakeFree call := by
  funext p
  unfold wakeFree
  cases call p with
  | _ => rfl

/-! ## `free_desc` -/

namespace System

/-- The descriptors are free, and a process that waits for some is awake. -/
def release (s : System β) (ids : List DescId) : System β :=
  { s with disk := { s.disk with desc := fun i => if i ∈ ids then .zero else s.disk.desc i,
                                 free := fun i => s.disk.free i || decide (i ∈ ids) },
           call := if ids = [] then s.call else wakeFree s.call }

/-- The descriptors are not free any more. -/
def take (s : System β) (ids : List DescId) : System β :=
  { s with disk := { s.disk with free := fun i => s.disk.free i && decide (i ∉ ids) } }

theorem take_nil : s.take [] = s := by simp [take]

theorem release_nil : s.release [] = s := by simp [release]

theorem freeDesc_of_used (h : s.disk.free i = false) : s.freeDesc i =
    { s with disk := { s.disk with desc := Function.update s.disk.desc i .zero,
                                   free := Function.update s.disk.free i true },
             call := wakeFree s.call } := if_neg (by simp [h])

theorem release_freeDesc (h : s.disk.free i = false) : (s.freeDesc i).release ids = s.release (i :: ids) := by
  have hdesc : (fun j => if j ∈ ids then Desc.zero else Function.update s.disk.desc i .zero j) =
      fun j => if j ∈ i :: ids then Desc.zero else s.disk.desc j := by
    funext j
    by_cases hj : j = i
    · simp [hj]
    · simp [hj]
  have hfree : (fun j => Function.update s.disk.free i true j || decide (j ∈ ids)) =
      fun j => s.disk.free j || decide (j ∈ i :: ids) := by
    funext j
    by_cases hj : j = i
    · simp [hj]
    · simp [hj]
  have hcall : (if ids = [] then wakeFree s.call else wakeFree (wakeFree s.call)) = wakeFree s.call := by
    rw [wakeFree_wakeFree, ite_self]
  rw [freeDesc_of_used h]
  simp only [release, hdesc, hfree, hcall, if_neg (List.cons_ne_nil i ids)]

theorem foldl_freeDesc (hnodup : ids.Nodup) (hused : ∀ i ∈ ids, s.disk.free i = false) :
    ids.foldl freeDesc s = s.release ids := by
  induction ids generalizing s with
  | nil => exact release_nil.symm
  | cons i ids ih =>
      have hi := hused i List.mem_cons_self
      rw [List.foldl_cons, ih hnodup.of_cons fun j hj => ?_, release_freeDesc hi]
      rw [freeDesc_of_used hi]
      have hne : j ≠ i := ne_of_mem_of_not_mem hj (List.nodup_cons.mp hnodup).1
      exact (Function.update_of_ne hne ..).trans (hused j (List.mem_cons_of_mem _ hj))

theorem freeDesc_desc (h : s.disk.free i = false) (hne : j ≠ i) : (s.freeDesc i).disk.desc j = s.disk.desc j := by
  rw [freeDesc_of_used h]
  exact Function.update_of_ne hne ..

end System

/-! ## The chain of a request -/

/-- The chain stands for the request. -/
structure Formatted (d : Disk) (a : Args) (idx : Idx) : Prop where
  first : d.desc idx.first = ⟨.op idx.first, 16, VRING_DESC_F_NEXT, idx.second⟩
  second : d.desc idx.second =
    ⟨.data a.b, BSIZE, (if a.write then 0 else VRING_DESC_F_WRITE) ||| VRING_DESC_F_NEXT, idx.third⟩
  third : d.desc idx.third = ⟨.status idx.first, 1, VRING_DESC_F_WRITE, ⟨0, by decide⟩⟩
  op : d.ops idx.first = ⟨if a.write then VIRTIO_BLK_T_OUT else VIRTIO_BLK_T_IN, a.sector⟩

theorem Formatted.congr {d d' : Disk} (h : Formatted d a idx) (hdesc : ∀ i ∈ idx.ids, d'.desc i = d.desc i)
    (hop : d'.ops idx.first = d.ops idx.first) : Formatted d' a idx where
  first := (hdesc idx.first (by simp [Idx.ids])).trans h.first
  second := (hdesc idx.second (by simp [Idx.ids])).trans h.second
  third := (hdesc idx.third (by simp [Idx.ids])).trans h.third
  op := hop.trans h.op

theorem Formatted.request {d : Disk} (h : Formatted d a idx) :
    d.request idx.first = some (⟨if a.write then VIRTIO_BLK_T_OUT else VIRTIO_BLK_T_IN, a.sector⟩, a.b, idx.first) := by
  unfold Disk.request
  simp only [h.first, h.second, h.third, h.op]
  cases a.write with
  | true => rfl
  | false => rfl

/-- `free_chain` follows the links. -/
theorem freeChain_eq (h : Formatted s.disk a idx) (hnodup : idx.ids.Nodup)
    (hused : ∀ i ∈ idx.ids, s.disk.free i = false) : s.freeChain NUM idx.first = s.release idx.ids := by
  have hfirst := hused idx.first (by simp [Idx.ids])
  have hsecond := hused idx.second (by simp [Idx.ids])
  simp only [Idx.ids, List.nodup_cons, List.mem_cons, List.not_mem_nil, or_false, not_or] at hnodup
  obtain ⟨⟨hne₁, hne₂⟩, hne₃, -⟩ := hnodup
  have hused₂ : (s.freeDesc idx.first).disk.free idx.second = false := by
    rw [System.freeDesc_of_used hfirst]
    exact (Function.update_of_ne (Ne.symm hne₁) ..).trans hsecond
  have hdesc₂ : (s.freeDesc idx.first).disk.desc idx.second = s.disk.desc idx.second :=
    System.freeDesc_desc hfirst (Ne.symm hne₁)
  have hdesc₃ : ((s.freeDesc idx.first).freeDesc idx.second).disk.desc idx.third = s.disk.desc idx.third :=
    (System.freeDesc_desc hused₂ (Ne.symm hne₃)).trans (System.freeDesc_desc hfirst (Ne.symm hne₂))
  have hnext : ((if a.write then 0 else VRING_DESC_F_WRITE) ||| VRING_DESC_F_NEXT) &&& VRING_DESC_F_NEXT ≠ 0 := by
    cases a.write with
    | true => decide
    | false => decide
  have hlink : VRING_DESC_F_NEXT &&& VRING_DESC_F_NEXT ≠ 0 := by decide
  have hlast : VRING_DESC_F_WRITE &&& VRING_DESC_F_NEXT = 0 := by decide
  rw [← System.foldl_freeDesc (by simp [Idx.ids, hne₁, hne₂, hne₃]) hused]
  rw [System.freeChain, if_pos (by rw [h.first]; exact hlink), h.first, System.freeChain,
    if_pos (by rw [hdesc₂, h.second]; exact hnext), hdesc₂, h.second, System.freeChain,
    if_neg (by rw [hdesc₃, h.third]; exact not_not.mpr hlast)]
  rfl

/-! ## `alloc3_desc` -/

def freeCount (d : Disk) : Nat := tally d.free id

theorem freeCount_le {d d' : Disk} (h : ∀ i, d.free i = true → d'.free i = true) : freeCount d ≤ freeCount d' := by
  rw [freeCount, freeCount, tally, tally]
  refine Finset.card_le_card fun i hi => ?_
  simp only [Finset.mem_filter, Finset.mem_univ, true_and, id] at hi ⊢
  exact h i hi

theorem allocDesc_cases (s : System β) (ids : List DescId) : (∃ i, s.disk.free i = true ∧ i ∉ ids ∧
      (s.take ids).allocDesc = some (i, s.take (ids ++ [i]))) ∨
    (s.take ids).allocDesc = none ∧ freeCount s.disk ≤ ids.length := by
  unfold System.allocDesc
  cases hfind : (List.finRange NUM).find? fun i => (s.take ids).disk.free i with
  | none =>
      have hsub : (Finset.univ.filter fun i => id (s.disk.free i) = true) ⊆ ids.toFinset := by
        intro i hi
        have hfree : s.disk.free i = true := (Finset.mem_filter.mp hi).2
        have hnot := List.find?_eq_none.mp hfind i (List.mem_finRange i)
        simpa [System.take, hfree] using hnot
      exact .inr ⟨rfl, (Finset.card_le_card hsub).trans ids.toFinset_card_le⟩
  | some i =>
      have hfree := List.find?_some hfind
      simp only [System.take, Bool.and_eq_true, decide_eq_true_eq] at hfree
      refine .inl ⟨i, hfree.1, hfree.2, ?_⟩
      have htake : Function.update (s.take ids).disk.free i false = fun j => s.disk.free j && decide (j ∉ ids ++ [i]) := by
        funext j
        by_cases hj : j = i
        · simp [hj]
        · simp [System.take, hj]
      simp only [Option.map_some, htake]
      rfl

/-- The loop takes descriptors that are free, or gives back those that it has got. -/
theorem alloc3Desc_cases (s : System β) (k : Nat) (ids : List DescId) (hnodup : ids.Nodup)
    (hfree : ∀ i ∈ ids, s.disk.free i = true) :
    (∃ got, got.length = k ∧ (ids ++ got).Nodup ∧ (∀ i ∈ ids ++ got, s.disk.free i = true) ∧
      System.alloc3Desc k ids (s.take ids) = (some (ids ++ got), s.take (ids ++ got))) ∨
    ∃ got, (∀ i ∈ got, s.disk.free i = true) ∧ System.alloc3Desc k ids (s.take ids) = (none, (s.take got).release got) ∧
      freeCount s.disk < ids.length + k := by
  induction k generalizing ids with
  | zero => exact .inl ⟨[], rfl, by simpa, by simpa, by simp [System.alloc3Desc]⟩
  | succ k ih =>
      rcases allocDesc_cases s ids with ⟨i, hi, hnew, heq⟩ | ⟨heq, hcount⟩
      · have hnodup' : (ids ++ [i]).Nodup := List.nodup_append.mpr
          ⟨hnodup, List.nodup_singleton i, fun j hj l hl => by
            rw [List.mem_singleton.mp hl]
            exact ne_of_mem_of_not_mem hj hnew⟩
        have hfree' : ∀ j ∈ ids ++ [i], s.disk.free j = true := by
          intro j hj
          rcases List.mem_append.mp hj with hj | hj
          · exact hfree j hj
          · rwa [List.mem_singleton.mp hj]
        rw [System.alloc3Desc, heq, Option.elim_some]
        rcases ih (ids ++ [i]) hnodup' hfree' with ⟨got, hlen, hn, hf, h⟩ | ⟨got, hf, h, hlt⟩
        · rw [List.append_assoc, List.singleton_append] at hn hf h
          exact .inl ⟨i :: got, by simp [hlen], hn, hf, h⟩
        · refine .inr ⟨got, hf, h, ?_⟩
          rw [List.length_append, List.length_singleton] at hlt
          omega
      · refine .inr ⟨ids, hfree, ?_, by omega⟩
        rw [System.alloc3Desc, heq, Option.elim_none]
        rw [System.foldl_freeDesc hnodup fun i hi => by simp [System.take, hi]]

end Xv6Mlfq.Virtio
