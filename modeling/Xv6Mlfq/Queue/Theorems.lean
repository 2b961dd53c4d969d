import Xv6Mlfq.Queue.Lemmas.Dequeue

/-!
# `queue.c` refines three first-in first-out sequences

The abstract queue is a sequence of slots for each level, and says what each call of `queue.c` is for.
The calls are run on the table in one program after `initialize`, and compared with it.
-/

namespace Xv6Mlfq.Queue

open Access Access.Prog Links

variable {t : QTable} {L : Fifos} {i : Slot} {q : Level}

/-! ## The calls, on sequences and on the table -/

inductive Op where
  | enqueue (q : Level) (i : Slot) (pass : Nat)
  | enqueueBack (q : Level) (i : Slot) (pass : Nat)
  | dequeue
  | removePid (i : Slot)
  | setup
  deriving DecidableEq, Repr

instance (L : Fifos) (i : Slot) : Decidable (L.Free i) :=
  inferInstanceAs (Decidable (∀ q, i ∉ L q))

/-- The highest level that has a process. -/
def Fifos.highest (L : Fifos) : Option Level :=
  if L QUEUE_HIGH ≠ [] then some QUEUE_HIGH
  else if L QUEUE_MEDIUM ≠ [] then some QUEUE_MEDIUM
  else if L QUEUE_LOW ≠ [] then some QUEUE_LOW
  else none

/-- What a call is for: the slot it returns and the sequences after it. `none` is a call outside the
callers' promises. -/
def Op.apply (L : Fifos) : Op → Option (Option Slot × Fifos)
  | .enqueue q i _ => if L.Free i then some (none, Function.update L q (i :: L q)) else none
  | .enqueueBack q i _ => if L.Free i then some (none, Function.update L q (L q ++ [i])) else none
  | .dequeue =>
      match L.highest with
      | none => none
      | some q => match L q with
        | [] => none
        | i :: xs => some (some i, Function.update L q xs)
  | .removePid i => if L.Free i then none else some (none, fun q => (L q).erase i)
  | .setup => some (none, Fifos.empty)

def applyOps : List Op → Fifos → Option (List (Option Slot) × Fifos)
  | [], L => some ([], L)
  | op :: ops, L =>
      match op.apply L with
      | none => none
      | some (r, L') => (applyOps ops L').map fun (rs, L'') => (r :: rs, L'')

/-- The call on the table, with the value it returns if it is not `void`. -/
def Op.prog : Op → Prog Addr Nat (Option (Option Int))
  | .enqueue q i pass => do Queue.enqueue q i pass; pure none
  | .enqueueBack q i pass => do Queue.enqueueBack q i pass; pure none
  | .dequeue => do pure (some (← Queue.dequeue))
  | .removePid i => do Queue.removePid i; pure none
  | .setup => do initializeQtable NUM_QUEUES; pure none

def runOps : List Op → Prog Addr Nat (List (Option (Option Int)))
  | [] => pure []
  | op :: ops => do
      let r ← op.prog
      let rs ← runOps ops
      pure (r :: rs)

/-- A returned slot as the C value. -/
def returned (r : Option Slot) : Option (Option Int) := r.map fun i => some (i : Int)

/-- The table holds exactly the sequences `L`, readable from both ends. -/
structure Holds (t : QTable) (L : Fifos) : Prop where
  nodup : ∀ q, (L q).Nodup
  disjoint : ∀ q r, q ≠ r → (L q).Disjoint (L r)
  forward : ∀ q : Level, forward t q = some (nodes L q)
  backward : ∀ q : Level, backward t q = some (nodes L q).reverse

theorem Represents.holds (h : Represents t L) : Holds t L :=
  ⟨h.nodup, fun _ _ => h.disjoint, h.forward_eq, h.backward_eq⟩

/-- The two walks determine the links. -/
theorem Holds.represents (h : Holds t L) : Represents t L where
  chained q := .of_follow (h.forward q) (h.backward q)
  nodup q := by
    have hnodes : (nodes L q).Nodup := (h.nodup q).map Fin.val_injective
    have hslot : ∀ a ∈ nodes L q, a < 64 := by
      intro a ha
      obtain ⟨i, -, rfl⟩ := List.mem_map.mp ha
      exact slot_lt i
    simp only [ring, List.nodup_cons, List.nodup_append', List.mem_append, List.mem_singleton,
      List.disjoint_singleton, gethead_eq, gettail_eq, List.nodup_nil, List.not_mem_nil, not_or]
    refine ⟨⟨fun ha => ?_, by omega⟩, hnodes, ⟨not_false, trivial⟩, fun ha => ?_⟩
    · have := hslot _ ha
      omega
    · have := hslot _ ha
      omega
  disjoint q r hqr a hq hr := by
    have hne : (q : Nat) ≠ r := fun he => hqr (Fin.ext he)
    simp only [ring, nodes, List.mem_cons, List.mem_append, List.mem_map, List.not_mem_nil, or_false, gethead_eq,
      gettail_eq] at hq hr
    rcases hq with hq | ⟨i, hi, rfl⟩ | hq
    · rcases hr with hr | ⟨j, -, rfl⟩ | hr
      · omega
      · have := slot_lt j
        omega
      · omega
    · have := slot_lt i
      rcases hr with hr | ⟨j, hj, hij⟩ | hr
      · omega
      · exact h.disjoint q r hqr hi (Fin.ext hij ▸ hj)
      · omega
    · rcases hr with hr | ⟨j, -, rfl⟩ | hr
      · omega
      · have := slot_lt j
        omega
      · omega

/-! ## Every access stays inside the table -/

/-- Run from `t`, the program only touches entries of the array. -/
def InTable {α : Type} (p : Prog Addr Nat α) (t : QTable) : Prop :=
  ∀ a ∈ p.touched t, a.1 < QTABLE_SIZE

theorem InTable.bind {α γ : Type} {p : Prog Addr Nat α} {f : α → Prog Addr Nat γ}
    (hp : InTable p t) (hf : InTable (f (p.exec t).1) (p.exec t).2) : InTable (p >>= f) t := by
  intro a ha
  rw [touched_bind, List.mem_append] at ha
  exact ha.elim (hp a) (hf a)

theorem head_inTable (q : Level) : gethead q < QTABLE_SIZE := by
  have := level_lt q
  simp only [gethead_eq, QTABLE_SIZE, NPROC, NUM_QUEUES]; omega

theorem tail_inTable (q : Level) : gettail q < QTABLE_SIZE := by
  have := level_lt q
  simp only [gettail_eq, QTABLE_SIZE, NPROC, NUM_QUEUES]; omega

theorem enqueue_inTable (h : Represents t L) (hi : L.Free i) (q : Level) (pass : Nat) :
    InTable (enqueue q i pass) t := by
  have hne : gethead q ≠ i := fun he => slot_notMem_ring (hi q) (he ▸ head_mem_ring)
  have hnext : t (gethead q, .next) < QTABLE_SIZE :=
    lt_of_mem_ring (Family.next_mem_ring h List.mem_cons_self)
  have hhead := head_inTable q
  have hslot := slot_inTable i
  intro a ha
  simp only [enqueue, touched_bind, touched_write, touched_read, exec_write, exec_read] at ha
  simp [hne, hne.symm] at ha
  rcases ha with rfl | rfl | rfl | rfl | rfl | rfl | rfl <;> assumption

theorem enqueueBack_inTable (h : Represents t L) (hi : L.Free i) (q : Level) (pass : Nat) :
    InTable (enqueueBack q i pass) t := by
  have hprev : t (gettail q, .prev) < QTABLE_SIZE :=
    lt_of_mem_ring (Family.prev_mem_ring h (q := q) (by simp))
  obtain ⟨hne, hlast⟩ := h.prev_tail_ne hi q
  have hne' : (i : Nat) ≠ t (gettail q, .prev) := Ne.symm hne
  have hlast' : t (t (gettail q, .prev), .next) = gettail q := hlast
  have htail := tail_inTable q
  have hslot := slot_inTable i
  intro a ha
  simp only [enqueueBack, touched_bind, touched_write, touched_read, exec_write, exec_read] at ha
  simp [hne', hlast'] at ha
  rcases ha with rfl | rfl | rfl | rfl | rfl | rfl | rfl | rfl <;> assumption

theorem removePid_inTable (h : Represents t L) {x : Int} (hx : index x = i) (hi : i ∈ L q) :
    InTable (removePid x) t := by
  have hmem : (i : Nat) ∈ nodes L q := mem_nodes.mpr hi
  have hprev : t (i, .prev) < QTABLE_SIZE := 
    lt_of_mem_ring (Family.prev_mem_ring h (q := q) (by simp [hmem]))
  have hnext : t (i, .next) < QTABLE_SIZE := 
    lt_of_mem_ring (Family.next_mem_ring h (q := q) (by simp [hmem]))
  have hne : (i : Nat) ≠ t (i, .prev) := Ne.symm (h.neighbours_ne hi).1
  have hslot := slot_inTable i
  intro a ha
  simp only [removePid, hx, touched_bind, touched_write, touched_read, exec_write,
    exec_read] at ha
  simp [hne] at ha
  rcases ha with rfl | rfl | rfl | rfl | rfl | rfl | rfl | rfl <;> assumption

theorem takeFrom_inTable (h : Represents t L) {xs : List Slot} (hL : L q = i :: xs) :
    InTable (takeFrom (gethead q)) t := by
  have hd : t (gethead q, .next) = i := h.firstid_eq hL
  refine InTable.bind (fun a ha => ?_) ?_
  · obtain rfl := List.mem_singleton.mp ha
    exact head_inTable q
  · have hr : InTable (removePid (int32 (i : Nat))) t :=
      removePid_inTable h (index_int32 i) (q := q) (by simp [hL])
    refine InTable.bind ?_ (fun a ha => absurd ha List.not_mem_nil)
    simpa [firstid, hd] using hr

theorem dequeue_inTable (h : Represents t L) (hq : L.Top q) : InTable dequeue t := by
  obtain ⟨i, xs, hL⟩ := List.exists_cons_of_ne_nil hq.1
  have hit : t (gethead q, .next) < NPROC := (h.firstid_lt_iff q).mpr hq.1
  have miss : ∀ r, q < r → ¬ t (gethead r, .next) < NPROC :=
    fun r hr => mt (h.firstid_lt_iff r).mp (not_not.mpr (hq.2 r hr))
  have htake := takeFrom_inTable h hL
  intro a ha
  rw [dequeue_eq] at ha
  match q with
  | 0 =>
      rw [probe_touched_miss (miss 2 (by decide)), probe_touched_miss (miss 1 (by decide)),
        probe_touched_hit hit] at ha
      simp only [List.mem_cons] at ha
      rcases ha with rfl | rfl | rfl | ha
      exacts [head_inTable 2, head_inTable 1, head_inTable 0, htake a ha]
  | 1 =>
      rw [probe_touched_miss (miss 2 (by decide)), probe_touched_hit hit] at ha
      simp only [List.mem_cons] at ha
      rcases ha with rfl | rfl | ha
      exacts [head_inTable 2, head_inTable 1, htake a ha]
  | 2 =>
      rw [probe_touched_hit hit, List.mem_cons] at ha
      rcases ha with rfl | ha
      exacts [head_inTable 2, htake a ha]

theorem initialize_inTable (t : QTable) : InTable (initializeQtable NUM_QUEUES) t := by
  intro a ha
  rw [initialize_touched] at ha
  revert a
  decide

/-! ## The refinement -/

theorem Fifos.top_of_highest (h : L.highest = some q) : L.Top q := by
  unfold Fifos.highest at h
  split at h
  · cases h
    exact ⟨‹_›, fun r hr => absurd hr (by fin_cases r <;> decide)⟩
  · rename_i h₂
    split at h
    · cases h
      exact ⟨‹_›, fun r hr => by
        fin_cases r <;> first | exact not_not.mp h₂ | exact absurd hr (by decide)⟩
    · rename_i h₁
      split at h
      · cases h
        exact ⟨‹_›, fun r hr => by
          fin_cases r <;>
            first | exact not_not.mp h₂ | exact not_not.mp h₁ | exact absurd hr (by decide)⟩
      · cases h

theorem Represents.erase_eq (h : Represents t L) {us vs : List Slot} (hL : L q = us ++ i :: vs) :
    Function.update L q (us ++ vs) = fun r => (L r).erase i := by
  have hnd := h.nodup q
  rw [hL, List.nodup_append', List.nodup_cons] at hnd
  have hius : i ∉ us := fun hi => hnd.2.2 hi List.mem_cons_self
  funext r
  by_cases hr : r = q
  · subst hr
    rw [Function.update_self, hL, List.erase_append_right _ hius, List.erase_cons_head]
  · have hir : i ∉ L r := h.disjoint (Ne.symm hr) (by simp [hL])
    rw [Function.update_of_ne hr, List.erase_of_not_mem hir]

/-- One legal call keeps the table in step with the sequences. -/
theorem Op.refines {op : Op} {r : Option Slot} {L' : Fifos} (h : Represents t L)
    (ha : op.apply L = some (r, L')) :
    (op.prog.exec t).1 = returned r ∧ Represents (op.prog.exec t).2 L' ∧ InTable op.prog t := by
  have hpure : ∀ t' : QTable, InTable (pure none : Prog Addr Nat (Option (Option Int))) t' :=
    fun _ a ha => absurd ha List.not_mem_nil
  cases op with
  | enqueue q i pass =>
      simp only [Op.apply, Option.ite_none_right_eq_some, Option.some.injEq, Prod.mk.injEq] at ha
      obtain ⟨hi, rfl, rfl⟩ := ha
      exact ⟨rfl, h.enqueue_spec hi q pass, (enqueue_inTable h hi q pass).bind (hpure _)⟩
  | enqueueBack q i pass =>
      simp only [Op.apply, Option.ite_none_right_eq_some, Option.some.injEq, Prod.mk.injEq] at ha
      obtain ⟨hi, rfl, rfl⟩ := ha
      exact ⟨rfl, h.enqueueBack_spec hi q pass, (enqueueBack_inTable h hi q pass).bind (hpure _)⟩
  | dequeue =>
      simp only [Op.apply] at ha
      split at ha
      · cases ha
      · rename_i q hq
        split at ha
        · cases ha
        · rename_i i xs hL
          cases ha
          have htop := Fifos.top_of_highest hq
          obtain ⟨he, hr⟩ := h.dequeue_spec htop hL
          refine ⟨?_, ?_, (dequeue_inTable h htop).bind fun a ha => absurd ha List.not_mem_nil⟩
          · simp [Op.prog, he, returned]
          · simpa [Op.prog, he] using hr
  | removePid i =>
      simp only [Op.apply, Option.ite_none_left_eq_some, Option.some.injEq, Prod.mk.injEq] at ha
      obtain ⟨hi, rfl, rfl⟩ := ha
      obtain ⟨q, hq⟩ := not_forall_not.mp hi
      obtain ⟨us, vs, hL⟩ := List.append_of_mem hq
      refine ⟨rfl, ?_, (removePid_inTable h (index_slot i) hq).bind (hpure _)⟩
      rw [← h.erase_eq hL]
      exact h.removePid_spec (index_slot i) hL
  | setup =>
      simp only [Op.apply, Option.some.injEq, Prod.mk.injEq] at ha
      obtain ⟨rfl, rfl⟩ := ha
      exact ⟨rfl, initialize_represents t, (initialize_inTable t).bind (hpure _)⟩

/-- A sequence of legal calls keeps the table in step with the sequences. -/
theorem runOps_refines {ops : List Op} {rs : List (Option Slot)} {L' : Fifos} (h : Represents t L)
    (ha : applyOps ops L = some (rs, L')) :
    ((runOps ops).exec t).1 = rs.map returned ∧ Represents ((runOps ops).exec t).2 L' ∧
      InTable (runOps ops) t := by
  induction ops generalizing t L rs with
  | nil =>
      simp only [applyOps, Option.some.injEq, Prod.mk.injEq] at ha
      obtain ⟨rfl, rfl⟩ := ha
      exact ⟨rfl, h, fun a ha => absurd ha List.not_mem_nil⟩
  | cons op ops ih =>
      simp only [applyOps] at ha
      split at ha
      · cases ha
      · rename_i r L₁ hop
        obtain ⟨⟨rs', L₂⟩, hops, he⟩ := Option.map_eq_some_iff.mp ha
        cases he
        obtain ⟨hr, hrep, hin⟩ := Op.refines h hop
        obtain ⟨hrs, hrep', hin'⟩ := ih hrep hops
        refine ⟨?_, ?_, hin.bind (hin'.bind fun a ha => absurd ha List.not_mem_nil)⟩
        · simp [runOps, hr, hrs]
        · simpa [runOps] using hrep'

/-- `initialize`, followed by the calls. -/
def session (ops : List Op) : Prog Addr Nat (List (Option (Option Int))) := do
  initializeQtable NUM_QUEUES
  runOps ops

/-- Whatever the table held before, after `initialize` every sequence of legal calls returns what the
sequences return, leaves the table holding them and stays inside the array. -/
theorem queue_refines_fifos (t₀ : QTable) (ops : List Op) {rs : List (Option Slot)} {L : Fifos}
    (h : applyOps ops Fifos.empty = some (rs, L)) :
    ((session ops).exec t₀).1 = rs.map returned ∧ Holds ((session ops).exec t₀).2 L ∧
      InTable (session ops) t₀ := by
  obtain ⟨hrs, hrep, hin⟩ := runOps_refines (initialize_represents t₀) h
  refine ⟨?_, ?_, (initialize_inTable t₀).bind hin⟩
  · simpa [session] using hrs
  · simpa [session] using hrep.holds

/-- Three processes at MEDIUM and one at LOW, with a removal from the middle and a dequeue. -/
theorem queue_refines_fifos_mixed :
    ∃ L : Fifos, L 2 = [] ∧ L 1 = [6] ∧ L 0 = [3] ∧
      Holds ((session [.enqueueBack 1 5 1, .enqueueBack 1 6 1, .enqueue 1 7 1, .enqueueBack 0 3 1,
        .removePid 5, .dequeue]).exec fun _ => 999).2 L := by
  refine ⟨_, ?_, ?_, ?_, (queue_refines_fifos (fun _ => 999) [.enqueueBack 1 5 1, .enqueueBack 1 6 1,
    .enqueue 1 7 1, .enqueueBack 0 3 1, .removePid 5, .dequeue] rfl).2.1⟩
  · decide
  · decide
  · decide

end Xv6Mlfq.Queue
