import Xv6Mlfq.Queue.Lemmas.Append

/-!
# `dequeue` and an interrupt

`scheduler` calls `dequeue` with interrupts on. A handler that appends processes between two of its accesses
should look like one that runs before or after it.
-/

namespace Xv6Mlfq.Queue

open Access Access.Prog Links

variable {t : QTable} {L : Fifos} {d i : Slot} {q : Level} {xs : List Slot} {ws : List (Level × Slot)} {n : Nat}

/-- An interrupt handler that makes these processes RUNNABLE. -/
def handler (ws : List (Level × Slot)) (t : QTable) : QTable := ((appends ws).exec t).2

/-- The outcome is that of `dequeue` and then the handler, or of the handler and then `dequeue`. -/
def Atomic (n : Nat) (ws : List (Level × Slot)) (t : QTable) : Prop :=
  dequeue.interrupted n (handler ws) t = ((dequeue.exec t).1, handler ws (dequeue.exec t).2) ∨
    dequeue.interrupted n (handler ws) t = dequeue.exec (handler ws t)

/-- The loads of the loop of `dequeue`, if `q` is the highest level with a process. -/
def probes (q : Level) : Nat := 3 - q

/-- Where the interrupt does harm: after `remove_pid` has loaded a link of the only process of its level and
before it has stored the last one of them, if the handler appends to that level; or between the looks at HIGH
and MEDIUM, if only LOW has a process and the handler appends to both. The accesses are those of the C text; built
with `-O`, `remove_pid` loads `prev` only once, and the last of these points is past the harm. -/
def Torn (L : Fifos) (q : Level) (n : Nat) (ws : List (Level × Slot)) : Prop :=
  probes q + 2 ≤ n ∧ n ≤ probes q + 6 ∧ (L q).length = 1 ∧ (∃ w ∈ ws, w.1 = q) ∨
    n = 1 ∧ q = QUEUE_LOW ∧ (∃ w ∈ ws, w.1 = QUEUE_HIGH) ∧ ∃ w ∈ ws, w.1 = QUEUE_MEDIUM

/-! ## The removal, interrupted -/

/-- What `takeFrom` does once it knows the front. -/
def removal (d : Nat) : Prog Addr Nat (Option Int) := do
  removePid (int32 d)
  pure (some (int64 d))

theorem takeFrom_interrupted (head n : Nat) (f : QTable → QTable) :
    (takeFrom head).interrupted (n + 1) f t = (removal (t (head, .next))).interrupted n f t := by
  unfold takeFrom firstid removal
  rw [interrupted_read_bind]

theorem removal_touched (d : Nat) : (removal d).touched t = (removePid (int32 d)).touched t := by
  simp [removal]

theorem removal_exec (d : Slot) : (removal d).exec t = (some (d : Int), spliceOut t d) := by
  have hd := slot_lt d
  have h64 : int64 (d : Nat) = d := by
    simp only [int64, Int.bmod_def]; omega
  simp [removal, removePid_exec (index_int32 d), h64]

theorem handler_spec (h : Represents t L) (hw : Fresh L ws) : Represents (handler ws t) (L.appended ws) :=
  h.appends_spec hw

theorem handler_spliceOut (h : Represents t L) (hL : L q = d :: xs) (hw : Fresh L ws) :
    spliceOut (handler ws t) d = handler ws (spliceOut t d) := by
  have hcomm := h.removePid_appends hL hw
  rw [removePid_exec (index_int32 d), removePid_exec (index_int32 d)] at hcomm
  exact hcomm

/-- A process that is not alone at its level, or not joined by another one, is removed as if without
interruption. -/
theorem removal_apart (h : Represents t L) (hL : L q = d :: xs) (hw : Fresh L ws)
    (hsafe : xs = [] → ∀ w ∈ ws, w.1 ≠ q) (n : Nat) :
    (removal d).interrupted n (handler ws) t = (some (d : Int), handler ws (spliceOut t d)) := by
  have hdisj : ∀ a ∈ (removal d).touched t, a ∉ (appends ws).touched t := by
    rw [removal_touched]
    exact h.removePid_disjoint hL hw hsafe
  have hcomm := interrupted_of_disjoint n hdisj
  rw [removal_exec] at hcomm
  exact hcomm

/-- The last two stores of `remove_pid`. -/
def mark (d : Nat) : Prog Addr Nat (Option Int) := do
  write (d, .next) 999
  write (d, .prev) 999
  pure (some (int64 d))

/-- The table when the neighbours of entry `d` point at each other. -/
def joined (t : QTable) (d : Nat) : QTable :=
  Function.update (Function.update t (prev t d, .next) (next t d)) (next t d, .prev) (prev t d)

theorem mark_exec (d : Slot) : (mark d).exec (joined t d) = (some (d : Int), spliceOut t d) := by
  have hd := slot_lt d
  have h64 : int64 (d : Nat) = d := by
    simp only [int64, Int.bmod_def]; omega
  simp [mark, joined, spliceOut, h64]

/-- The accesses of `removal` one by one. -/
theorem removal_eq (d : Slot) : removal d = (do
    let nx ← read ((d : Nat), .next)
    let pv ← read ((d : Nat), .prev)
    write (pv, .next) nx
    let pv' ← read ((d : Nat), .prev)
    let nx' ← read ((d : Nat), .next)
    write (nx', .prev) pv'
    mark d) := by
  simp only [removal, removePid, mark, index_int32, bind_assoc]

theorem removal_interrupted_late (d : Slot) (n : Nat) (f : QTable → QTable) :
    (removal d).interrupted (n + 6) f t = (mark d).interrupted n f (joined t d) := by
  rw [removal_eq, interrupted_read_bind, interrupted_read_bind, interrupted_write_bind, interrupted_read_bind,
    interrupted_read_bind, interrupted_write_bind]
  have hpv : Function.update t (t ((d : Nat), .prev), .next) (t ((d : Nat), .next)) ((d : Nat), .prev) =
      prev t d := by simp [prev]
  have hnx : Function.update t (t ((d : Nat), .prev), .next) (t ((d : Nat), .next)) ((d : Nat), .next) =
      next t d := by
    simp only [Function.update_apply, next]
    split_ifs <;> rfl
  rw [hpv, hnx]
  rfl

theorem Represents.joined_spec (h : Represents t L) (hL : L q = d :: xs) :
    Represents (joined t d) (Function.update L q xs) := by
  have hL' : L q = [] ++ d :: xs := hL
  have hrep := h.removePid_spec (index_int32 d) hL'
  rw [removePid_exec (index_int32 d)] at hrep
  have hfree := h.free_front hL
  refine hrep.congr fun r c hc => ?_
  have hcd : c ≠ d := fun he => slot_notMem_ring (hfree r) (he ▸ hc)
  simp [spliceOut, joined, next, prev, hcd]

/-- Once the neighbours are joined, the handler no longer sees the removed entry. -/
theorem removal_late (h : Represents t L) (hL : L q = d :: xs) (hw : Fresh L ws) (n : Nat) :
    (removal d).interrupted (n + 6) (handler ws) t = (some (d : Int), handler ws (spliceOut t d)) := by
  have hrep := h.joined_spec hL
  have hd := slot_lt d
  have hds : ∀ w ∈ ws, (d : Nat) ≠ w.2 := fun w hw' he => hw.free w hw' q (by simp [hL, ← Fin.ext he])
  have hfree := h.free_front hL
  have hw' := hw.tail hL
  have hnext : ((d : Nat), Field.next) ∉ (appends ws).touched (joined t d) := by
    refine hrep.appends_notMem hw' hds (by simp) fun w _ he => ?_
    exact (hrep.prev_tail_ne hfree w.1).1 (congrArg Prod.fst he).symm
  have hprev : ((d : Nat), Field.prev) ∉ (appends ws).touched (joined t d) := by
    refine hrep.appends_notMem hw' hds (fun w _ he => ?_) (by simp)
    have he' : (d : Nat) = gettail w.1 := congrArg Prod.fst he
    simp only [gettail_eq] at he'
    omega
  have hdisj : ∀ a ∈ (mark d).touched (joined t d), a ∉ (appends ws).touched (joined t d) := by
    intro a ha
    have ha' : a = ((d : Nat), .next) ∨ a = ((d : Nat), .prev) := by simpa [mark] using ha
    rcases ha' with rfl | rfl
    · exact hnext
    · exact hprev
  have hcomm := interrupted_of_disjoint n hdisj
  rw [mark_exec] at hcomm
  rw [removal_interrupted_late]
  exact hcomm

/-- In between, the level of a process alone on it loses what the handler has appended. -/
theorem removal_torn (h : Represents t L) (hL : L q = [d]) (hw : Fresh L ws) (hn : 1 ≤ n) (hn' : n ≤ 5) :
    ((removal d).interrupted n (handler ws) t).2 (gethead q, .next) = gettail q := by
  have hpv : t ((d : Nat), .prev) = gethead q := h.front_prev hL
  have hnx : t ((d : Nat), .next) = gettail q := (h.front_next_tail hL).mpr ⟨rfl, rfl⟩
  have hd := slot_lt d
  have hdh : gethead q ≠ d := by simp only [gethead_eq]; omega
  have hhead := h.appends_head_next hL hw
  -- until the first store the handler runs on the table as it was
  have hpv₀ : handler ws t ((d : Nat), .prev) = gethead q :=
    (exec_snd_of_notMem (h.appends_front_prev hL hw)).trans hpv
  -- after it the head already points at the tail, and the handler leaves it there
  have hhead₁ : handler ws (Function.update t (gethead q, .next) (gettail q)) (gethead q, .next) = gettail q := by
    refine (exec_snd_of_notMem ?_).trans (Function.update_self _ _ _)
    rw [touched_update hhead]
    exact hhead
  have hcases : n = 1 ∨ n = 2 ∨ n = 3 ∨ n = 4 ∨ n = 5 := by omega
  rw [removal_eq]
  rcases hcases with rfl | rfl | rfl | rfl | rfl
  · rw [interrupted_read_bind, interrupted_zero]
    simp [mark, hnx, hpv₀, hdh]
  · rw [interrupted_read_bind, interrupted_read_bind, interrupted_zero]
    simp [mark, hnx, hpv, hdh]
  · rw [interrupted_read_bind, interrupted_read_bind, interrupted_write_bind, interrupted_zero]
    simp [mark, hnx, hpv, hdh, hhead₁]
  · rw [interrupted_read_bind, interrupted_read_bind, interrupted_write_bind, interrupted_read_bind,
      interrupted_zero]
    simp [mark, hnx, hpv, hdh, hhead₁]
  · rw [interrupted_read_bind, interrupted_read_bind, interrupted_write_bind, interrupted_read_bind,
      interrupted_read_bind, interrupted_zero]
    simp [mark, hnx, hpv, hdh, hhead₁]

/-! ## `dequeue`, interrupted -/

section Probe

variable {rest : Prog Addr Nat (Option Int)} {f : QTable → QTable}

theorem probe_interrupted_hit (h : t (gethead q, .next) < NPROC) :
    (probe q rest).interrupted (n + 1) f t = (takeFrom (gethead q)).interrupted n f t := by
  unfold probe firstid
  rw [interrupted_read_bind, if_pos h]

theorem probe_interrupted_miss (rest : Prog Addr Nat (Option Int)) (f : QTable → QTable) (n : Nat)
    (h : ¬ t (gethead q, .next) < NPROC) :
    (probe q rest).interrupted (n + 1) f t = rest.interrupted n f t := by
  unfold probe firstid
  rw [interrupted_read_bind, if_neg h]

theorem dequeue_interrupted_late (h : Represents t L) (htop : L.Top q) (n : Nat) :
    dequeue.interrupted (n + probes q) f t = (takeFrom (gethead q)).interrupted n f t := by
  have hit : t (gethead q, .next) < NPROC := (h.firstid_lt_iff q).mpr htop.1
  have miss : ∀ r, q < r → ¬ t (gethead r, .next) < NPROC :=
    fun r hr => mt (h.firstid_lt_iff r).mp (not_not.mpr (htop.2 r hr))
  rw [dequeue_eq]
  match q with
  | 0 =>
      have h₂ := probe_interrupted_miss (probe 1 (probe 0 scanBelow)) f (n + 2) (miss 2 (by decide))
      have h₁ := probe_interrupted_miss (probe 0 scanBelow) f (n + 1) (miss 1 (by decide))
      exact h₂.trans (h₁.trans (probe_interrupted_hit hit))
  | 1 =>
      have h₂ := probe_interrupted_miss (probe 1 (probe 0 scanBelow)) f (n + 1) (miss 2 (by decide))
      exact h₂.trans (probe_interrupted_hit hit)
  | 2 => exact probe_interrupted_hit hit

end Probe

theorem dequeue_alone (h : Represents t L) (htop : L.Top q) (hL : L q = d :: xs) :
    dequeue.exec t = (some (d : Int), spliceOut t d) := by
  rw [(h.dequeue_spec htop hL).1, removePid_exec (index_int32 d)]

theorem appended_eq_nil {r : Level} : L.appended ws r = [] ↔ L r = [] ∧ ∀ w ∈ ws, w.1 ≠ r := by
  rw [Fifos.appended_eq]
  simp

theorem appended_cons (hL : L q = d :: xs) (ws : List (Level × Slot)) :
    ∃ ys, L.appended ws q = d :: (xs ++ ys) :=
  ⟨_, by rw [Fifos.appended_eq, hL, List.cons_append]⟩

theorem takeFrom_handler (h : Represents t L) (hL : L q = d :: xs) (hw : Fresh L ws) :
    (takeFrom (gethead q)).exec (handler ws t) = (some (d : Int), handler ws (spliceOut t d)) := by
  obtain ⟨ys, hys⟩ := appended_cons hL ws
  rw [takeFrom_exec ((handler_spec h hw).firstid_eq hys), removePid_exec (index_int32 d),
    handler_spliceOut h hL hw]

/-- Outside the harmful accesses, the process is taken first and the others are appended then. -/
theorem takeFrom_safe (h : Represents t L) (hL : L q = d :: xs) (hw : Fresh L ws)
    (hsafe : ¬ (2 ≤ n ∧ n ≤ 6 ∧ xs = [] ∧ ∃ w ∈ ws, w.1 = q)) :
    (takeFrom (gethead q)).interrupted n (handler ws) t = (some (d : Int), handler ws (spliceOut t d)) := by
  cases n with
  | zero => exact takeFrom_handler h hL hw
  | succ n =>
      rw [takeFrom_interrupted, h.firstid_eq hL]
      by_cases hn₀ : n = 0
      · subst hn₀
        rw [interrupted_zero, removal_exec, handler_spliceOut h hL hw]
      · by_cases hn₆ : 6 ≤ n
        · obtain ⟨m, rfl⟩ := Nat.exists_eq_add_of_le' hn₆
          exact removal_late h hL hw m
        · refine removal_apart h hL hw (fun hxs w hw' hq => hsafe ?_) n
          exact ⟨by omega, by omega, hxs, w, hw', hq⟩

/-- In both atomic orders the level to which the handler appends has a process. -/
theorem not_atomic_of_emptied (h : Represents t L) (htop : L.Top q) (hL : L q = d :: xs) (hw : Fresh L ws)
    (happ : ∃ w ∈ ws, w.1 = q)
    (hlost : ¬ (dequeue.interrupted n (handler ws) t).2 (gethead q, .next) < NPROC) : ¬ Atomic n ws t := by
  obtain ⟨w, hw', hwq⟩ := happ
  have hne : ∀ M : Fifos, M.appended ws q ≠ [] := fun M he => (appended_eq_nil.mp he).2 w hw' hwq
  rintro (he | he) <;> rw [he] at hlost
  · have hL' : L q = [] ++ d :: xs := hL
    have hrep := h.removePid_spec (index_int32 d) hL'
    rw [removePid_exec (index_int32 d)] at hrep
    rw [dequeue_alone h htop hL] at hlost
    exact hlost (((handler_spec hrep (hw.tail hL)).firstid_lt_iff q).mpr (hne _))
  · have h₂ := handler_spec h hw
    obtain ⟨r, htop₂⟩ := Fifos.exists_top ⟨q, hne L⟩
    obtain ⟨i, zs, hzs⟩ := List.exists_cons_of_ne_nil htop₂.1
    obtain ⟨hex, hrep⟩ := h₂.dequeue_spec htop₂ hzs
    rw [hex] at hlost
    refine hlost ((hrep.firstid_lt_iff q).mpr ?_)
    by_cases hqr : q = r
    · subst hqr
      obtain ⟨ys, hys⟩ := appended_cons hL ws
      have hcount : L.appended ws q = L q ++ ((ws.filter fun w => w.1 = q).map Prod.snd) :=
        Fifos.appended_eq L ws q
      rw [hzs, hL, List.cons_append] at hcount
      rw [Function.update_self, (List.cons.inj hcount).2]
      refine List.append_ne_nil_of_right_ne_nil _ ?_
      simpa using ⟨w.2, hwq ▸ hw'⟩
    · rw [Function.update_of_ne hqr]
      exact hne L

theorem atomic_of_taken (h : Represents t L) (htop : L.Top q) (hL : L q = d :: xs)
    (he : dequeue.interrupted n (handler ws) t = (some (d : Int), handler ws (spliceOut t d))) : Atomic n ws t := by
  refine .inl ?_
  rw [he, dequeue_alone h htop hL]

/-! ## An interrupt in the loop -/

theorem interrupted_one (h : Represents t L) (hhigh : L QUEUE_HIGH = []) :
    dequeue.interrupted 1 (handler ws) t =
      (probe QUEUE_MEDIUM (probe QUEUE_LOW scanBelow)).exec (handler ws t) := by
  have hmiss : ¬ t (gethead QUEUE_HIGH, .next) < NPROC := mt (h.firstid_lt_iff _).mp (not_not.mpr hhigh)
  rw [dequeue_eq]
  exact probe_interrupted_miss _ _ 0 hmiss

section Loop

variable (h : Represents t L) (hw : Fresh L ws)
include h hw

theorem handler_hit {r : Level} : handler ws t (gethead r, .next) < NPROC ↔ L r ≠ [] ∨ ∃ w ∈ ws, w.1 = r := by
  rw [(handler_spec h hw).firstid_lt_iff, ne_eq, appended_eq_nil]
  by_cases hr : L r = [] <;> simp [hr]

/-- MEDIUM is looked at after HIGH, although a process has come to HIGH before one has come to MEDIUM. -/
theorem not_atomic_of_both (htop : L.Top QUEUE_LOW) (hhigh : ∃ w ∈ ws, w.1 = QUEUE_HIGH)
    (hmedium : ∃ w ∈ ws, w.1 = QUEUE_MEDIUM) : ¬ Atomic 1 ws t := by
  obtain ⟨d, xs, hL⟩ := List.exists_cons_of_ne_nil htop.1
  have h₂ := handler_spec h hw
  have hne : ∀ r, (∃ w ∈ ws, w.1 = r) → L.appended ws r ≠ [] := fun r ⟨w, hw', hr⟩ he =>
    (appended_eq_nil.mp he).2 w hw' hr
  obtain ⟨i, ys, hi⟩ := List.exists_cons_of_ne_nil (hne _ hmedium)
  obtain ⟨j, zs, hj⟩ := List.exists_cons_of_ne_nil (hne _ hhigh)
  obtain ⟨ds, hd⟩ := appended_cons hL ws
  have htop₂ : (L.appended ws).Top QUEUE_HIGH := ⟨hne _ hhigh, fun r hr => absurd hr (by fin_cases r <;> decide)⟩
  have he : (dequeue.interrupted 1 (handler ws) t).1 = some (i : Int) := by
    rw [interrupted_one h (htop.2 _ (by decide)), probe_exec_hit ((handler_hit h hw).mpr (.inr hmedium)),
      takeFrom_exec (h₂.firstid_eq hi)]
  rintro (ha | ha)
  · rw [ha, dequeue_alone h htop hL] at he
    have hdi : d = i := Fin.ext (by simpa using he)
    exact h₂.disjoint (q := 0) (r := 1) (by decide) (by rw [hd]; exact List.mem_cons_self) (by rw [hi, hdi]; simp)
  · rw [ha, dequeue_alone h₂ htop₂ hj] at he
    have hji : j = i := Fin.ext (by simpa using he)
    exact h₂.disjoint (q := 2) (r := 1) (by decide) (by rw [hj]; exact List.mem_cons_self) (by rw [hi, hji]; simp)

theorem interrupted_early (htop : L.Top q) (hn : n < probes q) :
    Atomic n ws t ↔ ¬ (n = 1 ∧ q = QUEUE_LOW ∧ (∃ w ∈ ws, w.1 = QUEUE_HIGH) ∧ ∃ w ∈ ws, w.1 = QUEUE_MEDIUM) := by
  obtain ⟨d, xs, hL⟩ := List.exists_cons_of_ne_nil htop.1
  have hit : handler ws t (gethead q, .next) < NPROC := (handler_hit h hw).mpr (.inl htop.1)
  have htake := takeFrom_handler h hL hw
  have hn' : n = 0 ∨ n = 1 ∧ (q = 0 ∨ q = 1) ∨ n = 2 ∧ q = 0 := by
    have hq := level_lt q
    simp only [probes, Fin.ext_iff] at hn ⊢
    simp only [Fin.val_zero, Fin.val_one]
    omega
  rcases hn' with rfl | ⟨rfl, hq⟩ | ⟨rfl, rfl⟩
  · exact iff_of_true (.inr rfl) (by simp)
  · have hhigh : L QUEUE_HIGH = [] := htop.2 _ (by rcases hq with rfl | rfl <;> decide)
    have hone : dequeue.interrupted 1 (handler ws) t = _ := interrupted_one h hhigh
    by_cases h₂ : ∃ w ∈ ws, w.1 = QUEUE_HIGH
    · rcases hq with rfl | rfl
      · by_cases h₁ : ∃ w ∈ ws, w.1 = QUEUE_MEDIUM
        · exact iff_of_false (not_atomic_of_both h hw htop h₂ h₁) fun hno => hno ⟨rfl, rfl, h₂, h₁⟩
        · have hmiss : ¬ handler ws t (gethead QUEUE_MEDIUM, .next) < NPROC := fun hlt =>
            ((handler_hit h hw).mp hlt).elim (fun hm => hm (htop.2 _ (by decide))) h₁
          refine iff_of_true (atomic_of_taken h htop hL ?_) fun hc => h₁ hc.2.2.2
          rw [hone, probe_exec_miss hmiss, probe_exec_hit hit, htake]
      · refine iff_of_true (atomic_of_taken h htop hL ?_) fun hc => absurd hc.2.1 (by decide)
        rw [hone, probe_exec_hit hit, htake]
    · have hmiss : ¬ handler ws t (gethead QUEUE_HIGH, .next) < NPROC := fun hlt =>
        ((handler_hit h hw).mp hlt).elim (fun hm => hm hhigh) h₂
      refine iff_of_true (.inr ?_) fun hc => h₂ hc.2.2.1
      rw [hone, dequeue_eq, probe_exec_miss hmiss]
  · have hmiss : ∀ r : Level, 0 < r → ¬ t (gethead r, .next) < NPROC := fun r hr =>
      mt (h.firstid_lt_iff r).mp (not_not.mpr (htop.2 r hr))
    have hlow : dequeue.interrupted 2 (handler ws) t = (probe QUEUE_LOW scanBelow).exec (handler ws t) := by
      rw [dequeue_eq]
      exact (probe_interrupted_miss _ _ 1 (hmiss 2 (by decide))).trans
        (probe_interrupted_miss _ _ 0 (hmiss 1 (by decide)))
    refine iff_of_true (atomic_of_taken h htop hL ?_) (by simp)
    rw [hlow, probe_exec_hit hit, htake]

end Loop

/-! ## Every interruption point -/

theorem not_atomic_of_torn (h : Represents t L) (htop : L.Top q) (hL : L q = [d]) (hw : Fresh L ws)
    (happ : ∃ w ∈ ws, w.1 = q) (hn : 2 ≤ n) (hn' : n ≤ 6) : ¬ Atomic (n + probes q) ws t := by
  obtain ⟨m, rfl⟩ := Nat.exists_eq_add_of_le' (show 1 ≤ n by omega)
  refine not_atomic_of_emptied h htop hL hw happ ?_
  rw [dequeue_interrupted_late h htop, takeFrom_interrupted, h.firstid_eq hL,
    removal_torn h hL hw (by omega) (by omega), gettail_eq]
  simp only [NPROC]
  omega

/-- Whatever the handler appends, the outcome is atomic exactly if the interrupt does not fall where it does
harm. -/
theorem interrupted_atomic_iff (h : Represents t L) (htop : L.Top q) (hw : Fresh L ws) (n : Nat) :
    Atomic n ws t ↔ ¬ Torn L q n ws := by
  obtain ⟨d, xs, hL⟩ := List.exists_cons_of_ne_nil htop.1
  have hlen : (L q).length = 1 ↔ xs = [] := by rw [hL]; simp
  by_cases hn : n < probes q
  · rw [interrupted_early h hw htop hn, Torn]
    refine not_congr ⟨.inr, fun hc => hc.resolve_left fun hc => ?_⟩
    omega
  · obtain ⟨m, rfl⟩ := Nat.exists_eq_add_of_le' (not_lt.mp hn)
    by_cases htorn : 2 ≤ m ∧ m ≤ 6 ∧ xs = [] ∧ ∃ w ∈ ws, w.1 = q
    · obtain ⟨hm, hm', rfl, happ⟩ := htorn
      refine iff_of_false (not_atomic_of_torn h htop hL hw happ hm hm') fun hno => hno (.inl ?_)
      exact ⟨by omega, by omega, hlen.mpr rfl, happ⟩
    · refine iff_of_true (atomic_of_taken h htop hL ?_) ?_
      · rw [dequeue_interrupted_late h htop, takeFrom_safe h hL hw htorn]
      · rintro (⟨hlo, hhi, hone, happ⟩ | ⟨hn₁, rfl, -⟩)
        · exact htorn ⟨by omega, by omega, hlen.mp hone, happ⟩
        · simp only [probes] at hn₁
          simp at hn₁

/-- Slot 0 waits alone, at MEDIUM. -/
def lone : QTable :=
  ((enqueueBack QUEUE_MEDIUM 0 DEFAULT_PASS).exec ((initializeQtable NUM_QUEUES).exec fun _ => 0).2).2

theorem lone_represents : Represents lone (Function.update Fifos.empty QUEUE_MEDIUM [0]) :=
  (initialize_represents fun _ => 0).enqueueBack_spec (i := 0) (fun _ => List.not_mem_nil) QUEUE_MEDIUM DEFAULT_PASS

theorem lone_top : Fifos.Top (Function.update Fifos.empty QUEUE_MEDIUM [0]) QUEUE_MEDIUM :=
  ⟨by simp, fun r hr => by fin_cases r <;> first | rfl | exact absurd hr (by decide)⟩

theorem lone_fresh : Fresh (Function.update Fifos.empty QUEUE_MEDIUM [0]) [(QUEUE_MEDIUM, 1)] :=
  ⟨fun w hw r => by obtain rfl := List.mem_singleton.mp hw; fin_cases r <;> decide, by decide⟩

/-- The interrupt comes just after the head of MEDIUM has been made to point at its tail. -/
theorem interrupted_not_atomic :
    ¬ ∀ t L, Represents t L → (∃ q, L q ≠ []) → ∀ ws, Fresh L ws → ∀ n, Atomic n ws t := by
  intro hall
  have hno : ¬ Atomic (4 + probes QUEUE_MEDIUM) [(QUEUE_MEDIUM, 1)] lone :=
    not_atomic_of_torn lone_represents lone_top (d := 0) rfl lone_fresh ⟨_, List.mem_singleton_self _, rfl⟩
      (by decide) (by decide)
  exact hno (hall lone _ lone_represents ⟨QUEUE_MEDIUM, lone_top.1⟩ _ lone_fresh _)

/-- Three accesses earlier the same interrupt does no harm. -/
theorem interrupted_atomic_iff_lone : Atomic 3 [(QUEUE_MEDIUM, 1)] lone := by
  refine (interrupted_atomic_iff lone_represents lone_top lone_fresh 3).mpr ?_
  rw [Torn]
  simp [probes]

end Xv6Mlfq.Queue
