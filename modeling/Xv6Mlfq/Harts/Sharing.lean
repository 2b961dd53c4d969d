import Xv6Mlfq.Harts.System
import Xv6Mlfq.Kernel.Boost

/-!
# One `p_kicked` for all harts

`p_kicked` says what the hart that wrote it last should do, but every hart reads it. The harts stay out of each
other's way exactly as long as each finds the flag as it has left it itself.
-/

namespace Xv6Mlfq.Harts

open Access Queue Runs Kernel

variable {n : Nat} {s s' : System n} {g h : Fin n} {e : Kernel.Event} {k : State} {p i j : Slot} {L L' : Fifos}

/-- The process is in the hands of the hart: chosen, or kept from its last `yield`. -/
def Hart.Has (x : Hart) (i : Slot) : Prop := x.chosen = true ∧ x.p = some i ∨ x.kept = some i

/-- The hart will dispatch the process next: it has chosen it, or has kept it and finds `p_kicked` clear. -/
def System.Held (s : System n) (h : Fin n) (i : Slot) : Prop :=
  (s.hart h).chosen = true ∧ (s.hart h).p = some i ∨ s.kernel.pKicked = false ∧ (s.hart h).kept = some i

/-- No process runs on two harts, and a RUNNABLE one is linked once or held by one hart. -/
structure Exclusive (s : System n) : Prop where
  running : ∀ g h i, (s.hart g).cproc = some i → (s.hart h).cproc = some i → g = h
  runnable : ∃ L, Holds s.kernel.qtable L ∧ ∀ i, (s.kernel.proc i).state = .runnable →
    (∃ q, i ∈ L q) ∧ (∀ h, ¬ s.Held h i) ∨ L.Free i ∧ ∃! h, s.Held h i

/-- A hart that does not look at the lists goes on with the process that was the last to yield on it, with quantum
left. -/
def Resumes (s : System n) : Fin n × Event → Prop
  | (h, .choose) => s.kernel.pKicked = false → ∃ i, (s.hart h).p = some i ∧ (s.hart h).kept = some i
  | _ => True

/-- The state before the step is as it would be with one hart. A hart finds `p_kicked` clear only if it has kept a
process itself; nobody sets the flag, in a dispatch or in a `nice` that raises its caller, while another hart has kept
one; and no boost comes between a choice and the dispatch. -/
def Obeys (s : System n) : Fin n × Event → Prop
  | (h, .choose) => s.kernel.pKicked = false → (s.hart h).kept.isSome
  | (h, .dispatch) => ∀ g, g ≠ h → (s.hart g).kept = none
  | (h, .on e) => ∀ p k, atYield h s e = some (p, k) →
      if boostDue k then ∀ g, (s.hart g).chosen = false
      else k.pKicked = true → (k.proc p).Spent → ∀ g, g ≠ h → (s.hart g).kept = none

/-! ## The invariant -/

structure Hart.Sane (x : Hart) : Prop where
  kept : ∀ i, x.kept = some i → x.chosen = false ∧ x.cproc = none ∧ x.p = some i
  chosen : x.chosen = true → x.cproc = none ∧ ∃ i, x.p = some i
  remembered : ∀ i, x.cproc = some i → x.p = some i

structure Shared (s : System n) (L : Fifos) : Prop where
  queued : Queued s.kernel (fun i => ∃ h, (s.hart h).Has i) (fun i => ∃ h, (s.hart h).cproc = some i) L
  held : ∀ g h i, (s.hart g).Has i → (s.hart h).Has i → g = h
  current : ∀ g h i, (s.hart g).cproc = some i → (s.hart h).cproc = some i → g = h
  clear : ∀ h i, (s.hart h).kept = some i → s.kernel.pKicked = false
  sane : ∀ h, (s.hart h).Sane

theorem Shared.held_iff (hs : Shared s L) (h : Fin n) (i : Slot) : s.Held h i ↔ (s.hart h).Has i :=
  or_congr Iff.rfl ⟨And.right, fun hk => ⟨hs.clear h i hk, hk⟩⟩

theorem Shared.exclusive (hs : Shared s L) : Exclusive s where
  running := hs.current
  runnable := by
    refine ⟨L, hs.queued.represents.holds, fun i hi => ?_⟩
    simp only [hs.held_iff]
    by_cases hheld : ∃ h, (s.hart h).Has i
    · obtain ⟨h, hh⟩ := hheld
      exact .inr ⟨hs.queued.free_of_held ⟨h, hh⟩, h, hh, fun g hg => hs.held g h i hg hh⟩
    · exact .inl ⟨⟨_, hs.queued.mem_of_runnable hi hheld⟩, not_exists.mp hheld⟩

theorem Shared.boot (n : Nat) (outside : QTable) : ∃ L, Shared (boot n outside) L := by
  obtain ⟨L, hL⟩ := Coherent.boot outside
  refine ⟨L, hL.queued.congr (fun i => ?_) fun i => ?_, fun g h i hg => ?_, fun g h i hg => ?_, fun h i hk => ?_,
    fun h => ?_⟩
  · refine iff_of_false (fun ⟨h, hh⟩ => ?_) fun hk => ?_
    · simp [Hart.Has, Harts.boot] at hh
    · simp [Machine.Kept, Kernel.boot] at hk
  · simp [Harts.boot, Kernel.boot]
  · simp [Hart.Has, Harts.boot] at hg
  · simp [Harts.boot] at hg
  · simp [Harts.boot] at hk
  · constructor <;> simp [Harts.boot]

/-! ## One hart changes -/

section Set

variable {x : Hart}

@[simp] theorem set_kernel : (s.set h k x).kernel = k := rfl

@[simp] theorem set_hart_self : (s.set h k x).hart h = x := by simp [System.set]

theorem set_hart_of_ne (hg : g ≠ h) : (s.set h k x).hart g = s.hart g := by simp [System.set, hg]

theorem exists_set (P : Hart → Prop) :
    (∃ g, P ((s.set h k x).hart g)) ↔ P x ∨ ∃ g, g ≠ h ∧ P (s.hart g) := by
  constructor
  · rintro ⟨g, hg⟩
    by_cases hgh : g = h
    · subst hgh; exact .inl (by simpa using hg)
    · exact .inr ⟨g, hgh, by rwa [set_hart_of_ne hgh] at hg⟩
  · rintro (hx | ⟨g, hgh, hg⟩)
    · exact ⟨h, by simpa using hx⟩
    · exact ⟨g, by rwa [set_hart_of_ne hgh]⟩

/-- Hart `h` is replaced by `x`. What `x` holds or runs is in the hands of no other hart. -/
theorem Shared.set (hs : Shared s L)
    (hq : Queued k (fun i => x.Has i ∨ ∃ g, g ≠ h ∧ (s.hart g).Has i)
      (fun i => x.cproc = some i ∨ ∃ g, g ≠ h ∧ (s.hart g).cproc = some i) L')
    (hheld : ∀ i, x.Has i → ∀ g, g ≠ h → ¬ (s.hart g).Has i)
    (hcur : ∀ i, x.cproc = some i → ∀ g, g ≠ h → (s.hart g).cproc ≠ some i)
    (hclear : x.kept = none ∨ k.pKicked = false) (hothers : ∀ g, g ≠ h → (s.hart g).kept = none ∨ k.pKicked = false)
    (hx : x.Sane) : Shared (s.set h k x) L' := by
  have two : ∀ {P : Hart → Prop}, (∀ f g, P (s.hart f) → P (s.hart g) → f = g) →
      (P x → ∀ g, g ≠ h → ¬ P (s.hart g)) →
      ∀ f g, P ((s.set h k x).hart f) → P ((s.set h k x).hart g) → f = g := by
    intro P huniq hxP f g hf hg
    by_cases hfh : f = h
    · by_cases hgh : g = h
      · rw [hfh, hgh]
      · rw [hfh, set_hart_self] at hf
        rw [set_hart_of_ne hgh] at hg
        exact absurd hg (hxP hf g hgh)
    · rw [set_hart_of_ne hfh] at hf
      by_cases hgh : g = h
      · rw [hgh, set_hart_self] at hg
        exact absurd hf (hxP hg f hfh)
      · rw [set_hart_of_ne hgh] at hg
        exact huniq f g hf hg
  refine ⟨hq.congr (fun i => exists_set fun y => y.Has i) fun i => exists_set fun y => y.cproc = some i,
    fun f g i => ?_, fun f g i => ?_, fun g i hk => ?_, fun g => ?_⟩
  · exact two (P := fun y => y.Has i) (fun f g => hs.held f g i) (hheld i) f g
  · exact two (P := fun y => y.cproc = some i) (fun f g => hs.current f g i) (hcur i) f g
  · have hkept {y : Hart} (hy : y.kept = some i) (hor : y.kept = none ∨ k.pKicked = false) : k.pKicked = false :=
      hor.resolve_left fun hnone => by cases hy.symm.trans hnone
    by_cases hgh : g = h
    · rw [hgh, set_hart_self] at hk
      exact hkept hk hclear
    · rw [set_hart_of_ne hgh] at hk
      exact hkept hk (hothers g hgh)
  · by_cases hgh : g = h
    · rw [hgh, set_hart_self]; exact hx
    · rw [set_hart_of_ne hgh]; exact hs.sane g

theorem exists_other {P : Hart → Prop} (huniq : ∀ f g, P (s.hart f) → P (s.hart g) → f = g) (h : Fin n) :
    (∃ g, g ≠ h ∧ P (s.hart g)) ↔ (∃ g, P (s.hart g)) ∧ ¬ P (s.hart h) := by
  constructor
  · rintro ⟨g, hgh, hg⟩
    exact ⟨⟨g, hg⟩, fun hh => hgh (huniq g h hg hh)⟩
  · rintro ⟨⟨g, hg⟩, hh⟩
    exact ⟨g, fun he => hh (he ▸ hg), hg⟩

/-- A step that leaves the flag alone keeps the rule for those that have kept a process. -/
theorem Shared.kept_or (hs : Shared s L) (hk : k.pKicked = s.kernel.pKicked) (g : Fin n) :
    (s.hart g).kept = none ∨ k.pKicked = false := by
  cases hg : (s.hart g).kept with
  | none => exact .inl rfl
  | some i => exact .inr (hk.trans (hs.clear g i hg))

theorem eq_of_holds {t : QTable} (h : Represents t L) (h' : Holds t L') : L' = L := by
  funext q
  have hq := (h'.forward q).symm.trans (h.forward_eq q)
  exact List.map_injective_iff.mpr Fin.val_injective (Option.some.inj hq)

/-- Where the flag is set, a RUNNABLE process outside the lists has been chosen. -/
theorem Exclusive.chosen (hx : Exclusive s) {held cur : Slot → Prop} (hq : Queued s.kernel held cur L)
    (hkick : s.kernel.pKicked = true) (hi : held i) : ∃ h, (s.hart h).chosen = true ∧ (s.hart h).p = some i := by
  obtain ⟨L', hL', hrunnable⟩ := hx.runnable
  obtain rfl := eq_of_holds hq.represents hL'
  rcases hrunnable i (hq.held i hi) with ⟨⟨q, hmem⟩, -⟩ | ⟨-, h, hh, -⟩
  · exact absurd hmem (hq.free_of_held hi q)
  · rcases hh with hch | ⟨hclear, -⟩
    · exact ⟨h, hch⟩
    · cases hkick.symm.trans hclear

/-- Hart `h` sets the flag: what another hart has kept is lost. -/
theorem Shared.stranded (hs : Shared s L) {held cur : Slot → Prop} (hx : Exclusive (s.set h k x))
    (hq : Queued k held cur L') (hkick : k.pKicked = true) (hch : x.chosen = false)
    (hheld : ∀ g i, g ≠ h → (s.hart g).Has i → held i) : ∀ g, g ≠ h → (s.hart g).kept = none := by
  intro g hgh
  by_contra hne
  obtain ⟨i, hi⟩ := Option.ne_none_iff_exists'.mp hne
  obtain ⟨f, hf, hp⟩ := hx.chosen hq hkick (hheld g i hgh (.inr hi))
  have hfh : f ≠ h := by
    rintro rfl
    rw [set_hart_self, hch] at hf
    cases hf
  rw [set_hart_of_ne hfh] at hf hp
  obtain rfl := hs.held f g i (.inl ⟨hf, hp⟩) (.inr hi)
  rw [((hs.sane f).kept i hi).1] at hf
  cases hf

end Set

/-! ## The scheduler -/

theorem choose_dequeued {t : QTable} (hkick : s.kernel.pKicked = true) (hready : ¬ NoneReady s.kernel.qtable)
    (ht : dequeue.exec s.kernel.qtable = (some (i : Int), t)) :
    choose h s = some (s.set h { s.kernel with qtable := t }
      { s.hart h with p := some i, chosen := true, kept := none }) := by
  have hi := slot_lt i
  have hne : ((i : Nat) : Int) ≠ EMPTY := by simp only [EMPTY]; omega
  have hrange : (0 : Int) ≤ ((i : Nat) : Int) ∧ ((i : Nat) : Int) < (NPROC : Nat) := by
    simp only [NPROC]; omega
  have hslot : ∀ hlt : ((i : Nat) : Int).toNat < NPROC, (⟨((i : Nat) : Int).toNat, hlt⟩ : Slot) = i :=
    fun _ => Fin.ext (Int.toNat_natCast _)
  simp only [choose, hkick, if_true, hready, if_false, ht, hne, hrange, and_self, dite_true, hslot]

/-- A hart that looks at lists that are not empty takes a linked process. -/
theorem Shared.choose_front (hs : Shared s L) (hkick : s.kernel.pKicked = true)
    (hready : ¬ NoneReady s.kernel.qtable) : ∃ i q xs t, L q = i :: xs ∧
      Queued { s.kernel with qtable := t } (fun j => (∃ h, (s.hart h).Has j) ∨ j = i)
        (fun i => ∃ h, (s.hart h).cproc = some i) (Function.update L q xs) ∧
      ∀ h, choose h s = some (s.set h { s.kernel with qtable := t }
        { s.hart h with p := some i, chosen := true, kept := none }) := by
  have hne : ∃ q, L q ≠ [] := not_forall.mp fun hL => hready ((noneReady_iff hs.queued.represents).mpr hL)
  obtain ⟨q, htop⟩ := Fifos.exists_top hne
  obtain ⟨i, xs, hL⟩ := List.exists_cons_of_ne_nil htop.1
  obtain ⟨t, ht, hq⟩ := hs.queued.dequeue htop hL
  exact ⟨i, q, xs, t, hL, hq, fun h => choose_dequeued hkick hready ht⟩

theorem Shared.choose (hs : Shared s L) (hc : (s.hart h).cproc = none) (hch : (s.hart h).chosen = false)
    (ho : Obeys s (h, .choose)) (he : choose h s = some s') : (∃ L', Shared s' L') ∧ Resumes s (h, .choose) := by
  have hother : ∀ i, (∃ g, g ≠ h ∧ (s.hart g).Has i) ↔ (∃ g, (s.hart g).Has i) ∧ ¬ (s.hart h).Has i := fun i =>
    exists_other (P := fun y => y.Has i) (fun f g => hs.held f g i) h
  have hcur : ∀ i, (∃ g, g ≠ h ∧ (s.hart g).cproc = some i) ↔ ∃ g, (s.hart g).cproc = some i := fun i =>
    (exists_other (P := fun y => y.cproc = some i) (fun f g => hs.current f g i) h).trans
      (and_iff_left (by simp [hc]))
  cases hkick : s.kernel.pKicked with
  | false =>
      obtain ⟨i, hi⟩ := Option.isSome_iff_exists.mp (ho hkick)
      have hp := ((hs.sane h).kept i hi).2.2
      have hself : ∀ j, (s.hart h).Has j ↔ j = i := fun j => by simp [Hart.Has, hch, hi, eq_comm]
      simp only [Harts.choose, hkick, Bool.false_eq_true, if_false, Option.some.injEq] at he
      subst he
      have hx : ∀ j, Hart.Has { s.hart h with chosen := true, kept := none } j ↔ j = i := fun j => by
        simp [Hart.Has, hp, eq_comm]
      refine ⟨⟨L, hs.set (hs.queued.congr (fun j => ?_) fun j => ?_) (fun j hj g hg hheld => ?_) (fun j hj => ?_)
        (.inl rfl) (fun _ _ => .inr hkick) ?_⟩, fun _ => ⟨i, hp, hi⟩⟩
      · rw [hother, hx, hself]
        by_cases hji : j = i
        · simp only [hji, true_or, true_iff]
          exact ⟨h, .inr hi⟩
        · simp [hji]
      · simp only [hc, reduceCtorEq, false_or, hcur]
      · rw [hx] at hj
        exact hg (hs.held g h j hheld ((hself j).mpr hj))
      · simp [hc] at hj
      · constructor <;> simp [hc, hp]
  | true =>
      by_cases hready : NoneReady s.kernel.qtable
      · simp only [Harts.choose, hkick, if_true, hready, Option.some.injEq] at he
        subst he
        exact ⟨⟨L, hs⟩, fun hf => by cases hkick.symm.trans hf⟩
      · obtain ⟨i, q, xs, t, hL, hq, hchoose⟩ := hs.choose_front hkick hready
        have hkept : (s.hart h).kept = none :=
          (hs.kept_or rfl h).resolve_right fun hf => by cases hkick.symm.trans hf
        rw [hchoose, Option.some.injEq] at he
        subst he
        have hfree : ∀ g, ¬ (s.hart g).Has i := fun g hg =>
          hs.queued.free_of_held ⟨g, hg⟩ q (by simp [hL])
        have hx : ∀ j, Hart.Has { s.hart h with p := some i, chosen := true, kept := none } j ↔ j = i := fun j => by
          simp [Hart.Has, eq_comm]
        have hself : ∀ j, ¬ (s.hart h).Has j := fun j => by simp [Hart.Has, hch, hkept]
        refine ⟨⟨_, hs.set (hq.congr (fun j => ?_) fun j => ?_) (fun j hj g _ => ?_) (fun j hj => ?_) (.inl rfl)
          (fun g _ => hs.kept_or (k := { s.kernel with qtable := t }) rfl g) ?_⟩, fun hf => ?_⟩
        · rw [hother, hx, and_iff_left (hself j), or_comm]
        · simp only [hc, reduceCtorEq, false_or, hcur]
        · rw [hx] at hj
          exact hj ▸ hfree g
        · simp [hc] at hj
        · constructor <;> simp [hc]
        · cases hkick.symm.trans hf

/-- A hart that finds the flag clear and has kept nothing breaks the rule at once. -/
theorem choose_obeys (hr : Resumes s (h, .choose)) : Obeys s (h, .choose) := by
  intro hkick
  obtain ⟨i, -, hi⟩ := hr hkick
  rw [hi]
  rfl

theorem Shared.dispatch (hs : Shared s L) (hch : (s.hart h).chosen = true) (ho : Obeys s (h, .dispatch))
    (he : Harts.dispatch h s = some s') : Shared s' L := by
  obtain ⟨hc, i, hp⟩ := (hs.sane h).chosen hch
  have hkept : (s.hart h).kept = none := by
    by_contra hne
    obtain ⟨j, hj⟩ := Option.ne_none_iff_exists'.mp hne
    rw [((hs.sane h).kept j hj).1] at hch
    cases hch
  simp only [Harts.dispatch, hp, Option.map_some, Option.some.injEq] at he
  subst he
  have hi : (s.hart h).Has i := .inl ⟨hch, hp⟩
  have hself : ∀ j, (s.hart h).Has j ↔ j = i := fun j => by simp [Hart.Has, hch, hp, hkept, eq_comm]
  have hx : ∀ j, ¬ Hart.Has ⟨some i, some i, false, (s.hart h).kept⟩ j := fun j => by simp [Hart.Has, hkept]
  have hrun : (s.kernel.proc i).state = .runnable := hs.queued.held i ⟨h, hi⟩
  refine hs.set ((hs.queued.run (hs.queued.free_of_held ⟨h, hi⟩)).congr (fun j => ?_) fun j => ?_)
    (fun j hj => absurd hj (hx j)) (fun j hj g _ hg => ?_) (.inl hkept) (fun g hg => .inl (ho g hg)) ?_
  · rw [exists_other (P := fun y => y.Has j) (fun f g => hs.held f g j), hself]
    exact or_iff_right (hx j)
  · rw [exists_other (P := fun y => y.cproc = some j) (fun f g => hs.current f g j)]
    simp [hc, eq_comm, or_comm]
  · obtain rfl : i = j := Option.some.inj hj
    have := (hs.queued.running i).mpr ⟨g, hg⟩
    rw [hrun] at this
    cases this
  · constructor <;> simp [hkept]

theorem Shared.dispatch_obeys (hs : Shared s L) (hch : (s.hart h).chosen = true)
    (he : Harts.dispatch h s = some s') (hx : Exclusive s') : Obeys s (h, .dispatch) := by
  obtain ⟨-, i, hp⟩ := (hs.sane h).chosen hch
  have hi : (s.hart h).Has i := .inl ⟨hch, hp⟩
  simp only [Harts.dispatch, hp, Option.map_some, Option.some.injEq] at he
  subst he
  refine hs.stranded hx (hs.queued.run (hs.queued.free_of_held ⟨h, hi⟩)) rfl rfl fun g j hgh hj => ⟨⟨g, hj⟩, ?_⟩
  rintro rfl
  exact hgh (hs.held g h j hj hi)

/-! ## The running process -/

theorem devintr_queued {held cur : Slot → Prop} (hq : Queued s.kernel held cur L) :
    ∃ L', Queued (devintr h s) held cur L' := by
  unfold devintr
  split_ifs
  · obtain ⟨L', hq', -⟩ := hq.clockintr (s.hart h).cproc
    exact ⟨L', hq'⟩
  · exact ⟨L, hq⟩

theorem devintr_pKicked (h : Fin n) (s : System n) : (devintr h s).pKicked = s.kernel.pKicked := by
  unfold devintr
  split_ifs
  · exact (SameGlobals.clockintr ..).pKicked
  · rfl

theorem atYield_queued {held cur : Slot → Prop} (hq : Queued s.kernel held cur L)
    (hcur : ∀ i, (s.hart h).cproc = some i → cur i) (hy : atYield h s e = some (p, k)) :
    (s.hart h).cproc = some p ∧ ∃ L', Queued k held cur L' := by
  cases e with
  | nice inc =>
      simp only [atYield, Option.map_eq_some_iff, Prod.mk.injEq] at hy
      obtain ⟨_, hc, rfl, rfl⟩ := hy
      exact ⟨hc, L, hq.sysNice (hcur _ hc) inc⟩
  | usertrap =>
      simp only [atYield, Option.bind_eq_some_iff] at hy
      obtain ⟨p', hc, hy⟩ := hy
      split_ifs at hy
      cases hy
      obtain ⟨L', hq'⟩ := devintr_queued (h := h) hq
      exact ⟨hc, L', hq'.of_eq rfl rfl⟩
  | kerneltrap =>
      simp only [atYield, Option.bind_eq_some_iff] at hy
      obtain ⟨p', hc, hy⟩ := hy
      split_ifs at hy
      cases hy
      obtain ⟨L', hq'⟩ := devintr_queued (h := h) hq
      exact ⟨hc, L', hq'.of_eq rfl rfl⟩
  | _ => simp [atYield] at hy

theorem Hart.Sane.running {x : Hart} (hx : x.Sane) (hc : x.cproc = some p) :
    x.chosen = false ∧ x.kept = none ∧ ∀ i, ¬ x.Has i := by
  have hch : x.chosen = false := by
    by_contra hne
    have := (hx.chosen (by simpa using hne)).1
    rw [hc] at this
    cases this
  have hkept : x.kept = none := by
    by_contra hne
    obtain ⟨j, hj⟩ := Option.ne_none_iff_exists'.mp hne
    have := (hx.kept j hj).2.1
    rw [hc] at this
    cases this
  exact ⟨hch, hkept, fun i => by simp [Hart.Has, hch, hkept]⟩

/-- What the other harts hold and run, seen from a hart that runs `p`. -/
theorem Shared.others (hs : Shared s L) (hc : (s.hart h).cproc = some p) :
    (∀ i, (∃ g, g ≠ h ∧ (s.hart g).Has i) ↔ ∃ g, (s.hart g).Has i) ∧
      ∀ i, (∃ g, g ≠ h ∧ (s.hart g).cproc = some i) ↔ (∃ g, (s.hart g).cproc = some i) ∧ i ≠ p := by
  have hself := ((hs.sane h).running hc).2.2
  refine ⟨fun i => ?_, fun i => ?_⟩
  · rw [exists_other (P := fun y => y.Has i) (fun f g => hs.held f g i)]
    exact and_iff_left (hself i)
  · rw [exists_other (P := fun y => y.cproc = some i) (fun f g => hs.current f g i)]
    simp [hc, eq_comm]

theorem yieldOn_eq (hdue : ¬ boostDue k) : yieldOn h s p k =
    s.set h (yield k p) { s.hart h with cproc := none, kept := if Keeps k p then some p else none } := by
  simp only [yieldOn, System.set, hdue, if_false, System.mk.injEq, true_and]
  funext g
  by_cases hg : g = h
  · subst hg; simp
  · simp [hg]

theorem chargeTick_pKicked (hu : (k.proc p).state ≠ .unused) :
    (chargeTick k p).pKicked = if (k.proc p).Spent then k.pKicked else false := by
  rw [chargeTick_eq hu]
  split_ifs
  · rfl
  · rfl

theorem Shared.tick (hs : Shared s L) (hc : (s.hart h).cproc = some p)
    (hq : Queued k (fun i => ∃ h, (s.hart h).Has i) (fun i => ∃ h, (s.hart h).cproc = some i) L')
    (hdue : ¬ boostDue k) (ho : k.pKicked = true → (k.proc p).Spent → ∀ g, g ≠ h → (s.hart g).kept = none) :
    ∃ L, Shared (yieldOn h s p k) L := by
  obtain ⟨hch, -, hself⟩ := (hs.sane h).running hc
  obtain ⟨hheld, hcur⟩ := hs.others hc
  have hp := (hs.sane h).remembered p hc
  have hu := hq.not_unused ⟨h, hc⟩
  rw [yieldOn_eq hdue, yield_eq, if_neg hdue]
  by_cases hspent : (k.proc p).Spent
  · have hno : ¬ Keeps k p := fun hk => absurd hk.1 (not_lt.mpr hspent)
    have hx : ∀ j, ¬ Hart.Has ⟨(s.hart h).p, none, (s.hart h).chosen, none⟩ j := fun j => by simp [Hart.Has, hch]
    rw [if_neg hno]
    refine ⟨_, hs.set ((hq.spent ⟨h, hc⟩ hspent).congr (fun j => ?_) fun j => ?_) (fun j hj => absurd hj (hx j))
      (fun j hj => by cases hj) (.inl rfl) (fun g hg => ?_) ?_⟩
    · rw [hheld]
      exact or_iff_right (hx j)
    · simp [hcur]
    · rw [chargeTick_pKicked hu, if_pos hspent]
      cases hkick : k.pKicked with
      | true => exact .inl (ho hkick hspent g hg)
      | false => exact .inr rfl
    · constructor <;> simp [hch]
  · have hkeeps : Keeps k p := ⟨not_le.mp hspent, hdue⟩
    have hx : ∀ j, Hart.Has ⟨(s.hart h).p, none, (s.hart h).chosen, some p⟩ j ↔ j = p := fun j => by
      simp [Hart.Has, hch, eq_comm]
    rw [if_pos hkeeps]
    have hclear : (chargeTick k p).pKicked = false := by rw [chargeTick_pKicked hu, if_neg hspent]
    refine ⟨_, hs.set ((hq.kept ⟨h, hc⟩ hspent).congr (fun j => ?_) fun j => ?_) (fun j hj g _ hg => ?_)
      (fun j hj => by cases hj) (.inr hclear) (fun _ _ => .inr hclear) ?_⟩
    · rw [hheld, hx, or_comm]
    · simp [hcur]
    · rw [hx] at hj
      exact hq.not_held ⟨h, hc⟩ ⟨g, hj ▸ hg⟩
    · constructor <;> simp [hch, hp]

/-- A `nice` that raises its caller sets the flag. -/
theorem Shared.tick_obeys (hs : Shared s L) (hc : (s.hart h).cproc = some p)
    (hq : Queued k (fun i => ∃ h, (s.hart h).Has i) (fun i => ∃ h, (s.hart h).cproc = some i) L')
    (hdue : ¬ boostDue k) (hx : Exclusive (yieldOn h s p k)) (hkick : k.pKicked = true) (hspent : (k.proc p).Spent) :
    ∀ g, g ≠ h → (s.hart g).kept = none := by
  have hu := hq.not_unused ⟨h, hc⟩
  have hset : (chargeTick k p).pKicked = true := by rw [chargeTick_pKicked hu, if_pos hspent, hkick]
  rw [yieldOn_eq hdue, yield_eq, if_neg hdue] at hx
  exact hs.stranded hx (hq.spent ⟨h, hc⟩ hspent) hset ((hs.sane h).running hc).1 fun g _ _ hi => ⟨g, hi⟩

theorem boost_queued {held cur : Slot → Prop} (hq : Queued k held cur L) (hp : cur p) (hdue : boostDue k) :
    ∃ L', Queued (yield k p) (fun _ => False) (fun i => cur i ∧ i ≠ p) L' := by
  have hcharged : ∃ held L, Queued (chargeTick k p) held (fun i => cur i ∧ i ≠ p) L := by
    by_cases hspent : (k.proc p).Spent
    · exact ⟨_, _, hq.spent hp hspent⟩
    · exact ⟨_, _, hq.kept hp hspent⟩
  obtain ⟨held', L₁, hq₁⟩ := hcharged
  rw [yield_eq, if_pos hdue]
  exact ⟨_, hq₁.boost (hq.chargeTick_runnable hp)⟩

theorem Shared.boost (hs : Shared s L) (hc : (s.hart h).cproc = some p)
    (hq : Queued k (fun i => ∃ h, (s.hart h).Has i) (fun i => ∃ h, (s.hart h).cproc = some i) L')
    (hdue : boostDue k) (hno : ∀ g, (s.hart g).chosen = false) : ∃ L, Shared (yieldOn h s p k) L := by
  obtain ⟨L₁, hq₁⟩ := boost_queued hq ⟨h, hc⟩ hdue
  have hkeeps : ¬ Keeps k p := fun hk => hk.2 hdue
  have hkept : ∀ g, ((yieldOn h s p k).hart g).kept = none := fun g => by
    by_cases hg : g = h <;> simp [yieldOn, hg, hdue, hkeeps]
  have hchosen : ∀ g, ((yieldOn h s p k).hart g).chosen = false := fun g => by
    by_cases hg : g = h <;> simp [yieldOn, hg, hdue, hno]
  have hcproc : ∀ g, ((yieldOn h s p k).hart g).cproc = if g = h then none else (s.hart g).cproc := fun g => by
    by_cases hg : g = h <;> simp [yieldOn, hg, hdue]
  have hheld : ∀ g i, ¬ ((yieldOn h s p k).hart g).Has i := fun g i => by simp [Hart.Has, hkept, hchosen]
  refine ⟨L₁, hq₁.congr (fun i => ?_) fun i => ?_, fun f g i hf => absurd hf (hheld f i), fun f g i hf hg => ?_,
    fun g i hi => ?_, fun g => ⟨fun i hi => ?_, fun hch => ?_, fun i hi => ?_⟩⟩
  · simp [hheld]
  · rw [← (hs.others hc).2 i]
    constructor
    · rintro ⟨g, hg⟩
      rw [hcproc] at hg
      split_ifs at hg with hgh
      exact ⟨g, hgh, hg⟩
    · rintro ⟨g, hgh, hg⟩
      exact ⟨g, by rw [hcproc, if_neg hgh, hg]⟩
  · rw [hcproc] at hf hg
    split_ifs at hf hg
    exact hs.current f g i hf hg
  · simp [hkept] at hi
  · simp [hkept] at hi
  · simp [hchosen] at hch
  · rw [hcproc] at hi
    split_ifs at hi with hgh
    have hp := (hs.sane g).remembered i hi
    simpa [yieldOn, hgh, hdue] using hp

/-- A boost links what another hart has chosen. -/
theorem Shared.boost_obeys (hs : Shared s L) (hc : (s.hart h).cproc = some p)
    (hq : Queued k (fun i => ∃ h, (s.hart h).Has i) (fun i => ∃ h, (s.hart h).cproc = some i) L')
    (hdue : boostDue k) (hx : Exclusive (yieldOn h s p k)) (g : Fin n) : (s.hart g).chosen = false := by
  by_contra hne
  have hch : (s.hart g).chosen = true := by simpa using hne
  obtain ⟨hcg, i, hp⟩ := (hs.sane g).chosen hch
  have hi : (s.hart g).Has i := .inl ⟨hch, hp⟩
  have hgh : g ≠ h := fun he => by rw [he, hc] at hcg; cases hcg
  have hip : i ≠ p := fun he => hq.not_held ⟨h, hc⟩ ⟨g, he ▸ hi⟩
  have hrun : ((yield k p).proc i).state = .runnable := by
    rw [(yield_boost_keeps ((hq.running p).mpr ⟨h, hc⟩) hdue i).2.2.2 hip]
    exact hq.held i ⟨g, hi⟩
  have hi' : (yieldOn h s p k).Held g i := .inl (by simp [yieldOn, hgh, hdue, hch, hp])
  obtain ⟨L₁, hq₁⟩ := boost_queued hq ⟨h, hc⟩ hdue
  obtain ⟨L₂, hL₂, hrunnable⟩ := hx.runnable
  obtain rfl := eq_of_holds hq₁.represents hL₂
  rcases hrunnable i hrun with ⟨-, hno⟩ | ⟨hfree, -⟩
  · exact hno g hi'
  · exact hfree _ (hq₁.mem_of_runnable hrun id)

theorem Shared.leave (hs : Shared s L) {c : Option Slot}
    (hq : Queued k (fun i => ∃ h, (s.hart h).Has i)
      (fun i => (∃ h, (s.hart h).cproc = some i) ∧ ((s.hart h).cproc = some i → c = some i)) L')
    (hsub : ∀ i, c = some i → (s.hart h).cproc = some i) (hkick : k.pKicked = s.kernel.pKicked) :
    Shared (s.set h k { s.hart h with cproc := c }) L' := by
  have hsane := hs.sane h
  refine hs.set (hq.congr (fun i => ?_) fun i => ?_) (fun i hi g hg hheld => hg (hs.held g h i hheld hi))
    (fun i hi g hg hcur => hg (hs.current g h i hcur (hsub i hi))) (hs.kept_or hkick h) (fun g _ => hs.kept_or hkick g)
    ⟨fun i hi => ?_, fun hch => ?_, fun i hi => ?_⟩
  · rw [exists_other (P := fun y => y.Has i) (fun f g => hs.held f g i)]
    change (s.hart h).Has i ∨ _ ↔ _
    by_cases hi : (s.hart h).Has i
    · simp only [hi, not_true_eq_false, and_false, or_false, true_iff]
      exact ⟨h, hi⟩
    · simp [hi]
  · rw [exists_other (P := fun y => y.cproc = some i) (fun f g => hs.current f g i)]
    by_cases hi : c = some i
    · simp only [hi, true_or, implies_true, and_true, true_iff]
      exact ⟨h, hsub i hi⟩
    · simp [hi]
  · obtain ⟨hch, hc, hp⟩ := hsane.kept i hi
    refine ⟨hch, ?_, hp⟩
    by_contra hne
    obtain ⟨j, hj⟩ := Option.ne_none_iff_exists'.mp hne
    rw [hsub j hj] at hc
    cases hc
  · obtain ⟨hc, hp⟩ := hsane.chosen hch
    refine ⟨?_, hp⟩
    by_contra hne
    obtain ⟨j, hj⟩ := Option.ne_none_iff_exists'.mp hne
    rw [hsub j hj] at hc
    cases hc
  · exact hsane.remembered i (hsub i hi)

theorem Shared.call (hs : Shared s L) (hy : atYield h s e = none) (he : call h s e = some s') :
    ∃ L', Shared s' L' := by
  have hcur : ∀ i, (s.hart h).cproc = some i → ∃ g, (s.hart g).cproc = some i := fun i hi => ⟨h, hi⟩
  have hquiet : ∀ m, e ≠ .schedule → Kernel.atYield (s.view h) e = none →
      Kernel.step .asPromised e (s.view h) = some m →
      ∃ L', Shared (s.set h m.kernel { s.hart h with cproc := m.cproc }) L' := by
    intro m hne hy' hm
    obtain ⟨⟨L', hq, -⟩, -, hkick, hsub⟩ := step_quiet hs.queued hcur hne hy' hm
    exact ⟨L', hs.leave hq hsub hkick⟩
  cases e with
  | schedule => simp [Harts.call] at he
  | nice inc => simp [Harts.call] at he
  | usertrap =>
      simp only [Harts.call, Option.bind_eq_some_iff, Option.map_eq_some_iff] at he
      obtain ⟨p, hc, k, hk, rfl⟩ := he
      obtain ⟨L₁, hq₁⟩ := devintr_queued (h := h) hs.queued
      obtain ⟨L₂, hq₂, -⟩ := hq₁.exit (hcur p hc) hk
      refine ⟨L₂, hs.leave (hq₂.congr (fun _ => Iff.rfl) fun i => ?_) (fun i hi => by cases hi)
        ((SameGlobals.exit hk).pKicked.trans (devintr_pKicked h s))⟩
      simp [hc, eq_comm]
  | kerneltrap =>
      simp only [Harts.call, Option.some.injEq] at he
      subst he
      obtain ⟨L₁, hq₁⟩ := devintr_queued (h := h) hs.queued
      exact ⟨L₁, hq₁.of_eq rfl rfl, hs.held, hs.current, fun g i hi => (devintr_pKicked h s).trans (hs.clear g i hi), hs.sane⟩
  | _ =>
      simp only [Harts.call, Option.map_eq_some_iff] at he
      obtain ⟨m, hm, rfl⟩ := he
      exact hquiet m (by simp) (by simp [Kernel.atYield]) hm

/-! ## Every step, and every run -/

/-- The step leaves each process with one hart or in one list, and a hart that resumes a process goes on with its own. -/
def Sound (x : Transition (System n) (Fin n × Event)) : Prop := Exclusive x.post ∧ Resumes x.pre x.event

theorem Shared.step {e : Fin n × Event} (hs : Shared s L) (he : Harts.step e s = some s') (ho : Obeys s e) :
    (∃ L', Shared s' L') ∧ Resumes s e := by
  obtain ⟨h, e⟩ := e
  cases e with
  | choose =>
      simp only [Harts.step, Option.ite_none_right_eq_some] at he
      exact hs.choose he.1.1 he.1.2 ho he.2
  | dispatch =>
      simp only [Harts.step, Option.ite_none_right_eq_some] at he
      exact ⟨⟨L, hs.dispatch he.1 ho he.2⟩, trivial⟩
  | on e =>
      refine ⟨?_, trivial⟩
      cases hy : atYield h s e with
      | none =>
          simp only [Harts.step, hy] at he
          exact hs.call hy he
      | some pk =>
          obtain ⟨p, k⟩ := pk
          simp only [Harts.step, hy, Option.some.injEq] at he
          subst he
          obtain ⟨hc, L₁, hq⟩ := atYield_queued hs.queued (fun i hi => ⟨h, hi⟩) hy
          have hobeys := ho p k hy
          split_ifs at hobeys with hdue
          · exact hs.boost hc hq hdue hobeys
          · exact hs.tick hc hq hdue hobeys

theorem Shared.obeys {e : Fin n × Event} (hs : Shared s L) (he : Harts.step e s = some s') (hx : Exclusive s')
    (hr : Resumes s e) : Obeys s e := by
  obtain ⟨h, e⟩ := e
  cases e with
  | choose => exact choose_obeys hr
  | dispatch =>
      simp only [Harts.step, Option.ite_none_right_eq_some] at he
      exact hs.dispatch_obeys he.1 he.2 hx
  | on e =>
      intro p k hy
      simp only [Harts.step, hy, Option.some.injEq] at he
      subst he
      obtain ⟨hc, L₁, hq⟩ := atYield_queued hs.queued (fun i hi => ⟨h, hi⟩) hy
      split_ifs with hdue
      · exact hs.boost_obeys hc hq hdue hx
      · exact hs.tick_obeys hc hq hdue hx

section Run

variable {outside : QTable} {tr : List (Transition (System n) (Fin n × Event))}

theorem Shared.run (hr : Run Harts.step (Harts.boot n outside) tr s) (ho : ∀ x ∈ tr, Obeys x.pre x.event) :
    ∃ L, Shared s L := by
  refine hr.invariant (I := fun s => ∃ L, Shared s L) (Shared.boot n outside) ?_
  rintro x hx he ⟨L, hL⟩
  exact (hL.step he (ho x hx)).1

/-- In a run of any number of harts they leave each other alone if and only if none of them goes by what another one has
left in `p_kicked` or sets it under the eyes of one that has kept a process, and no boost comes between a choice and the
dispatch. -/
theorem harts_sound_iff (hr : Run Harts.step (Harts.boot n outside) tr s) :
    (Exclusive (Harts.boot n outside) ∧ ∀ x ∈ tr, Sound x) ↔ ∀ x ∈ tr, Obeys x.pre x.event := by
  constructor
  · rintro ⟨-, hsound⟩
    induction hr with
    | nil => simp
    | @snoc tr s e s' hr he ih =>
        have ho := ih fun x hx => hsound x (by simp [hx])
        obtain ⟨L, hL⟩ := Shared.run hr ho
        obtain ⟨hx, hres⟩ := hsound ⟨s, e, s'⟩ (by simp)
        intro x hmem
        rw [List.mem_append, List.mem_singleton] at hmem
        rcases hmem with hmem | rfl
        · exact ho x hmem
        · exact hL.obeys he hx hres
  · intro ho
    obtain ⟨L₀, hL₀⟩ := Shared.boot n outside
    refine ⟨hL₀.exclusive, fun x hx => ?_⟩
    obtain ⟨tr₁, tr₂, rfl⟩ := List.append_of_mem hx
    obtain ⟨hpre, he, -⟩ := hr.middle
    obtain ⟨L, hL⟩ := Shared.run hpre fun y hy => ho y (by simp [hy])
    obtain ⟨⟨L', hL'⟩, hres⟩ := hL.step he (ho x hx)
    exact ⟨hL'.exclusive, hres⟩

end Run

/-- Slot 0 has slept on hart 0 and runs on hart 1 now. When its tick clears the flag, hart 0 goes on with it,
too. -/
theorem harts_collide : ¬ ∀ n outside tr, ∀ s : System n, 1 ≤ n → n ≤ NCPU →
    Run Harts.step (Harts.boot n outside) tr s → Exclusive s := by
  intro hall
  have hplay : (final (Harts.step (n := 2)) (Harts.boot 2 fun _ => 0)
      [(0, .choose), (0, .dispatch), (0, .on (.sleep (.other 0))), (0, .on (.wakeup (.other 0))), (1, .choose),
        (1, .dispatch), (1, .on .usertrap), (0, .choose), (1, .choose), (0, .dispatch), (1, .dispatch)]).any
      (fun s => (s.hart 0).cproc = some 0 ∧ (s.hart 1).cproc = some 0) = true := by
    decide +kernel
  obtain ⟨tr, s, h, -, hs⟩ := Run.replay hplay
  obtain ⟨h₀, h₁⟩ := of_decide_eq_true hs
  have hx := hall 2 _ tr s (by decide) (by decide) h
  exact absurd (hx.running 0 1 0 h₀ h₁) (by decide)

/-- A process and its child run on two harts, and the first goes on after a tick. -/
theorem harts_sound_iff_two :
    ∃ (tr : List (Transition (System 2) (Fin 2 × Event))) (s : System 2),
      (s.hart 0).cproc = some 0 ∧ (s.hart 1).cproc = some 1 ∧ (s.kernel.proc 0).runtime = 1 ∧
        ((Exclusive (Harts.boot 2 fun _ => 0) ∧ ∀ x ∈ tr, Sound x) ↔ ∀ x ∈ tr, Obeys x.pre x.event) := by
  have hplay : (final (Harts.step (n := 2)) (Harts.boot 2 fun _ => 0)
      [(0, .choose), (0, .dispatch), (0, .on (.fork true true true)), (1, .choose), (1, .dispatch), (0, .on .usertrap),
        (0, .choose), (0, .dispatch)]).any
      (fun s => (s.hart 0).cproc = some 0 ∧ (s.hart 1).cproc = some 1 ∧ (s.kernel.proc 0).runtime = 1) = true := by
    decide +kernel
  obtain ⟨tr, s, h, -, hs⟩ := Run.replay hplay
  obtain ⟨h₀, h₁, htime⟩ := of_decide_eq_true hs
  exact ⟨tr, s, h₀, h₁, htime, harts_sound_iff h⟩

end Xv6Mlfq.Harts
