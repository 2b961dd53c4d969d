import Mathlib.Data.List.Sort
import Xv6Mlfq.Kernel.Boost
import Xv6Mlfq.Kernel.BoostTimes

/-!
# Rule 2: round robin

The list of a level is a queue between two boosts, so nobody is overtaken. A boost builds the lists anew in
the order of the slots, and may put a process that has had its turn in front of one that still waits.
-/

namespace Xv6Mlfq.Kernel

open Access Queue Runs

variable {idle : Idle} {m m' : Machine} {e : Event} {k : State} {p A B i : Slot} {ℓ q : Level} {L L' : Fifos}
  {outside : QTable} {tr tr₁ tr₂ : List (Transition Machine Event)} {x y : Transition Machine Event}

/-! ## Waiting, turns and boosts, as read off the table -/

/-- The walk along the list of the level meets the slot. -/
def InList (t : QTable) (q : Level) (i : Slot) : Prop := (forward t q).any fun l => (i : Nat) ∈ l

instance (t : QTable) (q : Level) (i : Slot) : Decidable (InList t q i) := inferInstanceAs (Decidable (_ = _))

/-- `A` is RUNNABLE, and linked in the list of its starting level. -/
def WaitsAt (m : Machine) (A : Slot) (ℓ : Level) : Prop :=
  (m.kernel.proc A).state = .runnable ∧ priority (m.kernel.proc A) = ℓ ∧ InList m.kernel.qtable ℓ A

instance (m : Machine) (A : Slot) (ℓ : Level) : Decidable (WaitsAt m A ℓ) :=
  inferInstanceAs (Decidable (_ ∧ _))

/-- `A` waits at the level, in every state of this part of a run. -/
def Waiting (tr : List (Transition Machine Event)) (A : Slot) (ℓ : Level) : Prop :=
  ∀ x ∈ tr, WaitsAt x.pre A ℓ ∧ WaitsAt x.post A ℓ

/-- The step is an iteration of the scheduler that takes `B` out of the list of the level. -/
def Takes (x : Transition Machine Event) (B : Slot) (ℓ : Level) : Prop :=
  x.event = .schedule ∧ x.pre.kernel.pKicked = true ∧ InList x.pre.kernel.qtable ℓ B ∧ x.post.cproc = some B

instance (x : Transition Machine Event) (B : Slot) (ℓ : Level) : Decidable (Takes x B ℓ) :=
  inferInstanceAs (Decidable (_ ∧ _))

/-- While a process waits at its starting level, no other one is taken out of this level twice. -/
def RoundRobin (tr : List (Transition Machine Event)) : Prop :=
  ∀ tr₁ x tr₂ y tr₃ A B ℓ, tr = tr₁ ++ x :: (tr₂ ++ y :: tr₃) → A ≠ B → Waiting (x :: (tr₂ ++ [y])) A ℓ →
    Takes x B ℓ → ¬ Takes y B ℓ

/-- The step is a boost before which `B`, in a slot before that of `A`, is ready at starting level `ℓ`. -/
def Overtakes (x : Transition Machine Event) (A B : Slot) (ℓ : Level) : Prop :=
  ∃ p k, atYield x.pre x.event = some (p, k) ∧ boostDue k ∧ B < A ∧ priority (k.proc B) = ℓ ∧
    (B = p ∨ (k.proc B).state = .runnable)

/-- No boost overtakes a process that waits in favour of one that has had a turn in the meantime. -/
def BoostsInOrder (tr : List (Transition Machine Event)) : Prop :=
  ∀ tr₁ x tr₂ y tr₃ A B ℓ, tr = tr₁ ++ x :: (tr₂ ++ y :: tr₃) → A ≠ B → Waiting (x :: (tr₂ ++ [y])) A ℓ →
    Takes x B ℓ → ¬ Overtakes y A B ℓ

theorem inList_iff {t : QTable} (h : Represents t L) : InList t q i ↔ i ∈ L q := by
  rw [InList, h.forward_eq]
  simp [mem_nodes]

/-! ## One step -/

/-- `A` is in the list, and `B` is not in front of it. -/
def Ahead (l : List Slot) (A B : Slot) : Prop := ∃ us vs, l = us ++ A :: vs ∧ B ∉ us

theorem Ahead.of_prefix {l l' : List Slot} (h : Ahead l A B) (hp : l <+: l') : Ahead l' A B := by
  obtain ⟨us, vs, rfl, hB⟩ := h
  obtain ⟨ws, rfl⟩ := hp
  exact ⟨us, vs ++ ws, by simp, hB⟩

theorem Ahead.of_notMem {l : List Slot} (hA : A ∈ l) (hB : B ∉ l) : Ahead l A B := by
  obtain ⟨us, vs, rfl⟩ := List.append_of_mem hA
  exact ⟨us, vs, rfl, fun hu => hB (List.mem_append_left _ hu)⟩

theorem Ahead.tail {xs : List Slot} (h : Ahead (i :: xs) A B) (hA : A ≠ i) : Ahead xs A B := by
  obtain ⟨us, vs, hL, hB⟩ := h
  cases us with
  | nil =>
      rw [List.nil_append, List.cons.injEq] at hL
      exact absurd hL.1.symm hA
  | cons j us =>
      rw [List.cons_append, List.cons.injEq] at hL
      exact ⟨us, vs, hL.2, fun hu => hB (List.mem_cons_of_mem _ hu)⟩

theorem Ahead.front_ne {xs : List Slot} (h : Ahead (i :: xs) A B) (hAB : A ≠ B) : i ≠ B := by
  obtain ⟨us, vs, hL, hB⟩ := h
  cases us with
  | nil =>
      rw [List.nil_append, List.cons.injEq] at hL
      rw [hL.1]
      exact hAB
  | cons j us =>
      rw [List.cons_append, List.cons.injEq] at hL
      rw [hL.1]
      exact fun he => hB (he ▸ List.mem_cons_self)

/-- In a sorted list only smaller slots are in front of `A`. -/
theorem Ahead.of_sorted {l : List Slot} (hl : l.Pairwise (· < ·)) (hA : A ∈ l) (hB : B ∈ l → ¬ B < A) :
    Ahead l A B := by
  obtain ⟨us, vs, rfl⟩ := List.append_of_mem hA
  refine ⟨us, vs, rfl, fun hu => hB (List.mem_append_left _ hu) ?_⟩
  exact (List.pairwise_append.mp hl).2.2 B hu A List.mem_cons_self

theorem boostLists_sorted (k : State) (q : Level) : (boostLists k q).Pairwise (· < ·) :=
  (List.pairwise_lt_finRange NPROC).filter _

/-- After a boost a process is in the lists only if it was ready before it. -/
theorem Coherent.boost_ready (h : Coherent m L) (hy : atYield m e = some (p, k)) (hdue : boostDue k)
    (hB : B ∈ boostLists (Kernel.yield k p) ℓ) :
    priority (k.proc B) = ℓ ∧ (B = p ∨ (k.proc B).state = .runnable) := by
  obtain ⟨hc, -, L', hq, -⟩ := atYield_queued h.queued (fun _ => id) hy
  obtain ⟨hnice, -, -, hstate⟩ := yield_boost_keeps ((hq.running p).mpr hc) hdue B
  obtain ⟨hrun, hlevel⟩ : ((Kernel.yield k p).proc B).state = .runnable ∧
      priority ((Kernel.yield k p).proc B) = ℓ := by simpa [boostLists] using hB
  refine ⟨by rw [← hlevel, priority, priority, hnice], ?_⟩
  by_cases hBp : B = p
  · exact .inl hBp
  · exact .inr (hstate hBp ▸ hrun)

/-- What a step does to the place of a process that goes on waiting. -/
theorem Coherent.ahead_step (h : Coherent m L) (he : Kernel.step idle e m = some m')
    (hmove : Moved idle m e m' L L') (hahead : Ahead (L ℓ) A B) (hA : A ∈ L' ℓ)
    (hno : ¬ Overtakes ⟨m, e, m'⟩ A B ℓ) : Ahead (L' ℓ) A B := by
  cases hmove with
  | arrivals _ hx => exact hahead.of_prefix (hx ℓ)
  | @boost p k hy hdue hL =>
      have hm : m'.kernel = Kernel.yield k p := by rw [step_of_atYield hy he]
      subst hL
      rw [hm] at hA ⊢
      refine .of_sorted (boostLists_sorted _ ℓ) hA fun hB hlt => hno ?_
      exact ⟨p, k, hy, hdue, hlt, h.boost_ready hy hdue hB⟩
  | @dequeue r i xs t _ _ _ hLr hL =>
      subst hL
      by_cases hr : ℓ = r
      · subst hr
        have hnd := h.queued.represents.nodup ℓ
        rw [hLr, List.nodup_cons] at hnd
        rw [Function.update_self] at hA ⊢
        rw [hLr] at hahead
        exact hahead.tail fun hAi => hnd.1 (hAi ▸ hA)
      · rw [Function.update_of_ne hr]
        exact hahead
  | resume _ _ _ hL => exact hL ▸ hahead
  | rest _ _ _ hL => exact hL ▸ hahead
  | stray _ _ _ hL => exact hL ▸ hahead

theorem Coherent.takes_front (h : Coherent m L) (he : Kernel.step idle e m = some m')
    (htakes : Takes ⟨m, e, m'⟩ B ℓ) :
    ∃ xs L', L ℓ = B :: xs ∧ Coherent m' L' ∧ L' ℓ = xs := by
  obtain ⟨hev, hkick, hB, hc⟩ := htakes
  obtain ⟨L', hL', hmove⟩ := h.step he
  rw [inList_iff h.queued.represents] at hB
  cases hmove with
  | arrivals hne => exact absurd hev hne
  | boost hy =>
      dsimp only at hev
      subst hev
      simp [atYield] at hy
  | @dequeue r i xs t _ _ _ hLr hL hm =>
      subst hm
      cases hc
      have hr : ℓ = r := by
        by_contra hne
        exact h.queued.represents.disjoint hne hB (by simp [hLr])
      subst hr
      exact ⟨xs, L', hLr, hL', by rw [hL, Function.update_self]⟩
  | resume _ hkick' =>
      dsimp only at hkick
      rw [hkick] at hkick'
      cases hkick'
  | rest _ _ hempty => simp [hempty ℓ] at hB
  | stray _ _ hempty => simp [hempty ℓ] at hB

/-! ## Runs -/

/-- If the boosts of a run keep the order, nobody is overtaken in it. -/
theorem round_robin_of_boosts (h : Run (step idle) (boot outside) tr m) (hboosts : BoostsInOrder tr) :
    RoundRobin tr := by
  rintro tr₁ x tr₂ y tr₃ A B ℓ rfl hAB hwait hx hy
  obtain ⟨hpre, hex, hpost⟩ := h.middle
  obtain ⟨hmid, hey, -⟩ := hpost.middle
  obtain ⟨L₀, hL₀⟩ := Coherent.run hpre
  obtain ⟨xs, L₁, hLx, hL₁, hxs⟩ := hL₀.takes_front hex hx
  have hnd := hL₀.queued.represents.nodup ℓ
  rw [hLx, List.nodup_cons] at hnd
  have hmem : ∀ {m : Machine} {L : Fifos}, Coherent m L → WaitsAt m A ℓ → A ∈ L ℓ := fun hL hw =>
    (inList_iff hL.queued.represents).mp hw.2.2
  have hstart : ∃ L, Coherent x.post L ∧ Ahead (L ℓ) A B := by
    have hA := hmem hL₁ (hwait x (by simp)).2
    exact ⟨L₁, hL₁, .of_notMem hA (hxs ▸ hnd.1)⟩
  obtain ⟨L, hL, hahead⟩ : ∃ L, Coherent y.pre L ∧ Ahead (L ℓ) A B := by
    refine hmid.invariant (I := fun m => ∃ L, Coherent m L ∧ Ahead (L ℓ) A B) hstart ?_
    rintro z hz hez ⟨L, hL, hahead⟩
    obtain ⟨us, vs, rfl⟩ := List.append_of_mem hz
    have hwz := (hwait z (by simp)).2
    obtain ⟨L', hL', hmove⟩ := hL.step hez
    refine ⟨L', hL', hL.ahead_step hez hmove hahead (hmem hL' hwz) ?_⟩
    refine hboosts tr₁ x us z (vs ++ y :: tr₃) A B ℓ (by simp) hAB (fun w hw => hwait w ?_) hx
    simp only [List.mem_cons, List.mem_append, List.not_mem_nil, or_false] at hw ⊢
    tauto
  obtain ⟨ys, -, hLy, -⟩ := hL.takes_front hey hy
  exact (hLy ▸ hahead).front_ne hAB rfl

/-- Slots 1 and 2 wait at MEDIUM. Slot 1 has its turn and is still ready at the boost at time 60, which puts
it in front of slot 2 again. -/
theorem round_robin_violated :
    ¬ ∀ idle outside tr m, Run (step idle) (boot outside) tr m →
      (∀ x ∈ tr, ∀ inc, x.event ≠ .nice inc) → RoundRobin tr := by
  intro hall
  have hplay : (final (step .asWritten) (hog 4) [.fork true true true, .fork true true true, .sleep (.other 0)]).any
      (fun m₀ => (step .asWritten .schedule m₀).any fun m₁ => (step .asWritten .usertrap m₁).any fun m₂ =>
        (step .asWritten .schedule m₂).any fun m₃ : Machine =>
          (WaitsAt m₀ 2 1 ∧ WaitsAt m₁ 2 1 ∧ WaitsAt m₂ 2 1 ∧ WaitsAt m₃ 2 1) ∧
            Takes ⟨m₀, .schedule, m₁⟩ 1 1 ∧ Takes ⟨m₂, .schedule, m₃⟩ 1 1) = true := by
    decide +kernel
  obtain ⟨tr, m₀, h, hev, hm⟩ := replay_hog (by decide) hplay
  obtain ⟨m₁, h₁, hm⟩ := (Option.any_eq_true _ _).mp hm
  obtain ⟨m₂, h₂, hm⟩ := (Option.any_eq_true _ _).mp hm
  obtain ⟨m₃, h₃, hm⟩ := (Option.any_eq_true _ _).mp hm
  obtain ⟨⟨w₀, w₁, w₂, w₃⟩, hx, hy⟩ := of_decide_eq_true hm
  refine hall .asWritten _ _ m₃ (((h.snoc h₁).snoc h₂).snoc h₃) ?_ tr _ [⟨m₁, .usertrap, m₂⟩] _ [] 2 1 1
    (by simp) (by decide) ?_ hx hy
  · have hno : ∀ e ∈ tr.map Transition.event, ∀ inc, e ≠ .nice inc := by
      rintro e he inc rfl
      rw [hev, List.mem_append] at he
      rcases he with he | he
      · rcases eq_of_mem_hogEvents he with h | h
        all_goals cases h
      · simp at he
    intro x hx inc
    simp only [List.mem_append, List.mem_singleton] at hx
    rcases hx with ((hx | rfl) | rfl) | rfl
    · exact hno _ (List.mem_map_of_mem hx) inc
    all_goals simp
  · intro z hz
    simp only [List.cons_append, List.nil_append, List.mem_cons, List.not_mem_nil, or_false] at hz
    rcases hz with rfl | rfl | rfl
    exacts [⟨w₀, w₁⟩, ⟨w₁, w₂⟩, ⟨w₂, w₃⟩]

/-- Slot 2 has its turn while slot 1 waits behind it; the boost at time 60 puts slot 1 in front. -/
theorem round_robin_of_boosts_turns :
    ∃ tr m, Run (step .asWritten) (boot fun _ => 0) tr m ∧ (∃ x ∈ tr, Boosts x.pre x.event) ∧ m.cproc = some 1 ∧
      RoundRobin tr := by
  have hplay : (final (step .asWritten) (hog 4) [.fork true true true, .fork true true true, .sleep (.other 0), .schedule,
      .sleep (.other 1), .schedule, .sleep (.other 2), .wakeup (.other 2), .wakeup (.other 1), .schedule]).any
      (fun m₀ => (step .asWritten .usertrap m₀).any fun m₁ => (step .asWritten .schedule m₁).any fun m₂ : Machine =>
        Boosts m₀ .usertrap ∧ WaitsAt m₀ 1 1 ∧ (∀ i, (m₀.kernel.proc i).state = .runnable → i = 1) ∧
          (atYield m₀ .usertrap).any (fun x => x.1 = 2 ∧ (x.2.proc 0).state = .sleeping) = true ∧
            m₂.cproc = some 1) = true := by
    decide +kernel
  obtain ⟨tr, m₀, h, hev, hm⟩ := replay_hog (by decide) hplay
  obtain ⟨m₁, h₁, hm⟩ := (Option.any_eq_true _ _).mp hm
  obtain ⟨m₂, h₂, hm⟩ := (Option.any_eq_true _ _).mp hm
  obtain ⟨hboost, -, honly, hyield, hc⟩ := of_decide_eq_true hm
  have hevents : ∀ e ∈ tr.map Transition.event, ∀ inc, e ≠ .nice inc := by
    rintro e he inc rfl
    rw [hev, List.mem_append] at he
    rcases he with he | he
    · rcases eq_of_mem_hogEvents he with h | h
      · cases h
      · cases h
    · simp at he
  have hearly := not_boosts_early h (by rw [traps_eq, hev]; decide) fun x hx => hevents _ (List.mem_map_of_mem hx)
  refine ⟨_, m₂, (h.snoc h₁).snoc h₂, ⟨⟨m₀, .usertrap, m₁⟩, by simp, hboost⟩, hc,
    round_robin_of_boosts ((h.snoc h₁).snoc h₂) ?_⟩
  intro tr₁ x tr₂ y tr₃ A B ℓ htr hAB hwait _ hover
  obtain ⟨p, k, hy, hdue, hlt, -, hready⟩ := hover
  have hmem : y ∈ tr ++ [⟨m₀, .usertrap, m₁⟩] ++ [⟨m₁, .schedule, m₂⟩] := by
    rw [htr]
    simp
  simp only [List.mem_append, List.mem_singleton] at hmem
  rcases hmem with (hmem | rfl) | rfl
  · exact hearly y hmem (by simp [Boosts, hy, hdue])
  · -- only slot 1 waits, slot 2 yields, and slot 0 sleeps
    obtain rfl : A = 1 := honly A (hwait ⟨m₀, .usertrap, m₁⟩ (by simp)).1.1
    obtain rfl : B = 0 := Fin.ext (Nat.lt_one_iff.mp hlt)
    dsimp only at hy
    rw [hy] at hyield
    obtain ⟨hp, hsleep⟩ := of_decide_eq_true hyield
    rcases hready with heq | hrun
    · exact absurd (heq.trans hp) (by decide)
    · rw [hsleep] at hrun
      cases hrun
  · simp [atYield] at hy

end Xv6Mlfq.Kernel
