import Xv6Mlfq.Kernel.Boost
import Xv6Mlfq.Kernel.Lemmas.Slots
import Xv6Mlfq.Kernel.RunQueue

/-!
# Rule 4: the time allotment

`runtime` counts the ticks of the current quantum. It is compared here with a count that is read off the
history of the run and does not look at `runtime`.
-/

namespace Xv6Mlfq.Kernel

open Access Queue Runs

variable {idle : Idle} {m m' : Machine} {e : Event} {L : Fifos} {k k' : State} {p i : Slot} {n : Nat} {q : Level}
  {outside : QTable} {tr : List (Transition Machine Event)} {x : Transition Machine Event}

/-! ## The history of one slot -/

/-- The step charges a tick to the process of slot `i`. -/
def Charged (i : Slot) (x : Transition Machine Event) : Prop :=
  ((atYield x.pre x.event).any fun (p, _) => p = i) = true

/-- The step performs a boost that resets the process of slot `i`. -/
def Reset (i : Slot) (x : Transition Machine Event) : Prop :=
  ((atYield x.pre x.event).any fun (p, k) => boostDue k ∧ (i = p ∨ (k.proc i).state = .runnable)) = true

/-- The process of slot `i` is reset, or it is not the same one before and after the step. -/
def Renewed (i : Slot) (x : Transition Machine Event) : Prop :=
  Reset i x ∨ (x.pre.kernel.proc i).state = .unused ∨ (x.post.kernel.proc i).state = .unused

instance (i : Slot) (x : Transition Machine Event) : Decidable (Charged i x) :=
  inferInstanceAs (Decidable (_ = _))

instance (i : Slot) (x : Transition Machine Event) : Decidable (Reset i x) :=
  inferInstanceAs (Decidable (_ = _))

instance (i : Slot) (x : Transition Machine Event) : Decidable (Renewed i x) :=
  inferInstanceAs (Decidable (_ ∨ _))

/-- One more step of the count: it starts again with a new process, with a reset, at a new level, and at LOW
with the tick that completes the quantum there. -/
def count (i : Slot) (n : Nat) (x : Transition Machine Event) : Nat :=
  if Renewed i x ∨ (x.post.kernel.proc i).queue ≠ (x.pre.kernel.proc i).queue then 0
  else if Charged i x then
    if (x.pre.kernel.proc i).queue = QUEUE_LOW ∧ (n + 1 : Int) = quantum (x.pre.kernel.proc i) then 0 else n + 1
  else n

/-- The ticks charged to the process of slot `i` at its level since it entered it, or since its quantum there
last expired. -/
def tally (i : Slot) (tr : List (Transition Machine Event)) : Nat := tr.foldl (count i) 0

/-- The ticks charged to the process of slot `i` at level `q`. -/
def chargesAt (i : Slot) (q : Level) (tr : List (Transition Machine Event)) : Nat :=
  tr.countP fun x => Charged i x ∧ (x.pre.kernel.proc i).queue = q

/-- The process goes to the back of the next level. -/
structure Leaves (i : Slot) (x : Transition Machine Event) : Prop where
  queue : (x.post.kernel.proc i).queue = lower (x.pre.kernel.proc i).queue
  last : ∃ L, RunQueue x.post L ∧ (L (lower (x.pre.kernel.proc i).queue)).getLast? = some i

/-- The process keeps its level, and the hart. -/
structure Stays (i : Slot) (x : Transition Machine Event) : Prop where
  queue : (x.post.kernel.proc i).queue = (x.pre.kernel.proc i).queue
  kept : x.post.Kept i

/-- The process leaves its level with the tick that completes its quantum, and with no other step. -/
def Allotted (i : Slot) (tr : List (Transition Machine Event)) (x : Transition Machine Event) : Prop :=
  if Charged i x then
    (tally i tr + 1 : Int) = quantum (x.pre.kernel.proc i) ∧ Leaves i x ∨
      (tally i tr + 1 : Int) < quantum (x.pre.kernel.proc i) ∧ Stays i x
  else (x.post.kernel.proc i).queue = (x.pre.kernel.proc i).queue

/-! ## `runtime` is the tally -/

def allotment (q : Level) : Int := if q = QUEUE_HIGH then 1 else if q = QUEUE_MEDIUM then 10 else 15

theorem allotment_pos (q : Level) : 0 < allotment q := by
  unfold allotment
  split_ifs <;> decide

theorem lower_val (q : Level) : (lower q : Nat) = q - 1 := by
  have hlow : ((QUEUE_LOW : Level) : Nat) = 0 := rfl
  simp only [lower, hlow]
  omega

theorem eq_low_of_lower (h : lower q = q) : q = QUEUE_LOW := by
  have hval := congrArg Fin.val h
  rw [lower_val] at hval
  have hlow : ((QUEUE_LOW : Level) : Nat) = 0 := rfl
  exact Fin.ext (by omega)

structure Metered (k : State) (i : Slot) (n : Nat) : Prop where
  runtime : (k.proc i).runtime = n
  lt : (n : Int) < allotment (k.proc i).queue
  unused : (k.proc i).state = .unused → n = 0

theorem Metered.steady (h : Metered k i n) (hs : (k.proc i).Steady (k'.proc i)) : Metered k' i n where
  runtime := hs.runtime.trans h.runtime
  lt := by rw [hs.queue]; exact h.lt
  unused hu := h.unused (hs.unused.mp hu)

theorem Metered.zero (hr : (k.proc i).runtime = 0) : Metered k i 0 := ⟨hr, allotment_pos _, fun _ => rfl⟩

theorem atYield_steady (hy : atYield m e = some (p, k)) (hn : ∀ inc, e ≠ .nice inc) :
    m.cproc = some p ∧ m.kernel.Steady k := by
  cases atYield_yielding hy with
  | nice hc inc => exact absurd rfl (hn inc)
  | usertrap hc hkill => exact ⟨hc, .tick ..⟩
  | kerneltrap hc => exact ⟨hc, .tick ..⟩

theorem charged_iff (hy : atYield m e = some (p, k)) : Charged i ⟨m, e, m'⟩ ↔ p = i := by
  simp [Charged, hy]

theorem reset_iff (hy : atYield m e = some (p, k)) :
    Reset i ⟨m, e, m'⟩ ↔ boostDue k ∧ (i = p ∨ (k.proc i).state = .runnable) := by
  simp [Reset, hy]

/-- A yield without `nice` leaves the others steady, but for those that a boost resets. -/
theorem yield_steady (hL : Coherent m L) (hy : atYield m e = some (p, k)) (hn : ∀ inc, e ≠ .nice inc)
    (he : step idle e m = some m') (hi : i ≠ p) (hx : ¬ Reset i ⟨m, e, m'⟩) :
    (m.kernel.proc i).Steady (m'.kernel.proc i) := by
  obtain ⟨hc, hs⟩ := atYield_steady hy hn
  obtain ⟨-, -, L₁, hq, -⟩ := atYield_queued hL.queued (fun _ => id) hy
  have hr : (k.proc p).state = .running := (hq.running p).mpr hc
  have hpost : m'.kernel.proc i = k.proc i := by
    rw [step_of_atYield hy he]
    dsimp only
    by_cases hdue : boostDue k
    · rw [yield_boost_proc hr hdue, if_neg hi, if_neg fun hrun => hx ((reset_iff hy).mpr ⟨hdue, .inr hrun⟩)]
    · rw [yield_eq, if_neg hdue, chargeTick_proc (by simp [hr]), if_neg hi]
  rw [hpost]
  exact hs.slots i

theorem yield_self (hL : Coherent m L) (hy : atYield m e = some (p, k)) (he : step idle e m = some m') :
    (m'.kernel.proc p).state = .runnable := by
  obtain ⟨hc, -, L₁, hq, -⟩ := atYield_queued hL.queued (fun _ => id) hy
  have hr : (k.proc p).state = .running := (hq.running p).mpr hc
  rw [step_of_atYield hy he]
  dsimp only
  by_cases hdue : boostDue k
  · exact (yield_boost_self hr hdue).1
  · rw [yield_eq, if_neg hdue]
    exact hq.chargeTick_runnable hc

theorem yield_reset (hL : Coherent m L) (hy : atYield m e = some (p, k)) (he : step idle e m = some m')
    (hx : Reset i ⟨m, e, m'⟩) : (m'.kernel.proc i).runtime = 0 := by
  obtain ⟨hc, -, L₁, hq, -⟩ := atYield_queued hL.queued (fun _ => id) hy
  have hr : (k.proc p).state = .running := (hq.running p).mpr hc
  obtain ⟨hdue, hreach⟩ := (reset_iff hy).mp hx
  rw [step_of_atYield hy he]
  dsimp only
  rw [yield_boost_proc hr hdue]
  by_cases hi : i = p
  · rw [if_pos hi]
    split_ifs
    · rfl
    · rfl
  · rw [if_neg hi, if_pos (hreach.resolve_left hi)]
    rfl

theorem steady_of_not_renewed (hL : Coherent m L) (hn : ∀ inc, e ≠ .nice inc) (he : step idle e m = some m')
    (hx : ¬ Renewed i ⟨m, e, m'⟩) (hch : ¬ Charged i ⟨m, e, m'⟩) :
    (m.kernel.proc i).Steady (m'.kernel.proc i) := by
  cases hy : atYield m e with
  | none =>
      have hchanged := (step_changed hL hy he).slot i
      have hu : (m.kernel.proc i).state ≠ .unused := fun hu => hx (.inr (.inl hu))
      have hu' : (m'.kernel.proc i).state ≠ .unused := fun hu' => hx (.inr (.inr hu'))
      generalize m'.kernel.proc i = p' at hchanged hu' ⊢
      cases hchanged with
      | steady h => exact h
      | freed => exact absurd rfl hu'
      | created h => exact absurd h hu
      | slain h => exact absurd h hu
      | stray h => exact absurd h hu
  | some pk => exact yield_steady hL hy hn he (fun hi => hch ((charged_iff hy).mpr hi.symm)) fun hre => hx (.inl hre)

theorem Metered.renewed (h : Metered m.kernel i n) (hL : Coherent m L) (hn : ∀ inc, e ≠ .nice inc)
    (he : step idle e m = some m') (hx : Renewed i ⟨m, e, m'⟩) : (m'.kernel.proc i).runtime = 0 := by
  have hzero : (m.kernel.proc i).state = .unused → (m.kernel.proc i).runtime = 0 := by
    intro hu
    rw [h.runtime, h.unused hu]
    rfl
  cases hy : atYield m e with
  | none =>
      have hunused := hx.resolve_left (by simp [Reset, hy])
      have hchanged := (step_changed hL hy he).slot i
      dsimp only at hunused
      generalize m'.kernel.proc i = p' at hunused hchanged
      cases hchanged with
      | steady hs => exact hs.runtime.trans (hzero (hunused.elim id hs.unused.mp))
      | freed => rfl
      | created hu => exact hzero hu
      | slain hu => exact hzero hu
      | stray hu => exact hzero hu
  | some pk =>
      obtain ⟨p, k⟩ := pk
      by_cases hre : Reset i ⟨m, e, m'⟩
      · exact yield_reset hL hy he hre
      · have hunused := hx.resolve_left hre
        have hi : i ≠ p := by
          rintro rfl
          rcases hunused with hu | hu
          · exact hL.queued.not_unused (atYield_steady hy hn).1 hu
          · exact absurd ((yield_self hL hy he).symm.trans hu) (by decide)
        have hs := yield_steady hL hy hn he hi hre
        exact hs.runtime.trans (hzero (hunused.elim id hs.unused.mp))

/-- A tick that completes the quantum sends the process to the back of the next level, and one that does not
leaves it the hart. -/
theorem Metered.ticked (h : Metered m.kernel i n) (hL : Coherent m L) (hn : ∀ inc, e ≠ .nice inc)
    (he : step idle e m = some m') (hx : ¬ Renewed i ⟨m, e, m'⟩) (hch : Charged i ⟨m, e, m'⟩) :
    (n + 1 : Int) = quantum (m.kernel.proc i) ∧ (m'.kernel.proc i).runtime = 0 ∧ Leaves i ⟨m, e, m'⟩ ∨
      (n + 1 : Int) < quantum (m.kernel.proc i) ∧ (m'.kernel.proc i).runtime = n + 1 ∧
        Stays i ⟨m, e, m'⟩ := by
  obtain ⟨⟨p, k⟩, hy, hpi⟩ := (Option.any_eq_true _ _).mp hch
  dsimp only at hy
  obtain rfl : p = i := of_decide_eq_true hpi
  have hdue : ¬ boostDue k := fun hdue => hx (.inl ((reset_iff hy).mpr ⟨hdue, .inl rfl⟩))
  obtain ⟨hc, hs⟩ := atYield_steady hy hn
  obtain ⟨-, -, L₁, hq, -⟩ := atYield_queued hL.queued (fun _ => id) hy
  obtain ⟨L', hL', -⟩ := hL.step he
  have hm : m' = { m with kernel := yield k p, cproc := none } := step_of_atYield hy he
  have hyield : yield k p = chargeTick k p := by rw [yield_eq, if_neg hdue]
  rw [hyield] at hm
  have hu := hq.not_unused hc
  have hlevel : (k.proc p).queue = (m.kernel.proc p).queue := (hs.slots p).queue
  have hrun : (k.proc p).runtime = n := (hs.slots p).runtime.trans h.runtime
  have hspent : (k.proc p).Spent ↔ (n + 1 : Int) ≥ quantum (m.kernel.proc p) := by
    rw [Proc.Spent, hrun, quantum, hlevel]
    rfl
  have hlt : (n : Int) < quantum (m.kernel.proc p) := h.lt
  have hproc : m'.kernel.proc p = if (k.proc p).Spent then (k.proc p).demoted else (k.proc p).charged := by
    rw [hm]
    exact (chargeTick_proc hu p).trans (if_pos rfl)
  by_cases hsp : (k.proc p).Spent
  · rw [if_pos hsp] at hproc
    have hfull := hspent.mp hsp
    have hlower : (m'.kernel.proc p).queue = lower (m.kernel.proc p).queue :=
      (congrArg Proc.queue hproc).trans (congrArg lower hlevel)
    have hrep := (hq.spent hc hsp).represents
    have htable : m'.kernel.qtable = (chargeTick k p).qtable := by rw [hm]
    rw [← htable] at hrep
    refine .inl ⟨by omega, congrArg Proc.runtime hproc, hlower, L', hL'.runQueue, ?_⟩
    rw [hL'.queued.represents.unique hrep]
    simp [hlevel]
  · rw [if_neg hsp] at hproc
    have hroom := mt hspent.mpr hsp
    have hrun' : (m'.kernel.proc p).runtime = n + 1 := by
      rw [hproc, ← hrun]
      rfl
    have hkept : m'.kernel.pKicked = false := by
      rw [hm]
      dsimp only
      rw [chargeTick_eq hu, if_neg hsp]
    refine .inr ⟨by omega, hrun', (congrArg Proc.queue hproc).trans hlevel, hkept, ?_⟩
    rw [hm]
    exact (hL.current p hc).1

theorem Metered.step (h : Metered m.kernel i n) (hL : Coherent m L) (hn : ∀ inc, e ≠ .nice inc)
    (he : step idle e m = some m') : Metered m'.kernel i (count i n ⟨m, e, m'⟩) := by
  by_cases hx : Renewed i ⟨m, e, m'⟩
  · rw [count, if_pos (.inl hx)]
    exact .zero (h.renewed hL hn he hx)
  · by_cases hch : Charged i ⟨m, e, m'⟩
    · rcases h.ticked hL hn he hx hch with ⟨hfull, hrun, hleave⟩ | ⟨hroom, hrun, hstay⟩
      · have hcount : count i n ⟨m, e, m'⟩ = 0 := by
          by_cases hlow : (m.kernel.proc i).queue = QUEUE_LOW
          · have hlevel : (m'.kernel.proc i).queue = (m.kernel.proc i).queue := by
              rw [hleave.queue, hlow]
              rfl
            rw [count, if_neg (fun hno => hno.elim hx (absurd hlevel)), if_pos hch, if_pos ⟨hlow, hfull⟩]
          · have hlevel : (m'.kernel.proc i).queue ≠ (m.kernel.proc i).queue := by
              rw [hleave.queue]
              exact mt eq_low_of_lower hlow
            rw [count, if_pos (.inr hlevel)]
        rw [hcount]
        exact .zero hrun
      · have hcount : count i n ⟨m, e, m'⟩ = n + 1 := by
          rw [count, if_neg (fun hno => hno.elim hx (absurd hstay.queue)), if_pos hch,
            if_neg (fun hlow => hroom.ne hlow.2)]
        rw [hcount]
        refine ⟨hrun, ?_, fun hu => absurd (.inr (.inr hu)) hx⟩
        rw [hstay.queue]
        exact hroom
    · have hs := steady_of_not_renewed hL hn he hx hch
      rw [count, if_neg (fun hno => hno.elim hx fun hq => hq hs.queue), if_neg hch]
      exact h.steady hs

theorem Metered.allotted (h : Metered m.kernel i (tally i tr)) (hL : Coherent m L) (hn : ∀ inc, e ≠ .nice inc)
    (he : Kernel.step idle e m = some m') (hx : ¬ Renewed i ⟨m, e, m'⟩) : Allotted i tr ⟨m, e, m'⟩ := by
  by_cases hch : Charged i ⟨m, e, m'⟩
  · rw [Allotted, if_pos hch]
    rcases h.ticked hL hn he hx hch with ⟨hfull, -, hleave⟩ | ⟨hroom, -, hstay⟩
    · exact .inl ⟨hfull, hleave⟩
    · exact .inr ⟨hroom, hstay⟩
  · rw [Allotted, if_neg hch]
    exact (steady_of_not_renewed hL hn he hx hch).queue

/-! ## Every run without `nice` -/

theorem boot_runtime (outside : QTable) (i : Slot) : ((boot outside).kernel.proc i).runtime = 0 := by
  rw [boot_proc, State.modify_proc]
  split_ifs
  · rfl
  · rfl

theorem tally_snoc (i : Slot) (tr : List (Transition Machine Event)) (x : Transition Machine Event) :
    tally i (tr ++ [x]) = count i (tally i tr) x := by
  simp [tally]

def NoNice (tr : List (Transition Machine Event)) : Prop := ∀ x ∈ tr, ∀ inc, x.event ≠ .nice inc

theorem Metered.run (h : Run (Kernel.step idle) (boot outside) tr m) (hn : NoNice tr) (i : Slot) :
    Metered m.kernel i (tally i tr) := by
  induction h with
  | nil => exact .zero (boot_runtime outside i)
  | @snoc tr m e m' h he ih =>
      obtain ⟨L, hL⟩ := Coherent.run h
      rw [tally_snoc]
      exact (ih fun x hx => hn x (List.mem_append_left _ hx)).step hL (hn ⟨m, e, m'⟩ (by simp)) he

/-! ## What is left of a level -/

/-- The ticks that the process can still be charged at level `q` before it is reset. -/
def remaining (q : Level) (p : Proc) : Int :=
  if q < p.queue then allotment q else if p.queue = q then allotment q - p.runtime else 0

theorem Metered.remaining_le (h : Metered k i n) (q : Level) : remaining q (k.proc i) ≤ allotment q := by
  have hpos := allotment_pos q
  have hrun := h.runtime
  unfold remaining
  split_ifs
  · exact le_rfl
  · omega
  · omega

theorem Metered.remaining_step (h : Metered m.kernel i n) (hL : Coherent m L) (hn : ∀ inc, e ≠ .nice inc)
    (he : Kernel.step idle e m = some m') (hx : ¬ Renewed i ⟨m, e, m'⟩) (hq : q ≠ QUEUE_LOW) :
    (if Charged i ⟨m, e, m'⟩ ∧ (m.kernel.proc i).queue = q then 1 else 0) + remaining q (m'.kernel.proc i) ≤
      remaining q (m.kernel.proc i) := by
  have hlow : (q : Nat) ≠ 0 := fun hz => hq (Fin.ext hz)
  have hpos := allotment_pos q
  have hsame : (m.kernel.proc i).queue = q → quantum (m.kernel.proc i) = allotment q := congrArg allotment
  have hrun := h.runtime
  by_cases hch : Charged i ⟨m, e, m'⟩
  · simp only [hch, true_and]
    rcases h.ticked hL hn he hx hch with ⟨hfull, hrun', hleave⟩ | ⟨hroom, hrun', hstay⟩
    · have hlevel : ((m'.kernel.proc i).queue : Nat) = (m.kernel.proc i).queue - 1 := by
        rw [hleave.queue]
        exact lower_val _
      simp only [Fin.ext_iff] at hsame
      simp only [remaining, Fin.lt_def, Fin.ext_iff, hlevel, hrun', hrun]
      split_ifs
      all_goals omega
    · have hlevel := hstay.queue
      dsimp only at hlevel
      simp only [Fin.ext_iff] at hsame
      simp only [remaining, hlevel, Fin.lt_def, Fin.ext_iff, hrun', hrun]
      split_ifs
      all_goals omega
  · have hs := steady_of_not_renewed hL hn he hx hch
    simp only [hch, false_and, if_false, zero_add, remaining, hs.queue, hs.runtime, le_refl]

theorem chargesAt_snoc (i : Slot) (q : Level) (tr : List (Transition Machine Event)) (x : Transition Machine Event) :
    chargesAt i q (tr ++ [x]) =
      chargesAt i q tr + if Charged i x ∧ (x.pre.kernel.proc i).queue = q then 1 else 0 := by
  simp [chargesAt, List.countP_append, List.countP_cons]

theorem stretch_remaining {tr' : List (Transition Machine Event)} (h : Run (Kernel.step idle) (boot outside) tr m)
    (h' : Run (Kernel.step idle) m tr' m') (hn : NoNice (tr ++ tr')) (hx : ∀ x ∈ tr', ¬ Renewed i x)
    (hq : q ≠ QUEUE_LOW) :
    chargesAt i q tr' + remaining q (m'.kernel.proc i) ≤ remaining q (m.kernel.proc i) := by
  induction h' with
  | nil => simp [chargesAt]
  | @snoc tr' t e u h' he ih =>
      rw [← List.append_assoc] at hn
      have hrun := h.append h'
      obtain ⟨L, hL⟩ := Coherent.run hrun
      have hmeter := Metered.run hrun (fun x hx => hn x (List.mem_append_left _ hx)) i
      have hstep := hmeter.remaining_step hL (hn ⟨t, e, u⟩ (by simp)) he (hx ⟨t, e, u⟩ (by simp)) hq
      have hrest := ih (fun x hx => hn x (List.mem_append_left _ hx)) fun x hx' => hx x (List.mem_append_left _ hx')
      rw [chargesAt_snoc]
      push_cast
      dsimp only at hstep
      omega

/-- Between two resets, the tick that brings the second one included, a process is charged at most the allotment
of each level above LOW. -/
theorem stretch_charges {tr' tr'' : List (Transition Machine Event)}
    (h : Run (Kernel.step idle) (boot outside) (tr ++ (tr' ++ x :: tr'')) m) (hn : NoNice (tr ++ (tr' ++ x :: tr'')))
    (hx : ∀ y ∈ tr', ¬ Renewed i y) (hq : q ≠ QUEUE_LOW) : chargesAt i q (tr' ++ [x]) ≤ allotment q := by
  obtain ⟨t, h₁, h₂⟩ := h.split
  obtain ⟨h₃, he, -⟩ := h₂.middle
  have hn₁ : NoNice tr := fun y hy => hn y (List.mem_append_left _ hy)
  have hn₂ : NoNice (tr ++ tr') := fun y hy => hn y (by
    rw [← List.append_assoc]
    exact List.mem_append_left _ hy)
  have hle := stretch_remaining h₁ h₃ hn₂ hx hq
  have hstart := (Metered.run h₁ hn₁ i).remaining_le q
  have hmeter := Metered.run (h₁.append h₃) hn₂ i
  rw [chargesAt_snoc]
  push_cast
  by_cases hch : Charged i x ∧ (x.pre.kernel.proc i).queue = q
  · have hleft : 0 < remaining q (x.pre.kernel.proc i) := by
      have hlt := hmeter.lt
      rw [hch.2] at hlt
      rw [remaining, hch.2, if_neg (lt_irrefl q), if_pos rfl, hmeter.runtime]
      omega
    rw [if_pos hch]
    omega
  · have hleft : 0 ≤ remaining q (x.pre.kernel.proc i) := by
      have hpos := allotment_pos q
      have hlt := hmeter.lt
      have hrun := hmeter.runtime
      unfold remaining
      split_ifs with hlevel hlevel
      · omega
      · rw [hlevel] at hlt
        omega
      · exact le_rfl
    rw [if_neg hch]
    omega

/-- In every run without `nice` each process leaves its level with the tick that brings its count there to the
quantum, and with no other step, unless a boost resets it; and between two resets it is charged at most 1 tick
at HIGH and 10 at MEDIUM. -/
theorem time_allotment (h : Run (step idle) (boot outside) tr m) (hn : NoNice tr) (i : Slot) :
    (∀ tr₁ x tr₂, tr = tr₁ ++ x :: tr₂ → ¬ Renewed i x → Allotted i tr₁ x) ∧
      ∀ tr₁ tr₂ x tr₃, tr = tr₁ ++ (tr₂ ++ x :: tr₃) → (∀ y ∈ tr₂, ¬ Renewed i y) →
        chargesAt i QUEUE_HIGH (tr₂ ++ [x]) ≤ 1 ∧ chargesAt i QUEUE_MEDIUM (tr₂ ++ [x]) ≤ 10 := by
  constructor
  · rintro tr₁ x tr₂ rfl hx
    obtain ⟨hpre, he, -⟩ := h.middle
    obtain ⟨L, hL⟩ := Coherent.run hpre
    have hmeter := Metered.run hpre (fun y hy => hn y (List.mem_append_left _ hy)) i
    exact hmeter.allotted hL (hn x (by simp)) he hx
  · rintro tr₁ tr₂ x tr₃ rfl hx
    have hhigh := stretch_charges (q := QUEUE_HIGH) h hn hx (by decide)
    have hmedium := stretch_charges (q := QUEUE_MEDIUM) h hn hx (by decide)
    have hone : allotment QUEUE_HIGH = 1 := rfl
    have hten : allotment QUEUE_MEDIUM = 10 := rfl
    exact ⟨by omega, by omega⟩

/-- The first process computes for 55 ticks. -/
theorem time_allotment_hog :
    ∃ tr m, Run (step .asWritten) (boot fun _ => 0) tr m ∧ tr.map Transition.event = hogEvents 0 ++ [] ∧
      ∀ tr₁ x tr₂, tr = tr₁ ++ x :: tr₂ → ¬ Renewed 0 x → Allotted 0 tr₁ x := by
  have hplay : (final (step .asWritten) (hog 0) []).any (fun _ => true) = true := rfl
  obtain ⟨tr, m, h, hev, -⟩ := replay_hog (by decide) hplay
  have hn : NoNice tr := by
    intro x hx inc he
    have hmem : Event.nice inc ∈ tr.map Transition.event := he ▸ List.mem_map_of_mem hx
    rw [hev, List.append_nil] at hmem
    rcases eq_of_mem_hogEvents hmem with h | h
    all_goals cases h
  exact ⟨tr, m, h, hev, (time_allotment h hn 0).1⟩

end Xv6Mlfq.Kernel
