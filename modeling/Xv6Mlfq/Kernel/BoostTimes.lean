import Mathlib.Data.Nat.Factorization.Basic
import Xv6Mlfq.Kernel.Lemmas.Clock
import Xv6Mlfq.Kernel.Lemmas.Invariant
import Xv6Mlfq.Kernel.Lemmas.Traps

/-!
# When the priority boost happens

The boost hangs on the test of `time` in `yield`, not on the clock: a tick that does not get to `yield` skips
it, and `sys_nice` gets there without a tick.
-/

namespace Xv6Mlfq.Kernel

open Access Queue Runs

variable {idle : Idle} {m m' : Machine} {e : Event} {L : Fifos} {outside : QTable}
  {tr : List (Transition Machine Event)}

/-- The step performs a boost. -/
def Boosts (m : Machine) (e : Event) : Prop := ((atYield m e).any fun (_, k) => boostDue k) = true

instance (m : Machine) (e : Event) : Decidable (Boosts m e) := inferInstanceAs (Decidable (_ = _))

def boosts (tr : List (Transition Machine Event)) : Nat := tr.countP fun x => Boosts x.pre x.event

/-- The number of multiples of 60 in `1..time`. -/
def sixties (time : Int) : Nat := ((Finset.Ioc 0 time.toNat).filter (60 ∣ ·)).card

/-- As many boosts have been performed as boost periods have ended. -/
def OnTime (tr : List (Transition Machine Event)) (m : Machine) : Prop := boosts tr = sixties m.kernel.time

/-- A tick in the kernel that ends a boost period finds a process on the hart, and no `nice` is called in the
first tick of a period. -/
def Punctual (m : Machine) (e : Event) : Prop :=
  (e = .kerneltrap → 60 ∣ m.kernel.time + 1 → m.cproc ≠ none) ∧ ∀ inc, e = .nice inc → ¬ 60 ∣ m.kernel.time

/-! ## One step -/

theorem sixties_succ {t : Int} (ht : 0 ≤ t) : sixties (t + 1) = sixties t + if 60 ∣ t + 1 then 1 else 0 := by
  obtain ⟨n, rfl⟩ := Int.eq_ofNat_of_zero_le ht
  have hdvd : (60 : Int) ∣ (n : Int) + 1 ↔ 60 ∣ n + 1 := by exact_mod_cast Int.natCast_dvd_natCast (m := 60)
  have hsucc : ((n : Int) + 1).toNat = n + 1 := by omega
  simp only [sixties, Nat.Ioc_filter_dvd_card_eq_div, hsucc, Int.toNat_natCast, hdvd]
  exact Nat.succ_div ..

theorem boostDue_iff {k : State} (ht : 0 ≤ k.time) : boostDue k ↔ 60 ∣ k.time := by
  rw [boostDue, Int.tmod_eq_emod_of_nonneg ht]
  exact (Int.dvd_iff_emod_eq_zero ..).symm

theorem boostDue_advanced (ht : 0 ≤ m.kernel.time) (ht' : m.kernel.time + 1 < 2 ^ 31) :
    boostDue (advanceTime (clockintr m.kernel m.cproc)) ↔ 60 ∣ m.kernel.time + 1 := by
  have h := congrArg Prod.fst (advanceTime_clocks m.kernel m.cproc)
  have htime : (advanceTime (clockintr m.kernel m.cproc)).time = m.kernel.time + 1 := by
    exact h.trans (int32_eq_self (by omega) ht')
  rw [boostDue_iff (by omega), htime]

theorem boosts_iff (hL : Coherent m L) (ht : 0 ≤ m.kernel.time)
    (ht' : e.trap = true → m.kernel.time + 1 < 2 ^ 31) (he : step idle e m = some m') : Boosts m e ↔
      (∃ inc, e = .nice inc) ∧ 60 ∣ m.kernel.time ∨
        e = .usertrap ∧ ¬ Dying m e ∧ 60 ∣ m.kernel.time + 1 ∨
          e = .kerneltrap ∧ m.cproc ≠ none ∧ 60 ∣ m.kernel.time + 1 := by
  cases e with
  | nice inc =>
      cases hc : m.cproc with
      | none => simp [step, atYield, hc] at he
      | some p =>
          have hsame : boostDue (sysNice m.kernel p inc) ↔ 60 ∣ m.kernel.time := boostDue_iff ht
          simp [Boosts, atYield, hc, hsame]
  | usertrap =>
      cases hc : m.cproc with
      | none => simp [step, atYield, hc] at he
      | some p =>
          have hdue := boostDue_advanced ht (ht' rfl)
          rw [hc] at hdue
          by_cases hk : (m.kernel.proc p).killed = true
          · simp [Boosts, atYield, hc, clockintr_killed, hk, Dying]
          · simp [Boosts, atYield, hc, clockintr_killed, hk, Dying, hdue]
  | kerneltrap =>
      cases hc : m.cproc with
      | none => simp [Boosts, atYield, hc]
      | some p =>
          have hdue := boostDue_advanced ht (ht' rfl)
          rw [hc] at hdue
          obtain ⟨L', hq, -⟩ := hL.queued.clockintr (some p)
          have hr : ((advanceTime (clockintr m.kernel (some p))).proc p).state = .running :=
            (hq.running p).mpr hc
          simp [Boosts, atYield, hc, hr, hdue]
  | _ => simp [Boosts, atYield]

theorem step_onTime (hL : Coherent m L) (ht : 0 ≤ m.kernel.time)
    (ht' : e.trap = true → m.kernel.time + 1 < 2 ^ 31) (he : step idle e m = some m') :
    (sixties m.kernel.time + if Boosts m e then 1 else 0) = sixties m'.kernel.time ↔ Punctual m e := by
  have hsucc := sixties_succ ht
  have hb := boosts_iff hL ht ht' he
  rw [step_time ht ht' he]
  cases e with
  | nice inc =>
      by_cases h : (60 : Int) ∣ m.kernel.time
      · simp [Event.trap, Punctual, hb, h]
      · simp [Event.trap, Punctual, hb, h]
  | usertrap =>
      by_cases hd : Dying m .usertrap
      · simp [Event.trap, Punctual, hb, hd]
      · by_cases h : (60 : Int) ∣ m.kernel.time + 1
        · simp [Event.trap, Punctual, hb, hd, h, hsucc]
        · simp [Event.trap, Punctual, hb, hd, h, hsucc]
  | kerneltrap =>
      have hd : ¬ Dying m .kerneltrap := fun hd => by cases hd.1
      by_cases h : (60 : Int) ∣ m.kernel.time + 1
      · by_cases hc : m.cproc = none
        · simp [Event.trap, Punctual, hb, hd, h, hc, hsucc]
        · simp [Event.trap, Punctual, hb, hd, h, hc, hsucc]
      · simp [Event.trap, Punctual, hb, hd, h, hsucc]
  | _ => simp [Event.trap, Punctual, hb]

/-! ## Every run -/

theorem boosts_snoc (tr : List (Transition Machine Event)) (x : Transition Machine Event) :
    boosts (tr ++ [x]) = boosts tr + if Boosts x.pre x.event then 1 else 0 := by
  simp [boosts, List.countP_append, List.countP_cons]

theorem onTime_snoc {x : Transition Machine Event} (h : Run (step idle) (boot outside) (tr ++ [x]) m)
    (hn : traps (tr ++ [x]) < 2 ^ 31) (hx : OnTime tr x.pre) :
    OnTime (tr ++ [x]) x.post ↔ Punctual x.pre x.event := by
  obtain ⟨hpre, he, -⟩ := h.middle
  obtain ⟨L, hL⟩ := Coherent.run hpre
  obtain ⟨ht, ht'⟩ := run_time h hn
  rw [OnTime, boosts_snoc, hx]
  exact step_onTime hL ht ht' he

/-- Without `nice` there is no boost before the 60th interrupt. -/
theorem not_boosts_early (h : Run (step idle) (boot outside) tr m) (hn : traps tr < 60)
    (hnice : ∀ x ∈ tr, ∀ inc, x.event ≠ .nice inc) : ∀ x ∈ tr, ¬ Boosts x.pre x.event := by
  intro x hx hb
  obtain ⟨tr₁, tr₂, rfl⟩ := List.append_of_mem hx
  obtain ⟨hpre, he, -⟩ := h.middle
  have hinit : tr₁ ++ [x] <+: tr₁ ++ x :: tr₂ := ⟨tr₂, by simp⟩
  have hle := (traps_mono hinit).trans_lt hn
  have hlt : traps (tr₁ ++ [x]) < 2 ^ 31 := by omega
  obtain ⟨ht, ht'⟩ := run_time (hpre.snoc he) hlt
  obtain ⟨L, hL⟩ := Coherent.run hpre
  -- the clock has not passed the interrupts
  have htime : x.post.kernel.time = traps (tr₁ ++ [x]) - dyings (tr₁ ++ [x]) := (run_clocks (hpre.snoc he) hlt).2
  have hafter : x.post.kernel.time = x.pre.kernel.time + _ := step_time ht ht' he
  have hdue : (x.event.trap = true ∧ ¬ Dying x.pre x.event) ∧ (60 : Int) ∣ x.pre.kernel.time + 1 := by
    rcases (boosts_iff hL ht ht' he).mp hb with ⟨⟨inc, hev⟩, -⟩ | ⟨hev, hd, hdvd⟩ | ⟨hev, -, hdvd⟩
    · exact absurd hev (hnice x hx inc)
    · exact ⟨⟨by rw [hev]; rfl, hd⟩, hdvd⟩
    · exact ⟨⟨by rw [hev]; rfl, fun hd => by rw [hev] at hd; cases hd.1⟩, hdvd⟩
  rw [if_pos hdue.1] at hafter
  have hdvd := hdue.2
  dsimp only at hafter hdvd ht
  omega

/-- After every step of a run the boosts are in step with the clock, exactly if every step of it is
punctual. -/
theorem boosts_on_time_iff (h : Run (step idle) (boot outside) tr m) (hn : traps tr < 2 ^ 31) :
    (∀ tr' m', tr' <+: tr → Run (step idle) (boot outside) tr' m' → OnTime tr' m') ↔
      ∀ x ∈ tr, Punctual x.pre x.event := by
  constructor
  · intro hall x hx
    obtain ⟨tr₁, tr₂, rfl⟩ := List.append_of_mem hx
    obtain ⟨hpre, he, -⟩ := h.middle
    have hinit : tr₁ ++ [x] <+: tr₁ ++ x :: tr₂ := ⟨tr₂, by simp⟩
    have hrun : Run (step idle) (boot outside) (tr₁ ++ [x]) x.post := hpre.snoc he
    have hle := (traps_mono hinit).trans_lt hn
    exact (onTime_snoc hrun hle (hall _ _ (List.prefix_append ..) hpre)).mp (hall _ _ hinit hrun)
  · intro hall tr' m' hinit h'
    have hn' := (traps_mono hinit).trans_lt hn
    have hall' : ∀ x ∈ tr', Punctual x.pre x.event := fun x hx => hall x (hinit.subset hx)
    clear hinit
    induction h' with
    | nil =>
        have hzero : (boot outside).kernel.time = 0 := congrArg Prod.fst (boot_clocks outside)
        simp [OnTime, boosts, sixties, hzero]
    | @snoc tr' t e u h' he ih =>
        have hle := traps_mono (List.prefix_append tr' [⟨t, e, u⟩])
        have hx := ih (by omega) fun x hx => hall' x (List.mem_append_left _ hx)
        exact (onTime_snoc (h'.snoc he) hn' hx).mpr (hall' ⟨t, e, u⟩ (by simp))

/-- The first process calls `nice` before the first tick. -/
theorem boosts_not_on_time :
    ¬ ∀ idle outside tr m, Run (step idle) (boot outside) tr m → traps tr < 2 ^ 31 →
      ∀ tr' m', tr' <+: tr → Run (step idle) (boot outside) tr' m' → OnTime tr' m' := by
  intro hall
  have hplay : (final (step .asWritten) (boot fun _ => 0) [.schedule]).any (fun m =>
      Boosts m (.nice 0) ∧ (step .asWritten (.nice 0) m).any fun m' : Machine => m'.kernel.time = 0) = true := by
    decide +kernel
  obtain ⟨tr, m, h, hev, hm⟩ := Run.replay hplay
  obtain ⟨hb, hm⟩ := of_decide_eq_true hm
  obtain ⟨m', he, htime⟩ := (Option.any_eq_true _ _).mp hm
  have hinit : tr <+: tr ++ [⟨m, .nice 0, m'⟩] := List.prefix_append ..
  have hcount : ([Event.schedule] ++ [Event.nice 0]).countP Event.trap < 2 ^ 31 := by decide
  have hn : traps (tr ++ [⟨m, .nice 0, m'⟩]) < 2 ^ 31 := by
    rw [traps_eq, List.map_append, List.map_singleton, hev]
    exact hcount
  have hafter : OnTime (tr ++ [⟨m, .nice 0, m'⟩]) m' := hall _ _ _ _ (h.snoc he) hn _ _ List.prefix_rfl (h.snoc he)
  rw [OnTime, boosts_snoc, if_pos hb, of_decide_eq_true htime] at hafter
  have hzero : sixties 0 = 0 := rfl
  omega

/-- A process that computes and does not call `nice` is boosted at time 60. -/
theorem boosts_on_time_iff_computing :
    ∃ tr m, m.kernel.time = 61 ∧ Run (step .asWritten) (boot fun _ => 0) tr m ∧
      ((∀ tr' m', tr' <+: tr → Run (step .asWritten) (boot fun _ => 0) tr' m' → OnTime tr' m') ↔
        ∀ x ∈ tr, Punctual x.pre x.event) := by
  have hplay : (final (step .asWritten) (hog 4) [.usertrap, .schedule, .usertrap]).any
      (fun m => m.kernel.time = 61) = true := by
    decide +kernel
  obtain ⟨tr, m, h, hev, hm⟩ := replay_hog (by decide) hplay
  have hn : traps tr < 2 ^ 31 := by
    rw [traps_eq, hev]
    decide
  exact ⟨tr, m, of_decide_eq_true hm, h, boosts_on_time_iff h hn⟩

end Xv6Mlfq.Kernel
