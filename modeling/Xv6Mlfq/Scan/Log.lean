import Xv6Mlfq.Logs.Changes
import Xv6Mlfq.Scan.Lemmas.Steps

/-!
# The scheduling log of the scanning kernel

`scheduler` compares a dispatch with the entry it has stored last. From the one `startlog` that succeeds, the log is
the sequence of dispatches with each repetition of the dispatch just before it left out, as far as there is room.
-/

namespace Xv6Mlfq.Scan

open Queue Runs Logs
open Kernel (Chan LOG_SIZE INT_MAX)

variable {m m' : Machine} {e : Event} {k k' : State} {p i : Slot} {l : List LogEntry}
  {tr : List (Transition Machine Event)} {x : Transition Machine Event}

/-! ## The history of the dispatches -/

/-- The dispatch of a step. -/
def dispatched (x : Transition Machine Event) : Option LogEntry :=
  if x.event = .schedule then
    x.post.cproc.map fun i => { pid := (x.pre.kernel.proc i).pid, time := x.pre.kernel.time }
  else none

def dispatches (tr : List (Transition Machine Event)) : List LogEntry := tr.filterMap dispatched

def SamePid (a b : LogEntry) : Prop := a.pid = b.pid

instance : DecidableRel SamePid := fun a b => inferInstanceAs (Decidable (a.pid = b.pid))

theorem samePid_equivalence : Equivalence SamePid := ⟨fun _ => rfl, fun h => h.symm, fun h h' => h.trans h'⟩

def yields (tr : List (Transition Machine Event)) : Nat := tr.countP fun x => (atYield x.pre x.event).isSome

/-- The valid entries of `schedlog`. -/
def State.log (k : State) : List LogEntry := stored k.schedlog k.logCount

/-- The log after `tr'`, which has begun with a successful `startlog` at the end of `tr`. -/
structure Compressed (tr tr' : List (Transition Machine Event)) (m : Machine) : Prop where
  count : 0 ≤ m.kernel.logCount ∧ m.kernel.logCount ≤ LOG_SIZE
  getlog : sysGetlog m.kernel true = m.kernel.log.length
  entries : m.kernel.log = (changes SamePid (dispatches tr')).take LOG_SIZE.toNat
  neighbours : m.kernel.log.IsChain fun a b => a.pid ≠ b.pid
  times : yields (tr ++ tr') < 2 ^ 31 → m.kernel.log.Pairwise fun a b => a.time ≤ b.time
  startlog : sysStartlog m.kernel = (-1, m.kernel)
  full : m.kernel.logCount = LOG_SIZE → ∀ tr'' m'', Run step m tr'' m'' →
    m''.kernel.schedlog = m.kernel.schedlog ∧ m''.kernel.logCount = m.kernel.logCount

/-! ## The filter of `scheduler` -/

/-- `schedlog` holds the first `LOG_SIZE` entries. -/
def Logged (k : State) (l : List LogEntry) : Prop := Stores Eq LOG_SIZE.toNat k.schedlog k.logCount l

theorem Logged.count_le (h : Logged k l) : 0 ≤ k.logCount ∧ k.logCount ≤ LOG_SIZE := by
  have hcount := Stores.count h
  have hsize : LOG_SIZE = 100 := rfl
  have hcap : LOG_SIZE.toNat = 100 := rfl
  omega

theorem Logged.congr (h : Logged k l) (hs : k'.schedlog = k.schedlog) (hc : k'.logCount = k.logCount) :
    Logged k' l := by
  unfold Logged
  rw [hs, hc]
  exact h

/-- The last entry stored answers for the last dispatch recorded. -/
theorem Logged.logDispatch (h : Logged k l) (p : Slot) :
    Logged (logDispatch k p) (record SamePid l { pid := (k.proc p).pid, time := k.time }) := by
  unfold Scan.logDispatch
  split_ifs with htest
  · obtain ⟨hroom, hnew⟩ := htest
    refine Stores.recorded h rfl hroom fun c hc hpid => ?_
    obtain ⟨hne, hlast⟩ := Stores.last h hroom hc
    exact hnew ⟨hne, (congrArg LogEntry.pid hlast).trans hpid⟩
  · refine Stores.unrecorded h fun hroom => ?_
    have hrepeat := not_not.mp fun hnew => htest ⟨hroom, hnew⟩
    obtain ⟨c, hc, hlast⟩ := Stores.exists_last h hroom hrepeat.1
    exact ⟨c, hc, (congrArg LogEntry.pid hlast).symm.trans hrepeat.2⟩

theorem Logged.getlog (h : Logged k l) : sysGetlog k true = k.log.length := by
  have hcount := h.count_le
  have hsize : LOG_SIZE = 100 := rfl
  have hlength : k.log.length = k.logCount.toNat := by simp [State.log, stored]
  rw [sysGetlog, if_pos rfl, hlength, Int.emod_eq_of_lt hcount.1 (by omega)]

theorem Logged.startlog (h : Logged k l) : sysStartlog k = (-1, k) := by
  have hne : k.logCount ≠ INT_MAX := fun he => absurd (he ▸ h.count_le.2) (by decide)
  exact if_pos hne

theorem logDispatch_sameLog (k : State) (i : Slot) : SameLog (logDispatch k i) (dispatch k i).kernel := by
  simp only [dispatch, run, logDispatch, State.modify, Function.update_self]
  split_ifs
  · exact ⟨rfl, rfl, rfl⟩
  · exact ⟨rfl, rfl, rfl⟩

/-! ## One step -/

theorem dispatched_none (hne : x.event ≠ .schedule) : dispatched x = none := if_neg hne

theorem Logged.step (h : Logged m.kernel l) (he : step e m = some m') :
    Logged m'.kernel ((dispatched ⟨m, e, m'⟩).elim l (record SamePid l)) := by
  cases step_moved he with
  | quiet hy hne hs =>
      rw [dispatched_none hne]
      exact h.congr hs.schedlog hs.logCount
  | yields hy hne hs =>
      rw [dispatched_none hne]
      exact h.congr hs.schedlog hs.logCount
  | startlog =>
      rw [dispatched_none (by simp), h.startlog]
      exact h
  | schedule hc =>
      unfold scheduler
      split_ifs
      · have hs := logDispatch_sameLog m.kernel m.p
        exact (h.logDispatch m.p).congr hs.schedlog hs.logCount
      · have hnone : dispatched ⟨m, .schedule, { m with p := nextSlot m.p }⟩ = none := by simp [dispatched, hc]
        rw [hnone]
        exact h

theorem dispatches_snoc (tr : List (Transition Machine Event)) (x : Transition Machine Event) :
    recordAll SamePid (dispatches (tr ++ [x])) =
      (dispatched x).elim (recordAll SamePid (dispatches tr)) (record SamePid (recordAll SamePid (dispatches tr))) := by
  unfold dispatches
  cases hx : dispatched x with
  | none => simp [hx]
  | some a => simp [hx, recordAll_snoc]

theorem Logged.run (h : Run Scan.step m tr m') (hl : Logged m.kernel []) :
    Logged m'.kernel (recordAll SamePid (dispatches tr)) := by
  induction h with
  | nil => exact hl
  | snoc h he ih =>
      rw [dispatches_snoc]
      exact ih.step he

/-! ## A counter that is not below the size -/

theorem logDispatch_full (h : LOG_SIZE ≤ k.logCount) (p : Slot) : Scan.logDispatch k p = k :=
  if_neg fun htest => absurd htest.1 (not_lt.mpr h)

theorem step_full (h : LOG_SIZE ≤ m.kernel.logCount) (hfirst : e = .startlog → m.kernel.logCount ≠ INT_MAX)
    (he : step e m = some m') :
    m'.kernel.schedlog = m.kernel.schedlog ∧ m'.kernel.logCount = m.kernel.logCount := by
  cases step_moved he with
  | quiet hy hne hs => exact ⟨hs.schedlog, hs.logCount⟩
  | yields hy hne hs => exact ⟨hs.schedlog, hs.logCount⟩
  | startlog =>
      have hfail : sysStartlog m.kernel = (-1, m.kernel) := if_pos (hfirst rfl)
      rw [hfail]
      exact ⟨rfl, rfl⟩
  | schedule hc =>
      unfold scheduler
      split_ifs
      · have hs := logDispatch_sameLog m.kernel m.p
        rw [logDispatch_full h] at hs
        exact ⟨hs.schedlog, hs.logCount⟩
      · exact ⟨rfl, rfl⟩

theorem run_full (hr : Run step m tr m') (h : m.kernel.logCount = LOG_SIZE) :
    m'.kernel.schedlog = m.kernel.schedlog ∧ m'.kernel.logCount = m.kernel.logCount := by
  induction hr with
  | nil => exact ⟨rfl, rfl⟩
  | snoc hr he ih =>
      have hfull := ih.2.trans h
      have hne : LOG_SIZE ≠ INT_MAX := by decide
      obtain ⟨hs, hc⟩ := step_full hfull.ge (fun _ => hfull ▸ hne) he
      exact ⟨hs.trans ih.1, hc.trans ih.2⟩

/-! ## The clock -/

theorem logDispatch_time (k : State) (p : Slot) : (logDispatch k p).time = k.time := by
  unfold logDispatch
  split_ifs
  · rfl
  · rfl

theorem sysStartlog_time (k : State) : (sysStartlog k).2.time = k.time := by
  unfold sysStartlog
  split_ifs
  · rfl
  · rfl

theorem scheduler_time (m : Machine) : (scheduler m).kernel.time = m.kernel.time := by
  unfold scheduler
  split_ifs
  · exact (logDispatch_sameLog m.kernel m.p).time.trans (logDispatch_time m.kernel m.p)
  · rfl

theorem step_time (he : step e m = some m') :
    m'.kernel.time = if (atYield m e).isSome then int32 (m.kernel.time + 1) else m.kernel.time := by
  cases step_moved he with
  | quiet hy hne hs =>
      rw [hy]
      exact hs.time
  | yields hy hne hs =>
      rw [hy]
      exact congrArg (fun t => int32 (t + 1)) hs.time
  | startlog => exact sysStartlog_time m.kernel
  | schedule hc => exact scheduler_time m

theorem yields_snoc (tr : List (Transition Machine Event)) (x : Transition Machine Event) :
    yields (tr ++ [x]) = yields tr + if (atYield x.pre x.event).isSome then 1 else 0 := by
  simp [yields, List.countP_cons]

theorem run_time (h : Run step boot tr m) : m.kernel.time = int32 (yields tr) := by
  induction h with
  | nil => rfl
  | snoc h he ih =>
      rw [step_time he, yields_snoc]
      split_ifs
      · rw [ih, int32_succ]
        rfl
      · exact ih

/-- Until it wraps around, the clock counts the yields. -/
theorem run_times (h : Run step boot tr m) (hn : yields tr < 2 ^ 31) :
    tr.Pairwise fun x y => x.pre.kernel.time ≤ y.pre.kernel.time := by
  have hstep : ∀ x ∈ tr, x.pre.kernel.time ≤ x.post.kernel.time := by
    intro x hx
    obtain ⟨tr₁, tr₂, rfl⟩ := List.append_of_mem hx
    obtain ⟨hpre, he, -⟩ := h.middle
    have hle : yields (tr₁ ++ [x]) ≤ yields (tr₁ ++ x :: tr₂) := by
      refine List.Sublist.countP_le ?_
      exact List.Sublist.append_left (by simp) tr₁
    have hsnoc := yields_snoc tr₁ x
    have hpost : x.post.kernel.time = int32 (yields (tr₁ ++ [x])) := run_time (hpre.snoc he)
    rw [run_time hpre, hpost, int32_eq_self (by omega) (by omega), int32_eq_self (by omega) (by omega)]
    omega
  have hpair := (h.pairwise_le (f := fun m => m.kernel.time) hstep).1
  exact hpair.imp_of_mem fun hx _ hle => (hstep _ hx).trans hle

theorem dispatched_time {a : LogEntry} (h : dispatched x = some a) : a.time = x.pre.kernel.time := by
  unfold dispatched at h
  split_ifs at h
  obtain ⟨i, -, rfl⟩ := Option.map_eq_some_iff.mp h
  rfl

theorem dispatches_times (h : Run step boot tr m) (hn : yields tr < 2 ^ 31) :
    (dispatches tr).Pairwise fun a b => a.time ≤ b.time := by
  refine List.pairwise_filterMap.mpr ((run_times h hn).imp fun hle a ha b hb => ?_)
  rw [dispatched_time ha, dispatched_time hb]
  exact hle

/-! ## The one session -/

theorem step_startlog (he : step .startlog m = some m') : m'.kernel = (sysStartlog m.kernel).2 := by
  cases hc : m.cproc with
  | none => simp [step, atYield, hc] at he
  | some p =>
      simp only [step, atYield, hc, Option.some.injEq] at he
      rw [← he]

theorem startlog_logged (hok : (sysStartlog k).1 = 0) : Logged (sysStartlog k).2 [] := by
  unfold sysStartlog at hok ⊢
  split_ifs at hok ⊢
  · cases hok
  · exact Stores.nil

/-- From the `startlog` that succeeds, the log is the changes of the dispatches. -/
theorem log_compressed {m₀ : Machine} {tr' : List (Transition Machine Event)} (h : Run step boot tr m₀)
    (hs : step .startlog m₀ = some m) (hok : (sysStartlog m₀.kernel).1 = 0) (h' : Run step m tr' m') :
    Compressed tr tr' m' := by
  have hinit : Logged m.kernel [] := by
    rw [step_startlog hs]
    exact startlog_logged hok
  have hlog := hinit.run h'
  have hentries : m'.kernel.log = (recordAll SamePid (dispatches tr')).take LOG_SIZE.toNat := Stores.stored_eq hlog
  refine ⟨hlog.count_le, hlog.getlog, ?_, ?_, fun hn => ?_, hlog.startlog, fun hfull tr'' m'' h'' => run_full h'' hfull⟩
  · rw [hentries, recordAll_eq_changes samePid_equivalence]
  · rw [hentries]
    exact (recordAll_isChain _).take _
  · have hrun := (h.snoc hs).append h'
    have hyields : yields ((tr ++ [⟨m₀, .startlog, m⟩]) ++ tr') = yields (tr ++ tr') := by
      simp [yields, atYield]
    have hpair := dispatches_times hrun (hyields ▸ hn)
    have hsub : (dispatches tr').Sublist (dispatches ((tr ++ [⟨m₀, .startlog, m⟩]) ++ tr')) :=
      (List.sublist_append_right _ _).filterMap _
    rw [hentries]
    exact ((hpair.sublist hsub).sublist (recordAll_sublist _)).sublist (List.take_sublist _ _)

/-- The second dispatch of the child comes after one of its own and is left out. -/
theorem log_compressed_child : ∃ tr tr' m', m'.kernel.log = [⟨2, 1⟩, ⟨1, 2⟩, ⟨2, 2⟩] ∧ Compressed tr tr' m' := by
  have hplay : (final step boot [.schedule]).any (fun m₀ => (sysStartlog m₀.kernel).1 = 0 ∧
      (step .startlog m₀).any fun m : Machine =>
        (final step m (List.flatten [[.fork true true true, .usertrap, .schedule, .usertrap],
          List.replicate 63 .schedule, [.sleep (.other 0), .schedule, .usertrap], List.replicate 64 .schedule])).any
            fun m' : Machine => m'.kernel.log = [⟨2, 1⟩, ⟨1, 2⟩, ⟨2, 2⟩] ∧ m'.cproc = some 1) = true := by
    decide +kernel
  obtain ⟨tr, m₀, h, -, hm⟩ := Run.replay hplay
  obtain ⟨hok, hm⟩ := of_decide_eq_true hm
  obtain ⟨m, hs, hm⟩ := (Option.any_eq_true _ _).mp hm
  obtain ⟨tr', m', h', -, hm'⟩ := Run.replay hm
  exact ⟨tr, tr', m', (of_decide_eq_true hm').1, log_compressed h hs hok h'⟩

end Xv6Mlfq.Scan
