import Xv6Mlfq.Kernel.Lemmas.Invariant
import Xv6Mlfq.Kernel.Lemmas.Traps
import Xv6Mlfq.Logs.Bounded

/-!
# The scheduling log

A boost entry is written without the fields `pid` and `queue`, which keep what an earlier session has left there.
The filter of `scheduler` reads them back.
-/

namespace Xv6Mlfq.Kernel

open Access Queue Runs Logs

/-! ## What the log is for -/

/-- The events that the log is to record. -/
inductive Recorded where
  | boost (time : Int)
  | dispatch (pid : Int) (queue : Level) (time : Int)
  deriving DecidableEq, Repr

def Recorded.time : Recorded → Int
  | .boost time => time
  | .dispatch _ _ time => time

/-- Two dispatches of the same process at the same level. -/
def Recorded.Same : Recorded → Recorded → Prop
  | .dispatch pid queue _, .dispatch pid' queue' _ => pid = pid' ∧ queue = queue'
  | _, _ => False

instance : DecidableRel Recorded.Same := fun a b => by
  cases a with
  | boost time => exact isFalse id
  | dispatch pid queue time =>
      cases b with
      | boost time' => exact isFalse id
      | dispatch pid' queue' time' => exact inferInstanceAs (Decidable (_ ∧ _))

/-- The entry records the event. -/
def LogEntry.Records (e : LogEntry) : Recorded → Prop
  | .boost time => e.priorityBoost = 1 ∧ e.time = time
  | .dispatch pid queue time => e.priorityBoost = 0 ∧ e.pid = pid ∧ e.queue = (queue : Nat) ∧ e.time = time

/-- The event of a step, if it boosts or dispatches. -/
def recorded (x : Transition Machine Event) : Option Recorded :=
  match atYield x.pre x.event with
  | some (_, k) => if boostDue k then some (.boost k.time) else none
  | none =>
      if x.event = .schedule then
        x.post.cproc.map fun i => .dispatch (x.pre.kernel.proc i).pid (x.pre.kernel.proc i).queue x.pre.kernel.time
      else none

/-- The log of a session, without a bound. -/
def ideal (tr : List (Transition Machine Event)) : List Recorded := recordAll Recorded.Same (tr.filterMap recorded)

/-- `schedlog` holds the first `LOG_SIZE` entries. -/
def Logged (k : State) (l : List Recorded) : Prop :=
  Stores LogEntry.Records LOG_SIZE.toNat k.schedlog k.logCount l

/-- The times of the entries never decrease. -/
def Ascending (k : State) : Prop :=
  ∀ n n' : Nat, n ≤ n' → (n' : Int) < k.logCount → (k.schedlog n).time ≤ (k.schedlog n').time

/-- The dispatch of `p` finds a boost entry at the end of the log whose leftover `pid` and `queue` are those
of `p`. -/
def Stale (k : State) (p : Slot) : Prop :=
  k.logCount < LOG_SIZE ∧ k.logCount ≠ 0 ∧ (k.schedlog (k.logCount - 1)).priorityBoost = 1 ∧
    (k.schedlog (k.logCount - 1)).pid = (k.proc p).pid ∧
    (k.schedlog (k.logCount - 1)).queue = ((k.proc p).queue : Nat)

instance (k : State) (p : Slot) : Decidable (Stale k p) := inferInstanceAs (Decidable (_ ∧ _))

/-- The step dispatches a process that the log takes for the one before. -/
def Dropped (x : Transition Machine Event) : Prop :=
  x.event = .schedule ∧ ∃ i, x.post.cproc = some i ∧ Stale x.pre.kernel i

variable {idle : Idle} {m m' : Machine} {e : Event} {k k' : State} {p i : Slot} {l : List Recorded}
  {outside : QTable} {tr : List (Transition Machine Event)} {x : Transition Machine Event}

/-! ## The two writers -/

theorem Logged.congr (h : Logged k l) (hs : k'.schedlog = k.schedlog) (hc : k'.logCount = k.logCount) :
    Logged k' l := by
  unfold Logged
  rw [hs, hc]
  exact h

theorem Logged.logBoost (h : Logged k l) : Logged (logBoost k) (l ++ [.boost k.time]) := by
  unfold Kernel.logBoost
  split_ifs with hroom
  · exact Stores.push h hroom ⟨rfl, rfl⟩
  · exact Stores.skip h hroom _

theorem logDispatch_skip (h : ¬ (k.logCount < LOG_SIZE ∧ ¬ (k.logCount ≠ 0 ∧
    (k.schedlog (k.logCount - 1)).pid = (k.proc p).pid ∧
    (k.schedlog (k.logCount - 1)).queue = ((k.proc p).queue : Nat)))) : Kernel.logDispatch k p = k := if_neg h

/-- The filter of `scheduler` finds the dispatch just before, unless the entry there is stale. -/
theorem Logged.logDispatch (h : Logged k l) (hs : ¬ Stale k p) : Logged (Kernel.logDispatch k p)
    (record Recorded.Same l (.dispatch (k.proc p).pid (k.proc p).queue k.time)) := by
  unfold Kernel.logDispatch
  split_ifs with htest
  · obtain ⟨hroom, hnew⟩ := htest
    refine Stores.recorded h ⟨rfl, rfl, rfl, rfl⟩ hroom fun a ha hsame => ?_
    obtain ⟨hne, hlast⟩ := Stores.last h hroom ha
    cases a with
    | boost time => exact hsame
    | dispatch pid queue time =>
        obtain ⟨-, hpid, hqueue, -⟩ := hlast
        exact hnew ⟨hne, hpid.trans hsame.1, by rw [hqueue, hsame.2]⟩
  · refine Stores.unrecorded h fun hroom => ?_
    obtain ⟨hne, hmatch⟩ := not_not.mp fun hnew => htest ⟨hroom, hnew⟩
    obtain ⟨a, ha, hlast⟩ := Stores.exists_last h hroom hne
    refine ⟨a, ha, ?_⟩
    cases a with
    | boost time => exact hs ⟨hroom, hne, hlast.1, hmatch⟩
    | dispatch pid queue time =>
        obtain ⟨-, hpid, hqueue, -⟩ := hlast
        have hval := hqueue.symm.trans hmatch.2
        exact ⟨hpid.symm.trans hmatch.1, Fin.ext (by exact_mod_cast hval)⟩

/-- A stale entry hides the dispatch. -/
theorem Logged.not_logDispatch (h : Logged k l) (hs : Stale k p) : ¬ Logged (Kernel.logDispatch k p)
    (record Recorded.Same l (.dispatch (k.proc p).pid (k.proc p).queue k.time)) := by
  obtain ⟨hroom, hne, hboost, hmatch⟩ := hs
  have hnew : record Recorded.Same l (.dispatch (k.proc p).pid (k.proc p).queue k.time) =
      l ++ [.dispatch (k.proc p).pid (k.proc p).queue k.time] := by
    refine record_of_not_same fun b hb => ?_
    obtain ⟨-, hlast⟩ := Stores.last h hroom hb
    cases b with
    | boost time => exact id
    | dispatch pid queue time =>
        rw [hlast.1] at hboost
        exact absurd hboost (by decide)
  rw [hnew, logDispatch_skip fun hno => hno.2 ⟨hne, hmatch⟩]
  intro h'
  have hlen := Stores.length_eq h h'
  have hcount := Stores.count h
  simp only [List.length_append, List.length_singleton] at hlen
  have hcap : LOG_SIZE.toNat = 100 := rfl
  rw [hcap] at hlen hcount
  omega

/-! ## One step -/

def SameLog (k k' : State) : Prop := k'.schedlog = k.schedlog ∧ k'.logCount = k.logCount

theorem SameGlobals.sameLog (h : SameGlobals k k') : SameLog k k' := ⟨h.schedlog, h.logCount⟩

theorem chargeTick_sameLog (k : State) (p : Slot) : SameLog k (chargeTick k p) := by
  unfold chargeTick
  simp only
  split_ifs
  · exact ⟨rfl, rfl⟩
  · exact ⟨rfl, rfl⟩

theorem step_sameLog (hy : atYield m e = none) (hsched : e ≠ .schedule) (hstart : e ≠ .startlog)
    (he : step idle e m = some m') : SameLog m.kernel m'.kernel := by
  cases step_served hy hsched he with
  | fork hc trapframe pagetable copy => exact (SameGlobals.fork ..).sameLog
  | exit hc hk => exact (SameGlobals.exit hk).sameLog
  | waited hc hw => exact (SameGlobals.wait hw).sameLog
  | waiting hc hw => exact (SameGlobals.wait hw).sameLog
  | sleep hc chan => exact ⟨rfl, rfl⟩
  | wakeup chan => exact (SameGlobals.wakeup ..).sameLog
  | kill hc pid => exact (SameGlobals.kill ..).sameLog
  | startlog hc => exact absurd rfl hstart
  | @died p k' hc hkill hk => exact ((SameGlobals.clockintr m.kernel (some p)).trans (SameGlobals.exit hk)).sameLog
  | tick => exact (SameGlobals.clockintr ..).sameLog

theorem atYield_sameLog (hy : atYield m e = some (p, k)) : SameLog m.kernel k := by
  cases atYield_yielding hy with
  | nice hc inc => exact ⟨rfl, rfl⟩
  | usertrap hc hkill => exact (SameGlobals.clockintr ..).sameLog
  | kerneltrap hc => exact (SameGlobals.clockintr ..).sameLog

theorem logDispatch_congr (h : SameLog k k') (htime : k'.time = k.time) (hpid : (k'.proc p).pid = (k.proc p).pid)
    (hqueue : (k'.proc p).queue = (k.proc p).queue) :
    SameLog (Kernel.logDispatch k p) (Kernel.logDispatch k' p) := by
  obtain ⟨hs, hc⟩ := h
  unfold Kernel.logDispatch
  rw [hs, hc, htime, hpid, hqueue]
  split_ifs
  · exact ⟨rfl, rfl⟩
  · exact ⟨hs, hc⟩

theorem dispatch_sameLog (k : State) (i : Slot) : SameLog (Kernel.logDispatch k i) (dispatch k i).kernel := by
  have h : SameLog (Kernel.logDispatch k i)
      (Kernel.logDispatch (k.modify i fun p => { p with state := .running }) i) :=
    logDispatch_congr ⟨rfl, rfl⟩ rfl (by rw [State.modify_proc_self]) (by rw [State.modify_proc_self])
  exact h

theorem logBoost_congr (h : SameLog k k') (htime : k'.time = k.time) :
    SameLog (Kernel.logBoost k) (Kernel.logBoost k') := by
  obtain ⟨hs, hc⟩ := h
  unfold Kernel.logBoost
  rw [hs, hc, htime]
  split_ifs
  · exact ⟨rfl, rfl⟩
  · exact ⟨hs, hc⟩

/-- The log of the session after one more step. -/
def advance (l : List Recorded) (x : Transition Machine Event) : List Recorded :=
  match recorded x with
  | none => l
  | some r => record Recorded.Same l r

theorem advance_none (h : recorded x = none) : advance l x = l := by
  rw [advance, h]

theorem advance_some {r : Recorded} (h : recorded x = some r) : advance l x = record Recorded.Same l r := by
  rw [advance, h]

theorem ideal_snoc (tr : List (Transition Machine Event)) (x : Transition Machine Event) :
    ideal (tr ++ [x]) = advance (ideal tr) x := by
  unfold ideal
  rw [List.filterMap_append]
  cases hr : recorded x with
  | none =>
      have hx : [x].filterMap recorded = [] := by simp [hr]
      rw [hx, List.append_nil, advance_none hr]
  | some r =>
      have hx : [x].filterMap recorded = [r] := by simp [hr]
      rw [hx, recordAll_snoc, advance_some hr]

theorem record_boost (l : List Recorded) (time : Int) :
    record Recorded.Same l (.boost time) = l ++ [.boost time] := by
  refine record_of_not_same fun b _ => ?_
  cases b with
  | boost time' => exact id
  | dispatch pid queue time' => exact id

theorem boost_sameLog (hr : ((chargeTick k p).proc p).state = .runnable) :
    SameLog (Kernel.logBoost k) (boost (chargeTick k p) p) := by
  obtain ⟨hs, hc⟩ := logBoost_congr (chargeTick_sameLog k p) (chargeTick_time k p)
  rw [boost_eq hr]
  exact ⟨hs, hc⟩

/-- What a step does to the log, and the event that it is to record. -/
inductive Logging (m : Machine) (e : Event) (m' : Machine) : Option Recorded → Prop
  | quiet (hno : e = .schedule → m'.cproc = none) (h : SameLog m.kernel m'.kernel) : Logging m e m' none
  | boost (k : State) (hne : e ≠ .schedule) (hk : SameLog m.kernel k) (h : SameLog (Kernel.logBoost k) m'.kernel) :
      Logging m e m' (some (.boost k.time))
  | dispatch (i : Slot) (he : e = .schedule) (hc : m'.cproc = some i)
      (h : SameLog (Kernel.logDispatch m.kernel i) m'.kernel) :
      Logging m e m' (some (.dispatch (m.kernel.proc i).pid (m.kernel.proc i).queue m.kernel.time))

theorem step_logging {L : Fifos} (hL : Coherent m L) (hstart : e ≠ .startlog) (he : step idle e m = some m') :
    Logging m e m' (recorded ⟨m, e, m'⟩) := by
  cases hy : atYield m e with
  | some pk =>
      obtain ⟨p, k⟩ := pk
      obtain ⟨hc, -, L', hq, -⟩ := atYield_queued hL.queued (fun _ => id) hy
      have hsame := atYield_sameLog hy
      have hne : e ≠ .schedule := by
        rintro rfl
        cases hy
      rw [step_of_atYield hy he]
      by_cases hdue : boostDue k
      · have hr : recorded ⟨m, e, { m with kernel := yield k p, cproc := none }⟩ = some (.boost k.time) := by
          simp [recorded, hy, hdue]
        rw [hr, yield_eq, if_pos hdue]
        refine .boost k hne hsame ?_
        dsimp only
        exact boost_sameLog (hq.chargeTick_runnable hc)
      · have hr : recorded ⟨m, e, { m with kernel := yield k p, cproc := none }⟩ = none := by
          simp [recorded, hy, hdue]
        obtain ⟨hs, hcount⟩ := chargeTick_sameLog k p
        rw [hr, yield_eq, if_neg hdue]
        exact .quiet (fun _ => rfl) ⟨hs.trans hsame.1, hcount.trans hsame.2⟩
  | none =>
      by_cases hsched : e = .schedule
      · subst hsched
        have hc : m.cproc = none := by
          cases hc : m.cproc with
          | none => rfl
          | some p => simp [Kernel.step, atYield, hc] at he
        rcases scheduler_cases ((step_schedule hc).symm.trans he) with ⟨t, rfl⟩ | ⟨i, t, rfl⟩
        · have hr : recorded ⟨m, .schedule, { m with kernel := { m.kernel with qtable := t } }⟩ = none := by
            simp [recorded, hy, hc]
          rw [hr]
          exact .quiet (fun _ => hc) ⟨rfl, rfl⟩
        · have hr : recorded ⟨m, .schedule, Kernel.dispatch { m.kernel with qtable := t } i⟩ =
              some (.dispatch (m.kernel.proc i).pid (m.kernel.proc i).queue m.kernel.time) := by
            simp [recorded, hy, Kernel.dispatch]
          have ht : SameLog (Kernel.logDispatch m.kernel i) (Kernel.logDispatch { m.kernel with qtable := t } i) :=
            logDispatch_congr ⟨rfl, rfl⟩ rfl rfl rfl
          obtain ⟨hs, hcount⟩ := dispatch_sameLog { m.kernel with qtable := t } i
          rw [hr]
          exact .dispatch i rfl rfl ⟨hs.trans ht.1, hcount.trans ht.2⟩
      · have hr : recorded ⟨m, e, m'⟩ = none := by simp [recorded, hy, hsched]
        rw [hr]
        exact .quiet (fun h => absurd h hsched) (step_sameLog hy hsched hstart he)

/-- A step keeps the log right exactly if it drops no dispatch. -/
theorem Logged.step (h : Logged m.kernel l) {L : Fifos} (hL : Coherent m L) (hstart : e ≠ .startlog)
    (he : step idle e m = some m') :
    Logged m'.kernel (advance l ⟨m, e, m'⟩) ↔ ¬ Dropped ⟨m, e, m'⟩ := by
  have hlogging := step_logging hL hstart he
  generalize hr : recorded ⟨m, e, m'⟩ = r at hlogging
  cases hlogging with
  | quiet hno hs =>
      rw [advance_none hr]
      refine iff_of_true (h.congr hs.1 hs.2) ?_
      rintro ⟨hsched, i, hi, -⟩
      exact absurd ((hno hsched).symm.trans hi) (by simp)
  | boost k hne hk hs =>
      rw [advance_some hr, record_boost]
      exact iff_of_true ((h.congr hk.1 hk.2).logBoost.congr hs.1 hs.2) fun hd => hne hd.1
  | dispatch i hsched hc hs =>
      have hdrop : Dropped ⟨m, e, m'⟩ ↔ Stale m.kernel i := by
        constructor
        · rintro ⟨-, j, hj, hstale⟩
          obtain rfl : i = j := Option.some.inj (hc.symm.trans hj)
          exact hstale
        · exact fun hstale => ⟨hsched, i, hc, hstale⟩
      rw [advance_some hr, hdrop]
      constructor
      · exact fun h' hstale => h.not_logDispatch hstale (h'.congr hs.1.symm hs.2.symm)
      · exact fun hstale => (h.logDispatch hstale).congr hs.1 hs.2

/-! ## The times of the entries -/

theorem recorded_time {r : Recorded} (he : step idle x.event x.pre = some x.post) (hr : recorded x = some r) :
    r.time = x.post.kernel.time := by
  unfold recorded at hr
  cases hy : atYield x.pre x.event with
  | some pk =>
      obtain ⟨p, k⟩ := pk
      rw [hy] at hr
      dsimp only at hr
      split_ifs at hr
      cases hr
      rw [step_of_atYield hy he]
      exact (congrArg Prod.fst (yield_clocks k p)).symm
  | none =>
      rw [hy] at hr
      dsimp only at hr
      split_ifs at hr with hsched
      obtain ⟨i, -, rfl⟩ := Option.map_eq_some_iff.mp hr
      cases step_ticked he with
      | still htrap hk => exact (congrArg Prod.fst hk).symm
      | both htrap => rw [hsched] at htrap; cases htrap
      | one htrap => rw [hsched] at htrap; cases htrap

theorem run_times (h : Run (step idle) (boot outside) tr m) (hn : traps tr < 2 ^ 31) :
    tr.Pairwise fun x y => x.post.kernel.time ≤ y.post.kernel.time := by
  have hstep : ∀ x ∈ tr, x.pre.kernel.time ≤ x.post.kernel.time := by
    intro x hx
    obtain ⟨tr₁, tr₂, rfl⟩ := List.append_of_mem hx
    obtain ⟨hpre, he, -⟩ := h.middle
    have hinit : tr₁ ++ [x] <+: tr₁ ++ x :: tr₂ := ⟨tr₂, by simp⟩
    obtain ⟨ht, ht'⟩ := run_time (hpre.snoc he) ((traps_mono hinit).trans_lt hn)
    have htime := step_time ht ht' he
    dsimp only at htime
    split_ifs at htime
    · omega
    · omega
  have hpair := (h.pairwise_le (f := fun m => m.kernel.time) hstep).1
  exact hpair.imp_of_mem fun _ hy hle => hle.trans (hstep _ hy)

theorem LogEntry.Records.time {e : LogEntry} {r : Recorded} (h : e.Records r) : e.time = r.time := by
  cases r with
  | boost time => exact h.2
  | dispatch pid queue time => exact h.2.2.2

theorem ideal_times {tr' : List (Transition Machine Event)} (h : Run (step idle) (boot outside) (tr ++ tr') m)
    (hn : traps (tr ++ tr') < 2 ^ 31) : (ideal tr').Pairwise fun r r' => r.time ≤ r'.time := by
  refine List.Pairwise.sublist (recordAll_sublist _) (List.pairwise_filterMap.mpr ?_)
  have hpair := (List.pairwise_append.mp (run_times h hn)).2.1
  refine hpair.imp_of_mem fun hx hy hle r hr r' hr' => ?_
  rw [recorded_time (h.step_of_mem (List.mem_append_right _ hx)) hr,
    recorded_time (h.step_of_mem (List.mem_append_right _ hy)) hr']
  exact hle

theorem Logged.ascending (h : Logged k l) (hl : l.Pairwise fun r r' => r.time ≤ r'.time) : Ascending k := by
  intro n n' hle hn'
  have hcount := Stores.count h
  rw [show LOG_SIZE.toNat = 100 from rfl] at hcount
  have hlen : n' < l.length := by omega
  have hcap : n' < LOG_SIZE.toNat := by
    rw [show LOG_SIZE.toNat = 100 from rfl]
    omega
  rw [(Stores.entry h n (by omega) (by omega)).time, (Stores.entry h n' hlen hcap).time]
  rcases hle.lt_or_eq with hlt | rfl
  · exact List.pairwise_iff_getElem.mp hl n n' _ _ hlt
  · exact le_rfl

/-! ## Every session -/

/-- What `sys_getlog` is to find at the end of `tr'`, which has begun with the `startlog` at the end of `tr`. -/
def Faithful (tr tr' : List (Transition Machine Event)) (m : Machine) : Prop :=
  Logged m.kernel (ideal tr') ∧ (traps (tr ++ tr') < 2 ^ 31 → Ascending m.kernel)

theorem step_startlog (he : step idle .startlog m = some m') : Logged m'.kernel [] := by
  cases step_served rfl (by decide) he with
  | startlog hc => exact Stores.nil

theorem faithful_of_logged {tr' : List (Transition Machine Event)} {m' : Machine}
    (h : Run (step idle) (boot outside) tr m) (h' : Run (step idle) m tr' m') (hl : Logged m'.kernel (ideal tr')) :
    Faithful tr tr' m' := ⟨hl, fun hn => hl.ascending (ideal_times (h.append h') hn)⟩

/-- From a `startlog` to the next one, the log is right at all times exactly if no dispatch is taken for one that
a boost entry has covered. -/
theorem log_faithful_iff {tr' : List (Transition Machine Event)} {m₀ : Machine}
    (h : Run (step idle) (boot outside) tr m₀) (hs : step idle .startlog m₀ = some m)
    (h' : Run (step idle) m tr' m') (hno : ∀ x ∈ tr', x.event ≠ .startlog) :
    (∀ tr₁ m₁, tr₁ <+: tr' → Run (step idle) m tr₁ m₁ → Faithful (tr ++ [⟨m₀, .startlog, m⟩]) tr₁ m₁) ↔
      ∀ x ∈ tr', ¬ Dropped x := by
  have hstart := h.snoc hs
  constructor
  · intro hall x hx
    obtain ⟨tr₁, tr₂, rfl⟩ := List.append_of_mem hx
    obtain ⟨hpre, he, -⟩ := h'.middle
    obtain ⟨L, hL⟩ := Coherent.run (hstart.append hpre)
    have hinit : tr₁ ++ [x] <+: tr₁ ++ x :: tr₂ := ⟨tr₂, by simp⟩
    have hbefore := (hall tr₁ x.pre (List.prefix_append ..) hpre).1
    have hafter := (hall _ x.post hinit (hpre.snoc he)).1
    rw [ideal_snoc] at hafter
    exact (hbefore.step hL (hno x hx) he).mp hafter
  · intro hall tr₁ m₁ hinit h₁
    refine faithful_of_logged hstart h₁ ?_
    have hall₁ : ∀ x ∈ tr₁, ¬ Dropped x ∧ x.event ≠ .startlog := fun x hx =>
      ⟨hall x (hinit.subset hx), hno x (hinit.subset hx)⟩
    clear hinit
    induction h₁ with
    | nil => exact step_startlog hs
    | @snoc tr₁ t e u h₁ he ih =>
        obtain ⟨L, hL⟩ := Coherent.run (hstart.append h₁)
        obtain ⟨hd, hne⟩ := hall₁ ⟨t, e, u⟩ (by simp)
        rw [ideal_snoc]
        exact ((ih fun x hx => hall₁ x (List.mem_append_left _ hx)).step hL hne he).mpr hd

/-- The first session records a dispatch of the first process at MEDIUM. The second one starts with a boost, whose
entry keeps the process and the level of the first, and drops the next dispatch. -/
theorem log_not_faithful :
    ¬ ∀ idle outside tr tr' m₀ m m', Run (step idle) (boot outside) tr m₀ → step idle .startlog m₀ = some m →
      Run (step idle) m tr' m' → (∀ x ∈ tr', x.event ≠ .startlog) → 
        Faithful (tr ++ [⟨m₀, .startlog, m⟩]) tr' m' := by
  intro hall
  have hplay : (final (step .asWritten) (boot fun _ => 0)
      [.schedule, .startlog, .sleep (.other 0), .wakeup (.other 0), .schedule]).any (fun m₀ =>
        (step .asWritten .startlog m₀).any fun m₁ : Machine =>
          (step .asWritten (.nice 0) m₁).any fun m₂ : Machine =>
            (step .asWritten .schedule m₂).any fun m₃ : Machine =>
              m₃.cproc = some 0 ∧ Stale m₂.kernel 0) = true := by
    decide +kernel
  obtain ⟨tr, m₀, h, -, hm⟩ := Run.replay hplay
  obtain ⟨m₁, hstart, hm⟩ := (Option.any_eq_true _ _).mp hm
  obtain ⟨m₂, hnice, hm⟩ := (Option.any_eq_true _ _).mp hm
  obtain ⟨m₃, hsched, hm⟩ := (Option.any_eq_true _ _).mp hm
  obtain ⟨hc, hstale⟩ := of_decide_eq_true hm
  have h₂ := Run.single hnice
  have hbefore := (hall .asWritten _ tr _ m₀ m₁ m₂ h hstart h₂ (by simp)).1
  have hafter := (hall .asWritten _ tr _ m₀ m₁ m₃ h hstart (h₂.snoc hsched) (by simp)).1
  obtain ⟨L, hL⟩ := Coherent.run ((h.snoc hstart).append h₂)
  rw [ideal_snoc] at hafter
  exact (hbefore.step hL (by decide) hsched).mp hafter ⟨rfl, 0, hc, hstale⟩

/-- A second session starts with a boost, whose entry keeps the child of the process that is dispatched next. -/
theorem log_faithful_iff_second :
    ∃ tr m₀ m tr' m', Run (step .asWritten) (boot fun _ => 0) tr m₀ ∧ m₀.kernel.logCount = 2 ∧
      (∃ x ∈ tr', recorded x = some (.boost 0)) ∧ m'.kernel.logCount = 2 ∧ Run (step .asWritten) m tr' m' ∧
        ((∀ tr₁ m₁, tr₁ <+: tr' → Run (step .asWritten) m tr₁ m₁ → Faithful (tr ++ [⟨m₀, .startlog, m⟩]) tr₁ m₁) ↔
          ∀ x ∈ tr', ¬ Dropped x) := by
  have hplay : (final (step .asWritten) (boot fun _ => 0) [.schedule, .startlog, .fork true true true, .sleep (.other 0),
      .schedule, .wakeup (.other 0), .sleep (.other 1), .schedule]).any (fun m₀ =>
        (step .asWritten .startlog m₀).any fun m : Machine => (step .asWritten (.nice 0) m).any fun m₁ : Machine =>
          (step .asWritten .schedule m₁).any fun m' : Machine => m₀.kernel.logCount = 2 ∧
            recorded ⟨m, .nice 0, m₁⟩ = some (.boost 0) ∧ m'.kernel.logCount = 2) = true := by
    decide +kernel
  obtain ⟨tr, m₀, h, -, hm⟩ := Run.replay hplay
  obtain ⟨m, hstart, hm⟩ := (Option.any_eq_true _ _).mp hm
  obtain ⟨m₁, hnice, hm⟩ := (Option.any_eq_true _ _).mp hm
  obtain ⟨m', hsched, hm⟩ := (Option.any_eq_true _ _).mp hm
  obtain ⟨hcount, hboost, hcount'⟩ := of_decide_eq_true hm
  have h' := (Run.single hnice).snoc hsched
  exact ⟨tr, m₀, m, _, m', h, hcount, ⟨_, by simp, hboost⟩, hcount', h', log_faithful_iff h hstart h' (by simp)⟩

end Xv6Mlfq.Kernel
