import Xv6Mlfq.Access.Program
import Xv6Mlfq.Kernel.Log

/-!
# The bounds of the scheduling log

`log_count` is the fill level, the flag that logging has not begun (`INT_MAX`) and the result of `sys_getlog`. The
logging of `scheduler` and of `yield` is given here access by access. The runs are sequences of operations on the log
in any order; the kernel of one hart performs such sequences.
-/

namespace Xv6Mlfq.Kernel

open Access Queue Runs

/-! ## The accesses of the logging code -/

/-- The counter, and the fields of the entries by their subscript in `schedlog`. -/
inductive LogCell where
  | logCount
  | pid (n : Int)
  | time (n : Int)
  | queue (n : Int)
  | priorityBoost (n : Int)
  deriving DecidableEq, Repr

def LogCell.subscript : LogCell → Option Int
  | .logCount => none
  | .pid n | .time n | .queue n | .priorityBoost n => some n

/-- The log as it lies in memory. -/
def State.cells (k : State) : LogCell → Int
  | .logCount => k.logCount
  | .pid n => (k.schedlog n).pid
  | .time n => (k.schedlog n).time
  | .queue n => (k.schedlog n).queue
  | .priorityBoost n => (k.schedlog n).priorityBoost

/-- `log_count && schedlog[log_count - 1].pid == p->pid && schedlog[log_count-1].queue == p->queue`. -/
def repeats (count pid queue : Int) : Prog LogCell Int Bool :=
  if count = 0 then pure false
  else do
    let lastPid ← read (.pid (count - 1))
    if lastPid ≠ pid then pure false
    else do
      let lastQueue ← read (.queue (count - 1))
      pure (lastQueue = queue)

/-- The logging of `scheduler`. -/
def writeDispatch (pid queue time : Int) : Prog LogCell Int PUnit := do
  let count ← read .logCount
  if count < LOG_SIZE then do
    let same ← repeats count pid queue
    if same then pure ⟨⟩
    else do
      write (.priorityBoost count) 0
      write (.queue count) queue
      write (.pid count) pid
      write (.time count) time
      write .logCount (count + 1)
  else pure ⟨⟩

/-- The logging of the boost in `yield`. -/
def writeBoost (time : Int) : Prog LogCell Int PUnit := do
  let count ← read .logCount
  if count < LOG_SIZE then do
    write (.priorityBoost count) 1
    write (.time count) time
    write .logCount (count + 1)
  else pure ⟨⟩

/-! ## The operations on the log -/

/-- The return value of `sys_getlog`, a `uint64`; `copyout` says whether the log reaches the user's address. -/
def sysGetlog (k : State) (copyout : Bool) : Nat := if copyout then (k.logCount % 2 ^ 64).toNat else 2 ^ 64 - 1

inductive LogOp where
  | startlog
  | getlog (copyout : Bool)
  /-- The logging of `scheduler`, for the process of slot `p`. -/
  | dispatch (p : Slot)
  /-- The logging of the boost in `yield`. -/
  | boost
  /-- Any step to a state `k` that leaves the log alone. -/
  | elsewhere (k : State)

/-- The kernel, of which only the use of the log is kept. -/
def LogOp.step (o : LogOp) (k : State) : Option State :=
  match o with
  | .startlog => some (sysStartlog k)
  | .getlog _ => some k
  | .dispatch p => some (logDispatch k p)
  | .boost => some (logBoost k)
  | .elsewhere k' => some { k' with schedlog := k.schedlog, logCount := k.logCount }

/-! ## The history of the log -/

/-- The cells that a step of `scheduler` or `yield` touches. -/
def accesses (x : Transition State LogOp) : List LogCell :=
  match x.event with
  | .dispatch p =>
      (writeDispatch (x.pre.proc p).pid ((x.pre.proc p).queue : Nat) x.pre.time).touched x.pre.cells
  | .boost => (writeBoost x.pre.time).touched x.pre.cells
  | _ => []

def LogCell.isTime : LogCell → Bool
  | .time _ => true
  | _ => false

/-- The entries that the accesses complete: the last field of an entry to be set is its time. -/
def entries (cs : List LogCell) : Nat := cs.countP LogCell.isTime

def LogOp.isStartlog : LogOp → Bool
  | .startlog => true
  | _ => false

/-- The entries recorded since the last `startlog`. -/
def recordedSince (tr : List (Transition State LogOp)) : Nat :=
  tr.foldl (fun n x => if x.event.isStartlog then 0 else n + entries (accesses x)) 0

def LogCell.InLog (c : LogCell) : Prop := ∀ n, c.subscript = some n → 0 ≤ n ∧ n < LOG_SIZE

/-- `startlog` has been called. -/
def Started (tr : List (Transition State LogOp)) : Prop := ∃ x ∈ tr, x.event = .startlog

/-- The log is used within its bounds. -/
structure LogSafe (tr : List (Transition State LogOp)) : Prop where
  accesses : ∀ x ∈ tr, ∀ c ∈ accesses x, c.InLog
  counts : ∀ tr₁ x tr₂, tr = tr₁ ++ x :: tr₂ → x.event = .getlog true →
    (sysGetlog x.pre true : Int) ≤ LOG_SIZE ∧ sysGetlog x.pre true = recordedSince tr₁

variable {idle : Idle} {m m' : Machine} {e : Event} {k k' : State} {p i : Slot} {M : LogCell → Int}
  {outside : QTable} {tr : List (Transition State LogOp)} {x : Transition State LogOp}

/-! ## One entry -/

/-- What the logging of an event does to the log in memory `M`. -/
structure Writes (P : Prog LogCell Int PUnit) (M : LogCell → Int) : Prop where
  inLog : 0 ≤ M .logCount → ∀ c ∈ P.touched M, c.InLog
  count : (P.exec M).2 .logCount = M .logCount + entries (P.touched M)
  room : M .logCount + entries (P.touched M) ≤ LOG_SIZE ∨ entries (P.touched M) = 0

namespace Writes

variable {P : Prog LogCell Int PUnit} {cs : List LogCell}

theorem of_push (ht : P.touched M = cs) (he : (P.exec M).2 .logCount = M .logCount + 1) (hn : entries cs = 1)
    (hroom : M .logCount < LOG_SIZE) (hin : 0 ≤ M .logCount → ∀ c ∈ cs, c.InLog) : Writes P M := by
  subst ht
  refine ⟨hin, ?_, .inl ?_⟩
  · rw [he, hn]
    rfl
  · rw [hn]
    exact hroom

theorem of_skip (ht : P.touched M = cs) (he : (P.exec M).2 = M) (hn : entries cs = 0)
    (hin : 0 ≤ M .logCount → ∀ c ∈ cs, c.InLog) : Writes P M := by
  subst ht
  refine ⟨hin, ?_, .inr hn⟩
  rw [he, hn]
  exact (add_zero _).symm

end Writes

theorem writeBoost_writes (M : LogCell → Int) (time : Int) : Writes (writeBoost time) M := by
  by_cases hroom : M .logCount < LOG_SIZE
  · have ht : (writeBoost time).touched M =
        [.logCount, .priorityBoost (M .logCount), .time (M .logCount), .logCount] := by
      simp [writeBoost, hroom]
    refine .of_push ht (by simp [writeBoost, hroom]) rfl hroom fun hpos => ?_
    simp [LogCell.InLog, LogCell.subscript, hpos, hroom]
  · have ht : (writeBoost time).touched M = [.logCount] := by simp [writeBoost, hroom]
    refine .of_skip ht (by simp [writeBoost, hroom]) rfl fun hpos => ?_
    simp [LogCell.InLog, LogCell.subscript]

variable {count pid queue time : Int}

theorem repeats_exec : (repeats count pid queue).exec M =
    (decide (count ≠ 0 ∧ M (.pid (count - 1)) = pid ∧ M (.queue (count - 1)) = queue), M) := by
  unfold repeats
  by_cases hzero : count = 0
  · simp [hzero]
  · by_cases hpid : M (.pid (count - 1)) = pid
    · by_cases hqueue : M (.queue (count - 1)) = queue
      · simp [hzero, hpid, hqueue]
      · simp [hzero, hpid, hqueue]
    · simp [hzero, hpid]

/-- The test looks at the last entry only, and only if there is one. -/
theorem repeats_inLog (hpos : 0 ≤ count) (hroom : count < LOG_SIZE) :
    ∀ c ∈ (repeats count pid queue).touched M, c.InLog := by
  unfold repeats
  by_cases hzero : count = 0
  · simp [hzero]
  · have hlast : 1 ≤ count ∧ count - 1 < LOG_SIZE := by omega
    by_cases hpid : M (.pid (count - 1)) = pid
    · simp [hzero, hpid, hlast, LogCell.InLog, LogCell.subscript]
    · simp [hzero, hpid, hlast, LogCell.InLog, LogCell.subscript]

theorem repeats_entries (M : LogCell → Int) (count pid queue : Int) :
    entries ((repeats count pid queue).touched M) = 0 := by
  unfold repeats
  by_cases hzero : count = 0
  · simp [hzero, entries]
  · by_cases hpid : M (.pid (count - 1)) = pid
    · simp [hzero, hpid, entries, LogCell.isTime]
    · simp [hzero, hpid, entries, LogCell.isTime]

theorem logCount_inLog : LogCell.logCount.InLog := fun n hn => by cases hn

theorem writeDispatch_writes (M : LogCell → Int) (pid queue time : Int) : Writes (writeDispatch pid queue time) M := by
  by_cases hroom : M .logCount < LOG_SIZE
  · have hnone := repeats_entries M (M .logCount) pid queue
    have hread : ∀ cs, entries (.logCount :: cs) = entries cs := fun cs =>
      List.countP_cons_of_neg (by simp [LogCell.isTime])
    by_cases hsame : M .logCount ≠ 0 ∧ M (.pid (M .logCount - 1)) = pid ∧ M (.queue (M .logCount - 1)) = queue
    · have ht : (writeDispatch pid queue time).touched M =
          .logCount :: (repeats (M .logCount) pid queue).touched M := by
        simp [writeDispatch, hroom, repeats_exec, hsame]
      refine .of_skip ht (by simp [writeDispatch, hroom, repeats_exec, hsame]) ?_ fun hpos => ?_
      · rw [hread, hnone]
      · exact List.forall_mem_cons.mpr ⟨logCount_inLog, repeats_inLog hpos hroom⟩
    · have ht : (writeDispatch pid queue time).touched M =
          .logCount :: ((repeats (M .logCount) pid queue).touched M ++ [.priorityBoost (M .logCount),
            .queue (M .logCount), .pid (M .logCount), .time (M .logCount), .logCount]) := by
        simp [writeDispatch, hroom, repeats_exec, hsame]
      refine .of_push ht (by simp [writeDispatch, hroom, repeats_exec, hsame]) ?_ hroom fun hpos => ?_
      · rw [hread, entries, List.countP_append]
        exact congrArg (· + 1) hnone
      · refine List.forall_mem_cons.mpr ⟨logCount_inLog, List.forall_mem_append.mpr ⟨repeats_inLog hpos hroom, ?_⟩⟩
        simp [LogCell.InLog, LogCell.subscript, hpos, hroom]
  · have ht : (writeDispatch pid queue time).touched M = [.logCount] := by simp [writeDispatch, hroom]
    refine .of_skip ht (by simp [writeDispatch, hroom]) rfl fun hpos => ?_
    exact List.forall_mem_singleton.mpr logCount_inLog

/-! ## The logging code of the kernel -/

/-- The entry is set field by field. -/
theorem cells_push (k : State) (a : LogEntry) :
    State.cells { k with schedlog := Function.update k.schedlog k.logCount a, logCount := k.logCount + 1 } =
      Function.update (Function.update (Function.update (Function.update (Function.update k.cells
        (.priorityBoost k.logCount) a.priorityBoost) (.queue k.logCount) a.queue) (.pid k.logCount) a.pid)
          (.time k.logCount) a.time) .logCount (k.logCount + 1) := by
  funext c
  cases c with
  | logCount => simp [State.cells]
  | pid n =>
      by_cases hn : n = k.logCount
      · simp [State.cells, hn]
      · simp [State.cells, hn]
  | time n =>
      by_cases hn : n = k.logCount
      · simp [State.cells, hn]
      · simp [State.cells, hn]
  | queue n =>
      by_cases hn : n = k.logCount
      · simp [State.cells, hn]
      · simp [State.cells, hn]
  | priorityBoost n =>
      by_cases hn : n = k.logCount
      · simp [State.cells, hn]
      · simp [State.cells, hn]

theorem logDispatch_cells (k : State) (p : Slot) : (logDispatch k p).cells =
    ((writeDispatch (k.proc p).pid ((k.proc p).queue : Nat) k.time).exec k.cells).2 := by
  unfold logDispatch
  split_ifs with htest
  · obtain ⟨hroom, hnew⟩ := htest
    have hcells : k.cells .logCount < LOG_SIZE := hroom
    have hsame : ¬ (k.cells .logCount ≠ 0 ∧ k.cells (.pid (k.cells .logCount - 1)) = (k.proc p).pid ∧
        k.cells (.queue (k.cells .logCount - 1)) = ((k.proc p).queue : Nat)) := hnew
    rw [cells_push]
    simp [writeDispatch, hcells, repeats_exec, hsame]
    rfl
  · by_cases hroom : k.cells .logCount < LOG_SIZE
    · have hsame : k.cells .logCount ≠ 0 ∧ k.cells (.pid (k.cells .logCount - 1)) = (k.proc p).pid ∧
          k.cells (.queue (k.cells .logCount - 1)) = ((k.proc p).queue : Nat) :=
        not_not.mp fun hnew => htest ⟨hroom, hnew⟩
      simp [writeDispatch, hroom, repeats_exec, hsame]
    · simp [writeDispatch, hroom]

theorem logBoost_cells (k : State) : (logBoost k).cells = ((writeBoost k.time).exec k.cells).2 := by
  unfold logBoost
  split_ifs with hroom
  · have hcells : k.cells .logCount < LOG_SIZE := hroom
    have hkeep : ∀ (M : LogCell → Int) c v, v = M c → Function.update M c v = M := fun M c v h =>
      Function.update_eq_self_iff.mpr h
    rw [cells_push, hkeep _ (.queue k.logCount) _ (by simp [State.cells]),
      hkeep _ (.pid k.logCount) _ (by simp [State.cells])]
    simp [writeBoost, hcells]
    rfl
  · have hcells : ¬ k.cells .logCount < LOG_SIZE := hroom
    simp [writeBoost, hcells]

/-- What a step does to the counter. -/
structure Counts (x : Transition State LogOp) : Prop where
  inLog : 0 ≤ x.pre.logCount → ∀ c ∈ accesses x, c.InLog
  count : x.post.logCount = x.pre.logCount + entries (accesses x)
  room : x.pre.logCount + entries (accesses x) ≤ LOG_SIZE ∨ entries (accesses x) = 0

theorem Counts.of_writes {P : Prog LogCell Int PUnit} (hx : accesses x = P.touched x.pre.cells)
    (hP : Writes P x.pre.cells) (hpost : x.post.cells = (P.exec x.pre.cells).2) : Counts x where
  inLog := by
    rw [hx]
    exact hP.inLog
  count := by
    rw [hx]
    exact (congrFun hpost .logCount).trans hP.count
  room := by
    rw [hx]
    exact hP.room

theorem Counts.of_same (hx : accesses x = []) (hpost : x.post.logCount = x.pre.logCount) : Counts x where
  inLog _ c hc := by
    rw [hx] at hc
    cases hc
  count := by
    rw [hx]
    exact hpost.trans (add_zero _).symm
  room := by
    rw [hx]
    exact .inr rfl

theorem step_counts {o : LogOp} (hne : o ≠ .startlog) (he : o.step k = some k') : Counts ⟨k, o, k'⟩ := by
  cases o with
  | startlog => exact absurd rfl hne
  | getlog copyout =>
      obtain rfl := Option.some.inj he
      exact .of_same rfl rfl
  | dispatch p =>
      obtain rfl := Option.some.inj he
      exact .of_writes rfl (writeDispatch_writes ..) (logDispatch_cells k p)
  | boost =>
      obtain rfl := Option.some.inj he
      exact .of_writes rfl (writeBoost_writes ..) (logBoost_cells k)
  | elsewhere k' =>
      obtain rfl := Option.some.inj he
      exact .of_same rfl rfl

/-! ## Every run -/

/-- The counter is the flag `INT_MAX` until the first `startlog`, and the number of entries from then on. -/
inductive Counted (tr : List (Transition State LogOp)) (k : State) : Prop
  | started (h : Started tr) (hc : k.logCount = recordedSince tr) (hle : k.logCount ≤ LOG_SIZE)
  | unstarted (h : ¬ Started tr) (hc : k.logCount = INT_MAX) (hzero : recordedSince tr = 0)

theorem Counted.nonneg (h : Counted tr k) : 0 ≤ k.logCount := by
  cases h with
  | started h hc hle =>
      rw [hc]
      exact Int.natCast_nonneg _
  | unstarted h hc hzero =>
      rw [hc]
      decide

theorem isStartlog_iff (o : LogOp) : o.isStartlog = true ↔ o = .startlog := by
  cases o with
  | startlog => simp [LogOp.isStartlog]
  | _ => simp [LogOp.isStartlog]

theorem recordedSince_snoc (tr : List (Transition State LogOp)) (x : Transition State LogOp) :
    recordedSince (tr ++ [x]) = if x.event.isStartlog then 0 else recordedSince tr + entries (accesses x) := by
  simp [recordedSince]

theorem started_snoc (hne : x.event ≠ .startlog) : Started (tr ++ [x]) ↔ Started tr := by
  simp [Started, hne]

theorem Counted.snoc (h : Counted tr x.pre) (hne : x.event ≠ .startlog) (hx : Counts x) :
    Counted (tr ++ [x]) x.post := by
  have hsince : recordedSince (tr ++ [x]) = recordedSince tr + entries (accesses x) := by
    rw [recordedSince_snoc, if_neg (mt (isStartlog_iff _).mp hne)]
  have hcount := hx.count
  have hroom := hx.room
  cases h with
  | started h hc hle =>
      refine .started ((started_snoc hne).mpr h) ?_ ?_
      · rw [hsince, hcount, hc]
        push_cast
        rfl
      · rw [hcount]
        rcases hroom with hroom | hroom
        · exact hroom
        · simpa [hroom] using hle
  | unstarted h hc hzero =>
      have hnone : entries (accesses x) = 0 := by
        refine hroom.resolve_left ?_
        rw [hc]
        have hflag : LOG_SIZE < INT_MAX := by decide
        omega
      refine .unstarted (mt (started_snoc hne).mp h) ?_ ?_
      · rw [hcount, hnone, hc]
        rfl
      · rw [hsince, hnone, hzero]

theorem Counted.restart (tr : List (Transition State LogOp)) (k : State) :
    Counted (tr ++ [⟨k, .startlog, sysStartlog k⟩]) (sysStartlog k) := by
  have hzero : recordedSince (tr ++ [⟨k, .startlog, sysStartlog k⟩]) = 0 := recordedSince_snoc ..
  refine .started ⟨⟨k, .startlog, sysStartlog k⟩, by simp, rfl⟩ ?_ (by simp [sysStartlog])
  rw [hzero]
  rfl

theorem run_counted (h : Run LogOp.step (boot outside).kernel tr k) :
    Counted tr k ∧ ∀ x ∈ tr, ∀ c ∈ accesses x, c.InLog := by
  induction h with
  | nil => exact ⟨.unstarted (by simp [Started]) rfl rfl, fun x hx => by cases hx⟩
  | @snoc tr k o k' h he ih =>
      obtain ⟨hcounted, hall⟩ := ih
      by_cases hne : o = .startlog
      · subst hne
        obtain rfl := Option.some.inj he
        refine ⟨.restart tr k, List.forall_mem_append.mpr ⟨hall, List.forall_mem_singleton.mpr fun c hc => ?_⟩⟩
        cases hc
      · have hx := step_counts hne he
        have hlast := hx.inLog hcounted.nonneg
        exact ⟨hcounted.snoc hne hx, List.forall_mem_append.mpr ⟨hall, List.forall_mem_singleton.mpr hlast⟩⟩

theorem Counted.getlog (h : Counted tr k) :
    (sysGetlog k true : Int) ≤ LOG_SIZE ∧ sysGetlog k true = recordedSince tr ↔ Started tr := by
  cases h with
  | started h hc hle =>
      have hvalue : sysGetlog k true = recordedSince tr := by
        have hsize : LOG_SIZE = 100 := rfl
        rw [sysGetlog, if_pos rfl]
        omega
      refine iff_of_true ⟨?_, hvalue⟩ h
      rw [hvalue, ← hc]
      exact hle
  | unstarted h hc hzero =>
      have hvalue : sysGetlog k true = 2 ^ 31 - 1 := by
        rw [sysGetlog, if_pos rfl, hc]
        rfl
      refine iff_of_false (fun hsafe => ?_) h
      rw [hvalue, hzero] at hsafe
      exact absurd hsafe.2 (by decide)

/-- The log is used within its bounds exactly in the runs in which no `getlog` comes before the first `startlog`. -/
theorem logSafe_iff (h : Run LogOp.step (boot outside).kernel tr k) :
    LogSafe tr ↔ ∀ tr₁ x tr₂, tr = tr₁ ++ x :: tr₂ → x.event = .getlog true → Started tr₁ := by
  constructor
  · rintro hsafe tr₁ x tr₂ rfl hx
    exact (run_counted h.middle.1).1.getlog.mp (hsafe.counts tr₁ x tr₂ rfl hx)
  · refine fun hall => ⟨(run_counted h).2, ?_⟩
    rintro tr₁ x tr₂ rfl hx
    exact (run_counted h.middle.1).1.getlog.mpr (hall tr₁ x tr₂ rfl hx)

/-! ## The kernel performs the operations -/

inductive LogEvent where
  | kernel (e : Event)
  | getlog (copyout : Bool)
  deriving DecidableEq, Repr

/-- A step of the hart, or a call of `getlog`. -/
def logStep (idle : Idle) (e : LogEvent) (m : Machine) : Option Machine :=
  match e with
  | .kernel e => step idle e m
  | .getlog _ => m.cproc.map fun _ => m

/-- The operations that a step of the hart performs. -/
def ops (x : Transition Machine LogEvent) : List LogOp :=
  match x.event with
  | .getlog copyout => [.getlog copyout]
  | .kernel e =>
      if e = .startlog then [.startlog]
      else
        match recorded ⟨x.pre, e, x.post⟩ with
        | none => []
        | some (.boost _) => [.boost]
        | some (.dispatch ..) => (x.post.cproc.map LogOp.dispatch).toList

def LogOp.onLog : LogOp → Bool
  | .elsewhere _ => false
  | _ => true

def opsOf (tr : List (Transition State LogOp)) : List LogOp := (tr.map Transition.event).filter LogOp.onLog

theorem opsOf_append (tr tr' : List (Transition State LogOp)) : opsOf (tr ++ tr') = opsOf tr ++ opsOf tr' := by
  simp [opsOf]

theorem step_elsewhere (h : SameLog k k') : LogOp.step (.elsewhere k') k = some k' := by
  obtain ⟨hs, hc⟩ := h
  rw [LogOp.step, ← hs, ← hc]

theorem step_ops {L : Fifos} (hL : Coherent m L) (he : step idle e m = some m') :
    ∃ tr, Run LogOp.step m.kernel tr m'.kernel ∧ opsOf tr = ops ⟨m, .kernel e, m'⟩ := by
  by_cases hstart : e = .startlog
  · subst hstart
    cases step_served rfl (by simp) he with
    | startlog hc => exact ⟨_, Run.single (e := .startlog) rfl, rfl⟩
  · have hlogging := step_logging hL hstart he
    simp only [ops, if_neg hstart]
    generalize recorded ⟨m, e, m'⟩ = r at hlogging
    cases hlogging with
    | quiet hno h => exact ⟨_, Run.single (step_elsewhere h), rfl⟩
    | boost k hne hk h =>
        have hbefore := Run.single (step_elsewhere hk)
        have hboost : LogOp.step .boost k = some (logBoost k) := rfl
        exact ⟨_, (hbefore.snoc hboost).snoc (step_elsewhere h), rfl⟩
    | dispatch i hsched hc h =>
        have hdispatch : LogOp.step (.dispatch i) m.kernel = some (logDispatch m.kernel i) := rfl
        refine ⟨_, (Run.single hdispatch).snoc (step_elsewhere h), ?_⟩
        rw [hc]
        rfl

/-- Every run of the hart performs its operations on the log in their order. -/
theorem run_ops {tr : List (Transition Machine LogEvent)} (h : Run (logStep idle) (boot outside) tr m) :
    (∃ L, Coherent m L) ∧
      ∃ tr', Run LogOp.step (boot outside).kernel tr' m.kernel ∧ opsOf tr' = tr.flatMap ops := by
  induction h with
  | nil => exact ⟨Coherent.boot outside, [], .nil, rfl⟩
  | @snoc tr t e u h he ih =>
      obtain ⟨⟨L, hL⟩, tr', h', hops⟩ := ih
      rw [List.flatMap_append, ← hops]
      cases e with
      | getlog copyout =>
          obtain ⟨p, -, rfl⟩ := Option.map_eq_some_iff.mp he
          have hget : LogOp.step (.getlog copyout) t.kernel = some t.kernel := rfl
          exact ⟨⟨L, hL⟩, _, h'.snoc hget, opsOf_append ..⟩
      | kernel e =>
          obtain ⟨L', hL', -⟩ := hL.step he
          obtain ⟨tr₁, h₁, hops₁⟩ := step_ops hL he
          refine ⟨⟨L', hL'⟩, _, h'.append h₁, ?_⟩
          rw [opsOf_append, hops₁]
          simp

theorem startlog_mem_ops {x : Transition Machine LogEvent} (h : LogOp.startlog ∈ ops x) :
    x.event = .kernel .startlog := by
  unfold ops at h
  cases he : x.event with
  | getlog copyout => simp [he] at h
  | kernel e =>
      rw [he] at h
      dsimp only at h
      split_ifs at h with hstart
      · rw [hstart]
      · cases hr : recorded ⟨x.pre, e, x.post⟩ with
        | none => simp [hr] at h
        | some r =>
            cases r with
            | boost time => simp [hr] at h
            | dispatch pid queue time => simp [hr] at h

theorem started_kernel {tr : List (Transition Machine LogEvent)} {tr' : List (Transition State LogOp)}
    (hops : opsOf tr' = tr.flatMap ops) (h : Started tr') : ∃ x ∈ tr, x.event = .kernel .startlog := by
  obtain ⟨x, hx, hstart⟩ := h
  have hmem : LogOp.startlog ∈ opsOf tr' :=
    List.mem_filter.mpr ⟨hstart ▸ List.mem_map_of_mem hx, rfl⟩
  rw [hops] at hmem
  obtain ⟨y, hy, hmem⟩ := List.mem_flatMap.mp hmem
  exact ⟨y, hy, startlog_mem_ops hmem⟩

/-- The first process asks for the log before it has begun. -/
theorem log_not_safe : ¬ ∀ outside tr k, Run LogOp.step (boot outside).kernel tr k → LogSafe tr := by
  intro hall
  have hplay : (final (logStep .asWritten) (boot fun _ => 0) [.kernel .schedule]).any (fun m =>
      m.cproc = some 0 ∧ sysGetlog m.kernel true = 2 ^ 31 - 1) = true := by
    decide +kernel
  obtain ⟨tr, m, h, hev, -⟩ := Run.replay hplay
  obtain ⟨-, tr', h', hops⟩ := run_ops h
  have hget : LogOp.step (.getlog true) m.kernel = some m.kernel := rfl
  have hcount := (hall _ _ m.kernel (h'.snoc hget)).counts tr' ⟨m.kernel, .getlog true, m.kernel⟩ [] rfl rfl
  obtain ⟨x, hx, hstart⟩ := started_kernel hops ((run_counted h').1.getlog.mp hcount)
  have hmem : LogEvent.kernel .startlog ∈ tr.map Transition.event := hstart ▸ List.mem_map_of_mem hx
  rw [hev] at hmem
  exact absurd hmem (by decide)

/-- The first process begins the log, is charged a tick and asks for the log. -/
theorem logSafe_iff_tick : ∃ tr, ∃ m : Machine, Run LogOp.step (boot fun _ => 0).kernel tr m.kernel ∧
    sysGetlog m.kernel true = 1 ∧ (LogSafe tr ↔ ∀ tr₁ x tr₂, tr = tr₁ ++ x :: tr₂ → x.event = .getlog true → Started tr₁) := by
  have hplay : (final (logStep .asWritten) (boot fun _ => 0) [.kernel .schedule, .kernel .startlog,
      .kernel .usertrap, .kernel .schedule, .getlog true]).any (fun m => sysGetlog m.kernel true = 1) = true := by
    decide +kernel
  obtain ⟨tr, m, h, -, hm⟩ := Run.replay hplay
  obtain ⟨-, tr', h', -⟩ := run_ops h
  exact ⟨tr', m, h', of_decide_eq_true hm, logSafe_iff h'⟩

end Xv6Mlfq.Kernel
