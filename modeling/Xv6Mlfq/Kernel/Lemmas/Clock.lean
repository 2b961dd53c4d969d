import Xv6Mlfq.Kernel.Lemmas.Invariant

/-!
# Long stretches of timer interrupts

A process that runs alone and has quantum left is resumed after every tick. Such a stretch of a run is
played in one go, which keeps runs over a boost short.
-/

namespace Xv6Mlfq.Kernel

open Access Queue Runs

variable {idle : Idle} {m : Machine} {k : State} {p : Slot}

theorem wakeup_of_none {cur : Option Slot} {chan : Option Chan} (h : ∀ i, ¬ Sleeper cur chan i (k.proc i)) :
    wakeup k cur chan = k := by
  simp only [wakeup, wakeupSlot_eq]
  induction List.finRange NPROC with
  | nil => rfl
  | cons i l ih => rw [List.foldl_cons, sweepSlot_neg (h i), ih]

/-- `p` runs, nothing is logged, and the clock wakes nobody. -/
structure Machine.Alone (m : Machine) (p : Slot) : Prop where
  cproc : m.cproc = some p
  remembered : m.p = some p
  pKicked : m.kernel.pKicked = true
  running : (m.kernel.proc p).state = .running
  chan : (m.kernel.proc p).chan = none
  killed : (m.kernel.proc p).killed = false
  log : ¬ m.kernel.logCount < LOG_SIZE
  sleepers : ∀ i, ¬ Sleeper (some p) (some .ticks) i (m.kernel.proc i)

/-- The next `n` ticks are charged to a running process that keeps its quantum, and no boost is due. -/
structure Machine.Room (m : Machine) (p : Slot) (n : Nat) : Prop where
  quantum : (m.kernel.proc p).runtime + n < quantum (m.kernel.proc p)
  time : 0 ≤ m.kernel.time
  time_lt : m.kernel.time + n < 2 ^ 31
  ticks_lt : m.kernel.ticks + n < 2 ^ 32
  boost : ∀ j < n, (m.kernel.time + (j + 1 : Nat)).tmod 60 ≠ 0

def Machine.later (m : Machine) (p : Slot) (n : Nat) : Machine :=
  { m with
    kernel :=
      { m.kernel with
        time := m.kernel.time + n
        ticks := m.kernel.ticks + n
        proc := Function.update m.kernel.proc p
          { m.kernel.proc p with runtime := (m.kernel.proc p).runtime + n } } }

theorem final_pair {m₁ m₂ : Machine} {e₁ e₂ : Event} (h₁ : step idle e₁ m = some m₁)
    (h₂ : step idle e₂ m₁ = some m₂) : final (step idle) m [e₁, e₂] = some m₂ := by
  rw [final, h₁, Option.bind_some, final, h₂, Option.bind_some]
  rfl

theorem logDispatch_full (h : ¬ k.logCount < LOG_SIZE) : logDispatch k p = k := if_neg fun hc => h hc.1

theorem dispatch_full (h : ¬ k.logCount < LOG_SIZE) : dispatch k p =
    { kernel := { k.modify p Proc.dispatched with pKicked := true }, p := some p, cproc := some p } := by
  have hlog : logDispatch (k.modify p fun p => { p with state := .running }) p =
      k.modify p fun p => { p with state := .running } := logDispatch_full h
  have hmod : (k.modify p fun p => { p with state := .running }).modify p sleepResume =
      k.modify p Proc.dispatched := State.modify_modify ..
  rw [← hmod]
  simp only [dispatch, run, hlog]
  rfl

theorem atYield_clock (h : m.Alone p) (htime : 0 ≤ m.kernel.time) (htime' : m.kernel.time + 1 < 2 ^ 31)
    (hticks : m.kernel.ticks + 1 < 2 ^ 32) : atYield m .usertrap =
      some (p, { m.kernel with time := m.kernel.time + 1, ticks := m.kernel.ticks + 1 }) := by
  have hw : clockintr m.kernel (some p) = { m.kernel with ticks := (m.kernel.ticks + 1) % 2 ^ 32 } :=
    wakeup_of_none h.sleepers
  have hint : int32 (m.kernel.time + 1) = m.kernel.time + 1 := int32_eq_self (by omega) htime'
  simpa [atYield, h.cproc, hw, h.killed, advanceTime, hint] using hticks

/-- The timer interrupt, and the iteration that resumes the process. -/
theorem final_kept (h : m.Alone p) (hr : m.Room p 1) :
    final (step idle) m [.usertrap, .schedule] = some (m.later p 1) := by
  have hu : (m.kernel.proc p).state ≠ .unused := by simp [h.running]
  have hq := hr.quantum
  have htime := hr.time
  have htime' := hr.time_lt
  have hboost := hr.boost 0 one_pos
  push_cast at hq htime' hboost
  have hs : ¬ (m.kernel.proc p).Spent := fun hs => by simp only [Proc.Spent] at hs; omega
  obtain ⟨k, hk⟩ : ∃ k, k = { m.kernel with time := m.kernel.time + 1, ticks := m.kernel.ticks + 1 } := ⟨_, rfl⟩
  have hy := atYield_clock h htime htime' hr.ticks_lt
  rw [← hk] at hy
  have hdue : ¬ boostDue k := by rw [hk]; exact hboost
  have hproc : k.proc = m.kernel.proc := by rw [hk]
  have hlog : ¬ k.logCount < LOG_SIZE := by rw [hk]; exact h.log
  have hmod : (k.modify p Proc.charged).modify p Proc.dispatched =
      k.modify p fun q => { q with runtime := q.runtime + 1 } := by
    rw [State.modify_modify]
    refine State.modify_congr ?_
    simp [hproc, Proc.dispatched, Proc.charged, ← h.running, ← h.chan]
  have htrap : step idle .usertrap m =
      some { kernel := { k.modify p Proc.charged with pKicked := false }, p := some p, cproc := none } := by
    simp only [step, hy, yield_eq, hdue, if_false, chargeTick_eq (hproc ▸ hu), hproc, hs, h.remembered]
  have hnext : dispatch { k.modify p Proc.charged with pKicked := false } p = m.later p 1 := by
    have hd : dispatch { k.modify p Proc.charged with pKicked := false } p =
        { kernel := { (k.modify p Proc.charged).modify p Proc.dispatched with pKicked := true }
          p := some p
          cproc := some p } := dispatch_full hlog
    rw [hd, hmod]
    simp [Machine.later, hk, h.remembered, h.cproc, h.pKicked, State.modify, State.setProc]
  rw [← hnext]
  exact final_pair htrap ((step_schedule rfl).trans rfl)

theorem Machine.later_zero (m : Machine) (p : Slot) : m.later p 0 = m := by
  simp [later]

theorem Machine.later_later (m : Machine) (p : Slot) (n : Nat) :
    (m.later p 1).later p n = m.later p (n + 1) := by
  have hint : ∀ x : Int, x + 1 + n = x + (n + 1) := fun x => by omega
  have hnat : m.kernel.ticks + 1 + n = m.kernel.ticks + (n + 1) := by omega
  simp only [later, Function.update_self, Function.update_idem, Nat.cast_add, Nat.cast_one, hint, hnat]

theorem Machine.Alone.later (h : m.Alone p) (n : Nat) : (m.later p n).Alone p where
  cproc := h.cproc
  remembered := h.remembered
  pKicked := h.pKicked
  running := by simpa [Machine.later] using h.running
  chan := by simpa [Machine.later] using h.chan
  killed := by simpa [Machine.later] using h.killed
  log := h.log
  sleepers i := by
    by_cases hi : i = p
    · subst hi; exact fun hs => hs.1 rfl
    · simpa [Machine.later, hi] using h.sleepers i

theorem Machine.Room.first {n : Nat} (h : m.Room p (n + 1)) : m.Room p 1 := by
  obtain ⟨hq, ht, htl, htk, hb⟩ := h
  push_cast at hq htl
  exact ⟨by push_cast; omega, ht, by push_cast; omega, by omega, fun j hj => hb j (by omega)⟩

theorem Machine.Room.rest {n : Nat} (h : m.Room p (n + 1)) : (m.later p 1).Room p n := by
  obtain ⟨hq, ht, htl, htk, hb⟩ := h
  push_cast at hq htl
  refine ⟨?_, ?_, ?_, ?_, fun j hj => ?_⟩
  · have hqq : Kernel.quantum ((m.later p 1).kernel.proc p) = Kernel.quantum (m.kernel.proc p) := by
      simp [Machine.later, Kernel.quantum]
    rw [hqq]
    simp only [Machine.later, Function.update_self]
    push_cast
    omega
  · simp only [Machine.later]
    push_cast
    omega
  · simp only [Machine.later]
    push_cast
    omega
  · simp only [Machine.later]
    omega
  · have := hb (j + 1) (by omega)
    simp only [Machine.later]
    push_cast at this ⊢
    rwa [add_assoc, add_comm (1 : Int)]

theorem final_later {n : Nat} (h : m.Alone p) (hr : m.Room p n) :
    final (step idle) m (List.replicate n [.usertrap, .schedule]).flatten = some (m.later p n) := by
  induction n generalizing m with
  | zero => rw [Machine.later_zero]; rfl
  | succ n ih =>
      rw [List.replicate_succ, List.flatten_cons, final_append, final_kept h hr.first, Option.bind_some,
        ih (h.later 1) hr.rest, Machine.later_later]

/-! ## A demotion -/

/-- Nothing is in the lists, and the entry of `p` is as `dequeue` has left it. -/
structure Machine.Drained (m : Machine) (p : Slot) : Prop where
  represents : Represents m.kernel.qtable Fifos.empty
  pass : m.kernel.qtable (p, .pass) = DEFAULT_PASS
  next : next m.kernel.qtable p = 999
  prev : prev m.kernel.qtable p = 999

def Machine.lowered (m : Machine) (p : Slot) : Machine :=
  { m with
    kernel :=
      { m.kernel with
        time := m.kernel.time + 1
        ticks := m.kernel.ticks + 1
        proc := Function.update m.kernel.proc p
          { m.kernel.proc p with queue := lower (m.kernel.proc p).queue, runtime := 0 } } }

/-- A slot that goes into empty lists comes out again, and the table is as before. -/
theorem dequeue_enqueueBack {t : QTable} (h : Represents t Fifos.empty) (hpass : t (p, .pass) = DEFAULT_PASS)
    (hn : next t p = 999) (hp : prev t p = 999) (q : Level) :
    dequeue.exec ((enqueueBack q p DEFAULT_PASS).exec t).2 = (some (p : Int), t) ∧
      ¬ NoneReady ((enqueueBack q p DEFAULT_PASS).exec t).2 := by
  have hfree : Fifos.empty.Free p := fun r => List.not_mem_nil
  obtain ⟨hne, hlast⟩ := h.prev_tail_ne hfree q
  have hrep := h.enqueueBack_spec hfree q DEFAULT_PASS
  have htop : Fifos.Top (Function.update Fifos.empty q (Fifos.empty q ++ [p])) q := by
    refine ⟨by simp, fun r hr => ?_⟩
    rw [Function.update_of_ne hr.ne']
    rfl
  have hL : Function.update Fifos.empty q (Fifos.empty q ++ [p]) q = [p] := by simp [Fifos.empty]
  obtain ⟨he, -⟩ := hrep.dequeue_spec htop hL
  have hnext : next t (prev t (gettail q)) ≠ p := by
    rw [hlast]
    exact fun he => slot_notMem_ring (hfree q) (he ▸ Links.tail_mem_ring)
  refine ⟨?_, fun hno => htop.1 ((noneReady_iff hrep).mp hno q)⟩
  rw [he, removePid_exec (index_int32 p), enqueueBack_exec hne,
    spliceOut_spliceIn hne hnext (by rw [hlast]) hpass hn hp]

/-- The tick that uses up the quantum, and the iteration that takes the process from its new list. -/
theorem final_lowered (h : m.Alone p) (hd : m.Drained p) (hs : (m.kernel.proc p).Spent)
    (htime : 0 ≤ m.kernel.time) (htime' : m.kernel.time + 1 < 2 ^ 31) (hticks : m.kernel.ticks + 1 < 2 ^ 32)
    (hboost : (m.kernel.time + 1).tmod 60 ≠ 0) :
    final (step idle) m [.usertrap, .schedule] = some (m.lowered p) := by
  have hu : (m.kernel.proc p).state ≠ .unused := by simp [h.running]
  obtain ⟨k, hk⟩ : ∃ k, k = { m.kernel with time := m.kernel.time + 1, ticks := m.kernel.ticks + 1 } := ⟨_, rfl⟩
  have hy := atYield_clock h htime htime' hticks
  rw [← hk] at hy
  have hdue : ¬ boostDue k := by rw [hk]; exact hboost
  have hproc : k.proc = m.kernel.proc := by rw [hk]
  have htable : k.qtable = m.kernel.qtable := by rw [hk]
  have hkick : k.pKicked = true := by rw [hk]; exact h.pKicked
  have hlog : ¬ k.logCount < LOG_SIZE := by rw [hk]; exact h.log
  have htrap : step idle .usertrap m = some
      { kernel := addToQueue (k.modify p Proc.demoted) p, p := some p, cproc := none } := by
    simp only [step, hy, yield_eq, hdue, if_false, chargeTick_eq (hproc ▸ hu), if_pos (hproc ▸ hs : (k.proc p).Spent),
      h.remembered]
  obtain ⟨hdeq, hready⟩ : dequeue.exec (addToQueue (k.modify p Proc.demoted) p).qtable = (some (p : Int), k.qtable) ∧
      ¬ NoneReady (addToQueue (k.modify p Proc.demoted) p).qtable := by
    obtain ⟨hrep, hpass, hn, hp⟩ := hd
    rw [← htable] at hrep hpass hn hp
    exact dequeue_enqueueBack hrep hpass hn hp _
  have hmod : (k.modify p Proc.demoted).modify p Proc.dispatched =
      k.modify p fun q => { q with queue := lower q.queue, runtime := 0 } := by
    rw [State.modify_modify]
    refine State.modify_congr ?_
    simp [hproc, Proc.dispatched, Proc.demoted, Proc.charged, ← h.running, ← h.chan]
  have hnext : scheduler idle { kernel := addToQueue (k.modify p Proc.demoted) p, p := some p, cproc := none } =
      some (m.lowered p) := by
    have hd : dispatch (k.modify p Proc.demoted) p =
        { kernel := { (k.modify p Proc.demoted).modify p Proc.dispatched with pKicked := true }
          p := some p
          cproc := some p } := dispatch_full hlog
    have he : m.lowered p = dispatch (k.modify p Proc.demoted) p := by
      rw [hd, hmod]
      simp [Machine.lowered, hk, h.remembered, h.cproc, h.pKicked, State.modify, State.setProc]
    rw [he]
    exact scheduler_dequeued hkick (fun hn => hready hn.2) hdeq
  exact final_pair htrap ((step_schedule rfl).trans hnext)

/-! ## The first process computes for most of a boost period -/

def interrupts (n : Nat) : List Event := (List.replicate n [.usertrap, .schedule]).flatten

theorem interrupts_succ (n : Nat) : interrupts (n + 1) = interrupts n ++ [.usertrap, .schedule] := by
  simp [interrupts, List.replicate_succ']

theorem Machine.Drained.later (h : m.Drained p) (n : Nat) : (m.later p n).Drained p :=
  ⟨h.represents, h.pass, h.next, h.prev⟩

theorem Machine.Drained.lowered (h : m.Drained p) : (m.lowered p).Drained p :=
  ⟨h.represents, h.pass, h.next, h.prev⟩

theorem Machine.Alone.lowered (h : m.Alone p) : (m.lowered p).Alone p where
  cproc := h.cproc
  remembered := h.remembered
  pKicked := h.pKicked
  running := by simpa [Machine.lowered] using h.running
  chan := by simpa [Machine.lowered] using h.chan
  killed := by simpa [Machine.lowered] using h.killed
  log := h.log
  sleepers i := by
    by_cases hi : i = p
    · subst hi; exact fun hs => hs.1 rfl
    · simpa [Machine.lowered, hi] using h.sleepers i

/-- At time `t` slot `p` runs alone, at level `q` with a fresh quantum. -/
structure Machine.Fresh (m : Machine) (p : Slot) (t : Nat) (q : Level) : Prop where
  alone : m.Alone p
  drained : m.Drained p
  runtime : (m.kernel.proc p).runtime = 0
  queue : (m.kernel.proc p).queue = q
  time : m.kernel.time = t
  ticks : m.kernel.ticks = t

theorem tmod_ne_zero {t : Nat} (h : t % 60 ≠ 0) : ((t : Nat) : Int).tmod 60 ≠ 0 := by
  rw [Int.tmod_eq_emod_of_nonneg (Int.natCast_nonneg t)]
  omega

theorem Machine.Fresh.quantum_eq {t : Nat} {q : Level} (h : m.Fresh p t q) :
    quantum (m.kernel.proc p) = if q = QUEUE_HIGH then 1 else if q = QUEUE_MEDIUM then 10 else 15 := by
  rw [quantum, h.queue]

theorem Machine.Fresh.room {t n : Nat} {q : Level} (h : m.Fresh p t q)
    (hn : n < quantum (m.kernel.proc p)) (ht : t + n < 2 ^ 31) (hb : ∀ j < n, (t + (j + 1)) % 60 ≠ 0) :
    m.Room p n := by
  refine ⟨?_, ?_, ?_, ?_, fun j hj => ?_⟩
  · rw [h.runtime]; omega
  · rw [h.time]; omega
  · rw [h.time]; exact_mod_cast ht
  · rw [h.ticks]; omega
  · rw [h.time]; exact_mod_cast tmod_ne_zero (hb j hj)

theorem Machine.Fresh.turn {t n : Nat} {q : Level} (h : m.Fresh p t q) (idle : Idle)
    (hn : quantum (m.kernel.proc p) = n + 1) (ht : t + (n + 1) < 2 ^ 31)
    (hb : ∀ j < n + 1, (t + (j + 1)) % 60 ≠ 0) :
    final (step idle) m (interrupts (n + 1)) = some ((m.later p n).lowered p) ∧
      ((m.later p n).lowered p).Fresh p (t + (n + 1)) (lower q) := by
  have hroom : m.Room p n := h.room (by omega) (by omega) fun j hj => hb j (by omega)
  have halone := h.alone.later n
  have hspent : ((m.later p n).kernel.proc p).Spent := by
    have hr := h.runtime
    simp only [Proc.Spent, Machine.later, Function.update_self, quantum] at hn ⊢
    omega
  have htime : (m.later p n).kernel.time = (t + n : Nat) := by
    have := h.time
    simp only [Machine.later]
    push_cast
    omega
  have hticks : (m.later p n).kernel.ticks = t + n := by
    simp only [Machine.later, h.ticks]
  have hboost : ((m.later p n).kernel.time + 1).tmod 60 ≠ 0 := by
    rw [htime]
    exact_mod_cast tmod_ne_zero (hb n (by omega))
  refine ⟨?_, halone.lowered, (h.drained.later n).lowered, ?_, ?_, ?_, ?_⟩
  · rw [interrupts_succ, final_append, interrupts, final_later h.alone hroom, Option.bind_some]
    exact final_lowered halone (h.drained.later n) hspent (by omega) (by omega) (by omega) hboost
  · simp [Machine.lowered]
  · simp [Machine.lowered, Machine.later, h.queue]
  · simp only [Machine.lowered, htime]
    push_cast
    omega
  · simp only [Machine.lowered, hticks]
    omega

def booted : Machine := ((step .asWritten .schedule (boot fun _ => 0)).getD (boot fun _ => 0))

theorem step_boot : step .asWritten .schedule (boot fun _ => 0) = some booted := by
  have hs : (step .asWritten .schedule (boot fun _ => 0)).isSome = true := by decide +kernel
  obtain ⟨m, hm⟩ := Option.isSome_iff_exists.mp hs
  rw [booted, hm, Option.getD_some]

theorem booted_fresh : booted.Fresh 0 0 QUEUE_MEDIUM := by
  obtain ⟨L, hL⟩ := Coherent.run (Run.single step_boot)
  have hnone : NoneReady booted.kernel.qtable := by decide +kernel
  have hempty : L = Fifos.empty := funext ((noneReady_iff hL.queued.represents).mp hnone)
  subst hempty
  refine ⟨⟨?_, ?_, ?_, ?_, ?_, ?_, ?_, ?_⟩, ⟨hL.queued.represents, ?_, ?_, ?_⟩, ?_, ?_, ?_, ?_⟩
  all_goals decide +kernel

/-- The first process computes from the start: it reaches the lowest level at time 10, and goes on there. -/
def hog (n : Nat) : Machine :=
  ((((((((booted.later 0 9).lowered 0).later 0 14).lowered 0).later 0 14).lowered 0).later 0 14).lowered 0).later 0 n

def hogEvents (n : Nat) : List Event :=
  .schedule :: (interrupts 10 ++ (interrupts 15 ++ (interrupts 15 ++ (interrupts 15 ++ interrupts n))))

theorem eq_of_mem_interrupts {n : Nat} {e : Event} (h : e ∈ interrupts n) : e = .usertrap ∨ e = .schedule := by
  obtain ⟨l, hl, he⟩ := List.mem_flatten.mp h
  rw [List.eq_of_mem_replicate hl] at he
  simpa using he

theorem eq_of_mem_hogEvents {n : Nat} {e : Event} (h : e ∈ hogEvents n) : e = .usertrap ∨ e = .schedule := by
  simp only [hogEvents, List.mem_cons, List.mem_append] at h
  rcases h with rfl | h | h | h | h | h
  · exact .inr rfl
  all_goals exact eq_of_mem_interrupts h

theorem final_hog {n : Nat} (hn : n < 5) : final (step .asWritten) (boot fun _ => 0) (hogEvents n) = some (hog n) := by
  obtain ⟨h₁, f₁⟩ := booted_fresh.turn .asWritten (n := 9) (by rw [booted_fresh.quantum_eq]; decide)
    (by decide) (by decide)
  obtain ⟨h₂, f₂⟩ := f₁.turn .asWritten (n := 14) (by rw [f₁.quantum_eq]; decide) (by decide) (by decide)
  obtain ⟨h₃, f₃⟩ := f₂.turn .asWritten (n := 14) (by rw [f₂.quantum_eq]; decide) (by decide) (by decide)
  obtain ⟨h₄, f₄⟩ := f₃.turn .asWritten (n := 14) (by rw [f₃.quantum_eq]; decide) (by decide) (by decide)
  have hquantum : quantum ((((((((booted.later 0 9).lowered 0).later 0 14).lowered 0).later 0 14).lowered 0).later
      0 14).lowered 0 |>.kernel.proc 0) = 15 := by rw [f₄.quantum_eq]; decide
  have hroom := f₄.room (n := n) (by omega) (by omega) fun j hj => by omega
  rw [hogEvents, final, step_boot, Option.bind_some, final_append, h₁, Option.bind_some, final_append, h₂,
    Option.bind_some, final_append, h₃, Option.bind_some, final_append, h₄, Option.bind_some]
  exact final_later f₄.alone hroom

/-- A run in which the first process computes until time `55 + n` is found by playing the rest of it. -/
theorem replay_hog {n : Nat} (hn : n < 5) {es : List Event} {P : Machine → Bool}
    (h : (final (step .asWritten) (hog n) es).any P = true) :
    ∃ tr m, Run (step .asWritten) (boot fun _ => 0) tr m ∧ tr.map Transition.event = hogEvents n ++ es ∧
      P m = true := by
  refine Run.replay ?_
  rw [final_append, final_hog hn, Option.bind_some]
  exact h

end Xv6Mlfq.Kernel
