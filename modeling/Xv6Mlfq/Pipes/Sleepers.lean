import Xv6Mlfq.Pipes.Order

/-!
# Who sleeps on a pipe

A reader sleeps on an empty pipe only and a writer on a full one. One thing breaks this: a writer that is killed
while it is in the loop of `pipewrite` returns without a `wakeup`, so readers sleep on although it has written.
-/

namespace Xv6Mlfq.Pipes

open Rings Runs
open Queue (Slot)

variable {s s' : System} {e : Event} {p q : Slot} {c : Call} {data : Fin PIPESIZE → UInt8}
  {tr : List (Transition System Event)}

/-- The process holds the lock. -/
def Call.holds : Call → Bool
  | .writeLoop _ _ | .writeTested _ _ | .readHead _ | .readTested _ | .readLoop _ _ => true
  | _ => false

/-- The process is in the loop of `pipewrite`. -/
def Call.writes : Call → Bool
  | .writeLoop _ _ | .writeTested _ _ => true
  | _ => false

/-- The process will wake the readers before it releases the lock. -/
def System.Writing (s : System) (p : Slot) : Prop :=
  (s.call p).writes = true ∧ s.pipe.readopen = true ∧ s.killed p = false

/-- The process will wake the writers before it releases the lock. -/
def System.Reading (s : System) (p : Slot) : Prop := ∃ i n, s.call p = .readLoop i n

/-- What a process has tested still holds. -/
def System.Tested (s : System) (p : Slot) : Prop :=
  match s.call p with
  | .writeTested _ _ => s.pipe.readopen = true ∧ s.killed p = false
  | .readTested _ => s.pipe.empty = true ∧ s.pipe.writeopen = true
  | _ => True

structure Waiting (s : System) : Prop where
  lock : ∀ p, (s.call p).holds = true ↔ s.lock = some p
  tested : ∀ p, s.lock = some p → s.Tested p
  readers : ∀ p n, s.call p = .readAsleep n →
    (s.pipe.empty = true ∧ s.pipe.writeopen = true) ∨ ∃ q, s.Writing q
  writers : ∀ p i n, s.call p = .writeAsleep i n →
    (s.pipe.full = true ∧ s.pipe.readopen = true) ∨ ∃ q, s.Reading q

/-- No writer is killed between its `acquire` and its `release`. -/
def Event.Spares (s : System) : Event → Prop
  | .kill p => (s.call p).writes = false
  | _ => True

theorem wakeReaders_cases (call : Slot → Call) (q : Slot) :
    (∃ n, call q = .readAsleep n ∧ wakeReaders call q = .readAcquire n) ∨
      (∀ n, call q ≠ .readAsleep n) ∧ wakeReaders call q = call q := by
  unfold wakeReaders
  cases call q with
  | readAsleep n => exact .inl ⟨n, rfl, rfl⟩
  | _ => exact .inr ⟨fun _ => Call.noConfusion, rfl⟩

theorem wakeWriters_cases (call : Slot → Call) (q : Slot) :
    (∃ i n, call q = .writeAsleep i n ∧ wakeWriters call q = .writeAcquire i n) ∨
      (∀ i n, call q ≠ .writeAsleep i n) ∧ wakeWriters call q = call q := by
  unfold wakeWriters
  cases call q with
  | writeAsleep i n => exact .inl ⟨i, n, rfl, rfl⟩
  | _ => exact .inr ⟨fun _ _ => Call.noConfusion, rfl⟩

theorem wakeReaders_ne (call : Slot → Call) (q : Slot) (n : Int) : wakeReaders call q ≠ .readAsleep n := by
  rcases wakeReaders_cases call q with ⟨m, -, hq⟩ | ⟨hne, hq⟩
  · rw [hq]
    exact Call.noConfusion
  · rw [hq]
    exact hne n

theorem wakeWriters_ne (call : Slot → Call) (q : Slot) (i n : Int) : wakeWriters call q ≠ .writeAsleep i n := by
  rcases wakeWriters_cases call q with ⟨j, m, -, hq⟩ | ⟨hne, hq⟩
  · rw [hq]
    exact Call.noConfusion
  · rw [hq]
    exact hne i n

/-- The calls of the others, as far as the lock is concerned. -/
theorem wakeReaders_holds (call : Slot → Call) (q : Slot) : (wakeReaders call q).holds = (call q).holds := by
  rcases wakeReaders_cases call q with ⟨n, hq, hq'⟩ | ⟨-, hq'⟩
  · rw [hq, hq']
    rfl
  · rw [hq']

theorem wakeWriters_holds (call : Slot → Call) (q : Slot) : (wakeWriters call q).holds = (call q).holds := by
  rcases wakeWriters_cases call q with ⟨i, n, hq, hq'⟩ | ⟨-, hq'⟩
  · rw [hq, hq']
    rfl
  · rw [hq']

theorem wakeReaders_writeAsleep {call : Slot → Call} {i n : Int} (h : wakeReaders call q = .writeAsleep i n) :
    call q = .writeAsleep i n := by
  rcases wakeReaders_cases call q with ⟨m, -, hq⟩ | ⟨-, hq⟩
  · exact Call.noConfusion (hq.symm.trans h)
  · exact hq.symm.trans h

theorem wakeWriters_readAsleep {call : Slot → Call} {n : Int} (h : wakeWriters call q = .readAsleep n) :
    call q = .readAsleep n := by
  rcases wakeWriters_cases call q with ⟨i, m, -, hq⟩ | ⟨-, hq⟩
  · exact Call.noConfusion (hq.symm.trans h)
  · exact hq.symm.trans h

theorem awake_ne (c : Call) : (∀ n, c.awake ≠ .readAsleep n) ∧ ∀ i n, c.awake ≠ .writeAsleep i n := by
  cases c with
  | _ => exact ⟨fun _ => Call.noConfusion, fun _ _ => Call.noConfusion⟩

theorem awake_holds (c : Call) : c.awake.holds = c.holds := by
  cases c with
  | _ => rfl

theorem Call.holds_of_writes (h : c.writes = true) : c.holds = true := by
  cases c with
  | writeLoop i n => rfl
  | writeTested i n => rfl
  | _ => cases h

theorem awake_of_holds (h : c.holds = true) : c.awake = c := by
  cases c with
  | writeAsleep i n => cases h
  | readAsleep n => cases h
  | _ => rfl

theorem System.Tested.congr {t : System} (h : s.Tested q) (hcall : t.call q = s.call q) (hpipe : t.pipe = s.pipe)
    (hkilled : t.killed q = s.killed q) : t.Tested q := by
  unfold System.Tested
  rw [hcall, hpipe, hkilled]
  exact h

/-- Nothing is tested in the other places. -/
theorem tested_of_call (hw : ∀ i n, s.call p ≠ .writeTested i n) (hr : ∀ n, s.call p ≠ .readTested n) : s.Tested p := by
  unfold System.Tested
  split
  · exact absurd ‹_› (hw _ _)
  · exact absurd ‹_› (hr _)
  · trivial

namespace Waiting

theorem holder (h : Waiting s) (hp : (s.call p).holds = true) (hq : (s.call q).holds = true) : q = p :=
  Option.some.inj (((h.lock q).mp hq).symm.trans ((h.lock p).mp hp))

theorem not_holds (h : Waiting s) (hfree : s.lock = none) (q : Slot) : (s.call q).holds = false := by
  by_contra hq
  have hlock := (h.lock q).mp (Bool.eq_true_of_not_eq_false hq)
  rw [hfree] at hlock
  cases hlock

/-- The holder of the lock gives it up. -/
theorem lock_release {t : System} (h : Waiting s) (hp : (s.call p).holds = true) (hc : c.holds = false)
    (ht : ∀ q, (t.call q).holds = (s.call q).holds) (q : Slot) :
    ((t.release p c).call q).holds = true ↔ (t.release p c).lock = some q := by
  rw [release_lock]
  refine ⟨fun hq => ?_, fun hq => by cases hq⟩
  by_cases hqp : q = p
  · rw [hqp, release_self, hc] at hq
    cases hq
  · rw [release_of_ne hqp, ht q] at hq
    exact absurd (h.holder hp hq) hqp

/-- A process goes from one call to another; neither holds the lock or both do. -/
theorem lock_setCall (h : Waiting s) (hc : c.holds = (s.call p).holds) (q : Slot) :
    ((s.setCall p c).call q).holds = true ↔ s.lock = some q := by
  by_cases hqp : q = p
  · rw [hqp, setCall_self, hc]
    exact h.lock p
  · rw [setCall_of_ne hqp]
    exact h.lock q

theorem lock_acquire (h : Waiting s) (hfree : s.lock = none) (hc : c.holds = true) (q : Slot) :
    ((s.setCall p c).call q).holds = true ↔ some p = some q := by
  by_cases hqp : q = p
  · rw [hqp, setCall_self, hc]
    simp
  · rw [setCall_of_ne hqp, h.not_holds hfree q]
    simp [Ne.symm hqp]

theorem readers_kept (h : Waiting s) (hcall : ∀ q n, s'.call q = .readAsleep n → s.call q = .readAsleep n)
    (hpipe : s'.pipe.empty = s.pipe.empty ∧ s'.pipe.writeopen = s.pipe.writeopen)
    (hwriting : ∀ q, s.Writing q → s'.Writing q) (p : Slot) (n : Int) (hp : s'.call p = .readAsleep n) :
    (s'.pipe.empty = true ∧ s'.pipe.writeopen = true) ∨ ∃ q, s'.Writing q := by
  rw [hpipe.1, hpipe.2]
  exact (h.readers p n (hcall p n hp)).imp_right fun ⟨q, hq⟩ => ⟨q, hwriting q hq⟩

theorem writers_kept (h : Waiting s) (hcall : ∀ q i n, s'.call q = .writeAsleep i n → s.call q = .writeAsleep i n)
    (hpipe : s'.pipe.full = s.pipe.full ∧ s'.pipe.readopen = s.pipe.readopen)
    (hreading : ∀ q, s.Reading q → s'.Reading q) (p : Slot) (i n : Int) (hp : s'.call p = .writeAsleep i n) :
    (s'.pipe.full = true ∧ s'.pipe.readopen = true) ∨ ∃ q, s'.Reading q := by
  rw [hpipe.1, hpipe.2]
  exact (h.writers p i n (hcall p i n hp)).imp_right fun ⟨q, hq⟩ => ⟨q, hreading q hq⟩

theorem not_writing (h : Waiting s) (hp : (s.call p).holds = true) (hne : (s.call p).writes = false) (q : Slot) :
    ¬ s.Writing q := by
  rintro ⟨hq, -⟩
  rw [h.holder hp (Call.holds_of_writes hq), hne] at hq
  cases hq

theorem not_reading (h : Waiting s) (hp : (s.call p).holds = true) (hne : ∀ i n, s.call p ≠ .readLoop i n)
    (q : Slot) : ¬ s.Reading q := by
  rintro ⟨i, n, hq⟩
  have hqp : q = p := h.holder hp (by rw [hq]; rfl)
  exact hne i n (hqp ▸ hq)

theorem not_writing_of_free (h : Waiting s) (hfree : s.lock = none) (q : Slot) : ¬ s.Writing q := by
  rintro ⟨hq, -⟩
  exact absurd ((h.not_holds hfree q).symm.trans (Call.holds_of_writes hq)) Bool.noConfusion

theorem not_reading_of_free (h : Waiting s) (hfree : s.lock = none) (q : Slot) : ¬ s.Reading q := by
  rintro ⟨i, n, hq⟩
  have hholds := h.not_holds hfree q
  rw [hq] at hholds
  cases hholds

theorem setCall_eq {d : Call} (hc : c ≠ d) {q : Slot} (hq : (s.setCall p c).call q = d) : q ≠ p ∧ s.call q = d := by
  have hqp : q ≠ p := by
    rintro rfl
    exact hc (setCall_self.symm.trans hq)
  exact ⟨hqp, (setCall_of_ne hqp).symm.trans hq⟩

theorem release_eq {d : Call} (hc : c ≠ d) {q : Slot} (hq : (s.release p c).call q = d) : q ≠ p ∧ s.call q = d := by
  have hqp : q ≠ p := by
    rintro rfl
    exact hc (release_self.symm.trans hq)
  exact ⟨hqp, (release_of_ne hqp).symm.trans hq⟩

/-- A call begins. -/
theorem begin (h : Waiting s) (hp : s.call p = .out) (hc : c.holds = false) (hr : ∀ n, c ≠ .readAsleep n)
    (hw : ∀ i n, c ≠ .writeAsleep i n) : Waiting (s.setCall p c) := by
  have hother {q : Slot} (hq : (s.call q).holds = true) : (s.setCall p c).call q = s.call q := by
    refine setCall_of_ne fun hqp => ?_
    rw [hqp, hp] at hq
    cases hq
  refine ⟨h.lock_setCall (by rw [hp, hc]; rfl),
    fun q hq => (h.tested q hq).congr (hother ((h.lock q).mpr hq)) rfl rfl,
    h.readers_kept (fun q n hq => (setCall_eq (hr n) hq).2) ⟨rfl, rfl⟩ ?_,
    h.writers_kept (fun q i n hq => (setCall_eq (hw i n) hq).2) ⟨rfl, rfl⟩ ?_⟩
  · rintro q ⟨hq, hbody⟩
    exact ⟨by rwa [hother (Call.holds_of_writes hq)], hbody⟩
  · rintro q ⟨i, n, hq⟩
    exact ⟨i, n, (hother (by rw [hq]; rfl)).trans hq⟩

/-- The lock is taken. -/
theorem acquire (h : Waiting s) (hfree : s.lock = none) (hc : c.holds = true) (hwt : ∀ i n, c ≠ .writeTested i n)
    (hrt : ∀ n, c ≠ .readTested n) : Waiting { s.setCall p c with lock := some p } := by
  have hr (n : Int) : c ≠ .readAsleep n := by
    rintro rfl
    cases hc
  have hw (i n : Int) : c ≠ .writeAsleep i n := by
    rintro rfl
    cases hc
  refine ⟨h.lock_acquire hfree hc, fun q hq => ?_,
    h.readers_kept (fun q n hq => (setCall_eq (hr n) hq).2) ⟨rfl, rfl⟩ fun q hq => absurd hq (h.not_writing_of_free hfree q),
    h.writers_kept (fun q i n hq => (setCall_eq (hw i n) hq).2) ⟨rfl, rfl⟩
      fun q hq => absurd hq (h.not_reading_of_free hfree q)⟩
  obtain rfl := Option.some.inj hq
  exact tested_of_call (fun i n => setCall_self.trans_ne (hwt i n)) fun n => setCall_self.trans_ne (hrt n)

/-- The readers are woken, and the lock is released. -/
theorem release_readers (h : Waiting s) (hp : (s.call p).holds = true) (hne : ∀ i n, s.call p ≠ .readLoop i n)
    (hc : c.holds = false) (hr : ∀ n, c ≠ .readAsleep n)
    (hw : ∀ i n, c = .writeAsleep i n → s.pipe.full = true ∧ s.pipe.readopen = true) :
    Waiting ({ s with call := wakeReaders s.call }.release p c) := by
  refine ⟨h.lock_release hp hc (wakeReaders_holds s.call), fun q hq => (by cases hq), fun q n hq => ?_,
    fun q i n hq => ?_⟩
  · exact absurd (release_eq (hr n) hq).2 (wakeReaders_ne s.call q n)
  · by_cases hcw : c = .writeAsleep i n
    · exact .inl (hw i n hcw)
    · refine (h.writers q i n (wakeReaders_writeAsleep (release_eq hcw hq).2)).imp_right fun ⟨r, hreading⟩ => ?_
      exact absurd hreading (h.not_reading hp hne r)

/-- The writers are woken, and the lock is released. -/
theorem release_writers {pipe : Pipe} (h : Waiting s) (hp : (s.call p).holds = true) (hne : (s.call p).writes = false)
    (hpipe : s.pipe.empty = false ∨ pipe = s.pipe) :
    Waiting ({ s with call := wakeWriters s.call, pipe := pipe }.release p .out) := by
  refine ⟨h.lock_release (t := { s with call := wakeWriters s.call, pipe := pipe }) hp rfl (wakeWriters_holds s.call),
    fun q hq => (by cases hq), fun q n hq => ?_, fun q i n hq => ?_⟩
  · have hasleep := wakeWriters_readAsleep (release_eq Call.noConfusion hq).2
    rcases h.readers q n hasleep with hempty | ⟨r, hwriting⟩
    · rcases hpipe with hsome | rfl
      · exact absurd (hsome.symm.trans hempty.1) Bool.false_ne_true
      · exact .inl hempty
    · exact absurd hwriting (h.not_writing hp hne r)
  · exact absurd (release_eq Call.noConfusion hq).2 (wakeWriters_ne s.call q i n)

/-- The lock is released, and nobody is woken. -/
theorem release_quiet (h : Waiting s) (hp : (s.call p).holds = true) (hc : c.holds = false)
    (hr : ∀ n, c = .readAsleep n → s.pipe.empty = true ∧ s.pipe.writeopen = true) (hw : ∀ i n, c ≠ .writeAsleep i n)
    (hwriting : ¬ s.Writing p) (hreading : ∀ i n, s.call p ≠ .readLoop i n) : Waiting (s.release p c) := by
  have hnone (q : Slot) (hq : s.Writing q) : False := by
    obtain rfl : q = p := h.holder hp (Call.holds_of_writes hq.1)
    exact hwriting hq
  refine ⟨h.lock_release (t := s) hp hc fun _ => rfl, fun q hq => (by cases hq), fun q n hq => ?_,
    h.writers_kept (fun q i n hq => (release_eq (hw i n) hq).2) ⟨rfl, rfl⟩ fun q hq => ?_⟩
  · by_cases hcr : c = .readAsleep n
    · exact .inl (hr n hcr)
    · exact (h.readers q n (release_eq hcr hq).2).imp_right fun ⟨r, hr⟩ => (hnone r hr).elim
  · exact absurd hq (h.not_reading hp hreading q)

/-- What holds of the holder of the lock. -/
theorem tested_holder {t : System} (h : Waiting s) (hp : (s.call p).holds = true) (ht : t.Tested p) (q : Slot)
    (hq : s.lock = some q) : t.Tested q := by
  obtain rfl : q = p := h.holder hp ((h.lock q).mpr hq)
  exact ht

/-- The holder of the lock goes on, and the pipe stays as it is. -/
theorem inside (h : Waiting s) (hp : (s.call p).holds = true) (hc : c.holds = true) (ht : (s.setCall p c).Tested p)
    (hw : s.Writing p → (s.setCall p c).Writing p) (hr : s.Reading p → (s.setCall p c).Reading p) :
    Waiting (s.setCall p c) := by
  refine ⟨h.lock_setCall (hc.trans hp.symm), h.tested_holder hp ht,
    h.readers_kept (fun q n hq => (setCall_eq ?_ hq).2) ⟨rfl, rfl⟩ fun q hq => ?_,
    h.writers_kept (fun q i n hq => (setCall_eq ?_ hq).2) ⟨rfl, rfl⟩ fun q hq => ?_⟩
  · rintro rfl
    cases hc
  · obtain rfl : q = p := h.holder hp (Call.holds_of_writes hq.1)
    exact hw hq
  · rintro rfl
    cases hc
  · have hq' := hq
    obtain ⟨i, n, hcall⟩ := hq'
    obtain rfl : q = p := h.holder hp (by rw [hcall]; rfl)
    exact hr hq

/-- What the holder of the lock has tested. -/
theorem tested_at (h : Waiting s) (hp : s.call p = c) (hc : c.holds = true) : s.Tested p :=
  h.tested p ((h.lock p).mp (hp ▸ hc))

/-- A byte goes into the pipe, and the writer stays in its loop. -/
theorem put {ch : UInt8} {i n : Int} (h : Waiting s) (hp : s.call p = .writeTested i n) (hroom : s.pipe.full = false) :
    Waiting { s.setCall p (.writeLoop (i + 1) n) with pipe := s.pipe.put ch } := by
  have hholds : (s.call p).holds = true := by rw [hp]; rfl
  have htested := h.tested_at hp rfl
  simp only [System.Tested, hp] at htested
  refine ⟨h.lock_setCall (by rw [hp]; rfl), h.tested_holder hholds (by simp [System.Tested]), fun q m _ => ?_,
    fun q j m hq => ?_⟩
  · exact .inr ⟨p, by rw [setCall_self]; rfl, htested⟩
  · -- The pipe has room, so no writer is asleep.
    rcases h.writers q j m (setCall_eq Call.noConfusion hq).2 with ⟨hfull, -⟩ | ⟨r, hreading⟩
    · exact absurd (hroom.symm.trans hfull) Bool.false_ne_true
    · exact absurd hreading (h.not_reading hholds (by rw [hp]; exact fun _ _ => Call.noConfusion) r)

/-- A byte is taken from the pipe, and the reader stays in its loop. -/
theorem take {pipe : Pipe} {i n : Int} (h : Waiting s) (hp : s.call p = .readLoop i n) (hsome : s.pipe.empty = false) :
    Waiting { s.setCall p (.readLoop (i + 1) n) with pipe := pipe } := by
  have hholds : (s.call p).holds = true := by rw [hp]; rfl
  refine ⟨h.lock_setCall (by rw [hp]; rfl), h.tested_holder hholds (by simp [System.Tested]), fun q m hq => ?_,
    fun q j m _ => .inr ⟨p, _, _, setCall_self⟩⟩
  -- The pipe is not empty, so no reader is asleep.
  rcases h.readers q m (setCall_eq Call.noConfusion hq).2 with ⟨hempty, -⟩ | ⟨r, hwriting⟩
  · exact absurd (hsome.symm.trans hempty) Bool.false_ne_true
  · exact absurd hwriting (h.not_writing hholds (by rw [hp]; rfl) r)

theorem killed (h : Waiting s) (hspares : (s.call p).writes = false) :
    Waiting { s.setCall p (s.call p).awake with killed := Function.update s.killed p true } := by
  refine ⟨h.lock_setCall (awake_holds _), fun q hq => ?_, h.readers_kept (fun q n hq => ?_) ⟨rfl, rfl⟩ ?_,
    h.writers_kept (fun q i n hq => ?_) ⟨rfl, rfl⟩ ?_⟩
  · have hholds := (h.lock q).mpr hq
    by_cases hqp : q = p
    · subst hqp
      have htested := h.tested q hq
      have hcall : (s.setCall q (s.call q).awake).call q = s.call q := setCall_self.trans (awake_of_holds hholds)
      unfold System.Tested at htested ⊢
      dsimp only [setCall_pipe]
      rw [hcall]
      cases hc : s.call q with
      | writeTested i n =>
          rw [hc] at hspares
          cases hspares
      | readTested n => rwa [hc] at htested
      | _ => trivial
    · exact (h.tested q hq).congr (setCall_of_ne hqp) rfl (Function.update_of_ne hqp ..)
  · exact (setCall_eq ((awake_ne _).1 n) hq).2
  · rintro q ⟨hq, hopen, hlive⟩
    have hqp : q ≠ p := by
      rintro rfl
      exact absurd (hq.symm.trans hspares) Bool.noConfusion
    exact ⟨by rwa [← setCall_of_ne hqp] at hq, hopen, (Function.update_of_ne hqp ..).trans hlive⟩
  · exact (setCall_eq ((awake_ne _).2 i n) hq).2
  · rintro q ⟨i, n, hq⟩
    refine ⟨i, n, ?_⟩
    by_cases hqp : q = p
    · subst hqp
      exact setCall_self.trans (by rw [hq]; rfl)
    · exact (setCall_of_ne hqp).trans hq

theorem reused (h : Waiting s) (hp : s.call p = .out) :
    Waiting { s with killed := Function.update s.killed p false } := by
  have hne {q : Slot} (hq : (s.call q).holds = true) : q ≠ p := by
    rintro rfl
    rw [hp] at hq
    cases hq
  refine ⟨h.lock, fun q hq => ?_, h.readers_kept (fun _ _ hq => hq) ⟨rfl, rfl⟩ ?_,
    h.writers_kept (fun _ _ _ hq => hq) ⟨rfl, rfl⟩ fun _ hq => hq⟩
  · exact (h.tested q hq).congr rfl rfl (Function.update_of_ne (hne ((h.lock q).mpr hq)) ..)
  · rintro q ⟨hq, hopen, hlive⟩
    exact ⟨hq, hopen, (Function.update_of_ne (hne (Call.holds_of_writes hq)) ..).trans hlive⟩

theorem step (h : Waiting s) (hs : System.step e s = some s') (hspares : e.Spares s) : Waiting s' := by
  cases step_stepped hs with
  | pipewrite hp => exact h.begin hp rfl (fun _ => Call.noConfusion) fun _ _ => Call.noConfusion
  | piperead hp => exact h.begin hp rfl (fun _ => Call.noConfusion) fun _ _ => Call.noConfusion
  | acquireWrite hp hfree => exact h.acquire hfree rfl (fun _ _ => Call.noConfusion) fun _ => Call.noConfusion
  | acquireRead hp hfree => exact h.acquire hfree rfl (fun _ _ => Call.noConfusion) fun _ => Call.noConfusion
  | @testWrite p i n hp hopen hlive =>
      refine h.inside (by rw [hp]; rfl) rfl (by simp [System.Tested, hopen, hlive])
        (fun hq => ⟨by rw [setCall_self]; rfl, hq.2⟩) ?_
      rintro ⟨j, m, hq⟩
      exact Call.noConfusion (hp.symm.trans hq)
  | @testRead p n hp hempty hopen =>
      refine h.inside (by rw [hp]; rfl) rfl (by simp [System.Tested, hempty, hopen]) (fun hq => ?_) ?_
      · exact absurd hq.1 (by rw [hp]; exact Bool.noConfusion)
      · rintro ⟨j, m, hq⟩
        exact Call.noConfusion (hp.symm.trans hq)
  | store hp hroom => exact h.put hp hroom
  | faultIn hp hroom =>
      exact h.release_readers (by rw [hp]; rfl) (by rw [hp]; exact fun _ _ => Call.noConfusion) rfl
        (fun _ => Call.noConfusion) fun _ _ => Call.noConfusion
  | @proceed p n hp =>
      refine h.inside (by rw [hp]; rfl) rfl (by simp [System.Tested]) (fun hq => ?_) fun _ => ⟨0, n, setCall_self⟩
      exact absurd hq.1 (by rw [hp]; exact Bool.noConfusion)
  | load hp hsome => exact h.take hp hsome
  | faultOut hp hsome => exact h.release_writers (by rw [hp]; rfl) (by rw [hp]; rfl) (.inl hsome)
  | sleepWrite hp hfull =>
      have htested := h.tested_at hp rfl
      simp only [System.Tested, hp] at htested
      exact h.release_readers (by rw [hp]; rfl) (by rw [hp]; exact fun _ _ => Call.noConfusion) rfl
        (fun _ => Call.noConfusion) fun _ _ _ => ⟨hfull, htested.1⟩
  | sleepRead hp =>
      have htested := h.tested_at hp rfl
      simp only [System.Tested, hp] at htested
      refine h.release_quiet (by rw [hp]; rfl) rfl (fun _ _ => htested) (fun _ _ => Call.noConfusion) ?_
        (by rw [hp]; exact fun _ _ => Call.noConfusion)
      exact fun hq => absurd hq.1 (by rw [hp]; exact Bool.noConfusion)
  | retBroken hp hbroken =>
      refine h.release_quiet (by rw [hp]; rfl) rfl (fun _ => Call.noConfusion) (fun _ _ => Call.noConfusion) ?_
        (by rw [hp]; exact fun _ _ => Call.noConfusion)
      rintro ⟨-, hopen, hlive⟩
      rcases hbroken with hclosed | hkilled
      · exact absurd (hclosed.symm.trans hopen) Bool.false_ne_true
      · exact absurd (hlive.symm.trans hkilled) Bool.false_ne_true
  | retWrite hp =>
      exact h.release_readers (by rw [hp]; rfl) (by rw [hp]; exact fun _ _ => Call.noConfusion) rfl
        (fun _ => Call.noConfusion) fun _ _ => Call.noConfusion
  | retKilled hp =>
      refine h.release_quiet (by rw [hp]; rfl) rfl (fun _ => Call.noConfusion) (fun _ _ => Call.noConfusion) ?_
        (by rw [hp]; exact fun _ _ => Call.noConfusion)
      exact fun hq => absurd hq.1 (by rw [hp]; exact Bool.noConfusion)
  | retRead hp => exact h.release_writers (by rw [hp]; rfl) (by rw [hp]; rfl) (.inr rfl)
  | kill => exact h.killed hspares
  | reuse hp => exact h.reused hp
  | closeWrite hfree =>
      refine ⟨fun q => (by rw [wakeReaders_holds]; exact h.lock q), fun q hq => ?_, fun q n hq => ?_, h.writers_kept
        (fun q i n hq => wakeReaders_writeAsleep hq) ⟨rfl, rfl⟩ fun q hq => ?_⟩
      · exact absurd (hfree.symm.trans hq) (Option.some_ne_none q).symm
      · exact absurd hq (wakeReaders_ne s.call q n)
      · exact absurd hq (h.not_reading_of_free hfree q)
  | closeRead hfree =>
      refine ⟨fun q => (by rw [wakeWriters_holds]; exact h.lock q), fun q hq => ?_, h.readers_kept
        (fun q n hq => wakeWriters_readAsleep hq) ⟨rfl, rfl⟩ fun q hq => ?_, fun q i n hq => ?_⟩
      · exact absurd (hfree.symm.trans hq) (Option.some_ne_none q).symm
      · exact absurd hq (h.not_writing_of_free hfree q)
      · exact absurd hq (wakeWriters_ne s.call q i n)

end Waiting

/-- Unless a writer is killed while it holds the lock, readers sleep only on an empty pipe that can still be written
and writers only on a full one that can still be read, whenever the lock is free. -/
theorem pipe_sleepers (h : Run System.step (System.fresh data) tr s) (hspares : ∀ x ∈ tr, x.event.Spares x.pre)
    (hfree : s.lock = none) :
    (∀ p n, s.call p = .readAsleep n → s.pipe.contents = [] ∧ s.pipe.writeopen = true) ∧
      ∀ p i n, s.call p = .writeAsleep i n → s.pipe.contents.length = PIPESIZE ∧ s.pipe.readopen = true := by
  have hwaiting : Waiting s := by
    refine h.invariant (I := Waiting) ⟨fun p => ?_, fun p hp => (by cases hp), fun p n hp => Call.noConfusion hp,
      fun p i n hp => Call.noConfusion hp⟩ fun x hx hs hpre => hpre.step hs (hspares x hx)
    exact ⟨fun hp => (by cases hp), fun hp => (by cases hp)⟩
  refine ⟨fun p n hp => ?_, fun p i n hp => ?_⟩
  · rcases hwaiting.readers p n hp with ⟨hempty, hopen⟩ | ⟨q, hwriting⟩
    · exact ⟨Pipe.empty_iff.mp hempty, hopen⟩
    · exact absurd hwriting (hwaiting.not_writing_of_free hfree q)
  · rcases hwaiting.writers p i n hp with ⟨hfull, hopen⟩ | ⟨q, hreading⟩
    · exact ⟨Pipe.full_iff.mp hfull, hopen⟩
    · exact absurd hreading (hwaiting.not_reading_of_free hfree q)

/-- A reader sleeps although another has been woken and has emptied the pipe. -/
theorem pipe_sleepers_two : ∃ s : System, s.call 1 = .readAsleep 1 ∧
    ((∀ p n, s.call p = .readAsleep n → s.pipe.contents = [] ∧ s.pipe.writeopen = true) ∧
      ∀ p i n, s.call p = .writeAsleep i n → s.pipe.contents.length = PIPESIZE ∧ s.pipe.readopen = true) := by
  let events : List Event := [.piperead 1 1, .acquire 1, .test 1, .sleep 1, .piperead 2 1, .pipewrite 0 1, .acquire 0,
    .test 0, .store 0 5, .ret 0 1, .acquire 2, .proceed 2, .load 2 5, .ret 2 1, .acquire 1, .test 1, .sleep 1]
  have hplay : (final System.step (System.fresh fun _ => 0) events).any
      (fun s => s.call 1 = .readAsleep 1 ∧ s.lock = none) = true := by decide +kernel
  have hkill : ∀ e ∈ events, ∀ s : System, e.Spares s := by simp [events, Event.Spares]
  obtain ⟨tr, s, h, hevents, hs⟩ := Run.replay hplay
  obtain ⟨hcall, hfree⟩ := of_decide_eq_true hs
  refine ⟨s, hcall, pipe_sleepers h (fun x hx => hkill _ ?_ x.pre) hfree⟩
  exact hevents ▸ List.mem_map_of_mem (f := Transition.event) hx

-- The writer is killed after it has stored a byte, and the reader sleeps on.
example :
    (final System.step (System.fresh fun _ => 0) [.piperead 1 1, .acquire 1, .test 1, .sleep 1, .pipewrite 0 2,
      .acquire 0, .test 0, .store 0 5, .kill 0, .ret 0 (-1)]).any
        (fun s => s.call 1 = .readAsleep 1 ∧ s.lock = none ∧ s.pipe.contents = [5]) = true := by
  decide +kernel

end Xv6Mlfq.Pipes
