import Xv6Mlfq.ExitWait.Kin
import Xv6Mlfq.ExitWait.Protocol
import Xv6Mlfq.Kernel.Lemmas.Slots

/-!
# What holds between two steps of the protocol

The clauses for a process are about the point where it stands. A process that rests in `wait` has children, and a
dead one among them only while the `wakeup` of that process is still to come.
-/

namespace Xv6Mlfq.ExitWait

open Access Queue Kernel

/-! ## The table as a family -/

def phaseOf : ProcState → Phase
  | .unused => .unused
  | .used => .used
  | .sleeping | .runnable | .running => .alive
  | .zombie => .zombie

def phases (k : State) (i : Slot) : Phase := phaseOf (k.proc i).state

def parents (k : State) (i : Slot) : Option Slot := (k.proc i).parent

namespace System

def phase (s : System) : Slot → Phase := phases s.kernel

def parent (s : System) : Slot → Option Slot := parents s.kernel

end System

/-! ## Where a process stands -/

namespace Pc

/-- The process holds `wait_lock`. -/
def Holds : Pc → Prop
  | .reparent .. | .wakeInit .. | .wakeParent .. | .zombie .. | .scan .. | .toSleep .. => True
  | _ => False

/-- The process has created `i` and not yet made it RUNNABLE. -/
def Forks (i : Slot) : Pc → Prop
  | .adopt np _ | .launch np _ => np = i
  | _ => False

/-- The process will wake up `q` as the new parent of a process. -/
def Wakes (q : Slot) : Pc → Prop
  | .wakeInit wake _ _ => q ∈ wake
  | _ => False

def HandsOver : Pc → Prop
  | .handOver _ => True
  | _ => False

def Sleeps : Pc → Prop
  | .asleep _ => True
  | _ => False

def Rests : Pc → Prop
  | .handOver _ | .asleep _ => True
  | _ => False

/-- Nothing is asked of a process at this point. -/
def Idle : Pc → Prop
  | .user _ | .alloc _ | .exiting | .dead | .waitLock _ | .wakeup .. | .kill .. => True
  | _ => False

theorem rests_of {pc : Pc} (h : pc.HandsOver ∨ pc.Sleeps) : pc.Rests := by
  cases pc with
  | handOver addr | asleep addr => trivial
  | _ => exact h.elim id id

end Pc

/-- The process sleeps in `wait`, or is about to. -/
def System.Asleep (s : System) (q : Slot) : Prop :=
  (s.pc q).HandsOver ∨ (s.pc q).Sleeps ∧ (s.kernel.proc q).state = .sleeping

def Stands (init : Slot) (s : System) (p : Slot) : Pc → Prop
  | .adopt np _ => s.phase np = .used ∧ s.parent np = none
  | .launch np _ => s.phase np = .used ∧ s.parent np = some p
  | .exitLock _ => p ≠ init
  | .reparent rest _ | .wakeInit _ rest _ => p ≠ init ∧ ∀ i, i ∉ rest → s.parent i ≠ some p
  | .wakeParent parent wake _ =>
      p ≠ init ∧ (∀ i, s.parent i ≠ some p) ∧ s.parent p = parent ∧ ∀ q, parent = some q → s.Asleep q → q ∈ wake
  | .zombie _ => p ≠ init ∧ (∀ i, s.parent i ≠ some p) ∧ ∀ q, s.parent p = some q → ¬ s.Asleep q
  | .scan rest havekids _ =>
      (havekids = true → ∃ i, s.parent i = some p) ∧
        ∀ i, i ∉ rest → s.parent i = some p → havekids = true ∧ s.phase i ≠ .zombie
  | .toSleep _ => (∃ i, s.parent i = some p) ∧ ∀ i, s.parent i = some p → s.phase i ≠ .zombie
  | _ => True

/-- Some process is about to wake up `q`, which is `init`. -/
def System.WillWake (init : Slot) (s : System) (q : Slot) : Prop := q = init ∧ ∃ h, (s.pc h).Wakes q

structure Inv (init : Slot) (s : System) : Prop where
  initproc : s.kernel.initproc = some init
  kin : Kin init s.phase s.parent
  held : ∀ q, (s.pc q).Holds ↔ s.waitLock = some q
  holder : ∀ q, s.waitLock = some q → s.phase q = .alive
  forkers : ∀ q q' i, (s.pc q).Forks i → (s.pc q').Forks i → q = q'
  stands : ∀ q, Stands init s q (s.pc q)
  children : ∀ q, s.Asleep q → ∃ i, s.parent i = some q
  rests : ∀ q, s.Asleep q → ∀ i, s.parent i = some q → s.phase i = .zombie → s.WillWake init q
  channel : ∀ q, (s.pc q).Sleeps → (s.kernel.proc q).state = .sleeping → (s.kernel.proc q).chan = some (.proc q)

/-! ## One process moves -/

section Put

variable {s : System} {p q : Slot} {k : State} {lock : Option Slot} {pc : Pc}

@[simp] theorem put_kernel : (s.put p k lock pc).kernel = k := rfl

@[simp] theorem put_waitLock : (s.put p k lock pc).waitLock = lock := rfl

@[simp] theorem put_pc_self : (s.put p k lock pc).pc p = pc := Function.update_self ..

theorem put_pc_of_ne (h : q ≠ p) : (s.put p k lock pc).pc q = s.pc q := Function.update_of_ne h ..

@[simp] theorem put_phase : (s.put p k lock pc).phase = phases k := rfl

@[simp] theorem put_parent : (s.put p k lock pc).parent = parents k := rfl

end Put

variable {init p q i : Slot} {s s' : System} {k k' : State} {lock : Option Slot} {pc : Pc}

/-- How `wait_lock` changes hands. -/
inductive LockMove (p : Slot) : Option Slot → Pc → Option Slot → Pc → Prop
  | keep {lock pc pc'} (h : pc'.Holds ↔ pc.Holds) : LockMove p lock pc lock pc'
  | acquire {pc pc'} (h : pc'.Holds) : LockMove p none pc (some p) pc'
  | release {pc pc'} (h : ¬ pc'.Holds) : LockMove p (some p) pc none pc'

theorem LockMove.held (h : LockMove p s.waitLock (s.pc p) lock pc)
    (hheld : ∀ q, (s.pc q).Holds ↔ s.waitLock = some q) (q : Slot) :
    ((s.put p k lock pc).pc q).Holds ↔ lock = some q := by
  generalize hl : s.waitLock = l at h hheld
  generalize hp : s.pc p = pc₀ at h
  by_cases hqp : q = p
  · subst hqp
    rw [put_pc_self]
    cases h with
    | keep h => rw [h, ← hp]; exact hheld q
    | acquire h => exact iff_of_true h rfl
    | release h => exact iff_of_false h (by simp)
  · rw [put_pc_of_ne hqp]
    cases h with
    | keep h => exact hheld q
    | acquire h =>
        rw [hheld q]
        exact iff_of_false (by simp) fun he => hqp (Option.some.inj he).symm
    | release h =>
        rw [hheld q]
        exact iff_of_false (fun he => hqp (Option.some.inj he).symm) (by simp)

/-- No process goes to sleep. -/
structure Drowsy (k k' : State) : Prop where
  sleeping : ∀ i, (k'.proc i).state = .sleeping → (k.proc i).state = .sleeping ∧ (k'.proc i).chan = (k.proc i).chan
  initproc : k'.initproc = k.initproc

theorem Stands.mono (h : Stands init s q pc) (hforks : ∀ i, pc.Forks i → s'.phase i = s.phase i ∧ s'.parent i = s.parent i)
    (hholds : pc.Holds → s'.parent = s.parent ∧ (∀ i, s'.phase i = .zombie → s.phase i = .zombie) ∧
      ∀ r, s'.Asleep r → s.Asleep r) : Stands init s' q pc := by
  cases pc with
  | adopt np pid | launch np pid =>
      obtain ⟨hphase, hparent⟩ := hforks np rfl
      simp only [Stands, hphase, hparent] at h ⊢
      exact h
  | exitLock status => exact h
  | reparent rest status | wakeInit wake rest status =>
      obtain ⟨hparent, -, -⟩ := hholds trivial
      simp only [Stands, hparent] at h ⊢
      exact h
  | wakeParent parent wake status =>
      obtain ⟨hparent, -, hasleep⟩ := hholds trivial
      simp only [Stands, hparent] at h ⊢
      exact ⟨h.1, h.2.1, h.2.2.1, fun r hr hrest => h.2.2.2 r hr (hasleep r hrest)⟩
  | zombie status =>
      obtain ⟨hparent, -, hasleep⟩ := hholds trivial
      simp only [Stands, hparent] at h ⊢
      exact ⟨h.1, h.2.1, fun r hr hrest => h.2.2 r hr (hasleep r hrest)⟩
  | scan rest havekids addr =>
      obtain ⟨hparent, hzombie, -⟩ := hholds trivial
      simp only [Stands, hparent] at h ⊢
      exact ⟨h.1, fun i hi hpar => ⟨(h.2 i hi hpar).1, fun hz => (h.2 i hi hpar).2 (hzombie i hz)⟩⟩
  | toSleep addr =>
      obtain ⟨hparent, hzombie, -⟩ := hholds trivial
      simp only [Stands, hparent] at h ⊢
      exact ⟨h.1, fun i hpar hz => h.2 i hpar (hzombie i hz)⟩
  | _ => trivial

theorem asleep_put (hd : Drowsy s.kernel k) (hrest : ¬ pc.Rests) (h : (s.put p k lock pc).Asleep q) :
    q ≠ p ∧ s.Asleep q := by
  have hqp : q ≠ p := by
    rintro rfl
    simp only [System.Asleep, put_pc_self] at h
    exact hrest (Pc.rests_of (h.imp_right And.left))
  refine ⟨hqp, ?_⟩
  simp only [System.Asleep, put_pc_of_ne hqp, put_kernel] at h ⊢
  exact h.imp_right fun ⟨hpc, hs⟩ => ⟨hpc, (hd.sleeping q hs).1⟩

/-- Process `p` goes on at `pc`, which is not in the `sleep` of `wait`. -/
theorem Inv.put (h : Inv init s) (hlock : LockMove p s.waitLock (s.pc p) lock pc) (hd : Drowsy s.kernel k)
    (hrest : ¬ pc.Rests) (hkin : Kin init (phases k) (parents k))
    (hholder : ∀ q, lock = some q → phases k q = .alive)
    (hnew : ∀ i, pc.Forks i → ∀ q, q ≠ p → ¬ (s.pc q).Forks i) (hstands : Stands init (s.put p k lock pc) p pc)
    (hforks : ∀ q i, q ≠ p → (s.pc q).Forks i → phases k i = s.phase i ∧ parents k i = s.parent i)
    (hothers : ∀ q, q ≠ p → (s.pc q).Holds → parents k = s.parent ∧ ∀ i, phases k i = .zombie → s.phase i = .zombie)
    (hchildren : ∀ q, q ≠ p → s.Asleep q → ∃ i, parents k i = some q)
    (hrests : ∀ q, q ≠ p → s.Asleep q → (s.put p k lock pc).Asleep q →
      ∀ i, parents k i = some q → phases k i = .zombie → (s.put p k lock pc).WillWake init q) :
    Inv init (s.put p k lock pc) where
  initproc := hd.initproc.trans h.initproc
  kin := hkin
  held := hlock.held h.held
  holder := hholder
  forkers q q' i hq hq' := by
    by_cases hqp : q = p
    · subst hqp
      by_contra hne
      rw [put_pc_self] at hq
      rw [put_pc_of_ne (Ne.symm hne)] at hq'
      exact hnew i hq q' (Ne.symm hne) hq'
    · rw [put_pc_of_ne hqp] at hq
      by_cases hqp' : q' = p
      · subst hqp'
        rw [put_pc_self] at hq'
        exact absurd hq (hnew i hq' q hqp)
      · rw [put_pc_of_ne hqp'] at hq'
        exact h.forkers q q' i hq hq'
  stands q := by
    by_cases hqp : q = p
    · subst hqp
      rw [put_pc_self]
      exact hstands
    · rw [put_pc_of_ne hqp]
      refine (h.stands q).mono (fun i => hforks q i hqp) fun hq => ?_
      obtain ⟨hparent, hzombie⟩ := hothers q hqp hq
      exact ⟨hparent, hzombie, fun r hr => (asleep_put hd hrest hr).2⟩
  children q hq := by
    obtain ⟨hqp, hq⟩ := asleep_put hd hrest hq
    exact hchildren q hqp hq
  rests q hq := by
    obtain ⟨hqp, hq'⟩ := asleep_put hd hrest hq
    exact hrests q hqp hq' hq
  channel q hpc hs := by
    have hqp : q ≠ p := by
      rintro rfl
      rw [put_pc_self] at hpc
      exact hrest (Pc.rests_of (.inr hpc))
    rw [put_pc_of_ne hqp] at hpc
    obtain ⟨hs, hchan⟩ := hd.sleeping q hs
    exact hchan.trans (h.channel q hpc hs)

end Xv6Mlfq.ExitWait
