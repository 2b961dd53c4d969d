import Xv6Mlfq.Cache.Buffers
import Xv6Mlfq.Counts.Tally
import Xv6Mlfq.Queue.Table

/-!
# Processes on the buffer cache (`bio.c`, `sleeplock.c`)

Any number of processes call `bread`, `bwrite` and `brelse` on blocks of the root device. A process waits for the
sleep lock of the buffer that `bget` gave it, and drops its reference after it has released the lock, so others come
between.
-/

namespace Xv6Mlfq.Cache

open Caches Counts Runs
open Queue (Slot NPROC)

variable {β : Type*}

abbrev ROOTDEV : UInt32 := 1

/-- Where a process is in `bread` or `brelse`. -/
inductive Pc where
  | idle
  /-- In `acquiresleep(&b->lock)` of `bget`. -/
  | waiting (i : Index)
  /-- In `bread`, with the lock. -/
  | loading (i : Index)
  /-- In `brelse`, after `releasesleep(&b->lock)`. -/
  | dropping (i : Index)
  deriving DecidableEq, Repr

structure System (β : Type*) where
  cache : Bcache β
  disk : UInt32 → β
  /-- The holder of `b->lock`. -/
  lock : Index → Option Slot
  /-- `log_write` has called `bpin` and `install_trans` has not called `bunpin` yet. -/
  pinned : Index → Bool
  pc : Slot → Pc

inductive Event (β : Type*) where
  | bget (p : Slot) (blockno : UInt32)
  | acquiresleep (p : Slot)
  | load (p : Slot)
  /-- The holder changes the data of the buffer. -/
  | modify (p : Slot) (i : Index) (data : β)
  | bwrite (p : Slot) (i : Index)
  | bpin (p : Slot) (i : Index)
  | bunpin (p : Slot) (i : Index)
  | releasesleep (p : Slot) (i : Index)
  | brelse (p : Slot)

namespace System

variable (s : System β)

def setPc (p : Slot) (pc : Pc) : System β := { s with pc := Function.update s.pc p pc }

def setLock (i : Index) (o : Option Slot) : System β := { s with lock := Function.update s.lock i o }

def block (i : Index) : UInt32 := (s.cache.buf i).blockno

/-- The process is out of `bread` with the buffer. -/
def Has (p : Slot) (i : Index) : Prop := s.lock i = some p ∧ s.pc p = .idle

instance (p : Slot) (i : Index) : Decidable (s.Has p i) := inferInstanceAs (Decidable (_ ∧ _))

variable {s} {p q : Slot} {i j : Index} {pc : Pc} {o : Option Slot}

@[simp] theorem setPc_self : (s.setPc p pc).pc p = pc := Function.update_self ..

theorem setPc_of_ne (h : q ≠ p) : (s.setPc p pc).pc q = s.pc q := Function.update_of_ne h ..

@[simp] theorem setPc_cache : (s.setPc p pc).cache = s.cache := rfl

@[simp] theorem setPc_lock : (s.setPc p pc).lock = s.lock := rfl

@[simp] theorem setPc_pinned : (s.setPc p pc).pinned = s.pinned := rfl

@[simp] theorem setLock_self : (s.setLock i o).lock i = o := Function.update_self ..

theorem setLock_of_ne (h : j ≠ i) : (s.setLock i o).lock j = s.lock j := Function.update_of_ne h ..

@[simp] theorem setLock_pc : (s.setLock i o).pc = s.pc := rfl

@[simp] theorem setLock_pinned : (s.setLock i o).pinned = s.pinned := rfl

end System

def System.step (e : Event β) (s : System β) : Option (System β) :=
  match e with
  | .bget p blockno =>
      if s.pc p = .idle then
        (bget s.cache ROOTDEV blockno).map fun r => { s with cache := r.2 }.setPc p (.waiting r.1)
      else none
  | .acquiresleep p =>
      match s.pc p with
      | .waiting i => if s.lock i = none then some ((s.setLock i (some p)).setPc p (.loading i)) else none
      | _ => none
  | .load p =>
      match s.pc p with
      | .loading i =>
          if (s.cache.buf i).valid then some (s.setPc p .idle)
          else some ({ s with cache := setData s.cache i (s.disk (s.block i)) }.setPc p .idle)
      | _ => none
  | .modify p i data =>
      if s.Has p i then some { s with cache := s.cache.modify i fun b => { b with data := data } } else none
  | .bwrite p i =>
      if s.Has p i then some { s with disk := Function.update s.disk (s.block i) (s.cache.buf i).data } else none
  | .bpin p i =>
      if s.Has p i ∧ s.pinned i = false then
        some { s with cache := bpin s.cache i, pinned := Function.update s.pinned i true }
      else none
  | .bunpin p i =>
      if s.Has p i ∧ s.pinned i = true then
        some { s with cache := bunpin s.cache i, pinned := Function.update s.pinned i false }
      else none
  | .releasesleep p i => if s.Has p i then some ((s.setLock i none).setPc p (.dropping i)) else none
  | .brelse p =>
      match s.pc p with
      | .dropping i => some ({ s with cache := brelse s.cache i }.setPc p .idle)
      | _ => none

def System.boot (blank : β) (disk : UInt32 → β) : System β where
  cache := binit (static blank)
  disk := disk
  lock := fun _ => none
  pinned := fun _ => false
  pc := fun _ => .idle

/-! ## What a step does -/

inductive Stepped (s : System β) : Event β → System β → Prop
  | bget {p blockno i c} (hpc : s.pc p = .idle) (hget : bget s.cache ROOTDEV blockno = some (i, c)) :
      Stepped s (.bget p blockno) ({ s with cache := c }.setPc p (.waiting i))
  | acquiresleep {p i} (hpc : s.pc p = .waiting i) (hlock : s.lock i = none) :
      Stepped s (.acquiresleep p) ((s.setLock i (some p)).setPc p (.loading i))
  | loaded {p i} (hpc : s.pc p = .loading i) (hvalid : (s.cache.buf i).valid = true) :
      Stepped s (.load p) (s.setPc p .idle)
  | load {p i} (hpc : s.pc p = .loading i) (hvalid : (s.cache.buf i).valid = false) :
      Stepped s (.load p) ({ s with cache := setData s.cache i (s.disk (s.block i)) }.setPc p .idle)
  | modify {p i data} (hhas : s.Has p i) :
      Stepped s (.modify p i data) { s with cache := s.cache.modify i fun b => { b with data := data } }
  | bwrite {p i} (hhas : s.Has p i) :
      Stepped s (.bwrite p i) { s with disk := Function.update s.disk (s.block i) (s.cache.buf i).data }
  | bpin {p i} (hhas : s.Has p i) (hpin : s.pinned i = false) :
      Stepped s (.bpin p i) { s with cache := bpin s.cache i, pinned := Function.update s.pinned i true }
  | bunpin {p i} (hhas : s.Has p i) (hpin : s.pinned i = true) :
      Stepped s (.bunpin p i) { s with cache := bunpin s.cache i, pinned := Function.update s.pinned i false }
  | releasesleep {p i} (hhas : s.Has p i) :
      Stepped s (.releasesleep p i) ((s.setLock i none).setPc p (.dropping i))
  | brelse {p i} (hpc : s.pc p = .dropping i) :
      Stepped s (.brelse p) ({ s with cache := brelse s.cache i }.setPc p .idle)

variable {s s' : System β} {e : Event β} {p q : Slot} {i j : Index}

theorem step_stepped (he : System.step e s = some s') : Stepped s e s' := by
  cases e with
  | bget p blockno =>
      simp only [System.step] at he
      split_ifs at he with hpc
      obtain ⟨⟨i, c⟩, hget, rfl⟩ := Option.map_eq_some_iff.mp he
      exact .bget hpc hget
  | acquiresleep p =>
      simp only [System.step] at he
      cases hpc : s.pc p with
      | waiting i =>
          simp only [hpc] at he
          split_ifs at he with hlock
          obtain rfl := Option.some.inj he
          exact .acquiresleep hpc hlock
      | _ => simp [hpc] at he
  | load p =>
      simp only [System.step] at he
      cases hpc : s.pc p with
      | loading i =>
          simp only [hpc] at he
          split_ifs at he with hvalid
          · obtain rfl := Option.some.inj he
            exact .loaded hpc hvalid
          · obtain rfl := Option.some.inj he
            exact .load hpc (Bool.eq_false_iff.mpr hvalid)
      | _ => simp [hpc] at he
  | modify p i data =>
      simp only [System.step] at he
      split_ifs at he with hhas
      obtain rfl := Option.some.inj he
      exact .modify hhas
  | bwrite p i =>
      simp only [System.step] at he
      split_ifs at he with hhas
      obtain rfl := Option.some.inj he
      exact .bwrite hhas
  | bpin p i =>
      simp only [System.step] at he
      split_ifs at he with hhas
      obtain rfl := Option.some.inj he
      exact .bpin hhas.1 hhas.2
  | bunpin p i =>
      simp only [System.step] at he
      split_ifs at he with hhas
      obtain rfl := Option.some.inj he
      exact .bunpin hhas.1 hhas.2
  | releasesleep p i =>
      simp only [System.step] at he
      split_ifs at he with hhas
      obtain rfl := Option.some.inj he
      exact .releasesleep hhas
  | brelse p =>
      simp only [System.step] at he
      cases hpc : s.pc p with
      | dropping i =>
          simp only [hpc] at he
          obtain rfl := Option.some.inj he
          exact .brelse hpc
      | _ => simp [hpc] at he

end Xv6Mlfq.Cache
