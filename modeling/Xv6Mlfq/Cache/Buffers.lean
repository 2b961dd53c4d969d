import Mathlib.Data.Fintype.Card
import Xv6Mlfq.Caches.Lru
import Xv6Mlfq.Links.Ring
import Xv6Mlfq.Runs.Run

/-!
# The buffer cache (`bio.c`, `buf.h`)

The buffers hang in a circle from `bcache.head`, and `bget` searches it in both directions. Every function is given
up to its sleep lock: the locks and the processes that hold them are in `Cache/Locks`.
-/

namespace Xv6Mlfq.Cache

open Caches Links Runs

abbrev MAXOPBLOCKS : Nat := 10
abbrev NBUF : Nat := MAXOPBLOCKS * 3

/-- An index into `bcache.buf`. -/
abbrev Index := Fin NBUF

/-- A `struct buf *`: `none` is `&bcache.head`. -/
abbrev Node := Option Index

variable {β : Type*}

structure Buf (β : Type*) where
  valid : Bool
  dev : UInt32
  blockno : UInt32
  refcnt : UInt32
  data : β

structure Bcache (β : Type*) where
  buf : Index → Buf β
  prev : Node → Node
  next : Node → Node

namespace Bcache

def modify (c : Bcache β) (i : Index) (f : Buf β → Buf β) : Bcache β :=
  { c with buf := Function.update c.buf i (f (c.buf i)) }

/-- `b->next = bcache.head.next; b->prev = &bcache.head; bcache.head.next->prev = b; bcache.head.next = b`. -/
def insertHead (c : Bcache β) (b : Node) : Bcache β :=
  let c := { c with next := Function.update c.next b (c.next none) }
  let c := { c with prev := Function.update c.prev b none }
  let c := { c with prev := Function.update c.prev (c.next none) b }
  { c with next := Function.update c.next none b }

/-- `b->next->prev = b->prev; b->prev->next = b->next`. -/
def unlink (c : Bcache β) (b : Node) : Bcache β :=
  let c := { c with prev := Function.update c.prev (c.next b) (c.prev b) }
  { c with next := Function.update c.next (c.prev b) (c.next b) }

end Bcache

/-- The zeroed `bcache`, with what lies in the data of its buffers. -/
def static (blank : β) : Bcache β where
  buf := fun _ => ⟨false, 0, 0, 0, blank⟩
  prev := fun _ => none
  next := fun _ => none

def binit (c : Bcache β) : Bcache β :=
  let c := { c with prev := Function.update c.prev none none }
  let c := { c with next := Function.update c.next none none }
  (List.finRange NBUF).foldl (fun c b => c.insertHead (some b)) c

/-- The test of one of the loops of `bget` at a node that is not the head. -/
def onBuf (p : Index → Bool) : Node → Bool
  | some i => p i
  | none => false

/-- `none` stands for the panic. -/
def bget (c : Bcache β) (dev blockno : UInt32) : Option (Index × Bcache β) :=
  match search c.next none (onBuf fun i => (c.buf i).dev = dev ∧ (c.buf i).blockno = blockno) (NBUF + 1)
      (c.next none) with
  | some (some (some i)) => some (i, c.modify i fun b => { b with refcnt := b.refcnt + 1 })
  | _ =>
      match search c.prev none (onBuf fun i => (c.buf i).refcnt = 0) (NBUF + 1) (c.prev none) with
      | some (some (some i)) =>
          some (i, c.modify i fun b => { b with dev := dev, blockno := blockno, valid := false, refcnt := 1 })
      | _ => none

/-- `brelse` after `releasesleep`. -/
def brelse (c : Bcache β) (i : Index) : Bcache β :=
  let c := c.modify i fun b => { b with refcnt := b.refcnt - 1 }
  if (c.buf i).refcnt = 0 then (c.unlink (some i)).insertHead (some i) else c

def bpin (c : Bcache β) (i : Index) : Bcache β := c.modify i fun b => { b with refcnt := b.refcnt + 1 }

def bunpin (c : Bcache β) (i : Index) : Bcache β := c.modify i fun b => { b with refcnt := b.refcnt - 1 }

/-- The data of a buffer changes: it is read from the disk, or the holder of the lock writes to it. -/
def setData (c : Bcache β) (i : Index) (data : β) : Bcache β :=
  c.modify i fun b => { b with valid := true, data := data }

/-! ## The list of the buffers -/

variable {c : Bcache β} {i j : Index} {order : List Index}

@[simp] theorem modify_self (f : Buf β → Buf β) : (c.modify i f).buf i = f (c.buf i) := Function.update_self ..

theorem modify_modify (c : Bcache β) (i : Index) (f g : Buf β → Buf β) :
    (c.modify i f).modify i g = c.modify i fun b => g (f b) := by
  simp [Bcache.modify]

theorem modify_of_ne (f : Buf β → Buf β) (h : j ≠ i) : (c.modify i f).buf j = c.buf j := Function.update_of_ne h ..

/-- The circle of the buffers in this order. -/
def Ordered (c : Bcache β) (order : List Index) : Prop := Ring c.next c.prev none (order.map some)

theorem Ordered.modify (h : Ordered c order) (f : Buf β → Buf β) : Ordered (c.modify i f) order := h

theorem Ordered.insertHead (h : Ordered c order) (hi : i ∉ order) : Ordered (c.insertHead (some i)) (i :: order) := by
  have hnot : some i ∉ none :: order.map some := by simpa using hi
  have hne : c.next none ≠ some i := fun heq => hnot (heq ▸ h.next_head_mem)
  have hprev : (c.insertHead (some i)).prev = Function.update (Function.update c.prev (some i) none) (c.next none)
      (some i) := by
    simp [Bcache.insertHead]
  have hnext : (c.insertHead (some i)).next = Function.update (Function.update c.next (some i) (c.next none)) none
      (some i) := by
    simp [Bcache.insertHead]
  refine Ring.insertFront h hnot rfl ⟨fun n h₁ h₂ => ?_, fun n h₁ h₂ => ?_⟩ ⟨?_, ?_⟩ ⟨?_, ?_⟩
  · rw [hnext, Function.update_of_ne h₁, Function.update_of_ne h₂]
  · rw [hprev, Function.update_of_ne h₁, Function.update_of_ne h₂]
  · rw [hnext, Function.update_self]
  · rw [hprev, Function.update_of_ne hne.symm, Function.update_self]
  · rw [hnext, Function.update_of_ne (Option.some_ne_none i), Function.update_self]
  · rw [hprev, Function.update_self]

theorem Ordered.unlink (h : Ordered c order) (hi : i ∈ order) : Ordered (c.unlink (some i)) (order.erase i) := by
  obtain ⟨us, vs, rfl⟩ := List.append_of_mem hi
  have hnd : (us ++ i :: vs).Nodup := h.nodup_list.of_map some
  have hus : i ∉ us := fun hmem => List.disjoint_of_nodup_append hnd hmem List.mem_cons_self
  have hprev : (c.unlink (some i)).prev = Function.update c.prev (c.next (some i)) (c.prev (some i)) := rfl
  have hself : c.next (some i) ≠ some i := h.next_ne (List.mem_map_of_mem hi)
  have hnext : (c.unlink (some i)).next = Function.update c.next (c.prev (some i)) (c.next (some i)) := by
    simp [Bcache.unlink, Function.update_of_ne hself.symm]
  rw [List.erase_append_right _ hus, List.erase_cons_head]
  have hring := h
  rw [Ordered, List.map_append, List.map_cons] at hring
  rw [Ordered, List.map_append]
  refine hring.remove ⟨fun n h₁ h₂ => ?_, fun n h₁ h₂ => ?_⟩ ⟨?_, ?_⟩
  · rw [hnext, Function.update_of_ne h₁]
  · rw [hprev, Function.update_of_ne h₁]
  · rw [hnext, Function.update_self]
  · rw [hprev, Function.update_self]

theorem binit_ordered (c : Bcache β) : Ordered (binit c) (List.finRange NBUF).reverse := by
  have hfold : ∀ (is done : List Index) (c : Bcache β), Ordered c done → (∀ i ∈ is, i ∉ done) → is.Nodup →
      Ordered (is.foldl (fun c b => c.insertHead (some b)) c) (is.reverse ++ done) := by
    intro is
    induction is with
    | nil => exact fun done c h _ _ => h
    | cons i is ih =>
        intro done c h hnew hnd
        obtain ⟨hi, hnd⟩ := List.nodup_cons.mp hnd
        rw [List.reverse_cons, List.append_assoc]
        refine ih (i :: done) _ (h.insertHead (hnew i List.mem_cons_self)) (fun j hj hmem => ?_) hnd
        rcases List.mem_cons.mp hmem with rfl | hmem
        · exact hi hj
        · exact hnew j (List.mem_cons_of_mem _ hj) hmem
  let c₀ : Bcache β :=
    { c with prev := Function.update c.prev none none, next := Function.update c.next none none }
  have hempty : Ordered c₀ [] := Ring.empty (by simp [c₀]) (by simp [c₀])
  have h := hfold (List.finRange NBUF) [] c₀ hempty (by simp) (List.nodup_finRange NBUF)
  rwa [List.append_nil] at h

/-! ## Its operations are those of the list -/

/-- The block that a buffer is for. -/
abbrev Key := UInt32 × UInt32

def Buf.entry (b : Buf β) : Entry Key β := ⟨(b.dev, b.blockno), b.valid, b.refcnt, b.data⟩

def Bcache.lru (c : Bcache β) (order : List Index) : Lru Index Key β := ⟨order, fun i => (c.buf i).entry⟩

variable {dev blockno : UInt32}

theorem lru_modify (f : Buf β → Buf β) :
    (c.modify i f).lru order = (c.lru order).set i (f (c.buf i)).entry := by
  have hentry : ∀ j, ((c.modify i f).buf j).entry = Function.update (c.lru order).entry i (f (c.buf i)).entry j := by
    intro j
    by_cases hj : j = i
    · subst hj
      simp [Bcache.modify]
    · simp [Bcache.modify, hj, Bcache.lru]
  exact congrArg (Lru.mk order) (funext hentry)

theorem Ordered.length (h : Ordered c order) : (order.map some).length < NBUF + 1 := by
  have hle := (h.nodup_list.of_map some).length_le_card
  rw [Fintype.card_fin] at hle
  simpa using Nat.lt_succ_of_le hle

theorem find?_map_some (p : Index → Bool) (order : List Index) :
    (order.map some).find? (onBuf p) = (order.find? p).map some := by
  rw [List.find?_map]
  rfl

/-- The buffer is for this block. -/
def Holds (c : Bcache β) (dev blockno : UInt32) (i : Index) : Prop :=
  (c.buf i).dev = dev ∧ (c.buf i).blockno = blockno

theorem holds_iff : Holds c dev blockno i ↔ ((c.lru order).entry i).key = (dev, blockno) := by
  unfold Holds
  rw [show ((c.lru order).entry i).key = ((c.buf i).dev, (c.buf i).blockno) from rfl, Prod.mk.injEq]

/-- The two loops of `bget` look through the list from its two ends. -/
theorem bget_eq (h : Ordered c order) (dev blockno : UInt32) :
    bget c dev blockno =
      match (c.lru order).find (dev, blockno) with
      | some i => some (i, c.modify i fun b => { b with refcnt := b.refcnt + 1 })
      | none => (c.lru order).victim.map fun i =>
          (i, c.modify i fun b => { b with dev := dev, blockno := blockno, valid := false, refcnt := 1 }) := by
  have hfind : order.find? (fun i => (c.buf i).dev = dev ∧ (c.buf i).blockno = blockno) =
      (c.lru order).find (dev, blockno) := by
    have hkey : ∀ i, ((c.buf i).dev = dev ∧ (c.buf i).blockno = blockno) ↔
        ((c.lru order).entry i).key = (dev, blockno) := fun i => holds_iff
    simp only [hkey]
    rfl
  have hvictim : order.reverse.find? (fun i => (c.buf i).refcnt = 0) = (c.lru order).victim := rfl
  unfold bget
  rw [h.search_next h.length, h.search_prev h.length, ← List.map_reverse, find?_map_some, find?_map_some, hfind,
    hvictim]
  cases (c.lru order).find (dev, blockno) with
  | some i => rfl
  | none =>
      cases (c.lru order).victim with
      | some i => rfl
      | none => rfl

/-- The circle of the buffers in this order, with at most one buffer for a block. -/
structure Listed (c : Bcache β) (order : List Index) : Prop where
  ordered : Ordered c order
  wf : (c.lru order).WF (0, 0)

theorem Listed.unique (h : Listed c order) (hi : Holds c dev blockno i) (hj : Holds c dev blockno j)
    (hne : (dev, blockno) ≠ (0, 0)) : i = j := by
  have hkey : ((c.lru order).entry i).key = (dev, blockno) := holds_iff.mp hi
  exact h.wf.unique i j (hkey.trans (holds_iff.mp hj).symm) (hkey.symm ▸ hne)

theorem Listed.modify (h : Listed c order) {f : Buf β → Buf β} (hdev : ∀ b, (f b).dev = b.dev)
    (hblockno : ∀ b, (f b).blockno = b.blockno) : Listed (c.modify i f) order := by
  refine ⟨h.ordered, ?_⟩
  rw [lru_modify]
  exact h.wf.set (Prod.ext (hdev _) (hblockno _))

/-- A buffer that `bget` returns has held the block before, or no buffer has and this one was free. -/
inductive Bget (c : Bcache β) (dev blockno : UInt32) : Index → Bcache β → Prop
  | hit {i : Index} (hi : Holds c dev blockno i) :
      Bget c dev blockno i (c.modify i fun b => { b with refcnt := b.refcnt + 1 })
  | recycle {i : Index} (hmiss : ∀ j, ¬ Holds c dev blockno j) (hfree : (c.buf i).refcnt = 0) :
      Bget c dev blockno i
        (c.modify i fun b => { b with dev := dev, blockno := blockno, valid := false, refcnt := 1 })

theorem Listed.bget_cases {c' : Bcache β} (h : Listed c order) (hget : bget c dev blockno = some (i, c')) :
    Bget c dev blockno i c' := by
  rw [bget_eq h.ordered] at hget
  split at hget
  · rename_i j hf
    obtain ⟨rfl, rfl⟩ := Prod.mk.inj (Option.some.inj hget)
    exact .hit (holds_iff.mpr (Lru.find_key hf))
  · rename_i hf
    obtain ⟨j, hv, hj⟩ := Option.map_eq_some_iff.mp hget
    obtain ⟨rfl, rfl⟩ := Prod.mk.inj hj
    exact .recycle (fun l => mt holds_iff.mp ((Lru.find_eq_none h.wf).mp hf l)) (Lru.victim_refs hv)

theorem bget_lru (h : Ordered c order) (dev blockno : UInt32) :
    (bget c dev blockno).map (fun r => (r.1, r.2.lru order)) = (c.lru order).get (dev, blockno) := by
  rw [bget_eq h]
  unfold Lru.get
  cases (c.lru order).find (dev, blockno) with
  | some i =>
      simp only [Option.map_some, lru_modify]
      rfl
  | none =>
      simp only [Option.map_map]
      refine congrArg (fun f => Option.map f _) (funext fun i => ?_)
      simp only [Function.comp_apply, lru_modify]
      rfl

theorem Listed.bget {c' : Bcache β} (h : Listed c order) (hget : bget c dev blockno = some (i, c')) :
    Listed c' order := by
  have hl := bget_lru h.ordered dev blockno
  rw [hget] at hl
  refine ⟨?_, h.wf.got (Lru.get_got h.wf hl.symm)⟩
  cases h.bget_cases hget with
  | hit hi => exact h.ordered
  | recycle hmiss hfree => exact h.ordered

theorem brelse_lru (h : Ordered c order) (hi : i ∈ order) :
    Ordered (brelse c i) ((c.lru order).release i).order ∧
      (brelse c i).lru ((c.lru order).release i).order = (c.lru order).release i := by
  have hbuf : ∀ (c : Bcache β) (b : Node), ((c.unlink b).insertHead b).buf = c.buf := fun _ _ => rfl
  have hset : (c.modify i fun b => { b with refcnt := b.refcnt - 1 }).lru order =
      (c.lru order).set i { (c.lru order).entry i with refs := ((c.lru order).entry i).refs - 1 } := lru_modify _
  have hrefs : ((c.modify i fun b => { b with refcnt := b.refcnt - 1 }).buf i).refcnt =
      ((c.lru order).entry i).refs - 1 := by simp [Bcache.modify, Bcache.lru, Buf.entry]
  unfold brelse Lru.release
  dsimp only
  rw [hrefs, Lru.set_entry_self]
  split_ifs
  · refine ⟨?_, ?_⟩
    · have hring := (h.modify (i := i) fun b => { b with refcnt := b.refcnt - 1 }).unlink hi
      have hnot : i ∉ order.erase i := (h.nodup_list.of_map some).not_mem_erase
      exact hring.insertHead hnot
    · rw [← hset]
      rfl
  · exact ⟨h, hset⟩

theorem Listed.brelse (h : Listed c order) (i : Index) : Listed (brelse c i) ((c.lru order).release i).order := by
  obtain ⟨ho, hlru⟩ := brelse_lru h.ordered (h.wf.complete i)
  exact ⟨ho, hlru ▸ h.wf.release i⟩

theorem brelse_buf (c : Bcache β) (i : Index) :
    (brelse c i).buf = (c.modify i fun b => { b with refcnt := b.refcnt - 1 }).buf := by
  unfold Cache.brelse
  dsimp only
  split_ifs
  · rfl
  · rfl

theorem boot_buf (blank : β) : (binit (static blank)).buf = (static blank).buf := by
  have hfold : ∀ (is : List Index) (c : Bcache β),
      (is.foldl (fun c b => c.insertHead (some b)) c).buf = c.buf := by
    intro is
    induction is with
    | nil => exact fun c => rfl
    | cons i is ih => exact fun c => ih _
  exact hfold _ _

theorem Listed.boot (blank : β) : Listed (binit (static blank)) (List.finRange NBUF).reverse := by
  refine ⟨binit_ordered _, ⟨?_, fun i => ?_, fun i j _ hne => ?_⟩⟩
  · exact List.nodup_reverse.mpr (List.nodup_finRange NBUF)
  · exact List.mem_reverse.mpr (List.mem_finRange i)
  · refine absurd ?_ hne
    rw [Bcache.lru, boot_buf]
    rfl

end Xv6Mlfq.Cache
