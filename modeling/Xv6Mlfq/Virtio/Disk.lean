import Xv6Mlfq.Cache.Buffers
import Xv6Mlfq.Queue.Table
import Xv6Mlfq.Rings.Mailbox
import Xv6Mlfq.Runs.Run

/-!
# The disk driver (`virtio_disk.c`)

Processes, the interrupt handler and the device share the descriptors and two rings. A step is a section under
`vdisk_lock`, one turn of the loop of `virtio_disk_intr`, or what the device does at any time with the requests that
it has been given.
-/

namespace Xv6Mlfq.Virtio

open Rings
open Cache (Index)
open Queue (Slot)

abbrev NUM : Nat := 8
abbrev BSIZE : Nat := 1024
abbrev VRING_DESC_F_NEXT : Nat := 1
abbrev VRING_DESC_F_WRITE : Nat := 2
abbrev VIRTIO_BLK_T_IN : Nat := 0
abbrev VIRTIO_BLK_T_OUT : Nat := 1

abbrev DescId := Fin NUM

/-- An address that the driver gives to the device. -/
inductive Ptr where
  | null
  | op (i : DescId)
  | data (b : Index)
  | status (i : DescId)
  deriving DecidableEq

structure Desc where
  addr : Ptr
  len : Nat
  flags : Nat
  next : DescId

/-- `struct virtio_blk_req` without `reserved`. -/
structure Req where
  type : Nat
  sector : UInt64

def Desc.zero : Desc := ⟨.null, 0, 0, ⟨0, by decide⟩⟩

structure Disk where
  desc : DescId → Desc
  avail : DescId → DescId
  availIdx : BitVec 16
  used : DescId → DescId
  /-- `disk.used->idx`, the index of the device. -/
  usedRingIdx : BitVec 16
  free : DescId → Bool
  usedIdx : BitVec 16
  b : DescId → Option Index
  status : DescId → UInt8
  ops : DescId → Req

/-- The arguments of `virtio_disk_rw`, and its variable `sector`. -/
structure Args where
  b : Index
  write : Bool
  sector : UInt64
  deriving DecidableEq

structure Idx where
  first : DescId
  second : DescId
  third : DescId
  deriving DecidableEq

def Idx.ids (idx : Idx) : List DescId := [idx.first, idx.second, idx.third]

/-- Where a process is in `virtio_disk_rw`. -/
inductive Call where
  | out
  | allocating (a : Args)
  /-- Asleep on `&disk.free[0]`. -/
  | asleepFree (a : Args)
  /-- At the test of `b->disk`. -/
  | waiting (a : Args) (idx : Idx)
  /-- Asleep on `b`. -/
  | asleep (a : Args) (idx : Idx)
  deriving DecidableEq

structure System (β : Type*) where
  disk : Disk
  call : Slot → Call
  /-- `virtio_disk_intr` has the lock. -/
  intr : Bool
  busy : Index → Bool
  data : Index → β
  /-- How far the device has looked in the ring of the driver. -/
  lastAvail : BitVec 16
  /-- The requests that the device works on. -/
  pending : List DescId
  sectors : UInt64 → β
  panicked : Bool

inductive Event (β : Type*) where
  | rw (p : Slot) (b : Index) (write : Bool) (blockno : UInt32)
  /-- `alloc3_desc`, and what follows up to a `sleep`. -/
  | alloc (p : Slot)
  | resleep (p : Slot)
  | ret (p : Slot)
  | kill (p : Slot)
  | intr
  | used
  | intrRet
  | fetch
  | serve (id : DescId) (status : UInt8)
  /-- The buffer changes while no request is made for it. -/
  | modify (b : Index) (v : β)

def wakeFree (call : Slot → Call) : Slot → Call := fun p =>
  match call p with
  | .asleepFree a => .allocating a
  | c => c

def wakeBuf (b : Index) (call : Slot → Call) : Slot → Call := fun p =>
  match call p with
  | .asleep a idx => if a.b = b then .waiting a idx else .asleep a idx
  | c => c

def Call.awake : Call → Call
  | .asleepFree a => .allocating a
  | .asleep a idx => .waiting a idx
  | c => c

def Call.args : Call → Option Args
  | .out => none
  | .allocating a | .asleepFree a | .waiting a _ | .asleep a _ => some a

def Call.flight : Call → Option (Args × Idx)
  | .waiting a idx | .asleep a idx => some (a, idx)
  | _ => none

namespace System

variable {β : Type*}

def panic (s : System β) : System β := { s with panicked := true }

def setCall (s : System β) (p : Slot) (c : Call) : System β := { s with call := Function.update s.call p c }

@[simp] theorem setCall_self {s : System β} {p : Slot} {c : Call} : (s.setCall p c).call p = c := Function.update_self ..

theorem setCall_of_ne {s : System β} {p q : Slot} {c : Call} (h : q ≠ p) : (s.setCall p c).call q = s.call q :=
  Function.update_of_ne h ..

def allocDesc (s : System β) : Option (DescId × System β) :=
  ((List.finRange NUM).find? fun i => s.disk.free i).map fun i =>
    (i, { s with disk := { s.disk with free := Function.update s.disk.free i false } })

def freeDesc (s : System β) (i : DescId) : System β :=
  if s.disk.free i = true then s.panic
  else { s with disk := { s.disk with desc := Function.update s.disk.desc i .zero,
                                      free := Function.update s.disk.free i true },
                call := wakeFree s.call }

/-- The loop of `free_chain`. A turn that does not panic takes a descriptor that was in use, so turn `NUM + 1` panics. -/
def freeChain : Nat → System β → DescId → System β
  | 0, s, _ => s.panic
  | k + 1, s, i =>
      if (s.disk.desc i).flags &&& VRING_DESC_F_NEXT ≠ 0 then freeChain k (s.freeDesc i) (s.disk.desc i).next
      else s.freeDesc i

def alloc3Desc : Nat → List DescId → System β → Option (List DescId) × System β
  | 0, idx, s => (some idx, s)
  | k + 1, idx, s => s.allocDesc.elim (none, idx.foldl freeDesc s) fun x => alloc3Desc k (idx ++ [x.1]) x.2

/-- The three descriptors are filled in and the first is given to the device; the process sleeps. -/
def submit (s : System β) (p : Slot) (a : Args) (idx : Idx) : System β :=
  { s with
    disk := { s.disk with
      ops := Function.update s.disk.ops idx.first ⟨if a.write then VIRTIO_BLK_T_OUT else VIRTIO_BLK_T_IN, a.sector⟩
      desc := Function.update
        (Function.update (Function.update s.disk.desc idx.first ⟨.op idx.first, 16, VRING_DESC_F_NEXT, idx.second⟩)
          idx.second ⟨.data a.b, BSIZE, (if a.write then 0 else VRING_DESC_F_WRITE) ||| VRING_DESC_F_NEXT, idx.third⟩)
        idx.third ⟨.status idx.first, 1, VRING_DESC_F_WRITE, ⟨0, by decide⟩⟩
      status := Function.update s.disk.status idx.first 0xff
      b := Function.update s.disk.b idx.first (some a.b)
      avail := Function.update s.disk.avail (entry NUM s.disk.availIdx) idx.first
      availIdx := s.disk.availIdx + 1 }
    busy := Function.update s.busy a.b true
    call := Function.update s.call p (.asleep a idx) }

def allocate (s : System β) (p : Slot) (a : Args) : System β :=
  match alloc3Desc 3 [] s with
  | (some [i₀, i₁, i₂], s) => s.submit p a ⟨i₀, i₁, i₂⟩
  | (_, s) => s.setCall p (.asleepFree a)

def forget (s : System β) (i : DescId) : System β :=
  { s with disk := { s.disk with b := Function.update s.disk.b i none } }

def finish (s : System β) (p : Slot) (idx : Idx) : System β :=
  (freeChain NUM (s.forget idx.first) idx.first).setCall p .out

/-- A turn of the loop of `virtio_disk_intr`; without a buffer it writes through a null pointer. -/
def complete (s : System β) (id : DescId) : System β :=
  if s.disk.status id ≠ 0 then s.panic
  else (s.disk.b id).elim s.panic fun b =>
    { s with busy := Function.update s.busy b false, call := wakeBuf b s.call,
             disk := { s.disk with usedIdx := s.disk.usedIdx + 1 } }

end System

/-! ## The device -/

/-- The header, the buffer and the place of the status in a chain, if it is one that the device understands. -/
def Disk.request (d : Disk) (id : DescId) : Option (Req × Index × DescId) :=
  let d₀ := d.desc id
  let d₁ := d.desc d₀.next
  let d₂ := d.desc d₁.next
  match d₀.addr, d₁.addr, d₂.addr with
  | .op i, .data b, .status j =>
      if d₀.len = 16 ∧ d₀.flags = VRING_DESC_F_NEXT ∧ d₁.len = BSIZE ∧
          d₁.flags = (if (d.ops i).type = VIRTIO_BLK_T_OUT then 0 else VRING_DESC_F_WRITE) ||| VRING_DESC_F_NEXT ∧
          d₂.len = 1 ∧ d₂.flags = VRING_DESC_F_WRITE then
        some (d.ops i, b, j)
      else none
  | _, _, _ => none

namespace System

variable {β : Type*}

/-- The device moves the data, unless it fails, and returns the chain with the status. -/
def serve (s : System β) (id : DescId) (status : UInt8) (r : Req) (b : Index) (j : DescId) : System β :=
  { s with
    data := if status = 0 ∧ r.type = VIRTIO_BLK_T_IN then Function.update s.data b (s.sectors r.sector) else s.data
    sectors :=
      if status = 0 ∧ r.type = VIRTIO_BLK_T_OUT then Function.update s.sectors r.sector (s.data b) else s.sectors
    pending := s.pending.erase id
    disk := { s.disk with status := Function.update s.disk.status j status,
                          used := Function.update s.disk.used (entry NUM s.disk.usedRingIdx) id,
                          usedRingIdx := s.disk.usedRingIdx + 1 } }

/-- No process makes a request for the buffer; its sleeplock sees to that. -/
def Unused (s : System β) (b : Index) : Prop := ∀ q, ((s.call q).args.map Args.b) ≠ some b

instance (s : System β) (b : Index) : Decidable (s.Unused b) :=
  inferInstanceAs (Decidable (∀ q, ((s.call q).args.map Args.b) ≠ some b))

def step (e : Event β) (s : System β) : Option (System β) :=
  if s.panicked then none
  else
    match e with
    | .rw p b write blockno =>
        if (s.call p).args.isNone ∧ s.Unused b then
          some (s.setCall p (.allocating ⟨b, write, (blockno * 2).toUInt64⟩))
        else none
    | .alloc p =>
        match s.call p, s.intr with
        | .allocating a, false => some (s.allocate p a)
        | _, _ => none
    | .resleep p =>
        match s.call p, s.intr with
        | .waiting a idx, false => if s.busy a.b = true then some (s.setCall p (.asleep a idx)) else none
        | _, _ => none
    | .ret p =>
        match s.call p, s.intr with
        | .waiting a idx, false => if s.busy a.b = true then none else some (s.finish p idx)
        | _, _ => none
    | .kill p => some (s.setCall p (s.call p).awake)
    | .intr => if s.intr then none else some { s with intr := true }
    | .used =>
        if s.intr = true ∧ s.disk.usedIdx ≠ s.disk.usedRingIdx then
          some (s.complete (s.disk.used (entry NUM s.disk.usedIdx)))
        else none
    | .intrRet => if s.intr = true ∧ s.disk.usedIdx = s.disk.usedRingIdx then some { s with intr := false } else none
    | .fetch =>
        if s.lastAvail ≠ s.disk.availIdx then
          some { s with pending := s.pending ++ [s.disk.avail (entry NUM s.lastAvail)], lastAvail := s.lastAvail + 1 }
        else none
    | .serve id status =>
        if id ∈ s.pending then
          some ((s.disk.request id).elim s.panic fun x => s.serve id status x.1 x.2.1 x.2.2)
        else none
    | .modify b v => if s.Unused b then some { s with data := Function.update s.data b v } else none

def boot (data : Index → β) (sectors : UInt64 → β) : System β where
  disk :=
    { desc := fun _ => .zero
      avail := fun _ => ⟨0, by decide⟩
      availIdx := 0
      used := fun _ => ⟨0, by decide⟩
      usedRingIdx := 0
      free := fun _ => true
      usedIdx := 0
      b := fun _ => none
      status := fun _ => 0
      ops := fun _ => ⟨0, 0⟩ }
  call := fun _ => .out
  intr := false
  busy := fun _ => false
  data := data
  lastAvail := 0
  pending := []
  sectors := sectors
  panicked := false

end System

/-- The device does not fail. -/
def Event.succeeds {β : Type*} : Event β → Bool
  | .serve _ status => status == 0
  | _ => true

end Xv6Mlfq.Virtio
