import Xv6Mlfq.Arenas.Spans
import Xv6Mlfq.Links.Circle
import Xv6Mlfq.Queue.Table
import Xv6Mlfq.Runs.Run

/-!
# The memory allocator of user programs (`umalloc.c`)

Addresses are numbers; the two fields of a header are found at its address. The kernel gives memory in `sbrk`, as
long as it finds some.
-/

namespace Xv6Mlfq.Umalloc

open Links Runs
open Queue (int32)

abbrev HEADER : Nat := 16

/-- The memory of the machine, which bounds that of a process. -/
@[irreducible] def MEMORY : Nat := 128 * 1024 * 1024

structure Heap where
  ptr : Nat → Nat
  size : Nat → Nat
  /-- 0 for the null pointer. -/
  freep : Nat
  brk : Nat

namespace Heap

def setPtr (h : Heap) (a v : Nat) : Heap := { h with ptr := Function.update h.ptr a v }

def setSize (h : Heap) (a v : Nat) : Heap := { h with size := Function.update h.size a v }

/-- The end of the block at `a`: `a + a->s.size` -/
def stop (h : Heap) (a : Nat) : Nat := a + HEADER * h.size a

end Heap

/-! ## `free` -/

def stops (h : Heap) (bp p : Nat) : Bool :=
  (bp > p ∧ bp < h.ptr p) ∨ (p ≥ h.ptr p ∧ (bp > p ∨ bp < h.ptr p))

def linkUp (h : Heap) (bp p : Nat) : Heap :=
  if h.stop bp = h.ptr p then (h.setSize bp (h.size bp + h.size (h.ptr p))).setPtr bp (h.ptr (h.ptr p))
  else h.setPtr bp (h.ptr p)

def linkDown (h : Heap) (bp p : Nat) : Heap :=
  if h.stop p = bp then (h.setSize p (h.size p + h.size bp)).setPtr p (h.ptr bp) else h.setPtr p bp

/-- `free`; `none` if the loop takes more turns than the memory has bytes. -/
def free (h : Heap) (ap : Nat) : Option Heap :=
  let bp := ap - HEADER
  (walk h.ptr (stops h bp) MEMORY h.freep).map fun p => { linkDown (linkUp h bp p) bp p with freep := p }

/-! ## `malloc` -/

/-- `sbrk`, which gives the old end of the memory; `granted` says whether the kernel finds the memory. -/
def sbrk (h : Heap) (n : Int) (granted : Bool) : Option (Nat × Heap) :=
  if 0 < n then
    if granted = true ∧ h.brk + n.toNat ≤ MEMORY then some (h.brk, { h with brk := h.brk + n.toNat }) else none
  -- the memory shrinks, unless it would end below 0
  else if 0 ≤ h.brk + n then some (h.brk, { h with brk := (h.brk + n).toNat })
  else some (h.brk, h)

def morecore (h : Heap) (nu : Nat) (granted : Bool) : Option (Nat × Heap) :=
  let nu := if nu < 4096 then 4096 else nu
  (sbrk h (int32 (nu * HEADER)) granted).elim (some (0, h)) fun (p, h) =>
    (free (h.setSize p nu) (p + HEADER)).map fun h => (h.freep, h)

def carve (h : Heap) (nunits prevp p : Nat) : Nat × Heap :=
  if h.size p = nunits then (p + HEADER, { h.setPtr prevp (h.ptr p) with freep := prevp })
  else
    let h := h.setSize p (h.size p - nunits)
    let p := h.stop p
    (p + HEADER, { h.setSize p nunits with freep := prevp })

/-- The loop of `malloc`; `none` if it takes more than the given number of turns. -/
def mallocLoop (nunits : Nat) (granted : Bool) : Nat → Heap → Nat → Nat → Option (Nat × Heap)
  | 0, _, _, _ => none
  | k + 1, h, prevp, p =>
      if h.size p ≥ nunits then some (carve h nunits prevp p)
      else if p = h.freep then
        (morecore h nunits granted).bind fun (p, h) =>
          if p = 0 then some (0, h) else mallocLoop nunits granted k h p (h.ptr p)
      else mallocLoop nunits granted k h p (h.ptr p)

def units (nbytes : Nat) : Nat := (nbytes + HEADER - 1) / HEADER + 1

/-- The first call of `malloc` makes a list of the header `base` alone. -/
def Heap.opened (base : Nat) (h : Heap) : Heap :=
  if h.freep = 0 then { (h.setPtr base base).setSize base 0 with freep := base } else h

def malloc (base : Nat) (h : Heap) (nbytes : Nat) (granted : Bool) : Option (Nat × Heap) :=
  let h := h.opened base
  mallocLoop (units nbytes) granted (2 * MEMORY) h h.freep (h.ptr h.freep)

/-! ## A program that uses them -/

structure System where
  heap : Heap
  /-- The pointers that the program has got, with the numbers of bytes it has asked for. -/
  live : List (Nat × Nat)
  /-- The bytes at the end of the memory that the program has got from `sbrk` itself. -/
  own : Nat

inductive Event where
  | malloc (nbytes : Nat) (granted : Bool)
  | free (ap : Nat)
  /-- The program grows its memory itself, or gives back what it has got so. -/
  | sbrk (n : Int) (granted : Bool)
  /-- The program writes to bytes of its own that lie where a header could be. -/
  | write (a ptr size : Nat)
  deriving DecidableEq

def Event.request : Event → Nat
  | .malloc nbytes _ => nbytes
  | _ => 0

def step (base : Nat) (e : Event) (s : System) : Option System :=
  match e with
  | .malloc nbytes granted =>
      (malloc base s.heap nbytes granted).map fun x =>
        { heap := x.2, live := if x.1 = 0 then s.live else (x.1, nbytes) :: s.live,
          own := if x.2.brk = s.heap.brk then s.own else 0 }
  | .free ap =>
      if ap ∈ s.live.map Prod.fst then
        (free s.heap ap).map fun h => { s with heap := h, live := s.live.filter fun x => x.1 ≠ ap }
      else none
  | .sbrk n granted =>
      if 0 ≤ s.own + n then (sbrk s.heap n granted).map fun x => { s with heap := x.2, own := (s.own + n).toNat }
      else none
  | .write a ptr size =>
      if ∃ x ∈ s.live, x.1 < a + HEADER ∧ a < x.1 + x.2 then
        some { s with heap := (s.heap.setPtr a ptr).setSize a size }
      else none

/-- A program that starts with memory up to `brk`, and has not called `malloc`. -/
def boot (brk : Nat) : System := { heap := ⟨fun _ => 0, fun _ => 0, 0, brk⟩, live := [], own := 0 }

end Xv6Mlfq.Umalloc
