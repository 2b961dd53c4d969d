import Mathlib.Data.Int.ModEq
import Xv6Mlfq.Access.Program
import Xv6Mlfq.Links.Family

/-!
# The run-queue table (`queue.h`, `queue.c`)

`qtable` is one array of nodes: entry `i < NPROC` belongs to slot `i` of `proc`, and the last six entries
are the head and the tail of the three levels. An index is a 64-bit word, so the table is read here as
flat memory: entries from `QTABLE_SIZE` on are the words behind (or, near `2 ^ 64`, before) the array,
which no other variable of the model shares.
-/

namespace Xv6Mlfq.Queue

open Access

abbrev NPROC : Nat := 64
abbrev NUM_QUEUES : Nat := 3
abbrev QTABLE_SIZE : Nat := NPROC + 2 * NUM_QUEUES
abbrev DEFAULT_PASS : Nat := 1
abbrev UINT16_MAX : Nat := 65535
abbrev EMPTY : Int := -1

/-- An index into `proc`, and into the first `NPROC` entries of `qtable`. -/
abbrev Slot := Fin NPROC

/-- The value of an `int queue`: it is only ever assigned a level. -/
abbrev Level := Fin NUM_QUEUES

instance : NeZero NPROC := ⟨by decide⟩

instance : NeZero NUM_QUEUES := ⟨by decide⟩

abbrev QUEUE_HIGH : Level := 2
abbrev QUEUE_MEDIUM : Level := 1
abbrev QUEUE_LOW : Level := 0

/-- The fields of `qentry`. -/
inductive Field where
  | pass
  | prev
  | next
  deriving DecidableEq, Repr

abbrev Addr := Nat × Field

abbrev QTable := Addr → Nat

def gethead (q : Nat) : Nat := NPROC + (q <<< 1)

def gettail (q : Nat) : Nat := NPROC + (q <<< 1) + 1

/-! ## Conversions between the integer types -/

/-- Conversion to `int`. -/
def int32 (x : Int) : Int := x.bmod (2 ^ 32)

theorem int32_eq_self {x : Int} (hlow : -2 ^ 31 ≤ x) (hhigh : x < 2 ^ 31) : int32 x = x := by
  simp only [int32, Int.bmod_def]
  omega

theorem int32_succ (x : Int) : int32 (int32 x + 1) = int32 (x + 1) := by
  simp only [int32]
  exact Int.bmod_add_bmod

/-- Conversion to `int64_t`. -/
def int64 (x : Int) : Int := x.bmod (2 ^ 64)

/-- The entry that an `int` subscript reaches, as a 64-bit index. -/
def index (x : Int) : Nat := (x % 2 ^ 64).toNat

/-! ## Insertion -/

def enqueue (queueNum toInsert pass : Nat) : Prog Addr Nat Unit := do
  let curr := gethead queueNum
  write (toInsert, .pass) pass
  write (toInsert, .next) (← read (curr, .next))
  write (toInsert, .prev) curr
  write (curr, .next) toInsert
  write ((← read (toInsert, .next)), .prev) toInsert

def enqueueBack (queueNum toInsert pass : Nat) : Prog Addr Nat Unit := do
  let curr ← read (gettail queueNum, .prev)
  write (toInsert, .pass) pass
  write (toInsert, .next) (← read (curr, .next))
  write (toInsert, .prev) curr
  write (curr, .next) toInsert
  write ((← read (toInsert, .next)), .prev) toInsert

/-! ## Removal -/

/-- Each assignment reads its right-hand side before the subscript on its left. -/
def removePid (pidToDelete : Int) : Prog Addr Nat Unit := do
  let i := index pidToDelete
  let next ← read (i, .next)
  write ((← read (i, .prev)), .next) next
  let prev ← read (i, .prev)
  write ((← read (i, .next)), .prev) prev
  write (i, .next) 999
  write (i, .prev) 999

def firstid (q : Nat) : Prog Addr Nat Nat := read (q, .next)

/-- The loop `for (i = QUEUE_HIGH; i >= QUEUE_LOW; --i)` over the unsigned `i`, with its test.
`fuel` bounds the iterations. `2 ^ 30` of them lead 48 GiB below the array, where no memory is mapped:
running out means that a load has faulted on the way. -/
def findHead : Nat → Nat → Prog Addr Nat (Option Int)
  | 0, _ => pure none
  | fuel + 1, i =>
      if QUEUE_LOW.val ≤ i then do
        let idx := (NPROC + (i <<< 1)) % 2 ^ 64
        if (← firstid idx) < NPROC then pure (some (int32 idx))
        else findHead fuel ((i + (2 ^ 64 - 1)) % 2 ^ 64)
      else pure (some EMPTY)

/-- `none` stands for a call that does not return. -/
def dequeue : Prog Addr Nat (Option Int) := do
  match ← findHead (2 ^ 30) QUEUE_HIGH with
  | none => pure none
  | some head =>
      if head = EMPTY then pure (some head)
      else do
        let toDelete ← firstid (index head)
        removePid (int32 toDelete)
        pure (some (int64 toDelete))

/-! ## Set-up -/

def initializeFrom : Nat → Nat → Prog Addr Nat Unit
  | 0, _ => pure ()
  | fuel + 1, i =>
      if i < QTABLE_SIZE then do
        write (i, .next) (i + 1)
        write (i + 1, .prev) i
        write (i, .pass) 0
        write (i + 1, .pass) UINT16_MAX
        initializeFrom fuel (i + 2)
      else pure ()

/-- `initialize`, a word Lean reserves. The loop makes `numQueues` rounds, so `QTABLE_SIZE` is enough
fuel for it. -/
def initializeQtable (numQueues : Nat) : Prog Addr Nat Unit :=
  initializeFrom QTABLE_SIZE (QTABLE_SIZE - (numQueues <<< 1))

/-! ## Traversals -/

def next (t : QTable) (i : Nat) : Nat := t (i, .next)

def prev (t : QTable) (i : Nat) : Nat := t (i, .prev)

/-- The list of a level as `print_queue` walks it: from the head along `next` to the tail. -/
def forward (t : QTable) (q : Nat) : Option (List Nat) :=
  Links.follow (next t) (gettail q) QTABLE_SIZE (gethead q)

/-- The same walk from the tail along `prev` to the head. -/
def backward (t : QTable) (q : Nat) : Option (List Nat) :=
  Links.follow (prev t) (gethead q) QTABLE_SIZE (gettail q)

end Xv6Mlfq.Queue
