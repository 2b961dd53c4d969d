import Xv6Mlfq.Journal.Device

/-!
# The log (`log.c`)

System calls write blocks inside of `begin_op` and `end_op`, and the last one to leave commits. The machine may lose
power at any moment, while a block is on its way to the disk too; then the memory is lost and the boot recovers from
the log.
-/

namespace Xv6Mlfq.Journal

open Cache
open Queue (Slot)

abbrev LOGSIZE : Nat := MAXOPBLOCKS * 3

/-- The fields of `struct superblock` that the log uses. -/
structure Superblock where
  nlog : UInt32
  logstart : UInt32

/-- `struct log`; `log.start` and `log.size` are those of the superblock. -/
structure Log where
  outstanding : Int
  committing : Bool
  /-- `lh.block` up to `lh.n`. -/
  block : List UInt32

def Superblock.size (sb : Superblock) : Int := sb.nlog.toBitVec.toInt

/-- The number of blocks that fit into a transaction: the log has its header in its first block. -/
def Superblock.capacity (sb : Superblock) : Nat := min LOGSIZE (sb.size - 1).toNat

/-- `log.start + tail + 1` -/
def Superblock.slot (sb : Superblock) (tail : Nat) : UInt32 := sb.logstart + UInt32.ofNat tail + 1

/-! ## The header -/

/-- The log header in a block; `none` stands for a write behind the end of `log.lh.block`. -/
def loadHeader (lh : Block) : Option (List UInt32) :=
  let n := (lh 0).toBitVec.toInt
  if LOGSIZE < n then none else some ((List.range n.toNat).map fun i => lh (Fin.ofNat 256 (i + 1)))

/-- The block `hb` once the log header is written to it. -/
def storeHeader (block : List UInt32) (hb : Block) : Block := fun w =>
  if w = 0 then UInt32.ofNat block.length else block[w.val - 1]?.getD (hb w)

variable (sb : Superblock)

def readHead : Io (List UInt32) := do
  let buf ← bread sb.logstart
  let lh ← getData buf
  let block ← StateT.lift (loadHeader lh)
  brelse buf
  return block

def writeHead (block : List UInt32) : Io PUnit := do
  let buf ← bread sb.logstart
  let hb ← getData buf
  memmove buf (storeHeader block hb)
  bwrite buf
  brelse buf

/-! ## Commit and recovery -/

/-- The body of the loop of `install_trans`, with `log.lh.block[tail]`. -/
def installTrans (recovering : Bool) (tail : Nat) (blockno : UInt32) : Io PUnit := do
  let lbuf ← bread (sb.slot tail)
  let dbuf ← bread blockno
  let data ← getData lbuf
  memmove dbuf data
  bwrite dbuf
  (if recovering then pure ⟨⟩ else bunpin dbuf : Io PUnit)
  brelse lbuf
  brelse dbuf

/-- The body of the loop of `write_log`, with `log.lh.block[tail]`. -/
def writeLog (tail : Nat) (blockno : UInt32) : Io PUnit := do
  let lbuf ← bread (sb.slot tail)
  let cbuf ← bread blockno
  let data ← getData cbuf
  memmove lbuf data
  bwrite lbuf
  brelse cbuf
  brelse lbuf

/-- The test for "too big a transaction" in `log_write`. -/
def Log.tooBig (log : Log) : Bool := LOGSIZE ≤ log.block.length ∨ sb.size - 1 ≤ log.block.length

/-- `log_write`; `none` stands for its panics. -/
def logWrite (log : Log) (b : Index) : Io Log := do
  if log.tooBig sb then failure
  else if log.outstanding < 1 then failure
  else
    let blockno ← fun d => some ((d.cache.buf b).blockno, d)
    let i := log.block.idxOf blockno
    if i = log.block.length then do
      bpin b
      return { log with block := log.block ++ [blockno] }
    else return { log with block := log.block.set i blockno }

/-! ## The whole system -/

/-- What the committing process, or the one that boots, does next. -/
inductive Pc where
  | readHead
  | installTrans (recovering : Bool) (tail : Nat)
  /-- The `write_head` that clears the log. -/
  | clear (recovering : Bool)
  /-- Nobody commits. -/
  | run
  | writeLog (tail : Nat)
  | writeHead
  /-- `end_op` takes `log.lock` again. -/
  | finish
  deriving DecidableEq

def Pc.recovering : Pc → Bool
  | .readHead => true
  | .installTrans recovering _ => recovering
  | .clear recovering => recovering
  | _ => false

/-- Where a process is: outside or about to call `begin_op`, asleep in it, between it and `end_op`, or in `commit`. -/
inductive Place where
  | out
  | asleep
  | inOp
  | inCommit
  deriving DecidableEq

structure System where
  device : Device
  log : Log
  pc : Pc
  place : Slot → Place

inductive Event where
  | beginOp (p : Slot)
  | sleep (p : Slot)
  /-- `bread`, a change of the whole block, `log_write` and `brelse`. -/
  | write (p : Slot) (blockno : UInt32) (data : Block)
  /-- `bread`, a look at the data and `brelse`. -/
  | read (blockno : UInt32) (data : Block)
  | endOp (p : Slot)
  | advance
  /-- Power is lost; of a block that is being written each half may have reached the disk. -/
  | crash (first second : Bool)

def read (blockno : UInt32) : Io Block := do
  let bp ← bread blockno
  let data ← getData bp
  brelse bp
  return data

def write (log : Log) (blockno : UInt32) (data : Block) : Io Log := do
  let bp ← bread blockno
  memmove bp data
  let log ← logWrite sb log bp
  brelse bp
  return log

/-- The guard of `begin_op`. -/
def Log.full (log : Log) : Bool := LOGSIZE < log.block.length + (log.outstanding + 1) * MAXOPBLOCKS

/-- `wakeup(&log)` -/
def wakeup (place : Slot → Place) : Slot → Place := fun p => if place p = .asleep then .out else place p

/-- The next step of a commit or a recovery, with at most one write to the disk. -/
def System.advance (s : System) : Option System :=
  match s.pc with
  | .readHead => (readHead sb s.device).map fun r =>
      { s with device := r.2, log := { s.log with block := r.1 }, pc := .installTrans true 0 }
  | .installTrans recovering tail =>
      match s.log.block[tail]? with
      | some blockno => (installTrans sb recovering tail blockno s.device).map fun r =>
          { s with device := r.2, pc := .installTrans recovering (tail + 1) }
      | none => some { s with log := { s.log with block := [] }, pc := .clear recovering }
  | .clear recovering => (writeHead sb s.log.block s.device).map fun r =>
      { s with device := r.2, pc := if recovering then .run else .finish }
  | .run => none
  | .writeLog tail =>
      match s.log.block[tail]? with
      | some blockno => (writeLog sb tail blockno s.device).map fun r =>
          { s with device := r.2, pc := .writeLog (tail + 1) }
      | none => some { s with pc := .writeHead }
  | .writeHead => (writeHead sb s.log.block s.device).map fun r =>
      { s with device := r.2, pc := .installTrans false 0 }
  | .finish => some { s with log := { s.log with committing := false }, pc := .run,
                             place := fun p => if s.place p = .inCommit then .out else wakeup s.place p }

/-- A block of two sectors, with those of `new` that have been written. -/
def tear (first second : Bool) (old new : Block) : Block := fun w =>
  if (if w.val < 128 then first else second) then new w else old w

/-- A machine that is switched on. -/
def boot (disk : UInt32 → Block) : System where
  device := ⟨disk, binit (static fun _ => 0)⟩
  log := ⟨0, false, []⟩
  pc := .readHead
  place := fun _ => .out

def System.step (e : Event) (s : System) : Option System :=
  match e with
  | .beginOp p =>
      if s.place p = .out ∧ s.pc.recovering = false ∧ s.log.committing = false ∧ s.log.full = false then
        some { s with log := { s.log with outstanding := s.log.outstanding + 1 },
                      place := Function.update s.place p .inOp }
      else none
  | .sleep p =>
      if s.place p = .out ∧ s.pc.recovering = false ∧ (s.log.committing = true ∨ s.log.full = true) then
        some { s with place := Function.update s.place p .asleep }
      else none
  | .write p blockno data =>
      if s.place p = .inOp then (write sb s.log blockno data s.device).map fun r =>
        { s with log := r.1, device := r.2 }
      else none
  | .read blockno data =>
      if s.pc.recovering = false then (read blockno s.device).bind fun r =>
        if r.1 = data then some { s with device := r.2 } else none
      else none
  | .endOp p =>
      if s.place p = .inOp then
        let log := { s.log with outstanding := s.log.outstanding - 1 }
        if log.committing then none
        else if log.outstanding = 0 then
          some { s with log := { log with committing := true }, place := Function.update s.place p .inCommit,
                        pc := if 0 < log.block.length then .writeLog 0 else .finish }
        else some { s with log, place := wakeup (Function.update s.place p .out) }
      else none
  | .advance => s.advance sb
  | .crash first second =>
      let disk := ((s.advance sb).getD s).device.disk
      some (boot fun b => tear first second (s.device.disk b) (disk b))

end Xv6Mlfq.Journal
