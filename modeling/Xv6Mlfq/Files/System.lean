import Xv6Mlfq.Counts.Tally
import Xv6Mlfq.Queue.Table
import Xv6Mlfq.Runs.Run

/-!
# Open files and their descriptors (`file.c`, `sysfile.c`)

A step of a process is one use of the table of open files, under its lock, with what the process does to its own
descriptors before or after it. Another process may step in between.
-/

namespace Xv6Mlfq.Files

open Runs
open Queue (Slot)

abbrev NFILE : Nat := 100

abbrev NOFILE : Nat := 16

abbrev FileId := Fin NFILE

abbrev Fd := Fin NOFILE

/-- The type of an open file, with what `fileclose` needs of it. -/
inductive Kind where
  | none
  | pipe (pi : Nat) (writable : Bool)
  /-- `FD_INODE` and `FD_DEVICE` -/
  | inode (ip : Nat)
  deriving DecidableEq

structure File where
  kind : Kind
  ref : Nat

/-- What follows `fileclose`: the return of the system call, or the loop of `exit`. -/
inductive After where
  | ret
  | clear (fd : Fd)
  deriving DecidableEq

/-- Where a process is, with the files that its variables refer to. -/
inductive Call where
  | unused
  /-- A child that `fork` has not finished yet. -/
  | embryo
  | user
  | zombie
  /-- `sys_dup` has filled the descriptor `fd`; `filedup` is to follow. -/
  | dup (fd : Fd)
  | close (fs : List FileId) (k : After)
  /-- `fileclose` has freed the last file of one end of a pipe. -/
  | pipeclose (pi : Nat) (writable : Bool) (fs : List FileId) (k : After)
  | opening (f : FileId)
  | pipealloc (fs : List FileId)
  | piped (f₀ f₁ : FileId)
  | fork (child : Slot) (i : Nat)
  | exit (fd : Nat)
  deriving DecidableEq

/-- A page that holds a pipe: `readopen` and `writeopen`. -/
structure Ends where
  readopen : Bool
  writeopen : Bool
  deriving DecidableEq

def Ends.shut (ends : Ends) (writable : Bool) : Ends :=
  if writable then { ends with writeopen := false } else { ends with readopen := false }

/-- The page of a pipe is freed with its second end. -/
def Ends.page (ends : Ends) : Option Ends :=
  if ends.readopen = false ∧ ends.writeopen = false then none else some ends

structure System where
  file : FileId → File
  ofile : Slot → Fd → Option FileId
  call : Slot → Call
  /-- `none` for a page that holds no pipe. -/
  pipe : Nat → Option Ends
  panicked : Bool

inductive Event where
  | dup (p : Slot) (fd : Fd)
  | filedup (p : Slot)
  | close (p : Slot) (fd : Fd)
  | fileclose (p : Slot)
  | pipeclose (p : Slot)
  | closed (p : Slot)
  | sysOpen (p : Slot)
  | opened (p : Slot) (ip : Nat)
  | pipe (p : Slot)
  | filealloc (p : Slot)
  /-- `kalloc` in `pipealloc`; `none` if it fails. -/
  | kalloc (p : Slot) (page : Option Nat)
  /-- The end of `sys_pipe`; `copied` says whether `copyout` succeeds. -/
  | pipefds (p : Slot) (copied : Bool)
  | fork (p child : Slot)
  | copy (p : Slot)
  | exit (p : Slot)
  | clear (p : Slot)
  | reap (p : Slot)

namespace System

def setCall (s : System) (p : Slot) (c : Call) : System := { s with call := Function.update s.call p c }

def setFd (s : System) (p : Slot) (fd : Fd) (f : Option FileId) : System :=
  { s with ofile := Function.update s.ofile p (Function.update (s.ofile p) fd f) }

def setFile (s : System) (f : FileId) (v : File) : System := { s with file := Function.update s.file f v }

def panic (s : System) : System := { s with panicked := true }

def filealloc (s : System) : Option (FileId × System) :=
  ((List.finRange NFILE).find? fun f => (s.file f).ref = 0).map fun f => (f, s.setFile f { s.file f with ref := 1 })

def filedup (s : System) (f : FileId) : System :=
  if (s.file f).ref < 1 then s.panic else s.setFile f { s.file f with ref := (s.file f).ref + 1 }

def fdalloc (s : System) (p : Slot) (f : FileId) : Option (Fd × System) :=
  ((List.finRange NOFILE).find? fun fd => s.ofile p fd = none).map fun fd => (fd, s.setFd p fd (some f))

/-- What is left to do for a file that `fileclose` has freed. -/
def lastClose (kind : Kind) (fs : List FileId) (k : After) : Call :=
  match kind with
  | .pipe pi writable => .pipeclose pi writable fs k
  | _ => .close fs k

def fileclose (s : System) (p : Slot) (f : FileId) (fs : List FileId) (k : After) : System :=
  if (s.file f).ref < 1 then s.panic
  else if (s.file f).ref - 1 > 0 then (s.setFile f { s.file f with ref := (s.file f).ref - 1 }).setCall p (.close fs k)
  else (s.setFile f ⟨.none, 0⟩).setCall p (lastClose (s.file f).kind fs k)

/-- `pipeclose`; the use of a page that has been freed counts as a panic. -/
def pipeclose (s : System) (pi : Nat) (writable : Bool) : System :=
  match s.pipe pi with
  | none => s.panic
  | some ends => { s with pipe := Function.update s.pipe pi (ends.shut writable).page }

def step (e : Event) (s : System) : Option System :=
  if s.panicked then none
  else
    match e with
    | .dup p fd =>
        match s.call p, s.ofile p fd with
        | .user, some f => some ((s.fdalloc p f).elim s fun x => x.2.setCall p (.dup x.1))
        | _, _ => none
    | .filedup p =>
        match s.call p with
        | .dup fd => (s.ofile p fd).map fun f => (s.filedup f).setCall p .user
        | _ => none
    | .close p fd =>
        match s.call p, s.ofile p fd with
        | .user, some f => some ((s.setFd p fd none).setCall p (.close [f] .ret))
        | _, _ => none
    | .fileclose p =>
        match s.call p with
        | .close (f :: fs) k => some (s.fileclose p f fs k)
        | _ => none
    | .pipeclose p =>
        match s.call p with
        | .pipeclose pi writable fs k => some ((s.pipeclose pi writable).setCall p (.close fs k))
        | _ => none
    | .closed p =>
        match s.call p with
        | .close [] .ret => some (s.setCall p .user)
        | .close [] (.clear fd) => some ((s.setFd p fd none).setCall p (.exit (fd + 1)))
        | _ => none
    | .sysOpen p =>
        if s.call p = .user then some (s.filealloc.elim s fun x => x.2.setCall p (.opening x.1)) else none
    | .opened p ip =>
        match s.call p with
        | .opening f =>
            some ((s.fdalloc p f).elim (s.setCall p (.close [f] .ret)) fun x =>
              (x.2.setFile f { s.file f with kind := .inode ip }).setCall p .user)
        | _ => none
    | .pipe p => if s.call p = .user then some (s.setCall p (.pipealloc [])) else none
    | .filealloc p =>
        match s.call p with
        | .pipealloc [] => some (s.filealloc.elim (s.setCall p .user) fun x => x.2.setCall p (.pipealloc [x.1]))
        | .pipealloc [f₀] =>
            some (s.filealloc.elim (s.setCall p (.close [f₀] .ret)) fun x => x.2.setCall p (.pipealloc [f₀, x.1]))
        | _ => none
    | .kalloc p page =>
        match s.call p, page with
        | .pipealloc [f₀, f₁], none => some (s.setCall p (.close [f₀, f₁] .ret))
        | .pipealloc [f₀, f₁], some pi =>
            if s.pipe pi = none then
              let t := s.setFile f₀ { s.file f₀ with kind := .pipe pi false }
              let t := t.setFile f₁ { t.file f₁ with kind := .pipe pi true }
              some ({ t with pipe := Function.update s.pipe pi (some ⟨true, true⟩) }.setCall p (.piped f₀ f₁))
            else none
        | _, _ => none
    | .pipefds p copied =>
        match s.call p with
        | .piped f₀ f₁ =>
            let bad := s.setCall p (.close [f₀, f₁] .ret)
            some ((s.fdalloc p f₀).elim bad fun x => (x.2.fdalloc p f₁).elim bad fun y =>
              if copied then y.2.setCall p .user else bad)
        | _ => none
    | .fork p child =>
        if s.call p = .user ∧ s.call child = .unused then
          some ((s.setCall p (.fork child 0)).setCall child .embryo)
        else none
    | .copy p =>
        match s.call p with
        | .fork child i =>
            if hi : i < NOFILE then
              some ((s.ofile p ⟨i, hi⟩).elim (s.setCall p (.fork child (i + 1))) fun f =>
                ((s.filedup f).setFd child ⟨i, hi⟩ (some f)).setCall p (.fork child (i + 1)))
            else some ((s.setCall p .user).setCall child .user)
        | _ => none
    | .exit p => if s.call p = .user then some (s.setCall p (.exit 0)) else none
    | .clear p =>
        match s.call p with
        | .exit fd =>
            if hfd : fd < NOFILE then
              some ((s.ofile p ⟨fd, hfd⟩).elim (s.setCall p (.exit (fd + 1))) fun f =>
                s.setCall p (.close [f] (.clear ⟨fd, hfd⟩)))
            else some (s.setCall p .zombie)
        | _ => none
    | .reap p => if s.call p = .zombie then some (s.setCall p .unused) else none

def boot (first : Slot) : System where
  file := fun _ => ⟨.none, 0⟩
  ofile := fun _ _ => none
  call := Function.update (fun _ => .unused) first .user
  pipe := fun _ => none
  panicked := false

end System

end Xv6Mlfq.Files
