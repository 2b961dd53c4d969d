import Mathlib.Data.Fintype.BigOperators
import Xv6Mlfq.Files.Steps

/-!
# The references of open files

A file is open exactly as long as something refers to it, and so is an end of a pipe.
-/

namespace Xv6Mlfq.Files

open Counts Runs
open Queue (Slot)

variable {s : System} {first p : Slot} {fd : Fd} {f : FileId} {tr : List (Transition System Event)} {pi : Nat}
  {writable : Bool}

theorem boot_call (first p : Slot) : (System.boot first).call p = .user ∨ (System.boot first).call p = .unused := by
  by_cases hp : p = first
  · exact .inl (by simp [System.boot, hp])
  · exact .inr (by simp [System.boot, hp])

theorem Inv.boot : Inv (System.boot first) where
  live := rfl
  counted f := by
    have hnone : tally (fun _ : Fd => (none : Option FileId)) (fun x => x = some f) = 0 := tally_eq_zero fun _ => rfl
    refine (Finset.sum_eq_zero fun p _ => ?_).symm
    rcases boot_call first p with hc | hc
    · rw [owns_eq hc]
      exact hnone
    · rw [owns_eq hc]
      exact hnone
  free _ _ := rfl
  users pi writable := by
    have hfile : tally (System.boot first).file (fun v => v.kind = .pipe pi writable) = 0 := tally_eq_zero fun _ => rfl
    have hcall : tally (System.boot first).call (Call.pending pi writable) = 0 := by
      refine tally_eq_zero fun p => ?_
      rcases boot_call first p with hc | hc
      · rw [hc]
        rfl
      · rw [hc]
        rfl
    rw [System.users, hfile, hcall]
    rfl
  ends _ _ h := nomatch h
  place p := by
    rcases boot_call first p with hc | hc
    · rw [hc]
      trivial
    · rw [hc]
      exact fun _ => rfl

theorem Inv.run (hrun : Run System.step (System.boot first) tr s) : Inv s :=
  hrun.invariant .boot fun _ _ hstep h => h.step hstep

def System.Quiet (s : System) : Prop := ∀ p, s.call p = .unused ∨ s.call p = .user ∨ s.call p = .zombie

instance : Decidable s.Quiet :=
  inferInstanceAs (Decidable (∀ p, s.call p = .unused ∨ s.call p = .user ∨ s.call p = .zombie))

def System.descriptors (s : System) (f : FileId) : Nat :=
  tally (fun x : Slot × Fd => s.ofile x.1 x.2) (fun x => x = some f)

theorem owns_quiet (hquiet : s.Quiet) (p : Slot) (f : FileId) : s.owns p f = tally (s.ofile p) (fun x => x = some f) := by
  rcases hquiet p with hc | hc | hc
  · rw [owns_eq hc]
    rfl
  · rw [owns_eq hc]
    rfl
  · rw [owns_eq hc]
    rfl

theorem Inv.descriptors (h : Inv s) (hquiet : s.Quiet) (f : FileId) : (s.file f).ref = s.descriptors f := by
  rw [h.counted, System.descriptors, tally_eq_sum, Fintype.sum_prod_type]
  refine Finset.sum_congr rfl fun p _ => ?_
  rw [owns_quiet hquiet, tally_eq_sum]

/-- The table never panics, a process has descriptors of open files only, and when no process is in a system call each
count is the number of the descriptors. -/
theorem files_counted (hrun : Run System.step (System.boot first) tr s) : s.panicked = false ∧
    (∀ p fd f, s.call p = .user → s.ofile p fd = some f → 0 < (s.file f).ref) ∧
      (s.Quiet → ∀ f, (s.file f).ref = s.descriptors f) := by
  have h := Inv.run hrun
  refine ⟨h.live, fun p fd f hc hfd => h.ref_pos (p := p) ?_, h.descriptors⟩
  rw [owns_eq hc]
  exact share_pos fd hfd

/-- A process makes a pipe and a child, closes the end to read from, and the child exits. -/
def pipeline : List Event :=
  let p : Slot := ⟨0, by decide⟩
  let c : Slot := ⟨1, by decide⟩
  [.pipe p, .filealloc p, .filealloc p, .kalloc p (some 5), .pipefds p true, .fork p c] ++
    List.replicate (NOFILE + 1) (.copy p) ++
      [.close p ⟨0, by decide⟩, .fileclose p, .closed p, .dup c ⟨1, by decide⟩, .filedup c, .exit c, .clear c, .fileclose c,
        .pipeclose c, .closed c, .clear c, .fileclose c, .closed c, .clear c, .fileclose c, .closed c] ++
        List.replicate (NOFILE - 2) (.clear c)

theorem run_pipeline : ∃ tr s, Run System.step (System.boot ⟨0, by decide⟩) tr s ∧ s.Quiet ∧ s.isOpen 5 false = false ∧
    s.isOpen 5 true = true := by
  have hfinal : (final System.step (System.boot ⟨0, by decide⟩) pipeline).any (fun s =>
      decide (s.Quiet ∧ s.isOpen 5 false = false ∧ s.isOpen 5 true = true)) = true := by
    decide +kernel
  obtain ⟨tr, s, hrun, -, hend⟩ := Run.replay hfinal
  exact ⟨tr, s, hrun, of_decide_eq_true hend⟩

theorem files_counted_pipeline : ∃ s : System, s.isOpen 5 true = true ∧ s.panicked = false ∧
    ∀ f, (s.file f).ref = s.descriptors f := by
  obtain ⟨tr, s, hrun, hquiet, -, hopen⟩ := run_pipeline
  obtain ⟨hlive, -, hcount⟩ := files_counted hrun
  exact ⟨s, hopen, hlive, hcount hquiet⟩

/-- An end of a pipe is open exactly as long as one file stands for it, or a process is about to close it. When no process
is in a system call it is open exactly if there is a descriptor for it, and the page is free if there is none for
either end. -/
theorem pipe_ends (hrun : Run System.step (System.boot first) tr s) (pi : Nat) :
    (∀ writable, s.users pi writable = (s.isOpen pi writable).toNat) ∧
      (s.Quiet → (∀ writable, s.isOpen pi writable = true ↔
          ∃ p fd f, s.ofile p fd = some f ∧ (s.file f).kind = .pipe pi writable) ∧
        (s.pipe pi = none ↔ ∀ p fd f writable, s.ofile p fd = some f → (s.file f).kind ≠ .pipe pi writable)) := by
  have h := Inv.run hrun
  refine ⟨h.users pi, fun hquiet => ?_⟩
  have hopen (writable : Bool) : s.isOpen pi writable = true ↔
      ∃ p fd f, s.ofile p fd = some f ∧ (s.file f).kind = .pipe pi writable := by
    have hcalls : tally s.call (Call.pending pi writable) = 0 := by
      refine tally_eq_zero fun p => ?_
      rcases hquiet p with hc | hc | hc
      · rw [hc]
        rfl
      · rw [hc]
        rfl
      · rw [hc]
        rfl
    have husers := h.users pi writable
    rw [System.users, hcalls, Nat.add_zero] at husers
    have hfiles : s.isOpen pi writable = true ↔ 0 < tally s.file (fun v => v.kind = .pipe pi writable) := by
      rw [husers]
      cases s.isOpen pi writable with
      | true => simp
      | false => simp
    rw [hfiles, tally_pos_iff]
    constructor
    · rintro ⟨f, hf⟩
      have hkind := of_decide_eq_true hf
      have hpos : 0 < (s.file f).ref := by
        refine Nat.pos_of_ne_zero fun hzero => ?_
        cases (h.free f hzero).symm.trans hkind
      rw [h.descriptors hquiet] at hpos
      obtain ⟨⟨p, fd⟩, hfd⟩ := tally_pos_iff.mp hpos
      exact ⟨p, fd, f, of_decide_eq_true hfd, hkind⟩
    · rintro ⟨p, fd, f, -, hkind⟩
      exact ⟨f, decide_eq_true hkind⟩
  refine ⟨hopen, fun hnone p fd f writable hfd hkind => ?_, fun hno => ?_⟩
  · have hend := (hopen writable).mpr ⟨p, fd, f, hfd, hkind⟩
    rw [System.isOpen, hnone] at hend
    cases hend
  · refine Option.eq_none_iff_forall_ne_some.mpr fun ends hpipe => ?_
    have hshut (writable : Bool) : ends.isOpen writable = false := by
      refine Bool.eq_false_of_not_eq_true fun hend => ?_
      have hsome : s.isOpen pi writable = true := by rwa [System.isOpen, hpipe, Option.any_some]
      obtain ⟨p, fd, f, hfd, hkind⟩ := (hopen writable).mp hsome
      exact hno p fd f writable hfd hkind
    have hread := hshut false
    have hwrite := hshut true
    rcases h.ends pi ends hpipe with hend | hend
    · cases hend.symm.trans hread
    · cases hend.symm.trans hwrite

theorem pipe_ends_pipeline : ∃ s : System, (∃ p fd f, s.ofile p fd = some f ∧ (s.file f).kind = .pipe 5 true) ∧
    ∀ p fd f, s.ofile p fd = some f → (s.file f).kind ≠ .pipe 5 false := by
  obtain ⟨tr, s, hrun, hquiet, hshut, hopen⟩ := run_pipeline
  obtain ⟨hends, -⟩ := (pipe_ends hrun 5).2 hquiet
  refine ⟨s, (hends true).mp hopen, fun p fd f hfd hkind => ?_⟩
  cases hshut.symm.trans ((hends false).mpr ⟨p, fd, f, hfd, hkind⟩)

end Xv6Mlfq.Files
