import Xv6Mlfq.Files.System

/-!
# What a process owns

A reference belongs to a descriptor or to a variable of the kernel. A descriptor that `sys_dup` has filled before
`filedup`, and one that `exit` has not cleared yet after `fileclose`, has none.
-/

namespace Xv6Mlfq.Files

open Counts
open Queue (Slot)

/-- The descriptors that have a reference. -/
def entries : Call → (Fd → Option FileId) → Fd → Option FileId
  | .dup fd, o => Function.update o fd none
  | .close _ (.clear fd), o => Function.update o fd none
  | .pipeclose _ _ _ (.clear fd), o => Function.update o fd none
  | _, o => o

/-- The files that the variables of a call have a reference to. -/
def held : Call → List FileId
  | .close fs _ => fs
  | .pipeclose _ _ fs _ => fs
  | .opening f => [f]
  | .pipealloc fs => fs
  | .piped f₀ f₁ => [f₀, f₁]
  | _ => []

def share (c : Call) (o : Fd → Option FileId) (f : FileId) : Nat :=
  tally (entries c o) (fun x => x = some f) + (held c).count f

def System.owns (s : System) (p : Slot) (f : FileId) : Nat := share (s.call p) (s.ofile p) f

/-- The process is about to close that end of the pipe. -/
def Call.pending (pi : Nat) (writable : Bool) : Call → Bool
  | .pipeclose pi' writable' _ _ => pi' = pi ∧ writable' = writable
  | _ => false

def Ends.isOpen (ends : Ends) (writable : Bool) : Bool := if writable then ends.writeopen else ends.readopen

def System.isOpen (s : System) (pi : Nat) (writable : Bool) : Bool := (s.pipe pi).any fun ends => ends.isOpen writable

/-- The files and the calls that stand for that end of the pipe. -/
def System.users (s : System) (pi : Nat) (writable : Bool) : Nat :=
  tally s.file (fun v => v.kind = .pipe pi writable) + tally s.call (Call.pending pi writable)

variable {s s' : System} {p q : Slot} {c c' : Call} {o : Fd → Option FileId} {fd : Fd} {f g : FileId}
  {fs : List FileId} {k : After} {pi : Nat} {writable : Bool}

@[simp] theorem setFile_self {v : File} : (s.setFile f v).file f = v := Function.update_self ..

theorem setFile_of_ne {v : File} (h : g ≠ f) : (s.setFile f v).file g = s.file g := Function.update_of_ne h ..

/-! ## The sums -/

theorem tally_set (h : o fd = none) (f g : FileId) :
    tally (Function.update o fd (some f)) (fun x => x = some g) = tally o (fun x => x = some g) + [f].count g := by
  have hupdate := tally_update o (fun x => decide (x = some g)) fd (some f)
  rw [h] at hupdate
  by_cases hfg : f = g
  · simpa [hfg] using hupdate
  · simpa [hfg] using hupdate

theorem tally_clear (h : o fd = some f) (g : FileId) :
    tally (Function.update o fd none) (fun x => x = some g) + [f].count g = tally o (fun x => x = some g) := by
  have hback := tally_set (Function.update_self fd none o) f g
  rw [Function.update_idem, ← h, Function.update_eq_self] at hback
  exact hback.symm

theorem tally_skip (h : o fd = none) (g : FileId) :
    tally (Function.update o fd none) (fun x => x = some g) = tally o (fun x => x = some g) := by
  rw [← h, Function.update_eq_self]

theorem count_cons (f g : FileId) (l : List FileId) : (f :: l).count g = [f].count g + l.count g := by
  rw [← List.count_append, List.singleton_append]

theorem share_pos (fd : Fd) (h : entries c o fd = some f) : 0 < share c o f := by
  have hpos : 0 < tally (entries c o) (fun x => x = some f) := tally_pos_iff.mpr ⟨fd, decide_eq_true h⟩
  exact Nat.add_pos_left hpos _

theorem share_pos_of_held (h : f ∈ held c) : 0 < share c o f := Nat.add_pos_right _ (List.count_pos_iff.mpr h)

theorem counted_one (h : ∀ f, (s.file f).ref = ∑ q, s.owns q f) (hother : ∀ q, q ≠ p → ∀ f, s'.owns q f = s.owns q f)
    (hp : ∀ f, (s'.file f).ref + s.owns p f = (s.file f).ref + s'.owns p f) (f : FileId) :
    (s'.file f).ref = ∑ q, s'.owns q f := by
  have hupdate : (fun q => s'.owns q f) = Function.update (fun q => s.owns q f) p (s'.owns p f) := by
    funext q
    by_cases hq : q = p
    · rw [hq, Function.update_self]
    · rw [Function.update_of_ne hq, hother q hq]
  have hsum : ∑ q, Function.update (fun q => s.owns q f) p (s'.owns p f) q + s.owns p f = ∑ q, s.owns q f + s'.owns p f :=
    sum_update ..
  have hcount := h f
  have hone := hp f
  calc
    (s'.file f).ref = ∑ q, Function.update (fun q => s.owns q f) p (s'.owns p f) q := by omega
    _ = ∑ q, s'.owns q f := by rw [← hupdate]

theorem owns_le (h : ∀ f, (s.file f).ref = ∑ q, s.owns q f) (p : Slot) (f : FileId) : s.owns p f ≤ (s.file f).ref := by
  rw [h]
  exact Finset.single_le_sum (f := fun q => s.owns q f) (fun _ _ => Nat.zero_le _) (Finset.mem_univ p)

theorem owns_two (h : ∀ f, (s.file f).ref = ∑ q, s.owns q f) (hne : p ≠ q) (f : FileId) :
    s.owns p f + s.owns q f ≤ (s.file f).ref := by
  rw [h, ← Finset.sum_pair (f := fun r => s.owns r f) hne]
  exact Finset.sum_le_sum_of_subset (Finset.subset_univ _)

/-! ## The pipes -/

theorem shut_isOpen (ends : Ends) (writable writable' : Bool) :
    (ends.shut writable).isOpen writable' = (decide (writable' ≠ writable) && ends.isOpen writable') := by
  cases writable with
  | true =>
      cases writable' with
      | true => rfl
      | false => rfl
  | false =>
      cases writable' with
      | true => rfl
      | false => rfl

theorem page_any (ends : Ends) (writable : Bool) : ends.page.any (fun ends => ends.isOpen writable) = ends.isOpen writable := by
  unfold Ends.page
  split_ifs with hclosed
  · cases writable with
    | true => exact hclosed.2.symm
    | false => exact hclosed.1.symm
  · rfl

theorem page_ends {ends ends' : Ends} (h : ends.page = some ends') : ends'.readopen = true ∨ ends'.writeopen = true := by
  unfold Ends.page at h
  split_ifs at h with hclosed
  obtain rfl := Option.some.inj h
  simpa [or_iff_not_imp_left] using hclosed

theorem users_setFile (s : System) (f : FileId) (v : File) (pi : Nat) (writable : Bool) :
    (s.setFile f v).users pi writable + (decide ((s.file f).kind = .pipe pi writable)).toNat =
      s.users pi writable + (decide (v.kind = .pipe pi writable)).toNat := by
  have hupdate := tally_update s.file (fun v => decide (v.kind = .pipe pi writable)) f v
  simp only [System.users, System.setFile]
  omega

theorem users_setCall (s : System) (p : Slot) (c : Call) (pi : Nat) (writable : Bool) :
    (s.setCall p c).users pi writable + ((s.call p).pending pi writable).toNat =
      s.users pi writable + (c.pending pi writable).toNat := by
  have hupdate := tally_update s.call (Call.pending pi writable) p c
  simp only [System.users, System.setCall]
  omega

end Xv6Mlfq.Files
