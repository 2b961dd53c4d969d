import Xv6Mlfq.Files.Counting

/-!
# The invariant of the open files
-/

namespace Xv6Mlfq.Files

open Counts
open Queue (Slot)

/-- A file that `filealloc` has given, and whose type is not set yet. -/
def System.Fresh (s : System) (f : FileId) : Prop := (s.file f).kind = .none ∧ (s.file f).ref = 1

/-- What holds of a process at its place. -/
def Place (s : System) (p : Slot) : Call → Prop
  | .unused => ∀ fd, s.ofile p fd = none
  | .zombie => ∀ fd, s.ofile p fd = none
  | .dup fd => ∃ fd' f, fd' ≠ fd ∧ s.ofile p fd = some f ∧ s.ofile p fd' = some f
  | .opening f => s.Fresh f
  | .pipealloc fs => fs.Nodup ∧ ∀ f ∈ fs, s.Fresh f
  | .fork child i => s.call child = .embryo ∧ (∀ j : Fd, i ≤ j → s.ofile child j = none) ∧
      ∀ q i', s.call q = .fork child i' → q = p
  | .exit fd => ∀ j : Fd, j < fd → s.ofile p j = none
  | .close _ (.clear fd) => ∀ j < fd, s.ofile p j = none
  | .pipeclose _ _ _ (.clear fd) => ∀ j < fd, s.ofile p j = none
  | _ => True

structure Inv (s : System) : Prop where
  live : s.panicked = false
  counted : ∀ f, (s.file f).ref = ∑ p, s.owns p f
  free : ∀ f, (s.file f).ref = 0 → (s.file f).kind = .none
  users : ∀ pi writable, s.users pi writable = (s.isOpen pi writable).toNat
  ends : ∀ pi ends, s.pipe pi = some ends → ends.readopen = true ∨ ends.writeopen = true
  place : ∀ p, Place s p (s.call p)

variable {s s' : System} {p q c : Slot} {fd : Fd} {f g : FileId} {fs : List FileId} {k : After} {pi : Nat}
  {writable : Bool}

/-- A process is not disturbed by one that changes files of its own. -/
theorem Place.other (h : Place s q (s.call q)) (hofile : s'.ofile q = s.ofile q)
    (hfile : ∀ f, 0 < s.owns q f → s.Fresh f → s'.file f = s.file f)
    (hchild : ∀ child i, s.call q = .fork child i → s'.call child = .embryo ∧ s'.ofile child = s.ofile child)
    (hforks : ∀ child, s.call child = .embryo → ∀ r i, s'.call r = .fork child i → ∃ i', s.call r = .fork child i') :
    Place s' q (s.call q) := by
  have hfresh {f : FileId} (hf : f ∈ held (s.call q)) (hfresh : s.Fresh f) : s'.Fresh f := by
    have heq := hfile f (share_pos_of_held hf) hfresh
    rw [System.Fresh, heq]
    exact hfresh
  generalize hc : s.call q = c at *
  cases c with
  | unused => exact fun fd => (congrFun hofile fd).trans (h fd)
  | zombie => exact fun fd => (congrFun hofile fd).trans (h fd)
  | dup fd =>
      obtain ⟨fd', f, hne, hfd, hfd'⟩ := h
      exact ⟨fd', f, hne, (congrFun hofile fd).trans hfd, (congrFun hofile fd').trans hfd'⟩
  | opening f => exact hfresh (List.mem_singleton.mpr rfl) h
  | pipealloc fs => exact ⟨h.1, fun f hf => hfresh hf (h.2 f hf)⟩
  | fork child i =>
      obtain ⟨hembryo, hnone, honly⟩ := h
      obtain ⟨hembryo', hofile'⟩ := hchild child i rfl
      refine ⟨hembryo', fun j hj => (congrFun hofile' j).trans (hnone j hj), fun r i' hr => ?_⟩
      obtain ⟨i'', hr'⟩ := hforks child hembryo r i' hr
      exact honly r i'' hr'
  | exit fd => exact fun j hj => (congrFun hofile j).trans (h j hj)
  | close fs k =>
      cases k with
      | ret => trivial
      | clear fd => exact fun j hj => (congrFun hofile j).trans (h j hj)
  | pipeclose pi writable fs k =>
      cases k with
      | ret => trivial
      | clear fd => exact fun j hj => (congrFun hofile j).trans (h j hj)
  | embryo => trivial
  | user => trivial
  | piped f₀ f₁ => trivial

/-- `p` moves, and changes files of its own or files that are free, and the descriptors of its child `c`. -/
structure Acts (s s' : System) (p c : Slot) : Prop where
  live : s'.panicked = false
  other : ∀ q, q ≠ p → q ≠ c → s'.call q = s.call q ∧ s'.ofile q = s.ofile q
  file : ∀ f, s'.file f = s.file f ∨ (s.file f).ref = 0 ∨ 0 < s.owns p f
  grown : s.call p ≠ .embryo
  parent : ∀ q i, s.call q = .fork c i → q = p
  forks : ∀ r, r = p ∨ r = c → ∀ child i, s.call child = .embryo → s'.call r = .fork child i →
    ∃ i', s.call r = .fork child i'
  counted : ∀ f, (s'.file f).ref = ∑ q, s'.owns q f
  free : ∀ f, (s'.file f).ref = 0 → (s'.file f).kind = .none
  users : ∀ pi writable, s'.users pi writable = (s'.isOpen pi writable).toNat
  ends : ∀ pi ends, s'.pipe pi = some ends → ends.readopen = true ∨ ends.writeopen = true
  place : Place s' p (s'.call p)
  place' : Place s' c (s'.call c)

theorem Inv.act (h : Inv s) (hacts : Acts s s' p c) : Inv s' where
  live := hacts.live
  counted := hacts.counted
  free := hacts.free
  users := hacts.users
  ends := hacts.ends
  place q := by
    by_cases hqp : q = p
    · exact hqp ▸ hacts.place
    · by_cases hqc : q = c
      · exact hqc ▸ hacts.place'
      · obtain ⟨hcall, hofile⟩ := hacts.other q hqp hqc
        rw [hcall]
        refine (h.place q).other hofile (fun f hq hfresh => ?_) (fun child i hfork => ?_) fun child hembryo r i hr => ?_
        · have htwo := owns_two h.counted (Ne.symm hqp) f
          have hone := hfresh.2
          exact (hacts.file f).resolve_right (by omega)
        · have hembryo := h.place q
          rw [hfork] at hembryo
          have hne : child ≠ p := fun heq => hacts.grown (heq ▸ hembryo.1)
          have hne' : child ≠ c := fun heq => hqp (hacts.parent q i (heq ▸ hfork))
          obtain ⟨hcall', hofile'⟩ := hacts.other child hne hne'
          exact ⟨hcall'.trans hembryo.1, hofile'⟩
        · by_cases hrp : r = p
          · exact hacts.forks r (.inl hrp) child i hembryo hr
          · by_cases hrc : r = c
            · exact hacts.forks r (.inr hrc) child i hembryo hr
            · exact ⟨i, (hacts.other r hrp hrc).1 ▸ hr⟩

/-! ## One process and one file -/

def System.move (s : System) (p : Slot) (c : Call) (o : Fd → Option FileId) : System :=
  { s with call := Function.update s.call p c, ofile := Function.update s.ofile p o }

variable {c' : Call} {o : Fd → Option FileId} {v : File}

@[simp] theorem move_call : (s.move p c' o).call p = c' := Function.update_self ..

@[simp] theorem move_ofile : (s.move p c' o).ofile p = o := Function.update_self ..

theorem move_call_of_ne (hq : q ≠ p) : (s.move p c' o).call q = s.call q := Function.update_of_ne hq ..

theorem move_ofile_of_ne (hq : q ≠ p) : (s.move p c' o).ofile q = s.ofile q := Function.update_of_ne hq ..

theorem setCall_eq_move : s.setCall p c' = s.move p c' (s.ofile p) := by
  rw [System.move, Function.update_eq_self]
  rfl

theorem setFd_setCall_eq_move {x : Option FileId} :
    (s.setFd p fd x).setCall p c' = s.move p c' (Function.update (s.ofile p) fd x) := rfl

theorem users_move (pi : Nat) (writable : Bool) :
    (s.move p c' o).users pi writable + ((s.call p).pending pi writable).toNat =
      s.users pi writable + (c'.pending pi writable).toNat := users_setCall s p c' pi writable

/-- `p` moves on, and `t` differs from `s` in files and pipes. -/
structure MovesOn (s t : System) (p : Slot) (c' : Call) (o : Fd → Option FileId) : Prop where
  live : t.panicked = false
  call : t.call = s.call
  ofile : t.ofile = s.ofile
  grown : s.call p ≠ .embryo
  forks : ∀ child i, c' = .fork child i → ∃ i', s.call p = .fork child i'
  file : ∀ f, t.file f = s.file f ∨ (s.file f).ref = 0 ∨ 0 < s.owns p f
  share : ∀ f, (t.file f).ref + s.owns p f = (s.file f).ref + share c' o f
  free : ∀ f, (t.file f).ref = 0 → (t.file f).kind = .none
  users : ∀ pi writable, (t.move p c' o).users pi writable = (t.isOpen pi writable).toNat
  ends : ∀ pi ends, t.pipe pi = some ends → ends.readopen = true ∨ ends.writeopen = true
  place : Place (t.move p c' o) p c'

namespace Inv

theorem one {t : System} (h : Inv s) (hmoves : MovesOn s t p c' o) : Inv (t.move p c' o) := by
  have hother (q : Slot) (hq : q ≠ p) : (t.move p c' o).call q = s.call q ∧ (t.move p c' o).ofile q = s.ofile q :=
    ⟨(move_call_of_ne hq).trans (congrFun hmoves.call q), (move_ofile_of_ne hq).trans (congrFun hmoves.ofile q)⟩
  have hkeep (q : Slot) (hq : q ≠ p) (g : FileId) : (t.move p c' o).owns q g = s.owns q g := by
    obtain ⟨hcall, hofile⟩ := hother q hq
    rw [System.owns, hcall, hofile]
    rfl
  have hone (g : FileId) : ((t.move p c' o).file g).ref + s.owns p g = (s.file g).ref + (t.move p c' o).owns p g := by
    have howns : (t.move p c' o).owns p g = share c' o g := by rw [System.owns, move_call, move_ofile]
    rw [howns]
    exact hmoves.share g
  have hplace : Place (t.move p c' o) p ((t.move p c' o).call p) := by
    rw [move_call]
    exact hmoves.place
  exact h.act (c := p) {
    live := hmoves.live
    other := fun q hq _ => hother q hq
    file := hmoves.file
    grown := hmoves.grown
    parent := by
      intro q i hq
      have hembryo := h.place q
      rw [hq] at hembryo
      exact absurd hembryo.1 hmoves.grown
    forks := by
      intro r hr child i _ hfork
      obtain rfl : r = p := hr.elim (fun heq => heq) fun heq => heq
      rw [move_call] at hfork
      exact hmoves.forks child i hfork
    counted := counted_one h.counted hkeep hone
    free := hmoves.free
    users := hmoves.users
    ends := hmoves.ends
    place := hplace
    place' := hplace }

theorem moveFile (h : Inv s) (hp : s.call p ≠ .embryo)
    (hforks : ∀ child i, c' = .fork child i → ∃ i', s.call p = .fork child i')
    (hown : v = s.file f ∨ (s.file f).ref = 0 ∨ 0 < s.owns p f) (hfree : v.ref = 0 → v.kind = .none)
    (hshare : v.ref + s.owns p f = (s.file f).ref + share c' o f) (hrest : ∀ g, g ≠ f → share c' o g = s.owns p g)
    (husers : ∀ pi writable, (decide (v.kind = .pipe pi writable)).toNat + (c'.pending pi writable).toNat =
      (decide ((s.file f).kind = .pipe pi writable)).toNat + ((s.call p).pending pi writable).toNat)
    (hplace : Place ((s.setFile f v).move p c' o) p c') : Inv ((s.setFile f v).move p c' o) := by
  have hself : (s.setFile f v).file f = v := Function.update_self ..
  have hother {g : FileId} (hg : g ≠ f) : (s.setFile f v).file g = s.file g := Function.update_of_ne hg ..
  exact h.one {
    live := h.live
    call := rfl
    ofile := rfl
    grown := hp
    forks := hforks
    file := by
      intro g
      by_cases hg : g = f
      · subst hg
        rwa [hself]
      · exact .inl (hother hg)
    share := by
      intro g
      by_cases hg : g = f
      · subst hg
        rwa [hself]
      · rw [hother hg, hrest g hg]
    free := by
      intro g hg
      by_cases hgf : g = f
      · subst hgf
        rw [hself] at hg ⊢
        exact hfree hg
      · rw [hother hgf] at hg ⊢
        exact h.free g hg
    users := by
      intro pi writable
      have hfile := users_setFile s f v pi writable
      have hcall : ((s.setFile f v).move p c' o).users pi writable + ((s.call p).pending pi writable).toNat =
        (s.setFile f v).users pi writable + (c'.pending pi writable).toNat := users_move pi writable
      have hold := h.users pi writable
      have hsame : (s.setFile f v).isOpen pi writable = s.isOpen pi writable := rfl
      have hbalance := husers pi writable
      rw [hsame]
      omega
    ends := h.ends
    place := hplace }

theorem move (h : Inv s) (hp : s.call p ≠ .embryo)
    (hforks : ∀ child i, c' = .fork child i → ∃ i', s.call p = .fork child i') (hshare : ∀ f, share c' o f = s.owns p f)
    (hpending : ∀ pi writable, c'.pending pi writable = (s.call p).pending pi writable)
    (hplace : Place (s.move p c' o) p c') : Inv (s.move p c' o) := by
  let f : FileId := ⟨0, by decide⟩
  have hsame : s.setFile f (s.file f) = s := by rw [System.setFile, Function.update_eq_self]
  have hmove : Inv ((s.setFile f (s.file f)).move p c' o) := by
    refine h.moveFile hp hforks (.inl rfl) (h.free f) ?_ (fun g _ => hshare g) (fun pi writable => ?_) (by rwa [hsame])
    · rw [hshare]
    · rw [hpending]
  rwa [hsame] at hmove

end Inv

end Xv6Mlfq.Files
