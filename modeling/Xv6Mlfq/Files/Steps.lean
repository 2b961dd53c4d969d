import Xv6Mlfq.Files.Invariant

/-!
# The steps keep the invariant
-/

namespace Xv6Mlfq.Files

open Counts
open Queue (Slot)

variable {s s' : System} {p q c : Slot} {fd : Fd} {f g : FileId} {fs : List FileId} {k : After} {pi ip : Nat}
  {writable : Bool}

/-! ## The tables -/

theorem filealloc_cases : s.filealloc = none ∨
    ∃ f, (s.file f).ref = 0 ∧ s.filealloc = some (f, s.setFile f { s.file f with ref := 1 }) := by
  unfold System.filealloc
  cases hfind : (List.finRange NFILE).find? fun f => (s.file f).ref = 0 with
  | none => exact .inl rfl
  | some f =>
      have hf : decide ((s.file f).ref = 0) = true := List.find?_some (p := fun f => decide ((s.file f).ref = 0)) hfind
      exact .inr ⟨f, of_decide_eq_true hf, rfl⟩

theorem fdalloc_cases (s : System) (p : Slot) (f : FileId) : s.fdalloc p f = none ∨
    ∃ fd, s.ofile p fd = none ∧ s.fdalloc p f = some (fd, s.setFd p fd (some f)) := by
  unfold System.fdalloc
  cases hfind : (List.finRange NOFILE).find? fun fd => s.ofile p fd = none with
  | none => exact .inl rfl
  | some fd =>
      have hfd : decide (s.ofile p fd = none) = true := List.find?_some (p := fun fd => decide (s.ofile p fd = none)) hfind
      exact .inr ⟨fd, of_decide_eq_true hfd, rfl⟩

def Closes (c : Call) (fs : List FileId) (k : After) : Prop := c = .close fs k ∨ ∃ pi writable, c = .pipeclose pi writable fs k

theorem Closes.share {c : Call} (h : Closes c fs k) (o : Fd → Option FileId) (g : FileId) :
    share c o g = Files.share (.close fs k) o g := by
  rcases h with rfl | ⟨pi, writable, rfl⟩
  · rfl
  · cases k with
    | ret => rfl
    | clear fd => rfl

theorem Closes.place {c : Call} (h : Closes c fs k) (hplace : Place s p (.close fs k)) : Place s p c := by
  rcases h with rfl | ⟨pi, writable, rfl⟩
  · exact hplace
  · cases k with
    | ret => exact hplace
    | clear fd => exact hplace

theorem closes_lastClose (kind : Kind) (fs : List FileId) (k : After) : Closes (System.lastClose kind fs k) fs k := by
  cases kind with
  | none => exact .inl rfl
  | pipe pi writable => exact .inr ⟨pi, writable, rfl⟩
  | inode ip => exact .inl rfl

theorem pending_lastClose (kind : Kind) :
    (System.lastClose kind fs k).pending pi writable = decide (kind = .pipe pi writable) := by
  cases kind with
  | none => rfl
  | pipe pi' writable' => simp [System.lastClose, Call.pending]
  | inode ip => rfl

theorem share_close_cons (o : Fd → Option FileId) (g : FileId) :
    share (.close (f :: fs) k) o g = share (.close fs k) o g + [f].count g := by
  have hheld : (held (.close (f :: fs) k)).count g = [f].count g + (held (.close fs k)).count g := count_cons f g fs
  have hentries : entries (.close (f :: fs) k) o = entries (.close fs k) o := by
    cases k with
    | ret => rfl
    | clear fd => rfl
  rw [share, share, hheld, hentries]
  omega

theorem entries_user (o : Fd → Option FileId) : entries .user o = o := rfl

theorem owns_eq {c : Call} (hc : s.call p = c) (f : FileId) : s.owns p f = share c (s.ofile p) f := by
  rw [System.owns, hc]

/-! ## The two ends of a new pipe -/

/-- Two files become the ends of a pipe. -/
def joined (s : System) (pi : Nat) (f₀ f₁ : FileId) : System :=
  (s.setFile f₀ { s.file f₀ with kind := .pipe pi false }).setFile f₁ { s.file f₁ with kind := .pipe pi true }

theorem joined_file (s : System) (pi : Nat) {f₀ f₁ : FileId} (hg : g ∉ [f₀, f₁]) : (joined s pi f₀ f₁).file g = s.file g := by
  simp only [List.mem_cons, List.not_mem_nil, or_false, not_or] at hg
  rw [joined, setFile_of_ne hg.2, setFile_of_ne hg.1]

theorem joined_ref (s : System) (pi : Nat) (f₀ f₁ g : FileId) : ((joined s pi f₀ f₁).file g).ref = (s.file g).ref := by
  rw [joined]
  by_cases hg : g = f₁
  · rw [hg, setFile_self]
  · rw [setFile_of_ne hg]
    by_cases hg : g = f₀
    · rw [hg, setFile_self]
    · rw [setFile_of_ne hg]

/-- Each end of the pipe gets a user. -/
theorem joined_users {f₀ f₁ : FileId} (hne : f₀ ≠ f₁) (hkind₀ : (s.file f₀).kind = .none)
    (hkind₁ : (s.file f₁).kind = .none) (pi pi' : Nat) (writable : Bool) :
    (joined s pi f₀ f₁).users pi' writable = s.users pi' writable + (decide (pi' = pi)).toNat := by
  have hsecond : (s.setFile f₀ { s.file f₀ with kind := .pipe pi false }).file f₁ = s.file f₁ := setFile_of_ne hne.symm
  have hone := users_setFile s f₀ { s.file f₀ with kind := .pipe pi false } pi' writable
  have htwo : (joined s pi f₀ f₁).users pi' writable + _ = _ + _ := users_setFile _ f₁ _ pi' writable
  have hends : (decide (Kind.pipe pi false = .pipe pi' writable)).toNat +
      (decide (Kind.pipe pi true = .pipe pi' writable)).toNat = (decide (pi' = pi)).toNat := by
    by_cases hpi : pi' = pi
    · subst hpi
      cases writable with
      | true => simp
      | false => simp
    · simp [hpi, Ne.symm hpi]
  rw [hkind₀] at hone
  rw [hsecond, hkind₁] at htwo
  simp only [reduceCtorEq, decide_false, Bool.toNat_false] at hone htwo
  omega

/-! ## A descriptor for the child -/

/-- The parent `p` gives its child a descriptor for the file. -/
def granted (s : System) (p child : Slot) (f : FileId) (fd : Fd) : System :=
  ((s.setFile f { s.file f with ref := (s.file f).ref + 1 }).setFd child fd (some f)).setCall p (.fork child (fd + 1))

section Granted

variable {child : Slot}

theorem granted_call : (granted s p child f fd).call p = .fork child (fd + 1) := Function.update_self ..

theorem granted_call_of_ne (hq : q ≠ p) : (granted s p child f fd).call q = s.call q := Function.update_of_ne hq ..

theorem granted_ofile : (granted s p child f fd).ofile child = Function.update (s.ofile child) fd (some f) :=
  Function.update_self ..

theorem granted_ofile_of_ne (hq : q ≠ child) : (granted s p child f fd).ofile q = s.ofile q := Function.update_of_ne hq ..

theorem granted_file : (granted s p child f fd).file f = { s.file f with ref := (s.file f).ref + 1 } := setFile_self

theorem granted_file_of_ne (hg : g ≠ f) : (granted s p child f fd).file g = s.file g := setFile_of_ne hg

theorem granted_owns_of_ne {i : Nat} (hc : s.call p = .fork child i) (hne : child ≠ p) (hq : q ≠ child) (g : FileId) :
    (granted s p child f fd).owns q g = s.owns q g := by
  by_cases hqp : q = p
  · rw [hqp, System.owns, granted_call, granted_ofile_of_ne hne.symm, owns_eq hc]
    rfl
  · rw [System.owns, granted_call_of_ne hqp, granted_ofile_of_ne hq]
    rfl

/-- The child gets the reference that the file gets. -/
theorem granted_owns (hne : child ≠ p) (hembryo : s.call child = .embryo) (hfree : s.ofile child fd = none) (g : FileId) :
    ((granted s p child f fd).file g).ref + s.owns child g = (s.file g).ref + (granted s p child f fd).owns child g := by
  have hset : (granted s p child f fd).owns child g = s.owns child g + [f].count g := by
    rw [System.owns, granted_call_of_ne hne, hembryo, granted_ofile, owns_eq hembryo]
    exact tally_set hfree f g
  rw [hset]
  by_cases hg : g = f
  · rw [hg, granted_file, List.count_singleton_self]
    dsimp only
    omega
  · rw [granted_file_of_ne hg, List.count_singleton, if_neg (by simpa using Ne.symm hg)]
    omega

theorem granted_users {i : Nat} (hc : s.call p = .fork child i) (pi : Nat) (writable : Bool) :
    (granted s p child f fd).users pi writable = s.users pi writable := by
  have hfile := users_setFile s f { s.file f with ref := (s.file f).ref + 1 } pi writable
  have hcall : (granted s p child f fd).users pi writable + ((s.call p).pending pi writable).toNat =
      (s.setFile f { s.file f with ref := (s.file f).ref + 1 }).users pi writable + 0 :=
    users_setCall ((s.setFile f { s.file f with ref := (s.file f).ref + 1 }).setFd child fd (some f)) p
      (.fork child (fd + 1)) pi writable
  have hpending : (s.call p).pending pi writable = false := by
    rw [hc]
    rfl
  rw [hpending, Bool.toNat_false] at hcall
  exact hcall.trans (Nat.add_right_cancel hfile)

end Granted

/-! ## The steps -/

namespace Inv

theorem not_panicked (h : Inv s) : ¬ s.panicked = true := by
  rw [h.live]
  exact Bool.false_ne_true

theorem placed {c : Call} (h : Inv s) (hc : s.call p = c) : Place s p c := hc ▸ h.place p

theorem ref_pos (h : Inv s) (hown : 0 < s.owns p f) : 0 < (s.file f).ref := hown.trans_le (owns_le h.counted p f)

theorem dup (h : Inv s) (hc : s.call p = .user) (hfd : s.ofile p fd = some f) :
    Inv ((s.fdalloc p f).elim s fun x => x.2.setCall p (.dup x.1)) := by
  rcases fdalloc_cases s p f with heq | ⟨fd', hfree, heq⟩
  · rw [heq]
    exact h
  · rw [heq, Option.elim_some, setFd_setCall_eq_move]
    have hne : fd ≠ fd' := by
      rintro rfl
      cases hfree.symm.trans hfd
    refine h.move (by simp [hc]) (fun _ _ hfork => by cases hfork) (fun g => ?_) (fun pi writable => by rw [hc]; rfl) ?_
    · rw [owns_eq hc]
      change tally (Function.update (Function.update (s.ofile p) fd' (some f)) fd' none) _ + 0 = tally (s.ofile p) _ + 0
      rw [Function.update_idem, tally_skip hfree]
    · exact ⟨fd, f, hne, by rw [move_ofile, Function.update_self],
        by rw [move_ofile, Function.update_of_ne hne, hfd]⟩

theorem filedup (h : Inv s) (hc : s.call p = .dup fd) (hfd : s.ofile p fd = some f) :
    Inv ((s.filedup f).setCall p .user) := by
  obtain ⟨fd', f', hne, hfd', hother⟩ := h.placed hc
  obtain rfl := Option.some.inj (hfd.symm.trans hfd')
  have hown : 0 < s.owns p f := by
    rw [owns_eq hc]
    exact share_pos fd' ((Function.update_of_ne hne ..).trans hother)
  have href := h.ref_pos hown
  rw [System.filedup, if_neg (by omega), setCall_eq_move]
  refine h.moveFile (by simp [hc]) (fun _ _ hfork => by cases hfork) (.inr (.inr hown)) (fun hzero => absurd hzero (by simp))
    ?_ (fun g hg => ?_) (fun pi writable => by rw [hc]; rfl) trivial
  · rw [owns_eq hc]
    change (s.file f).ref + 1 + (tally (Function.update (s.ofile p) fd none) _ + 0) = _ + (tally (s.ofile p) _ + 0)
    have hclear := tally_clear hfd f
    simp only [List.count_singleton_self] at hclear
    omega
  · rw [owns_eq hc]
    change tally (s.ofile p) _ + 0 = tally (Function.update (s.ofile p) fd none) _ + 0
    have hclear := tally_clear hfd g
    rw [List.count_singleton, if_neg (by simpa using hg.symm)] at hclear
    omega

theorem close (h : Inv s) (hc : s.call p = .user) (hfd : s.ofile p fd = some f) :
    Inv ((s.setFd p fd none).setCall p (.close [f] .ret)) := by
  rw [setFd_setCall_eq_move]
  refine h.move (by simp [hc]) (fun _ _ hfork => by cases hfork) (fun g => ?_) (fun pi writable => by rw [hc]; rfl) trivial
  rw [owns_eq hc]
  exact tally_clear hfd g

theorem fileclose (h : Inv s) (hc : s.call p = .close (f :: fs) k) : Inv (s.fileclose p f fs k) := by
  have hown : 0 < s.owns p f := by
    rw [owns_eq hc]
    exact share_pos_of_held List.mem_cons_self
  have href := h.ref_pos hown
  have hembryo : s.call p ≠ .embryo := by simp [hc]
  have hshare {c : Call} (hnext : Closes c fs k) (g : FileId) : s.owns p g = share c (s.ofile p) g + [f].count g := by
    rw [owns_eq hc, hnext.share, share_close_cons]
  have hrest {c : Call} (hnext : Closes c fs k) (g : FileId) (hg : g ≠ f) : share c (s.ofile p) g = s.owns p g := by
    rw [hshare hnext, List.count_singleton, if_neg (by simpa using hg.symm), Nat.add_zero]
  have hplace {c : Call} (hnext : Closes c fs k) (v : File) : Place ((s.setFile f v).move p c (s.ofile p)) p c := by
    refine hnext.place ?_
    have hold := h.placed hc
    cases k with
    | ret => trivial
    | clear fd => exact fun j hj => (congrFun move_ofile j).trans (hold j hj)
  rw [System.fileclose, if_neg (by omega)]
  split_ifs with hmore
  · have hnext : Closes (.close fs k) fs k := .inl rfl
    have heq := hshare hnext f
    rw [List.count_singleton_self] at heq
    rw [setCall_eq_move]
    refine h.moveFile hembryo (fun _ _ hfork => by cases hfork) (.inr (.inr hown)) (fun hzero => ?_) ?_ (hrest hnext)
      (fun pi writable => by rw [hc]; rfl) (hplace hnext _)
    · exact absurd hzero hmore.ne'
    · change (s.file f).ref - 1 + _ = _ + share _ (s.ofile p) f
      omega
  · have hnext := closes_lastClose (s.file f).kind fs k
    have heq := hshare hnext f
    rw [List.count_singleton_self] at heq
    rw [setCall_eq_move]
    refine h.moveFile hembryo (fun child i hfork => ?_) (.inr (.inr hown)) (fun _ => rfl) ?_ (hrest hnext)
      (fun pi writable => ?_) (hplace hnext _)
    · rcases hnext with hclose | ⟨pi, writable, hclose⟩
      · cases hclose.symm.trans hfork
      · cases hclose.symm.trans hfork
    · change 0 + _ = _ + share _ (s.ofile p) f
      omega
    · rw [hc, pending_lastClose, Nat.add_comm]
      rfl

/-- The end of a pipe that a process is about to close is open. -/
theorem exists_pipe (h : Inv s) (hc : s.call p = .pipeclose pi writable fs k) :
    ∃ ends, s.pipe pi = some ends ∧ ends.isOpen writable = true := by
  have husers := h.users pi writable
  have hpending : 0 < tally s.call (Call.pending pi writable) :=
    tally_pos_iff.mpr ⟨p, by simp [hc, Call.pending]⟩
  have hopen : s.isOpen pi writable = true := by
    cases hopen : s.isOpen pi writable with
    | true => rfl
    | false =>
        rw [hopen] at husers
        simp only [System.users, Bool.toNat_false] at husers
        omega
  exact (Option.any_eq_true _ _).mp hopen

theorem users_pipeclose (h : Inv s) (hc : s.call p = .pipeclose pi writable fs k) {ends : Ends}
    (hpipe : s.pipe pi = some ends) (hend : ends.isOpen writable = true) (pi' : Nat) (writable' : Bool) :
    (s.setCall p (.close fs k)).users pi' writable' =
      ((Function.update s.pipe pi (ends.shut writable).page pi').any fun ends => ends.isOpen writable').toNat := by
  have hself : (Call.pipeclose pi writable fs k).pending pi writable = true := by simp [Call.pending]
  have hother {pi' : Nat} {writable' : Bool} (hne : pi' ≠ pi ∨ writable' ≠ writable) :
      (Call.pipeclose pi writable fs k).pending pi' writable' = false :=
    decide_eq_false (not_and_or.mpr (hne.imp Ne.symm Ne.symm))
  have hcall : (s.setCall p (.close fs k)).users pi' writable' + ((s.call p).pending pi' writable').toNat =
      s.users pi' writable' + 0 := users_setCall s p (.close fs k) pi' writable'
  have hold := h.users pi' writable'
  rw [hc] at hcall
  by_cases hpi : pi' = pi
  · subst hpi
    have hbefore : s.isOpen pi' writable' = ends.isOpen writable' := by rw [System.isOpen, hpipe, Option.any_some]
    rw [Function.update_self, page_any, shut_isOpen]
    rw [hbefore] at hold
    by_cases hw : writable' = writable
    · subst hw
      rw [hself, Bool.toNat_true] at hcall
      rw [hend, Bool.toNat_true] at hold
      rw [decide_eq_false (not_not.mpr rfl), Bool.false_and, Bool.toNat_false]
      omega
    · rw [hother (.inr hw), Bool.toNat_false] at hcall
      rw [decide_eq_true hw, Bool.true_and]
      omega
  · rw [hother (.inl hpi), Bool.toNat_false] at hcall
    rw [Function.update_of_ne hpi]
    exact hcall.trans hold

theorem pipeclose (h : Inv s) (hc : s.call p = .pipeclose pi writable fs k) :
    Inv ((s.pipeclose pi writable).setCall p (.close fs k)) := by
  obtain ⟨ends, hpipe, hend⟩ := h.exists_pipe hc
  have hnext : Closes (.pipeclose pi writable fs k) fs k := .inr ⟨pi, writable, rfl⟩
  have hclose : s.pipeclose pi writable = { s with pipe := Function.update s.pipe pi (ends.shut writable).page } := by
    rw [System.pipeclose, hpipe]
  rw [hclose, setCall_eq_move]
  exact h.one {
    live := h.live
    call := rfl
    ofile := rfl
    grown := by simp [hc]
    forks := fun _ _ hfork => by cases hfork
    file := fun _ => .inl rfl
    share := by
      intro g
      rw [owns_eq hc, hnext.share]
    free := h.free
    users := h.users_pipeclose hc hpipe hend
    ends := by
      intro pi' ends' hends'
      change Function.update s.pipe pi (ends.shut writable).page pi' = some ends' at hends'
      by_cases hpi : pi' = pi
      · rw [hpi, Function.update_self] at hends'
        exact page_ends hends'
      · rw [Function.update_of_ne hpi] at hends'
        exact h.ends pi' ends' hends'
    place := by
      have hold := h.placed hc
      cases k with
      | ret => trivial
      | clear fd => exact fun j hj => (congrFun move_ofile j).trans (hold j hj) }

theorem close_return (h : Inv s) (hc : s.call p = .close [] .ret) : Inv (s.setCall p .user) := by
  rw [setCall_eq_move]
  exact h.move (by simp [hc]) (fun _ _ hfork => by cases hfork) (fun g => by rw [owns_eq hc]; rfl)
    (fun pi writable => by rw [hc]; rfl) trivial

theorem close_clear (h : Inv s) (hc : s.call p = .close [] (.clear fd)) :
    Inv ((s.setFd p fd none).setCall p (.exit (fd + 1))) := by
  rw [setFd_setCall_eq_move]
  refine h.move (by simp [hc]) (fun _ _ hfork => by cases hfork) (fun g => by rw [owns_eq hc]; rfl)
    (fun pi writable => by rw [hc]; rfl) fun j hj => ?_
  rw [move_ofile]
  by_cases hjfd : j = fd
  · rw [hjfd, Function.update_self]
  · rw [Function.update_of_ne hjfd]
    have hlt : j < fd := lt_of_le_of_ne (Nat.le_of_lt_succ hj) hjfd
    exact h.placed hc j hlt

/-- A process takes a file that is free. -/
theorem setFile_one (h : Inv s) {c' : Call} (hembryo : s.call p ≠ .embryo) (hforks : ∀ child i, c' ≠ .fork child i)
    (hzero : (s.file f).ref = 0) (hshare : ∀ g, share c' (s.ofile p) g = s.owns p g + [f].count g)
    (hpending : ∀ pi writable, c'.pending pi writable = (s.call p).pending pi writable)
    (hplace : Place ((s.setFile f { s.file f with ref := 1 }).move p c' (s.ofile p)) p c') :
    Inv ((s.setFile f { s.file f with ref := 1 }).setCall p c') := by
  rw [setCall_eq_move]
  refine h.moveFile hembryo (fun child i hfork => absurd hfork (hforks child i)) (.inr (.inl hzero))
    (fun hone => absurd hone Nat.one_ne_zero) ?_ (fun g hg => ?_) (fun pi writable => by rw [hpending]) hplace
  · change 1 + _ = _ + share c' (s.ofile p) f
    rw [hshare, List.count_singleton_self]
    omega
  · change share c' (s.ofile p) g = _
    rw [hshare, List.count_singleton, if_neg (by simpa using hg.symm), Nat.add_zero]

theorem fresh (h : Inv s) (hzero : (s.file f).ref = 0) : (s.setFile f { s.file f with ref := 1 }).Fresh f := by
  rw [System.Fresh, setFile_self]
  exact ⟨h.free f hzero, rfl⟩

theorem sysOpen (h : Inv s) (hc : s.call p = .user) :
    Inv (s.filealloc.elim s fun x => x.2.setCall p (.opening x.1)) := by
  rcases filealloc_cases (s := s) with heq | ⟨f, hzero, heq⟩
  · rw [heq]
    exact h
  · rw [heq]
    exact h.setFile_one (by simp [hc]) (fun _ _ => nofun) hzero (fun g => by rw [owns_eq hc]; rfl)
      (fun pi writable => by rw [hc]; rfl) (h.fresh hzero)

theorem opened (h : Inv s) (hc : s.call p = .opening f) (ip : Nat) :
    Inv ((s.fdalloc p f).elim (s.setCall p (.close [f] .ret)) fun x =>
      (x.2.setFile f { s.file f with kind := .inode ip }).setCall p .user) := by
  obtain ⟨hkind, href⟩ : s.Fresh f := h.placed hc
  have hown : 0 < s.owns p f := by
    rw [owns_eq hc]
    exact share_pos_of_held List.mem_cons_self
  rcases fdalloc_cases s p f with heq | ⟨fd, hfree, heq⟩
  · rw [heq, Option.elim_none, setCall_eq_move]
    exact h.move (by simp [hc]) (fun _ _ hfork => by cases hfork) (fun g => by rw [owns_eq hc]; rfl)
      (fun pi writable => by rw [hc]; rfl) trivial
  · rw [heq, Option.elim_some]
    have hshare (g : FileId) : share .user (Function.update (s.ofile p) fd (some f)) g = s.owns p g := by
      rw [owns_eq hc]
      exact tally_set hfree f g
    have hmove : Inv ((s.setFile f { s.file f with kind := .inode ip }).move p .user
        (Function.update (s.ofile p) fd (some f))) := by
      refine h.moveFile (by simp [hc]) (fun _ _ hfork => by cases hfork) (.inr (.inr hown)) (fun hzero => ?_) ?_
        (fun g _ => hshare g) (fun pi writable => ?_) trivial
      · exact absurd (href.symm.trans hzero) Nat.one_ne_zero
      · rw [hshare]
      · rw [hc, hkind]
        rfl
    exact hmove

theorem pipe (h : Inv s) (hc : s.call p = .user) : Inv (s.setCall p (.pipealloc [])) := by
  rw [setCall_eq_move]
  exact h.move (by simp [hc]) (fun _ _ hfork => by cases hfork) (fun g => by rw [owns_eq hc]; rfl)
    (fun pi writable => by rw [hc]; rfl) ⟨List.nodup_nil, fun f hf => absurd hf List.not_mem_nil⟩

/-- The files that `pipealloc` has got are closed. -/
theorem close_held (h : Inv s) {c : Call} (hc : s.call p = c) (hembryo : c ≠ .embryo) (hheld : held c = fs)
    (hentries : entries c = fun o => o) (hpending : ∀ pi writable, c.pending pi writable = false) :
    Inv (s.setCall p (.close fs .ret)) := by
  rw [setCall_eq_move]
  refine h.move (by rwa [hc]) (fun _ _ hfork => by cases hfork) (fun g => ?_) (fun pi writable => ?_) trivial
  · rw [owns_eq hc, share, share, hheld, hentries]
    rfl
  · rw [hc, hpending]
    rfl

theorem filealloc (h : Inv s) (hc : s.call p = .pipealloc []) :
    Inv (s.filealloc.elim (s.setCall p .user) fun x => x.2.setCall p (.pipealloc [x.1])) := by
  rcases filealloc_cases (s := s) with heq | ⟨f, hzero, heq⟩
  · rw [heq, Option.elim_none, setCall_eq_move]
    exact h.move (by simp [hc]) (fun _ _ hfork => by cases hfork) (fun g => by rw [owns_eq hc]; rfl)
      (fun pi writable => by rw [hc]; rfl) trivial
  · rw [heq]
    refine h.setFile_one (by simp [hc]) (fun _ _ => nofun) hzero (fun g => by rw [owns_eq hc]; rfl)
      (fun pi writable => by rw [hc]; rfl) ⟨List.nodup_singleton f, fun g hg => ?_⟩
    obtain rfl := List.mem_singleton.mp hg
    exact h.fresh hzero

theorem filealloc' (h : Inv s) (hc : s.call p = .pipealloc [f]) :
    Inv (s.filealloc.elim (s.setCall p (.close [f] .ret)) fun x => x.2.setCall p (.pipealloc [f, x.1])) := by
  rcases filealloc_cases (s := s) with heq | ⟨g, hzero, heq⟩
  · rw [heq]
    exact h.close_held hc (by simp) rfl rfl fun _ _ => rfl
  · obtain ⟨-, hfresh⟩ := h.placed hc
    have hf := hfresh f List.mem_cons_self
    have hne : f ≠ g := by
      rintro rfl
      exact absurd (hf.2.symm.trans hzero) Nat.one_ne_zero
    rw [heq]
    refine h.setFile_one (by simp [hc]) (fun _ _ => nofun) hzero (fun g' => ?_) (fun pi writable => by rw [hc]; rfl)
      ⟨by simp [hne], fun g' hg' => ?_⟩
    · have hcount : [f, g].count g' = [f].count g' + [g].count g' := count_cons f g' [g]
      rw [owns_eq hc]
      change _ + [f, g].count g' = _ + [f].count g' + _
      rw [hcount, Nat.add_assoc]
      rfl
    · rcases List.mem_cons.mp hg' with rfl | hg'
      · have hkept : (s.setFile g { s.file g with ref := 1 }).Fresh g' := by
          rw [System.Fresh, setFile_of_ne hne]
          exact hf
        exact hkept
      · obtain rfl := List.mem_singleton.mp hg'
        exact h.fresh hzero

theorem kalloc (h : Inv s) {f₀ f₁ : FileId} (hc : s.call p = .pipealloc [f₀, f₁]) (hpipe : s.pipe pi = none) :
    Inv ({ (s.setFile f₀ { s.file f₀ with kind := .pipe pi false }).setFile f₁
      { (s.setFile f₀ { s.file f₀ with kind := .pipe pi false }).file f₁ with kind := .pipe pi true } with
        pipe := Function.update s.pipe pi (some ⟨true, true⟩) }.setCall p (.piped f₀ f₁)) := by
  obtain ⟨hnodup, hfresh⟩ := h.placed hc
  have hne : f₀ ≠ f₁ := fun heq => (List.nodup_cons.mp hnodup).1 (heq ▸ List.mem_singleton.mpr rfl)
  obtain ⟨hkind₀, -⟩ := hfresh f₀ List.mem_cons_self
  obtain ⟨hkind₁, -⟩ := hfresh f₁ (List.mem_cons_of_mem _ (List.mem_singleton.mpr rfl))
  have hsecond : (s.setFile f₀ { s.file f₀ with kind := .pipe pi false }).file f₁ = s.file f₁ := setFile_of_ne hne.symm
  have hfile (g : FileId) : (joined s pi f₀ f₁).file g = s.file g ∨ 0 < s.owns p g := by
    by_cases hg : g ∈ [f₀, f₁]
    · rw [owns_eq hc]
      exact .inr (share_pos_of_held hg)
    · exact .inl (joined_file s pi hg)
  rw [hsecond, setCall_eq_move]
  exact h.one {
    live := h.live
    call := rfl
    ofile := rfl
    grown := by simp [hc]
    forks := fun _ _ hfork => by cases hfork
    file := fun g => (hfile g).imp_right .inr
    share := by
      intro g
      rw [owns_eq hc]
      exact congrArg (· + share (.pipealloc [f₀, f₁]) (s.ofile p) g) (joined_ref s pi f₀ f₁ g)
    free := by
      intro g hg
      have hzero : (s.file g).ref = 0 := (joined_ref s pi f₀ f₁ g).symm.trans hg
      rcases hfile g with heq | hown
      · exact (congrArg File.kind heq).trans (h.free g hzero)
      · exact absurd (h.ref_pos hown) (by omega)
    users := by
      intro pi' writable
      have hcalls : ((joined s pi f₀ f₁).setCall p (.piped f₀ f₁)).users pi' writable +
          ((s.call p).pending pi' writable).toNat = (joined s pi f₀ f₁).users pi' writable + 0 :=
        users_setCall (joined s pi f₀ f₁) p (.piped f₀ f₁) pi' writable
      have hpending : (s.call p).pending pi' writable = false := by
        rw [hc]
        rfl
      rw [hpending, joined_users hne hkind₀ hkind₁, h.users] at hcalls
      refine hcalls.trans ?_
      change (s.isOpen pi' writable).toNat + _ + 0 =
        ((Function.update s.pipe pi (some ⟨true, true⟩) pi').any fun ends => ends.isOpen writable).toNat
      by_cases hpi : pi' = pi
      · have hshut : s.isOpen pi' writable = false := by rw [System.isOpen, hpi, hpipe, Option.any_none]
        rw [hshut, hpi, Function.update_self, Option.any_some]
        cases writable with
        | true => simp [Ends.isOpen]
        | false => simp [Ends.isOpen]
      · rw [Function.update_of_ne hpi]
        simp [System.isOpen, hpi]
    ends := by
      intro pi' ends hends
      change Function.update s.pipe pi (some ⟨true, true⟩) pi' = some ends at hends
      by_cases hpi : pi' = pi
      · rw [hpi, Function.update_self] at hends
        obtain rfl := Option.some.inj hends
        exact .inl rfl
      · rw [Function.update_of_ne hpi] at hends
        exact h.ends pi' ends hends
    place := trivial }

theorem pipefds (h : Inv s) {f₀ f₁ : FileId} (hc : s.call p = .piped f₀ f₁) (copied : Bool) :
    Inv ((s.fdalloc p f₀).elim (s.setCall p (.close [f₀, f₁] .ret)) fun x =>
      (x.2.fdalloc p f₁).elim (s.setCall p (.close [f₀, f₁] .ret)) fun y =>
        if copied then y.2.setCall p .user else s.setCall p (.close [f₀, f₁] .ret)) := by
  have hbad : Inv (s.setCall p (.close [f₀, f₁] .ret)) := h.close_held hc (by simp) rfl rfl fun _ _ => rfl
  rcases fdalloc_cases s p f₀ with heq | ⟨fd₀, hfree₀, heq⟩
  · rw [heq]
    exact hbad
  · rw [heq, Option.elim_some]
    rcases fdalloc_cases (s.setFd p fd₀ (some f₀)) p f₁ with heq | ⟨fd₁, hfree₁, heq⟩
    · rw [heq]
      exact hbad
    · rw [heq, Option.elim_some]
      cases copied with
      | false => exact hbad
      | true =>
          have hofile : (s.setFd p fd₀ (some f₀)).ofile p = Function.update (s.ofile p) fd₀ (some f₀) :=
            Function.update_self ..
          rw [hofile] at hfree₁
          have hmove : ((s.setFd p fd₀ (some f₀)).setFd p fd₁ (some f₁)).setCall p .user =
              s.move p .user (Function.update (Function.update (s.ofile p) fd₀ (some f₀)) fd₁ (some f₁)) := by
            simp only [System.setFd, System.setCall, System.move, Function.update_self, Function.update_idem]
          rw [if_pos rfl, hmove]
          refine h.move (by simp [hc]) (fun _ _ hfork => by cases hfork) (fun g => ?_)
            (fun pi writable => by rw [hc]; rfl) trivial
          have hcount : [f₀, f₁].count g = [f₀].count g + [f₁].count g := count_cons f₀ g [f₁]
          rw [owns_eq hc]
          change tally _ _ + 0 = tally (s.ofile p) _ + [f₀, f₁].count g
          rw [entries_user, tally_set hfree₁, tally_set hfree₀, hcount]
          omega

/-- A process and its child move on, with what they have. -/
theorem setCall_child {child : Slot} {c c' : Call} (h : Inv s) (hne : p ≠ child) (hp : s.call p ≠ .embryo)
    (honly : ∀ q i, s.call q = .fork child i → q = p) (hshare : ∀ o f, share c o f = share (s.call p) o f)
    (hshare' : ∀ o f, share c' o f = share (s.call child) o f)
    (hpending : ∀ pi writable, c.pending pi writable = (s.call p).pending pi writable)
    (hpending' : ∀ pi writable, c'.pending pi writable = (s.call child).pending pi writable)
    (hforks : ∀ child' i, s.call child' = .embryo → c = .fork child' i → ∃ i', s.call p = .fork child' i')
    (hforks' : ∀ child' i, c' ≠ .fork child' i) (hplace : Place ((s.setCall p c).setCall child c') p c)
    (hplace' : Place ((s.setCall p c).setCall child c') child c') : Inv ((s.setCall p c).setCall child c') := by
  have hcallp : ((s.setCall p c).setCall child c').call p = c :=
    (Function.update_of_ne hne ..).trans (Function.update_self ..)
  have hcallc : ((s.setCall p c).setCall child c').call child = c' := Function.update_self ..
  have hother (q : Slot) (hqp : q ≠ p) (hqc : q ≠ child) : ((s.setCall p c).setCall child c').call q = s.call q :=
    (Function.update_of_ne hqc ..).trans (Function.update_of_ne hqp ..)
  have howns (q : Slot) (g : FileId) : ((s.setCall p c).setCall child c').owns q g = s.owns q g := by
    by_cases hqp : q = p
    · rw [hqp, System.owns, hcallp]
      exact hshare ..
    · by_cases hqc : q = child
      · rw [hqc, System.owns, hcallc]
        exact hshare' ..
      · rw [System.owns, hother q hqp hqc]
        rfl
  exact h.act {
    live := h.live
    other := fun q hqp hqc => ⟨hother q hqp hqc, rfl⟩
    file := fun _ => .inl rfl
    grown := hp
    parent := honly
    forks := by
      intro r hr child' i hembryo hfork
      rcases hr with rfl | rfl
      · exact hforks child' i hembryo (hcallp.symm.trans hfork)
      · exact absurd (hcallc.symm.trans hfork) (hforks' child' i)
    counted := fun f => (h.counted f).trans (Finset.sum_congr rfl fun q _ => (howns q f).symm)
    free := h.free
    users := by
      intro pi writable
      have hone := users_setCall s p c pi writable
      have htwo := users_setCall (s.setCall p c) child c' pi writable
      have hsame : (s.setCall p c).call child = s.call child := Function.update_of_ne hne.symm ..
      have hopen : ((s.setCall p c).setCall child c').isOpen pi writable = s.isOpen pi writable := rfl
      rw [hpending] at hone
      rw [hsame, hpending'] at htwo
      rw [hopen, ← h.users]
      omega
    ends := h.ends
    place := by rwa [hcallp]
    place' := by rwa [hcallc] }

/-- `allocproc` in `fork` takes a slot that is free. -/
theorem fork (h : Inv s) {child : Slot} (hc : s.call p = .user) (hchild : s.call child = .unused) :
    Inv ((s.setCall p (.fork child 0)).setCall child .embryo) := by
  have hne : p ≠ child := by
    rintro rfl
    cases hc.symm.trans hchild
  have hnone (q : Slot) (i : Nat) (hfork : s.call q = .fork child i) : False := by
    cases (h.placed hfork).1.symm.trans hchild
  refine h.setCall_child hne (by simp [hc]) (fun q i hfork => (hnone q i hfork).elim) (fun o f => by rw [hc]; rfl)
    (fun o f => by rw [hchild]; rfl) (fun pi writable => by rw [hc]; rfl) (fun pi writable => by rw [hchild]; rfl)
    (fun child' i hembryo hfork => ?_) (fun _ _ => nofun) ⟨Function.update_self .., fun j _ => h.placed hchild j, ?_⟩
    trivial
  · obtain ⟨rfl, -⟩ := Call.fork.inj hfork
    cases hembryo.symm.trans hchild
  · intro q i hfork
    by_contra hqp
    by_cases hqc : q = child
    · subst hqc
      cases (Function.update_self ..).symm.trans hfork
    · have hsame : ((s.setCall p (.fork child 0)).setCall child .embryo).call q = s.call q :=
        (Function.update_of_ne hqc ..).trans (Function.update_of_ne hqp ..)
      exact hnone q i (hsame.symm.trans hfork)

theorem fork_return (h : Inv s) {child : Slot} {i : Nat} (hc : s.call p = .fork child i) :
    Inv ((s.setCall p .user).setCall child .user) := by
  obtain ⟨hembryo, -, honly⟩ := h.placed hc
  have hne : p ≠ child := by
    rintro rfl
    cases hc.symm.trans hembryo
  exact h.setCall_child hne (by simp [hc]) honly (fun o f => by rw [hc]; rfl) (fun o f => by rw [hembryo]; rfl)
    (fun pi writable => by rw [hc]; rfl) (fun pi writable => by rw [hembryo]; rfl) (fun _ _ _ hfork => by cases hfork)
    (fun _ _ => nofun) trivial trivial

theorem fork_skip (h : Inv s) {child : Slot} {i : Nat} (hc : s.call p = .fork child i) :
    Inv (s.setCall p (.fork child (i + 1))) := by
  obtain ⟨hembryo, hnone, honly⟩ := h.placed hc
  have hne : child ≠ p := by
    rintro rfl
    cases hc.symm.trans hembryo
  rw [setCall_eq_move]
  refine h.move (by simp [hc]) (fun child' i' hfork => ?_) (fun g => by rw [owns_eq hc]; rfl)
    (fun pi writable => by rw [hc]; rfl) ⟨(move_call_of_ne hne).trans hembryo, fun j hj => ?_, fun q i' hfork => ?_⟩
  · obtain ⟨rfl, -⟩ := Call.fork.inj hfork
    exact ⟨i, hc⟩
  · exact (congrFun (move_ofile_of_ne hne) j).trans (hnone j (Nat.le_of_succ_le hj))
  · by_contra hq
    exact hq (honly q i' ((move_call_of_ne hq).symm.trans hfork))

theorem fork_copy (h : Inv s) {child : Slot} (fd : Fd) (hc : s.call p = .fork child fd) (hfd : s.ofile p fd = some f) :
    Inv (((s.filedup f).setFd child fd (some f)).setCall p (.fork child (fd + 1))) := by
  obtain ⟨hembryo, hnone, honly⟩ := h.placed hc
  have hne : child ≠ p := by
    rintro rfl
    cases hc.symm.trans hembryo
  have hown : 0 < s.owns p f := by
    rw [owns_eq hc]
    exact share_pos fd hfd
  have href := h.ref_pos hown
  have hcallc : (granted s p child f fd).call child = .embryo := (granted_call_of_ne hne).trans hembryo
  rw [System.filedup, if_neg (by omega)]
  change Inv (granted s p child f fd)
  exact h.act (p := p) (c := child) {
    live := h.live
    other := fun q hqp hqc => ⟨granted_call_of_ne hqp, granted_ofile_of_ne hqc⟩
    file := by
      intro g
      by_cases hg : g = f
      · exact .inr (.inr (hg ▸ hown))
      · exact .inl (granted_file_of_ne hg)
    grown := by simp [hc]
    parent := honly
    forks := by
      intro r hr child' i _ hfork
      rcases hr with rfl | rfl
      · obtain ⟨rfl, -⟩ := Call.fork.inj (granted_call.symm.trans hfork)
        exact ⟨fd, hc⟩
      · cases hcallc.symm.trans hfork
    counted := counted_one h.counted (fun q hq g => granted_owns_of_ne hc hne hq g)
      (granted_owns hne hembryo (hnone fd le_rfl))
    free := by
      intro g hg
      by_cases hgf : g = f
      · rw [hgf, granted_file] at hg
        exact absurd hg (Nat.succ_ne_zero _)
      · rw [granted_file_of_ne hgf] at hg ⊢
        exact h.free g hg
    users := fun pi writable => (granted_users hc pi writable).trans (h.users pi writable)
    ends := h.ends
    place := by
      rw [granted_call]
      refine ⟨hcallc, fun j hj => ?_, fun q i hfork => ?_⟩
      · have hjfd : j ≠ fd := by
          rintro rfl
          omega
        rw [granted_ofile, Function.update_of_ne hjfd]
        exact hnone j (Nat.le_of_succ_le hj)
      · by_contra hq
        exact hq (honly q i ((granted_call_of_ne hq).symm.trans hfork))
    place' := by
      rw [hcallc]
      trivial }

theorem exit (h : Inv s) (hc : s.call p = .user) : Inv (s.setCall p (.exit 0)) := by
  rw [setCall_eq_move]
  exact h.move (by simp [hc]) (fun _ _ hfork => by cases hfork) (fun g => by rw [owns_eq hc]; rfl)
    (fun pi writable => by rw [hc]; rfl) fun j hj => absurd hj (Nat.not_lt_zero _)

theorem exit_skip (h : Inv s) (fd : Fd) (hc : s.call p = .exit fd) (hfd : s.ofile p fd = none) : Inv (s.setCall p (.exit (fd + 1))) := by
  rw [setCall_eq_move]
  refine h.move (by simp [hc]) (fun _ _ hfork => by cases hfork) (fun g => by rw [owns_eq hc]; rfl)
    (fun pi writable => by rw [hc]; rfl) fun j hj => ?_
  rw [move_ofile]
  by_cases hjfd : j = fd
  · rw [hjfd, hfd]
  · have hlt : j < fd := lt_of_le_of_ne (Nat.le_of_lt_succ hj) hjfd
    exact h.placed hc j hlt

theorem exit_close (h : Inv s) (fd : Fd) (hc : s.call p = .exit fd) (hfd : s.ofile p fd = some f) :
    Inv (s.setCall p (.close [f] (.clear fd))) := by
  rw [setCall_eq_move]
  refine h.move (by simp [hc]) (fun _ _ hfork => by cases hfork) (fun g => ?_) (fun pi writable => by rw [hc]; rfl)
    fun j hj => ?_
  · rw [owns_eq hc]
    exact tally_clear hfd g
  · rw [move_ofile]
    exact h.placed hc j hj

theorem zombie (h : Inv s) {i : Nat} (hc : s.call p = .exit i) (hi : ¬ i < NOFILE) : Inv (s.setCall p .zombie) := by
  rw [setCall_eq_move]
  refine h.move (by simp [hc]) (fun _ _ hfork => by cases hfork) (fun g => by rw [owns_eq hc]; rfl)
    (fun pi writable => by rw [hc]; rfl) fun j => ?_
  rw [move_ofile]
  exact h.placed hc j (j.isLt.trans_le (Nat.not_lt.mp hi))

theorem reap (h : Inv s) (hc : s.call p = .zombie) : Inv (s.setCall p .unused) := by
  rw [setCall_eq_move]
  refine h.move (by simp [hc]) (fun _ _ hfork => by cases hfork) (fun g => by rw [owns_eq hc]; rfl)
    (fun pi writable => by rw [hc]; rfl) fun j => ?_
  rw [move_ofile]
  exact h.placed hc j

theorem step {e : Event} (h : Inv s) (hs : System.step e s = some s') : Inv s' := by
  unfold System.step at hs
  rw [if_neg h.not_panicked] at hs
  cases e with
  | dup p fd =>
      simp only at hs
      split at hs
      · obtain rfl := Option.some.inj hs
        exact h.dup ‹_› ‹_›
      · cases hs
  | filedup p =>
      simp only at hs
      split at hs
      · obtain ⟨f, hfd, rfl⟩ := Option.map_eq_some_iff.mp hs
        exact h.filedup ‹_› hfd
      · cases hs
  | close p fd =>
      simp only at hs
      split at hs
      · obtain rfl := Option.some.inj hs
        exact h.close ‹_› ‹_›
      · cases hs
  | fileclose p =>
      simp only at hs
      split at hs
      · obtain rfl := Option.some.inj hs
        exact h.fileclose ‹_›
      · cases hs
  | pipeclose p =>
      simp only at hs
      split at hs
      · obtain rfl := Option.some.inj hs
        exact h.pipeclose ‹_›
      · cases hs
  | closed p =>
      simp only at hs
      split at hs
      · obtain rfl := Option.some.inj hs
        exact h.close_return ‹_›
      · obtain rfl := Option.some.inj hs
        exact h.close_clear ‹_›
      · cases hs
  | sysOpen p =>
      simp only [Option.ite_none_right_eq_some, Option.some.injEq] at hs
      obtain ⟨hc, rfl⟩ := hs
      exact h.sysOpen hc
  | opened p ip =>
      simp only at hs
      split at hs
      · obtain rfl := Option.some.inj hs
        exact h.opened ‹_› ip
      · cases hs
  | pipe p =>
      simp only [Option.ite_none_right_eq_some, Option.some.injEq] at hs
      obtain ⟨hc, rfl⟩ := hs
      exact h.pipe hc
  | filealloc p =>
      simp only at hs
      split at hs
      · obtain rfl := Option.some.inj hs
        exact h.filealloc ‹_›
      · obtain rfl := Option.some.inj hs
        exact h.filealloc' ‹_›
      · cases hs
  | kalloc p page =>
      simp only at hs
      split at hs
      · obtain rfl := Option.some.inj hs
        exact h.close_held ‹_› (by simp) rfl rfl fun _ _ => rfl
      · simp only [Option.ite_none_right_eq_some, Option.some.injEq] at hs
        obtain ⟨hpipe, rfl⟩ := hs
        exact h.kalloc ‹_› hpipe
      · cases hs
  | pipefds p copied =>
      simp only at hs
      split at hs
      · obtain rfl := Option.some.inj hs
        exact h.pipefds ‹_› copied
      · cases hs
  | fork p child =>
      simp only [Option.ite_none_right_eq_some, Option.some.injEq] at hs
      obtain ⟨⟨hc, hchild⟩, rfl⟩ := hs
      exact h.fork hc hchild
  | copy p =>
      simp only at hs
      split at hs
      · rename_i child i hc
        split_ifs at hs with hi
        · obtain rfl := Option.some.inj hs
          cases hfd : s.ofile p ⟨i, hi⟩ with
          | none => exact h.fork_skip hc
          | some f => exact h.fork_copy ⟨i, hi⟩ hc hfd
        · obtain rfl := Option.some.inj hs
          exact h.fork_return hc
      · cases hs
  | exit p =>
      simp only [Option.ite_none_right_eq_some, Option.some.injEq] at hs
      obtain ⟨hc, rfl⟩ := hs
      exact h.exit hc
  | clear p =>
      simp only at hs
      split at hs
      · rename_i i hc
        split_ifs at hs with hi
        · obtain rfl := Option.some.inj hs
          cases hfd : s.ofile p ⟨i, hi⟩ with
          | none => exact h.exit_skip ⟨i, hi⟩ hc hfd
          | some f => exact h.exit_close ⟨i, hi⟩ hc hfd
        · obtain rfl := Option.some.inj hs
          exact h.zombie hc hi
      · cases hs
  | reap p =>
      simp only [Option.ite_none_right_eq_some, Option.some.injEq] at hs
      obtain ⟨hc, rfl⟩ := hs
      exact h.reap hc

end Inv

end Xv6Mlfq.Files
