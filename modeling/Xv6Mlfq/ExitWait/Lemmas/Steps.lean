import Xv6Mlfq.ExitWait.Lemmas.Effects

/-!
# The invariant and the steps of one process
-/

namespace Xv6Mlfq.ExitWait

open Access Queue Kernel

variable {init p q i : Slot} {s : System} {k : State} {lock : Option Slot} {pc pc₀ : Pc}

namespace Inv

theorem wakes_holds (h : pc.Wakes q) : pc.Holds := by
  cases pc with
  | wakeInit wake rest status => trivial
  | _ => exact False.elim h

theorem willWake_put (h : s.WillWake init q) (hp : (s.pc p).Wakes q → pc.Wakes q) :
    (s.put p k lock pc).WillWake init q := by
  obtain ⟨hq, r, hr⟩ := h
  by_cases hrp : r = p
  · subst hrp
    exact ⟨hq, r, by rw [put_pc_self]; exact hp hr⟩
  · exact ⟨hq, r, by rw [put_pc_of_ne hrp]; exact hr⟩

theorem stands_at (h : Inv init s) (hpc : s.pc p = pc) : Stands init s p pc := hpc ▸ h.stands p

theorem used (h : Inv init s) (hq : (s.pc q).Forks i) : s.phase i = .used := by
  have hstands := h.stands q
  generalize s.pc q = pc at hq hstands
  cases pc with
  | adopt np pid | launch np pid =>
      obtain rfl : np = i := hq
      exact hstands.1
  | _ => exact False.elim hq

theorem forker_eq (h : Inv init s) (hq : (s.pc q).Forks i) (hi : s.parent i = some p) : q = p := by
  have hstands := h.stands q
  generalize s.pc q = pc at hq hstands
  cases pc with
  | adopt np pid =>
      obtain rfl : np = i := hq
      cases hstands.2.symm.trans hi
  | launch np pid =>
      obtain rfl : np = i := hq
      exact Option.some.inj (hstands.2.symm.trans hi)
  | _ => exact False.elim hq

/-- A process that rests keeps a child if the slot that gets another parent was not its child. -/
theorem children_update {o : Option Slot} (h : Inv init s) (hq : s.Asleep q) (hi : s.parent i ≠ some q)
    (hparent : parents k = Function.update s.parent i o) : ∃ j, parents k j = some q := by
  obtain ⟨j, hj⟩ := h.children q hq
  have hji : j ≠ i := by
    rintro rfl
    exact hi hj
  exact ⟨j, by rw [hparent, Function.update_of_ne hji]; exact hj⟩

/-- While a process holds `wait_lock`, no other process does. -/
theorem alone (h : Inv init s) (hp : (s.pc p).Holds) (hq : (s.pc q).Holds) : q = p :=
  Option.some.inj (((h.held q).mp hq).symm.trans ((h.held p).mp hp))

theorem no_wakes_of_free (h : Inv init s) (hfree : s.waitLock = none) (r : Slot) : ¬ (s.pc r).Wakes q := fun hr => by
  cases hfree.symm.trans ((h.held r).mp (wakes_holds hr))

theorem no_wakes_of_held (h : Inv init s) (hp : (s.pc p).Holds) (hno : ¬ (s.pc p).Wakes q) (r : Slot) :
    ¬ (s.pc r).Wakes q := fun hr => by
  obtain rfl := h.alone hp (wakes_holds hr)
  exact hno hr

/-- Unless somebody is about to wake it up, a process that rests has no dead child. -/
theorem unmissed (h : Inv init s) (hno : ∀ r, ¬ (s.pc r).Wakes q) (hq : s.Asleep q) (hi : s.parent i = some q) :
    s.phase i ≠ .zombie := fun hz => by
  obtain ⟨-, r, hr⟩ := h.rests q hq i hi hz
  exact hno r hr

/-! ## Steps that leave the family as it is -/

theorem calm (h : Inv init s) (hpc : s.pc p = pc₀) (hk : Calm s.kernel k) (hlock : LockMove p s.waitLock pc₀ lock pc)
    (hrest : ¬ pc.Rests) (halive : lock = some p → s.phase p = .alive) (hforks : ∀ i, pc.Forks i → pc₀.Forks i)
    (hstands : Stands init (s.put p k lock pc) p pc)
    (hwakes : pc₀.Wakes init → (s.put p k lock pc).Asleep init → pc.Wakes init) : Inv init (s.put p k lock pc) := by
  subst hpc
  refine h.put hlock hk.drowsy hrest ?_ (fun q hq => ?_) (fun i hi q hqp hq => ?_) hstands ?_ ?_ ?_ ?_
  · rw [hk.phases, hk.parents]
    exact h.kin
  · rw [hk.phases]
    generalize hl : s.waitLock = l at hlock
    cases hlock with
    | keep hh => exact h.holder q (hl.trans hq)
    | acquire hh =>
        cases hq
        exact halive rfl
    | release hh => cases hq
  · exact hqp (h.forkers q p i hq (hforks i hi))
  · exact fun q i _ _ => ⟨congrFun hk.phases i, congrFun hk.parents i⟩
  · exact fun q _ _ => ⟨hk.parents, fun i hz => (congrFun hk.phases i).symm.trans hz⟩
  · intro q _ hq
    rw [hk.parents]
    exact h.children q hq
  · intro q _ hq hq' i hi hz
    rw [hk.parents] at hi
    rw [hk.phases] at hz
    obtain rfl : q = init := (h.rests q hq i hi hz).1
    exact willWake_put (h.rests q hq i hi hz) fun hw => hwakes hw hq'

theorem keep (h : Inv init s) (hpc : s.pc p = pc₀) (hk : Calm s.kernel k) (hholds : pc.Holds ↔ pc₀.Holds)
    (hrest : ¬ pc.Rests) (hforks : ∀ i, pc.Forks i → pc₀.Forks i)
    (hwakes : pc₀.Wakes init → (s.put p k s.waitLock pc).Asleep init → pc.Wakes init)
    (hstands : Stands init (s.put p k s.waitLock pc) p pc) : Inv init (s.put p k s.waitLock pc) :=
  h.calm hpc hk (.keep hholds) hrest (h.holder p) hforks hstands hwakes

theorem idle (h : Inv init s) (hpc : s.pc p = pc₀) (hk : Calm s.kernel k) (hholds : ¬ pc₀.Holds) (hidle : pc.Idle) :
    Inv init (s.put p k s.waitLock pc) := by
  have hwakes : ¬ pc₀.Wakes init := mt wakes_holds hholds
  cases pc with
  | user _ | alloc _ | exiting | dead | waitLock _ | wakeup _ _ | kill _ _ =>
      exact h.keep hpc hk (iff_of_false id hholds) id (fun _ => False.elim) (fun hw => absurd hw hwakes) trivial
  | _ => exact hidle.elim

theorem acquire (h : Inv init s) (hpc : s.pc p = pc₀) (hfree : s.waitLock = none) (halive : s.phase p = .alive)
    (hholds : pc.Holds) (hrest : ¬ pc.Rests) (hforks : ∀ i, pc.Forks i → pc₀.Forks i) (hwakes : ¬ pc₀.Wakes init)
    (hstands : Stands init (s.put p s.kernel (some p) pc) p pc) : Inv init (s.put p s.kernel (some p) pc) :=
  h.calm hpc (.refl _) (hfree ▸ .acquire hholds) hrest (fun _ => halive) hforks hstands
    fun hw => absurd hw hwakes

theorem release (h : Inv init s) (hpc : s.pc p = pc₀) (hheld : pc₀.Holds) (hholds : ¬ pc.Holds) (hrest : ¬ pc.Rests)
    (hforks : ∀ i, pc.Forks i → pc₀.Forks i) (hwakes : ¬ pc₀.Wakes init)
    (hstands : Stands init (s.put p s.kernel none pc) p pc) : Inv init (s.put p s.kernel none pc) := by
  have hlock : s.waitLock = some p := (h.held p).mp (hpc ▸ hheld)
  exact h.calm hpc (.refl _) (hlock ▸ .release hholds) hrest (fun hl => by cases hl) hforks hstands
    fun hw => absurd hw hwakes

/-! ## Fork -/

/-- A free slot is given to a process that starts outside of the protocol. -/
theorem fresh (h : Inv init s) (hi : s.phase i = .unused) (r : Ret) :
    Inv init (s.put i s.kernel s.waitLock (.user r)) := by
  have hholds : ¬ (s.pc i).Holds := fun hh => by
    cases hi.symm.trans (h.holder i ((h.held i).mp hh))
  exact h.idle rfl (.refl _) hholds trivial

theorem created {rest : List Slot} {pid : Int} (h : Inv init s) (hpc : s.pc p = .alloc rest)
    (hi : s.phase i = .unused) (hd : Drowsy s.kernel k) (hphase : phases k = Function.update s.phase i .used)
    (hparent : parents k = s.parent) : Inv init (s.put p k s.waitLock (.adopt i pid)) := by
  have hzombie : ∀ j, phases k j = .zombie → s.phase j = .zombie := Kin.zombie_of_update hphase (by simp)
  refine h.put (hpc ▸ .keep Iff.rfl) hd id ?_ (fun q hq => ?_) (fun j hj q _ hq => ?_) ?_ (fun q j _ hq => ?_)
    (fun q _ _ => ⟨hparent, hzombie⟩) (fun q _ hq => ?_) fun q _ hq _ j hj hz => ?_
  · rw [hphase, hparent]
    exact h.kin.create hi
  · have halive := h.holder q hq
    have hqi : q ≠ i := by
      rintro rfl
      cases hi.symm.trans halive
    rw [hphase, Function.update_of_ne hqi]
    exact halive
  · obtain rfl : i = j := hj
    cases hi.symm.trans (h.used hq)
  · refine ⟨?_, ?_⟩
    · rw [put_phase, hphase, Function.update_self]
    · rw [put_parent, hparent]
      exact h.kin.vacant i hi
  · have hji : j ≠ i := by
      rintro rfl
      cases hi.symm.trans (h.used hq)
    rw [hphase, hparent, Function.update_of_ne hji]
    exact ⟨rfl, rfl⟩
  · rw [hparent]
    exact h.children q hq
  · rw [hparent] at hj
    refine willWake_put (h.rests q hq j hj (hzombie j hz)) fun hw => ?_
    rw [hpc] at hw
    exact False.elim hw

theorem adopted {np : Slot} {pid : Int} (h : Inv init s) (hpc : s.pc p = .adopt np pid) (halive : s.phase p = .alive)
    (hfree : s.waitLock = none) (hd : Drowsy s.kernel k) (hphase : phases k = s.phase)
    (hparent : parents k = Function.update s.parent np (some p)) : Inv init (s.put p k none (.launch np pid)) := by
  obtain ⟨hused, horphan⟩ : s.phase np = .used ∧ s.parent np = none := h.stands_at hpc
  have hfree' : ∀ q, ¬ (s.pc q).Holds := fun q hq => by
    cases hfree.symm.trans ((h.held q).mp hq)
  refine h.put ?_ hd id ?_ (fun q hq => by cases hq) (fun j hj q hqp hq => ?_) ⟨?_, ?_⟩ (fun q j hqp hq => ?_)
    (fun q _ hq => absurd hq (hfree' q)) (fun q _ hq => ?_) fun q hqp hq _ j hj hz => ?_
  · rw [hpc, hfree]
    exact .keep Iff.rfl
  · rw [hphase, hparent]
    exact h.kin.adopt halive (by simp [hused])
  · refine hqp (h.forkers q p j hq ?_)
    rw [hpc]
    exact hj
  · rw [put_phase, hphase]
    exact hused
  · rw [put_parent, hparent, Function.update_self]
  · have hj : j ≠ np := by
      rintro rfl
      refine hqp (h.forkers q p j hq ?_)
      rw [hpc]
      rfl
    rw [hphase, hparent, Function.update_of_ne hj]
    exact ⟨rfl, rfl⟩
  · exact h.children_update hq (by simp [horphan]) hparent
  · have hne : j ≠ np := by
      rintro rfl
      rw [hphase] at hz
      cases hused.symm.trans hz
    rw [hparent, Function.update_of_ne hne] at hj
    rw [hphase] at hz
    exact absurd hz (h.unmissed (h.no_wakes_of_free hfree) hq hj)

theorem launched {np : Slot} {pid : Int} {r : Ret} (h : Inv init s) (hpc : s.pc p = .launch np pid)
    (hd : Drowsy s.kernel k) (hphase : phases k = Function.update s.phase np .alive) (hparent : parents k = s.parent) :
    Inv init (s.put p k s.waitLock (.user r)) := by
  obtain ⟨hused, hchild⟩ : s.phase np = .used ∧ s.parent np = some p := h.stands_at hpc
  have hzombie : ∀ j, phases k j = .zombie → s.phase j = .zombie := Kin.zombie_of_update hphase (by simp)
  refine h.put (hpc ▸ .keep Iff.rfl) hd id ?_ (fun q hq => ?_) (fun _ hj => False.elim hj) trivial
    (fun q j hqp hq => ?_) (fun q _ _ => ⟨hparent, hzombie⟩) (fun q _ hq => ?_) fun q _ hq _ j hj hz => ?_
  · rw [hphase, hparent]
    exact h.kin.launch (by simp [hchild])
  · rw [hphase]
    by_cases hq' : q = np
    · rw [hq', Function.update_self]
    · rw [Function.update_of_ne hq']
      exact h.holder q hq
  · have hj : j ≠ np := by
      rintro rfl
      refine hqp (h.forkers q p j hq ?_)
      rw [hpc]
      rfl
    rw [hphase, hparent, Function.update_of_ne hj]
    exact ⟨rfl, rfl⟩
  · rw [hparent]
    exact h.children q hq
  · rw [hparent] at hj
    refine willWake_put (h.rests q hq j hj (hzombie j hz)) fun hw => ?_
    rw [hpc] at hw
    exact False.elim hw

/-! ## Exit -/

theorem passed {rest : List Slot} {status : Int} (h : Inv init s) (hpc : s.pc p = .reparent (i :: rest) status)
    (hi : s.parent i = some p) (hd : Drowsy s.kernel k) (hphase : phases k = s.phase)
    (hparent : parents k = Function.update s.parent i (some init)) :
    Inv init (s.put p k s.waitLock (.wakeInit slots rest status)) := by
  have hholds : (s.pc p).Holds := by rw [hpc]; trivial
  obtain ⟨hne, hvisited⟩ : p ≠ init ∧ ∀ j, j ∉ i :: rest → s.parent j ≠ some p := h.stands_at hpc
  refine h.put (hpc ▸ .keep Iff.rfl) hd id ?_ (fun q hq => ?_) (fun _ hj => False.elim hj) ⟨hne, fun j hj => ?_⟩
    (fun q j hqp hq => ?_) (fun q hqp hq => absurd (h.alone hholds hq) hqp) (fun q hqp hq => ?_)
    fun q hqp hq _ j hj hz => ?_
  · rw [hphase, hparent]
    refine h.kin.adopt h.kin.root fun hu => ?_
    cases (h.kin.vacant i hu).symm.trans hi
  · rw [hphase]
    exact h.holder q hq
  · rw [put_parent, hparent]
    by_cases hji : j = i
    · rw [hji, Function.update_self]
      exact fun he => hne (Option.some.inj he).symm
    · rw [Function.update_of_ne hji]
      exact hvisited j (by simp [hji, hj])
  · have hji : j ≠ i := by
      rintro rfl
      exact hqp (h.forker_eq hq hi)
    rw [hphase, hparent, Function.update_of_ne hji]
    exact ⟨rfl, rfl⟩
  · exact h.children_update hq (fun he => hqp (Option.some.inj (he.symm.trans hi))) hparent
  · have hq' : q = init := by
      by_cases hji : j = i
      · rw [hparent, hji, Function.update_self] at hj
        exact (Option.some.inj hj).symm
      · rw [hparent, Function.update_of_ne hji] at hj
        rw [hphase] at hz
        exact (h.rests q hq j hj hz).1
    exact ⟨hq', p, by rw [put_pc_self]; exact List.mem_finRange q⟩

theorem died {status : Int} (h : Inv init s) (hpc : s.pc p = .zombie status) (halive : s.phase p = .alive)
    (hd : Drowsy s.kernel k) (hphase : phases k = Function.update s.phase p .zombie)
    (hparent : parents k = s.parent) : Inv init (s.put p k none .exiting) := by
  have hholds : (s.pc p).Holds := by rw [hpc]; trivial
  have hno : ∀ {q}, ¬ (s.pc p).Wakes q := by rw [hpc]; exact id
  obtain ⟨hne, hchildless, hawake⟩ :
      p ≠ init ∧ (∀ j, s.parent j ≠ some p) ∧ ∀ q, s.parent p = some q → ¬ s.Asleep q := h.stands_at hpc
  refine h.put ?_ hd id ?_ (fun q hq => by cases hq) (fun _ hj => False.elim hj) trivial (fun q j _ hq => ?_)
    (fun q hqp hq => absurd (h.alone hholds hq) hqp) (fun q _ hq => ?_) fun q _ hq _ j hj hz => ?_
  · rw [(h.held p).mp hholds]
    exact .release id
  · rw [hphase, hparent]
    exact h.kin.exit hne halive hchildless
  · have hjp : j ≠ p := by
      rintro rfl
      cases halive.symm.trans (h.used hq)
    rw [hphase, hparent, Function.update_of_ne hjp]
    exact ⟨rfl, rfl⟩
  · rw [hparent]
    exact h.children q hq
  · rw [hparent] at hj
    by_cases hjp : j = p
    · exact absurd hq (hawake q (hjp ▸ hj))
    · rw [hphase, Function.update_of_ne hjp] at hz
      exact absurd hz (h.unmissed (h.no_wakes_of_held hholds hno) hq hj)

/-! ## Wait -/

theorem reaped {rest : List Slot} {havekids : Bool} {addr : Nat} {r : Ret} (h : Inv init s)
    (hpc : s.pc p = .scan (i :: rest) havekids addr) (hi : s.parent i = some p) (hz : s.phase i = .zombie)
    (hd : Drowsy s.kernel k) (hphase : phases k = Function.update s.phase i .unused)
    (hparent : parents k = Function.update s.parent i none) : Inv init (s.put p k none (.user r)) := by
  have hholds : (s.pc p).Holds := by rw [hpc]; trivial
  have hno : ∀ {q}, ¬ (s.pc p).Wakes q := by rw [hpc]; exact id
  refine h.put ?_ hd id ?_ (fun q hq => by cases hq) (fun _ hj => False.elim hj) trivial (fun q j hqp hq => ?_)
    (fun q hqp hq => absurd (h.alone hholds hq) hqp) (fun q hqp hq => ?_) fun q _ hq _ j hj hz' => ?_
  · rw [(h.held p).mp hholds]
    exact .release id
  · rw [hphase, hparent]
    exact h.kin.reap hz
  · have hji : j ≠ i := by
      rintro rfl
      cases hz.symm.trans (h.used hq)
    rw [hphase, hparent, Function.update_of_ne hji, Function.update_of_ne hji]
    exact ⟨rfl, rfl⟩
  · exact h.children_update hq (fun he => hqp (Option.some.inj (he.symm.trans hi))) hparent
  · have hji : j ≠ i := by
      rintro rfl
      rw [hparent, Function.update_self] at hj
      cases hj
    rw [hparent, Function.update_of_ne hji] at hj
    rw [hphase, Function.update_of_ne hji] at hz'
    exact absurd hz' (h.unmissed (h.no_wakes_of_held hholds hno) hq hj)

/-- Process `p` goes on into the `sleep` of `wait`. It has rested there before, or has seen that it has children
and that none of them is dead. -/
theorem rest (h : Inv init s) (hlock : LockMove p s.waitLock (s.pc p) lock pc) (hrest : pc.Rests)
    (hlock' : lock = s.waitLock ∨ lock = none) (hwakes : ¬ (s.pc p).Wakes init)
    (hchan : pc.Sleeps → (s.kernel.proc p).state = .sleeping → (s.kernel.proc p).chan = some (.proc p))
    (hseen : s.Asleep p ∨ (s.pc p).Holds ∧ (∃ i, s.parent i = some p) ∧
      ∀ i, s.parent i = some p → s.phase i ≠ .zombie) : Inv init (s.put p s.kernel lock pc) := by
  have hasleep : ∀ q, (s.put p s.kernel lock pc).Asleep q → q = p ∨ s.Asleep q := by
    intro q hq
    by_cases hqp : q = p
    · exact .inl hqp
    · simp only [System.Asleep, put_pc_of_ne hqp, put_kernel] at hq
      exact .inr hq
  have hforks : ∀ i, ¬ pc.Forks i := by
    intro i hi
    cases pc with
    | adopt np pid | launch np pid => exact hrest
    | _ => exact hi
  refine ⟨h.initproc, h.kin, hlock.held h.held, fun q hq => ?_, fun q q' i hq hq' => ?_, fun q => ?_, fun q hq => ?_,
    fun q hq i hi hz => ?_, fun q hq hs => ?_⟩
  · rcases hlock' with rfl | rfl
    · exact h.holder q hq
    · cases hq
  · have hne : ∀ r, ((s.put p s.kernel lock pc).pc r).Forks i → r ≠ p := by
      rintro r hr rfl
      rw [put_pc_self] at hr
      exact hforks i hr
    have hqp := hne q hq
    have hqp' := hne q' hq'
    rw [put_pc_of_ne hqp] at hq
    rw [put_pc_of_ne hqp'] at hq'
    exact h.forkers q q' i hq hq'
  · by_cases hqp : q = p
    · subst hqp
      rw [put_pc_self]
      cases pc with
      | handOver addr | asleep addr => trivial
      | _ => exact False.elim hrest
    · rw [put_pc_of_ne hqp]
      refine (h.stands q).mono (fun _ _ => ⟨rfl, rfl⟩) fun hq => ⟨rfl, fun _ hz => hz, fun r hr => ?_⟩
      rcases hasleep r hr with rfl | hr
      · rcases hseen with hr | ⟨hholds, -⟩
        · exact hr
        · exact absurd (h.alone hholds hq) hqp
      · exact hr
  · rcases hasleep q hq with rfl | hq
    · rcases hseen with hq | ⟨-, hchild, -⟩
      · exact h.children q hq
      · exact hchild
    · exact h.children q hq
  · have hwill : s.Asleep q → (s.put p s.kernel lock pc).WillWake init q := by
      intro hq
      obtain rfl : q = init := (h.rests q hq i hi hz).1
      exact willWake_put (h.rests q hq i hi hz) fun hw => absurd hw hwakes
    rcases hasleep q hq with rfl | hq
    · rcases hseen with hq | ⟨-, -, hnone⟩
      · exact hwill hq
      · exact absurd hz (hnone i hi)
    · exact hwill hq
  · by_cases hqp : q = p
    · subst hqp
      rw [put_pc_self] at hq
      exact hchan hq hs
    · rw [put_pc_of_ne hqp] at hq
      exact h.channel q hq hs

/-! ## Steps in which no process goes on -/

theorem quiet (h : Inv init s) (hinit : k.initproc = s.kernel.initproc) (hphase : phases k = s.phase)
    (hparent : parents k = s.parent)
    (hsleep : ∀ q, (s.pc q).Sleeps → (k.proc q).state = .sleeping →
      (s.kernel.proc q).state = .sleeping ∧ (k.proc q).chan = (s.kernel.proc q).chan) :
    Inv init { s with kernel := k } := by
  have hasleep : ∀ q, System.Asleep { s with kernel := k } q → s.Asleep q := fun q hq =>
    hq.imp_right fun ⟨hpc, hs⟩ => ⟨hpc, (hsleep q hpc hs).1⟩
  have hphase' : System.phase { s with kernel := k } = s.phase := hphase
  have hparent' : System.parent { s with kernel := k } = s.parent := hparent
  refine ⟨hinit.trans h.initproc, ?_, h.held, fun q hq => ?_, h.forkers, fun q => ?_, fun q hq => ?_,
    fun q hq i hi hz => ?_, fun q hpc hs => ?_⟩
  · rw [hphase', hparent']
    exact h.kin
  · rw [hphase']
    exact h.holder q hq
  · refine (h.stands q).mono (fun i _ => ?_) fun _ => ⟨hparent', fun i hz => ?_, hasleep⟩
    · rw [hphase', hparent']
      exact ⟨rfl, rfl⟩
    · rwa [hphase'] at hz
  · rw [hparent']
    exact h.children q (hasleep q hq)
  · rw [hparent'] at hi
    rw [hphase'] at hz
    exact h.rests q (hasleep q hq) i hi hz
  · obtain ⟨hs, hchan⟩ := hsleep q hpc hs
    exact hchan.trans (h.channel q hpc hs)

/-- A process goes to sleep that is not in the `sleep` of `wait`. -/
theorem slept {chan : Chan} (h : Inv init s) (halive : s.phase p = .alive) (hpc : ¬ (s.pc p).Sleeps) :
    Inv init { s with kernel := sleep s.kernel p chan } := by
  have hphase : phaseOf .sleeping = phaseOf (s.kernel.proc p).state := halive.symm
  refine h.quiet rfl (phases_modify_same hphase) (parents_modify_same rfl) fun q hq hs => ?_
  have hqp : q ≠ p := by
    rintro rfl
    exact hpc hq
  unfold sleep at hs ⊢
  rw [State.modify_proc_of_ne hqp] at hs ⊢
  exact ⟨hs, rfl⟩

theorem still (h : Inv init s) (hk : Calm s.kernel k) : Inv init { s with kernel := k } :=
  h.quiet hk.initproc hk.phases hk.parents fun q _ => (hk.slots q).sleeping

end Inv

end Xv6Mlfq.ExitWait
