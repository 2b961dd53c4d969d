import Xv6Mlfq.Journal.Refinement

/-!
# What a crash leaves

The contents that come back are those of one moment, the same for all blocks. No operation was under way at that
moment, and everything written up to the last time the log was idle is there. What a crash has lost stays lost.
-/

namespace Xv6Mlfq.Journal

open Cache Counts Runs Stores
open Queue (Slot)

variable {sb : Superblock} {s s' : System} {disk : UInt32 → Block} {D D' : Nat → UInt32 → Block} {e : Event}
  {tr tr₁ : List (Transition System Event)} {x : Transition System Event}

def Event.isCrash : Event → Bool
  | .crash _ _ => true
  | _ => false

/-- No process is between `begin_op` and `end_op`. -/
def System.Quiet (s : System) : Prop := ∀ p, s.place p ≠ .inOp

/-- Nobody commits or is about to. -/
def System.Idle (s : System) : Prop := s.pc = .run ∧ s.log.outstanding = 0

/-- At the end of `tr₁`, a part of the run `tr`, no operation is under way, and it is not before any idle moment nor
before any crash. -/
structure Moment (sb : Superblock) (disk : UInt32 → Block) (tr tr₁ : List (Transition System Event)) : Prop where
  part : tr₁ <+: tr
  quiet : ∃ s, Run (System.step sb) (boot disk) tr₁ s ∧ s.Quiet
  latest : ∀ us x, us ++ [x] <+: tr → x.post.Idle ∨ x.event.isCrash = true → us ++ [x] <+: tr₁

/-- What the event that comes after `us` makes of the contents, when `D n` are the contents after `n` events. -/
def Follows (sb : Superblock) (disk : UInt32 → Block) (us : List (Transition System Event)) (D : Nat → UInt32 → Block) :
    Event → Prop
  | .write _ blockno data => D (us.length + 1) = Function.update (D us.length) blockno data
  | .read blockno data => D us.length blockno = data ∧ D (us.length + 1) = D us.length
  | .crash _ _ => ∃ us', Moment sb disk us us' ∧ ∀ b, sb.Home b → D (us.length + 1) b = D us'.length b
  | _ => D (us.length + 1) = D us.length

theorem Inv.system_quiet {st : Spec} (h : Inv sb s st) (hq : st.Quiet) : s.Quiet := by
  intro p hp
  have hactive := (h.counted.active p).symm.trans (hq p)
  rw [hp] at hactive
  cases hactive

theorem Inv.system_quiet_of_idle {st : Spec} (h : Inv sb s st) (hidle : s.Idle) : s.Quiet := by
  intro p hp
  exact (h.inOp_run hp).2.ne' hidle.2

namespace Moment

/-- The present, when it is quiet. -/
theorem now (h : Run (System.step sb) (boot disk) tr s) (hq : s.Quiet) : Moment sb disk tr tr :=
  ⟨List.prefix_refl tr, ⟨s, h, hq⟩, fun _ _ hpart _ => hpart⟩

theorem snoc (h : Moment sb disk tr tr₁) (hlater : ¬ (x.post.Idle ∨ x.event.isCrash = true)) :
    Moment sb disk (tr ++ [x]) tr₁ := by
  refine ⟨h.part.trans (List.prefix_append tr [x]), h.quiet, fun us y hpart hy => ?_⟩
  rcases List.prefix_concat_iff.mp hpart with heq | hpart
  · obtain ⟨rfl, hxy⟩ := List.append_inj' heq rfl
    exact absurd (List.singleton_inj.mp hxy ▸ hy) hlater
  · exact h.latest us y hpart hy

end Moment

/-- The contents that come later do not matter. -/
theorem Follows.congr (h : Follows sb disk tr D e) (hD : ∀ n ≤ tr.length + 1, D' n = D n) : Follows sb disk tr D' e := by
  have hpre := hD tr.length (Nat.le_succ _)
  have hpost := hD (tr.length + 1) (Nat.le_refl _)
  cases e with
  | crash first second =>
      obtain ⟨us', hmoment, hback⟩ := h
      have hlength := hmoment.part.length_le
      exact ⟨us', hmoment, fun b hb => by rw [hpost, hD us'.length (by omega), hback b hb]⟩
  | write p b v => exact (hpost.trans h).trans (by rw [hpre])
  | read b v => exact ⟨by rw [hpre, h.1], by rw [hpost, hpre, h.2]⟩
  | beginOp p => exact (hpost.trans h).trans hpre.symm
  | sleep p => exact (hpost.trans h).trans hpre.symm
  | endOp p => exact (hpost.trans h).trans hpre.symm
  | advance => exact (hpost.trans h).trans hpre.symm

/-- `D` tells the contents in the run so far, and the durable ones are those at the end of `tr₁`. -/
structure Remembers (sb : Superblock) (disk : UInt32 → Block) (tr : List (Transition System Event)) (s : System)
    (st : Spec) (D : Nat → UInt32 → Block) (tr₁ : List (Transition System Event)) : Prop where
  inv : Inv sb s st
  start : D 0 = disk
  follows : ∀ us x vs, tr = us ++ x :: vs → Follows sb disk us D x.event
  current : D tr.length = st.current
  durable : ∀ b, sb.Home b → D tr₁.length b = st.durable b
  moment : Moment sb disk tr tr₁

namespace Remembers

variable {st st' : Spec} {tr₂ : List (Transition System Event)}

/-- One event more, with the contents that it leaves. -/
theorem extend (h : Remembers sb disk tr s st D tr₁) (hinv : Inv sb x.post st')
    (hfollows : Follows sb disk tr (Function.update D (tr.length + 1) st'.current) x.event)
    (hdurable : ∀ b, sb.Home b → Function.update D (tr.length + 1) st'.current tr₂.length b = st'.durable b)
    (hmoment : Moment sb disk (tr ++ [x]) tr₂) :
    Remembers sb disk (tr ++ [x]) x.post st' (Function.update D (tr.length + 1) st'.current) tr₂ := by
  have hbefore (n : Nat) (hn : n ≤ tr.length) : Function.update D (tr.length + 1) st'.current n = D n :=
    Function.update_of_ne (by omega) _ _
  refine ⟨hinv, (hbefore 0 (Nat.zero_le _)).trans h.start, fun us y vs htr => ?_, ?_, hdurable, hmoment⟩
  · rcases List.eq_nil_or_concat vs with rfl | ⟨vs, z, rfl⟩
    · obtain ⟨rfl, hxy⟩ := List.append_inj' htr rfl
      obtain rfl := List.singleton_inj.mp hxy
      exact hfollows
    · rw [List.concat_eq_append, ← List.cons_append, ← List.append_assoc] at htr
      obtain ⟨rfl, -⟩ := List.append_inj' htr rfl
      refine (h.follows us y vs rfl).congr fun n hn => hbefore n ?_
      rw [List.length_append, List.length_cons]
      omega
  · rw [List.length_append, List.length_singleton, Function.update_self]

/-- At a quiet moment whose contents are durable. -/
theorem renew (h : Remembers sb disk tr s st D tr₁) (hrun : Run (System.step sb) (boot disk) (tr ++ [x]) x.post)
    (hinv : Inv sb x.post st') (hfollows : Follows sb disk tr (Function.update D (tr.length + 1) st'.current) x.event)
    (hquiet : x.post.Quiet) (hdurable : ∀ b, sb.Home b → st'.durable b = st'.current b) :
    ∃ D tr₁, Remembers sb disk (tr ++ [x]) x.post st' D tr₁ := by
  refine ⟨_, tr ++ [x], h.extend hinv hfollows (fun b hb => ?_) (.now hrun hquiet)⟩
  rw [List.length_append, List.length_singleton, Function.update_self, hdurable b hb]

/-- The durable contents are those of an earlier moment, unless the log is idle now. -/
theorem keep (h : Remembers sb disk tr s st D tr₁) (hrun : Run (System.step sb) (boot disk) (tr ++ [x]) x.post)
    (hinv : Inv sb x.post st') (hfollows : Follows sb disk tr (Function.update D (tr.length + 1) st'.current) x.event)
    (hcrash : x.event.isCrash = false) (hdurable : ∀ b, sb.Home b → D tr₂.length b = st'.durable b)
    (hmoment : Moment sb disk tr tr₂) : ∃ D tr₁, Remembers sb disk (tr ++ [x]) x.post st' D tr₁ := by
  by_cases hidle : x.post.Idle
  · exact h.renew hrun hinv hfollows (hinv.system_quiet_of_idle hidle)
      fun b hb => hinv.durable_of_idle hidle.1 hidle.2 hb
  · have hlength := hmoment.part.length_le
    refine ⟨_, tr₂, h.extend hinv hfollows (fun b hb => ?_) (hmoment.snoc (by simp [hidle, hcrash]))⟩
    rw [Function.update_of_ne (by omega), hdurable b hb]

theorem step (h : Remembers sb disk tr s st D tr₁) (hrun : Run (System.step sb) (boot disk) tr s)
    (hs : System.step sb e s = some s') (hout : e.Outside sb) :
    ∃ st' D tr₁, Remembers sb disk (tr ++ [⟨s, e, s'⟩]) s' st' D tr₁ := by
  have hrun' := hrun.snoc hs
  have hsame (n : UInt32 → Block) (hn : n = st.current) :
      Function.update D (tr.length + 1) n (tr.length + 1) = Function.update D (tr.length + 1) n tr.length := by
    rw [Function.update_self, Function.update_of_ne (by omega), h.current, hn]
  cases e with
  | beginOp p => exact ⟨_, h.keep hrun' (h.inv.beginOp hs).2 (hsame _ rfl) rfl h.durable h.moment⟩
  | sleep p => exact ⟨_, h.keep hrun' (h.inv.sleep hs) (hsame _ rfl) rfl h.durable h.moment⟩
  | write p b v =>
      refine ⟨_, h.keep hrun' (h.inv.write hout hs).2 ?_ rfl h.durable h.moment⟩
      simp only [Follows]
      rw [Function.update_self, Function.update_of_ne (by omega), h.current]
  | read b v =>
      obtain ⟨hv, hinv⟩ := h.inv.read hout hs
      refine ⟨_, h.keep hrun' hinv ⟨?_, hsame _ rfl⟩ rfl h.durable h.moment⟩
      rw [Function.update_of_ne (by omega), h.current, hv]
  | endOp p => exact ⟨_, h.keep hrun' (h.inv.endOp hs).2 (hsame _ rfl) rfl h.durable h.moment⟩
  | advance =>
      have hinv := (h.inv.advance hs).1
      unfold System.synced at hinv
      split_ifs at hinv with hpc
      · -- A commit makes the present contents durable.
        have hquiet := h.inv.system_quiet (h.inv.quiet (by simp [hpc]))
        exact ⟨_, h.keep hrun' hinv (hsame _ rfl) rfl (fun b _ => congrFun h.current b) (.now hrun hquiet)⟩
      · exact ⟨_, h.keep hrun' hinv (hsame _ rfl) rfl h.durable h.moment⟩
  | crash first second =>
      obtain rfl := Option.some.inj hs
      have hquiet : (boot fun b => tear first second (s.device.disk b)
          (((s.advance sb).getD s).device.disk b)).Quiet := fun p hp => Place.noConfusion hp
      have hback (n : UInt32 → Block) (us : List (Transition System Event)) (hmoment : Moment sb disk tr us)
          (hn : ∀ b, sb.Home b → D us.length b = n b) :
          Follows sb disk tr (Function.update D (tr.length + 1) n) (.crash first second) := by
        have hlength := hmoment.part.length_le
        exact ⟨us, hmoment, fun b hb => by rw [Function.update_self, Function.update_of_ne (by omega), hn b hb]⟩
      have hrecover := h.inv.crash first second
      split_ifs at hrecover with hpc
      · have hnow := h.inv.system_quiet (h.inv.quiet (by simp [hpc.1]))
        exact ⟨_, h.renew hrun' (.boot hrecover) (hback _ tr (.now hrun hnow) fun b _ => congrFun h.current b) hquiet
          fun _ _ => rfl⟩
      · exact ⟨_, h.renew hrun' (.boot hrecover) (hback _ tr₁ h.moment h.durable) hquiet fun _ _ => rfl⟩

theorem run (h : Run (System.step sb) (boot disk) tr s) (hempty : loadHeader (disk sb.logstart) = some [])
    (hout : ∀ x ∈ tr, x.event.Outside sb) : ∃ st D tr₁, Remembers sb disk tr s st D tr₁ := by
  induction h with
  | nil =>
      have hinv := Inv.boot (Recoverable.empty hempty)
      exact ⟨_, fun _ => disk, [], hinv, rfl, fun us x vs htr => by simp at htr, rfl, fun _ _ => rfl,
        .now .nil (hinv.system_quiet fun _ => rfl)⟩
  | @snoc tr t e u h he ih =>
      obtain ⟨st, D, tr₁, ih⟩ := ih fun x hx => hout x (List.mem_append_left _ hx)
      exact ih.step h he (hout ⟨t, e, u⟩ (by simp))

end Remembers

/-- Whenever and however often the power goes, in a recovery too, the blocks come back with the contents of one
moment: one when no operation was under way, and neither before the last idle moment nor before the last crash. -/
theorem crash_atomic (h : Run (System.step sb) (boot disk) tr s) (hempty : loadHeader (disk sb.logstart) = some [])
    (hout : ∀ x ∈ tr, x.event.Outside sb) :
    ∃ D : Nat → UInt32 → Block, D 0 = disk ∧ ∀ us x vs, tr = us ++ x :: vs → Follows sb disk us D x.event := by
  obtain ⟨st, D, tr₁, hmem⟩ := Remembers.run h hempty hout
  exact ⟨D, hmem.start, hmem.follows⟩

/-- Power goes while the home of the first of two blocks is being written, and again while the recovery writes it. -/
theorem crash_atomic_twice : ∃ (tr : List (Transition System Event)) (D : Nat → UInt32 → Block),
    D 0 = (fun _ _ => 0) ∧ (∀ us x vs, tr = us ++ x :: vs → Follows ⟨30, 2⟩ (fun _ _ => 0) us D x.event) ∧
    (tr.filter fun x => x.event.isCrash).length = 2 := by
  let sb : Superblock := ⟨30, 2⟩
  let events : List Event := [.advance, .advance, .advance, .beginOp 0, .write 0 32 fun _ => 7, .write 0 33 fun _ => 8,
    .endOp 0, .advance, .advance, .advance, .advance, .crash true false, .advance, .crash false true, .advance, .advance,
    .advance, .advance, .advance, .read 32 fun _ => 7]
  have hplay : (final (System.step sb) (boot fun _ _ => 0) events).any (fun _ => true) = true := by decide +kernel
  have houtside : ∀ e ∈ events, e.Outside sb := by decide +kernel
  obtain ⟨tr, s, h, hevents, -⟩ := Run.replay hplay
  have hout (x : Transition System Event) (hx : x ∈ tr) : x.event.Outside sb :=
    houtside _ (hevents ▸ List.mem_map_of_mem (f := Transition.event) hx)
  obtain ⟨D, hstart, hfollows⟩ := crash_atomic h (by decide +kernel) hout
  have hcrashes : (tr.filter fun x => x.event.isCrash).length = ((tr.map Transition.event).filter Event.isCrash).length := by
    rw [List.filter_map, List.length_map]
    rfl
  refine ⟨tr, D, hstart, hfollows, ?_⟩
  rw [hcrashes, hevents]
  rfl

end Xv6Mlfq.Journal
