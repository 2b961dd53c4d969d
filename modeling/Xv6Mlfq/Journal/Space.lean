import Mathlib.Data.List.Infix
import Xv6Mlfq.Journal.Refinement

/-!
# The space in the log

`begin_op` lets an operation in only if `log.lh` has room for `MAXOPBLOCKS` more blocks, and puts it to sleep
otherwise. The room that the operations have not used yet stays reserved for them, and nobody sleeps when the log is
idle. On the disk the log has one block less, which three operations can miss.
-/

namespace Xv6Mlfq.Journal

open Cache Counts Runs Stores
open Queue (Slot)

variable {sb : Superblock} {s s' : System} {st st' : Spec} {disk : UInt32 → Block} {e : Event}
  {w : Slot → List UInt32} {tr : List (Transition System Event)} {k : Nat}

/-- The blocks that each process has written in its operation, without repetitions. -/
def note (w : Slot → List UInt32) : Event → Slot → List UInt32
  | .beginOp p => Function.update w p []
  | .write p blockno _ => Function.update w p ((w p).insert blockno)
  | _ => w

def wrote (es : List Event) : Slot → List UInt32 := es.foldl note fun _ => []

/-- What an operation of at most `k` blocks may still write. -/
def left (k : Nat) (place : Slot → Place) (w : Slot → List UInt32) (p : Slot) : Nat :=
  if (place p).inside then k - (w p).length else 0

/-- No operation writes more than `k` blocks. -/
def Within (k : Nat) (es : List Event) : Prop := ∀ us, us <+: es → ∀ p, (wrote us p).length ≤ k

/-- The room for what the operations have left. Where two of them are under way, `begin_op` has counted
`MAXOPBLOCKS` for both. -/
structure Roomy (k : Nat) (s : System) (w : Slot → List UInt32) : Prop where
  room : s.pc.recovering = false → s.log.block.length + ∑ p, left k s.place w p + 2 * (MAXOPBLOCKS - k) ≤ LOGSIZE
  logged : ∀ p, (s.place p).inside → ∀ b ∈ w p, b ∈ s.log.block

theorem left_le (k : Nat) (s : System) (w : Slot → List UInt32) :
    ∑ p, left k s.place w p ≤ k * tally s.place Place.inside := by
  refine sum_le_tally fun p => ?_
  unfold left
  cases (s.place p).inside with
  | true => simp
  | false => simp

theorem sum_left_of_quiet (hq : ∀ p, (s.place p).inside = false) : ∑ p, left k s.place w p = 0 :=
  Finset.sum_eq_zero fun p _ => by simp [left, hq p]

/-- Once the log is in use, a commit only empties it. -/
theorem Inv.advance_block (h : Inv sb s st) (hs : s.advance sb = some s') (hrun : s'.pc.recovering = false) :
    s'.log.block = [] ∨ s.pc.recovering = false ∧ s'.log.block = s.log.block := by
  have hphase := h.phase
  cases hpc : s.pc with
  | readHead =>
      simp only [System.advance, hpc] at hs
      obtain ⟨r, -, rfl⟩ := Option.map_eq_some_iff.mp hs
      cases hrun
  | installTrans recovering tail =>
      simp only [System.advance, hpc] at hs
      split at hs
      · obtain ⟨r, -, rfl⟩ := Option.map_eq_some_iff.mp hs
        exact .inr ⟨hrun, rfl⟩
      · obtain rfl := Option.some.inj hs
        exact .inl rfl
  | clear recovering =>
      simp only [System.advance, hpc] at hs
      obtain ⟨r, -, rfl⟩ := Option.map_eq_some_iff.mp hs
      rw [hpc] at hphase
      exact .inl hphase.2.2.1
  | run => simp [System.advance, hpc] at hs
  | writeLog tail =>
      simp only [System.advance, hpc] at hs
      split at hs
      · obtain ⟨r, -, rfl⟩ := Option.map_eq_some_iff.mp hs
        exact .inr ⟨rfl, rfl⟩
      · obtain rfl := Option.some.inj hs
        exact .inr ⟨rfl, rfl⟩
  | writeHead =>
      simp only [System.advance, hpc] at hs
      obtain ⟨r, -, rfl⟩ := Option.map_eq_some_iff.mp hs
      exact .inr ⟨rfl, rfl⟩
  | finish =>
      simp only [System.advance, hpc] at hs
      obtain rfl := Option.some.inj hs
      exact .inr ⟨rfl, rfl⟩

namespace Roomy

theorem of_quiet (hq : ∀ p, (s.place p).inside = false)
    (hroom : s.pc.recovering = false → s.log.block.length + 2 * (MAXOPBLOCKS - k) ≤ LOGSIZE) : Roomy k s w := by
  refine ⟨fun hrun => ?_, fun p hp => ?_⟩
  · rw [sum_left_of_quiet hq]
    exact hroom hrun
  · rw [hq p] at hp
    cases hp

/-- Some operations may have ended. -/
theorem mono (h : Roomy k s w) (hblock : s'.log.block = s.log.block) (hpc : s.pc.recovering = false)
    (hplace : ∀ p, (s'.place p).inside = true → (s.place p).inside = true) : Roomy k s' w := by
  refine ⟨fun _ => ?_, fun p hp b hb => ?_⟩
  · have hle : ∑ p, left k s'.place w p ≤ ∑ p, left k s.place w p := by
      refine Finset.sum_le_sum fun p _ => ?_
      unfold left
      by_cases hp : (s'.place p).inside = true
      · rw [if_pos hp, if_pos (hplace p hp)]
      · rw [if_neg hp]
        exact Nat.zero_le _
    have hroom := h.room hpc
    rw [hblock]
    omega
  · rw [hblock]
    exact h.logged p (hplace p hp) b hb

theorem beginOp {p : Slot} (h : Roomy k s w) (hk : k ≤ MAXOPBLOCKS) (hinv : Inv sb s st)
    (hs : System.step sb (.beginOp p) s = some s') : Roomy k s' (note w (.beginOp p)) := by
  simp only [System.step, Option.ite_none_right_eq_some, Option.some.injEq] at hs
  obtain ⟨⟨hp, hrun, hflag, hfull⟩, rfl⟩ := hs
  have hout := hinv.counted.outstanding
  have hleft : left k (Function.update s.place p .inOp) (Function.update w p []) =
      Function.update (left k s.place w) p k := by
    funext q
    by_cases hq : q = p
    · subst hq
      simp [left, Place.inside]
    · simp [left, hq]
  have hsum := sum_update (left k s.place w) p k
  refine ⟨fun _ => ?_, fun q hq b hb => ?_⟩
  · dsimp only [note]
    rw [hleft]
    have hle := left_le k s w
    have hguard := of_decide_eq_false hfull
    have hmax : MAXOPBLOCKS = 10 := rfl
    rw [hout, hmax] at hguard
    rw [hmax] at hk
    simp only [LOGSIZE, hmax] at hguard ⊢
    cases htally : tally s.place Place.inside with
    | zero =>
        -- The log of the first operation is empty.
        have hnil := hinv.counted.clean (hinv.run_of_idle hrun hflag) (by rw [hout, htally]; rfl)
        rw [htally] at hle
        rw [hnil, List.length_nil]
        omega
    | succ m =>
        have hm : k * m ≤ 10 * m := Nat.mul_le_mul_right m hk
        rw [htally, Nat.mul_succ] at hle
        rw [htally] at hguard
        push_cast at hguard
        omega
  · by_cases hqp : q = p
    · subst hqp
      simp [note] at hb
    · simp only [note, Function.update_of_ne hqp] at hq hb
      exact h.logged q hq b hb

theorem write {p : Slot} {b : UInt32} {v : Block} (h : Roomy k s w) (hinv : Inv sb s st)
    (hs : System.step sb (.write p b v) s = some s') (hbudget : (note w (.write p b v) p).length ≤ k) :
    Roomy k s' (note w (.write p b v)) := by
  obtain ⟨hp, hplace, hlog⟩ := hinv.write_log hs
  have hrun : s.pc.recovering = false := by rw [(hinv.inOp_run hp).1]; rfl
  have hinside : (s.place p).inside = true := by simp [Place.inside, hp]
  simp only [note, Function.update_self] at hbudget
  have hleft : left k s'.place (note w (.write p b v)) =
      Function.update (left k s.place w) p (k - ((w p).insert b).length) := by
    funext q
    rw [hplace]
    by_cases hq : q = p
    · subst hq
      simp [left, note, hinside]
    · simp [left, note, hq]
  have hsum := sum_update (left k s.place w) p (k - ((w p).insert b).length)
  have hself : left k s.place w p = k - (w p).length := if_pos hinside
  have hmem : b ∈ s'.log.block := by
    rw [hlog]
    dsimp only
    split_ifs with hmem
    · exact hmem
    · simp
  have hsub (c : UInt32) (hc : c ∈ s.log.block) : c ∈ s'.log.block := by
    rw [hlog]
    dsimp only
    split_ifs
    · exact hc
    · exact List.mem_append_left _ hc
  refine ⟨fun _ => ?_, fun q hq c hc => ?_⟩
  · have hroom := h.room hrun
    rw [hleft, hlog]
    dsimp only
    by_cases hb : b ∈ s.log.block
    · rw [if_pos hb]
      have hle : (w p).length ≤ ((w p).insert b).length := by
        by_cases hbw : b ∈ w p
        · rw [List.insert_of_mem hbw]
        · rw [List.length_insert_of_not_mem hbw]
          omega
      omega
    · -- A block that is new to the log is new to the operation too.
      have hbw : b ∉ w p := fun hbw => hb (h.logged p hinside b hbw)
      rw [List.length_insert_of_not_mem hbw] at hbudget hsum
      rw [if_neg hb, List.length_append, List.length_singleton, List.length_insert_of_not_mem hbw]
      omega
  · rw [hplace] at hq
    by_cases hqp : q = p
    · subst hqp
      simp only [note, Function.update_self] at hc
      rcases List.mem_insert_iff.mp hc with rfl | hc
      · exact hmem
      · exact hsub c (h.logged q hq c hc)
    · simp only [note, Function.update_of_ne hqp] at hc
      exact hsub c (h.logged q hq c hc)

theorem step (h : Roomy k s w) (hk : k ≤ MAXOPBLOCKS) (hinv : Inv sb s st) (hs : System.step sb e s = some s')
    (hbudget : ∀ p, (note w e p).length ≤ k) : Roomy k s' (note w e) := by
  cases e with
  | beginOp p => exact h.beginOp hk hinv hs
  | sleep p =>
      simp only [System.step, Option.ite_none_right_eq_some, Option.some.injEq] at hs
      obtain ⟨⟨hp, hrun, -⟩, rfl⟩ := hs
      refine h.mono rfl hrun fun q hq => ?_
      by_cases hqp : q = p
      · simp [hqp, Place.inside] at hq
      · simpa [hqp] using hq
  | write p b v => exact h.write hinv hs (hbudget p)
  | read b v =>
      simp only [System.step, Option.ite_none_right_eq_some] at hs
      obtain ⟨hrun, hs⟩ := hs
      obtain ⟨r, -, hs⟩ := Option.bind_eq_some_iff.mp hs
      simp only [Option.ite_none_right_eq_some, Option.some.injEq] at hs
      obtain ⟨-, rfl⟩ := hs
      exact h.mono rfl hrun fun _ hq => hq
  | endOp p =>
      simp only [System.step, Option.ite_none_right_eq_some, Option.ite_none_left_eq_some] at hs
      obtain ⟨hp, -, hs⟩ := hs
      have hrun : s.pc.recovering = false := by rw [(hinv.inOp_run hp).1]; rfl
      have hended (a : Place) (ha : a.inside = false) (q : Slot) (hq : (Function.update s.place p a q).inside = true) :
          (s.place q).inside = true := by
        by_cases hqp : q = p
        · rw [hqp, Function.update_self, ha] at hq
          cases hq
        · rwa [Function.update_of_ne hqp] at hq
      by_cases hlast : s.log.outstanding - 1 = 0
      · rw [if_pos hlast] at hs
        obtain rfl := Option.some.inj hs
        exact h.mono rfl hrun (hended .inCommit rfl)
      · rw [if_neg hlast] at hs
        obtain rfl := Option.some.inj hs
        exact h.mono rfl hrun fun q hq => hended .out rfl q (by rwa [← Inv.wakeup_inside])
  | advance =>
      have hquiet := hinv.quiet (fun hpc => by simp [System.step, System.advance, hpc] at hs)
      have hinv' := (hinv.advance hs).1
      have hactive : (s.synced st).active = st.active := by
        unfold System.synced
        split_ifs
        · rfl
        · rfl
      refine of_quiet (fun p => ?_) fun hrun => ?_
      · rw [← hinv'.counted.active p, hactive]
        exact hquiet p
      · rcases hinv.advance_block hs hrun with hnil | ⟨hbefore, hblock⟩
        · rw [hnil, List.length_nil, LOGSIZE]
          omega
        · have hroom := h.room hbefore
          rw [hblock]
          omega
  | crash first second =>
      obtain rfl := Option.some.inj hs
      exact of_quiet (fun p => rfl) fun hrun => by cases hrun

end Roomy

theorem wrote_snoc (es : List Event) (e : Event) : wrote (es ++ [e]) = note (wrote es) e := List.foldl_concat ..

theorem Within.of_snoc {es : List Event} (h : Within k (es ++ [e])) : Within k es :=
  fun us hus => h us (hus.trans (List.prefix_append es [e]))

theorem Roomy.run (h : Run (System.step sb) (boot disk) tr s) (hempty : loadHeader (disk sb.logstart) = some [])
    (hout : ∀ x ∈ tr, x.event.Outside sb) (hk : k ≤ MAXOPBLOCKS) (hwithin : Within k (tr.map Transition.event)) :
    (∃ st, Inv sb s st) ∧ Roomy k s (wrote (tr.map Transition.event)) := by
  induction h with
  | nil => exact ⟨⟨_, Inv.boot (Recoverable.empty hempty)⟩, .of_quiet (fun p => rfl) fun hrun => by cases hrun⟩
  | @snoc tr t e u h he ih =>
      rw [List.map_append, List.map_singleton] at hwithin ⊢
      obtain ⟨⟨st, hinv⟩, hroomy⟩ := ih (fun x hx => hout x (List.mem_append_left _ hx)) hwithin.of_snoc
      obtain ⟨_, st', -, -, hinv'⟩ := (simulates sb).matched hinv (hout ⟨t, e, u⟩ (by simp)) he
      have hbudget := hwithin _ (List.prefix_refl _)
      rw [wrote_snoc] at hbudget ⊢
      exact ⟨⟨st', hinv'⟩, hroomy.step hk hinv he hbudget⟩

/-- If no operation writes more than `k` blocks, there is room in `log.lh` for what they have left. An operation that
has blocks left fails only on a log with too few blocks on the disk, and for `k < MAXOPBLOCKS` a log of `LOGSIZE`
blocks has enough. -/
theorem log_space (h : Run (System.step sb) (boot disk) tr s) (hempty : loadHeader (disk sb.logstart) = some [])
    (hout : ∀ x ∈ tr, x.event.Outside sb) (hk : k ≤ MAXOPBLOCKS) (hwithin : Within k (tr.map Transition.event)) :
    s.log.block.length + ∑ p, left k s.place (wrote (tr.map Transition.event)) p ≤ LOGSIZE ∧
    ∀ p, s.place p = .inOp →
      ((wrote (tr.map Transition.event) p).length < k → (s.log.tooBig sb ↔ sb.size - 1 ≤ s.log.block.length)) ∧
      (k < MAXOPBLOCKS → LOGSIZE ≤ sb.size → s.log.tooBig sb = false) := by
  obtain ⟨⟨st, hinv⟩, hroomy⟩ := Roomy.run h hempty hout hk hwithin
  refine ⟨?_, fun p hp => ?_⟩
  · by_cases hpc : s.pc = .run
    · have hroom := hroomy.room (by rw [hpc]; rfl)
      omega
    · have hquiet := hinv.quiet hpc
      rw [sum_left_of_quiet fun p => (hinv.counted.active p).symm.trans (hquiet p)]
      exact hinv.blocks.length.trans (capacity_le sb)
  · have hroom := hroomy.room (by rw [(hinv.inOp_run hp).1]; rfl)
    have hself : left k s.place (wrote (tr.map Transition.event)) p = k - (wrote (tr.map Transition.event) p).length :=
      if_pos (by simp [Place.inside, hp])
    have hle := Finset.single_le_sum (f := left k s.place (wrote (tr.map Transition.event))) (fun _ _ => Nat.zero_le _)
      (Finset.mem_univ p)
    refine ⟨fun hmore => ?_, fun hless hsize => ?_⟩
    · simp only [Log.tooBig, decide_eq_true_eq]
      omega
    · simp only [Log.tooBig, decide_eq_false_iff_not]
      omega

/-- Two operations write the same block, and a third has to wait. -/
theorem log_space_shared : ∃ (es : List Event) (s : System), wrote es 0 = [32] ∧ wrote es 1 = [32] ∧
    s.place 1 = .inOp ∧ s.log.tooBig ⟨30, 2⟩ = false ∧ s.log.block.length + ∑ p, left 9 s.place (wrote es) p ≤ LOGSIZE := by
  let sb : Superblock := ⟨30, 2⟩
  let events : List Event := [.advance, .advance, .advance, .beginOp 0, .beginOp 1, .write 0 32 fun _ => 7,
    .write 1 32 fun _ => 8, .sleep 2]
  have hplay : (final (System.step sb) (boot fun _ _ => 0) events).any (fun s => s.place 1 = .inOp) = true := by
    decide +kernel
  have houtside : ∀ e ∈ events, e.Outside sb := by decide +kernel
  have hwithin : ∀ us ∈ events.inits, ∀ p, (wrote us p).length ≤ 9 := by decide +kernel
  obtain ⟨tr, s, h, hevents, hinOp⟩ := Run.replay hplay
  have hout (x : Transition System Event) (hx : x ∈ tr) : x.event.Outside sb :=
    houtside _ (hevents ▸ List.mem_map_of_mem (f := Transition.event) hx)
  obtain ⟨hspace, hpanic⟩ := log_space h (by decide +kernel) hout (k := 9) (by decide) fun us hus =>
    hwithin us ((List.mem_inits _ _).mpr (hevents ▸ hus))
  have hp := of_decide_eq_true hinOp
  exact ⟨_, s, by rw [hevents]; rfl, by rw [hevents]; rfl, hp, (hpanic 1 hp).2 (by decide) (by decide), hspace⟩

-- On the log that `mkfs` makes, three operations of `MAXOPBLOCKS` blocks do not get their last block.
example :
    let op (p : Slot) (b : UInt32) : List Event := (List.range 10).map fun i => .write p (b + UInt32.ofNat i) fun _ => 0
    let events := [.advance, .advance, .advance, .beginOp 0, .beginOp 1, .beginOp 2] ++ op 0 32 ++ op 1 42 ++ op 2 52
    (final (System.step ⟨30, 2⟩) (boot fun _ _ => 0) events).isNone ∧
      (final (System.step ⟨30, 2⟩) (boot fun _ _ => 0) events.dropLast).isSome := by
  decide +kernel

/-! ## Who sleeps in `begin_op` -/

/-- A process that sleeps will be woken: by the commit that is under way or by an operation that has not ended. -/
def Awaited (s : System) : Prop :=
  ∀ p, s.place p = .asleep → s.log.committing = true ∨ ∃ q, s.place q = .inOp

theorem wakeup_ne_asleep (place : Slot → Place) (p : Slot) : wakeup place p ≠ .asleep := by
  unfold wakeup
  split_ifs with hp
  · exact Place.noConfusion
  · exact hp

theorem advance_place (hs : s.advance sb = some s') :
    (∀ p, s'.place p ≠ .asleep) ∨ s'.place = s.place ∧ s'.log.committing = s.log.committing := by
  unfold System.advance at hs
  split at hs
  · obtain ⟨r, -, rfl⟩ := Option.map_eq_some_iff.mp hs
    exact .inr ⟨rfl, rfl⟩
  · split at hs
    · obtain ⟨r, -, rfl⟩ := Option.map_eq_some_iff.mp hs
      exact .inr ⟨rfl, rfl⟩
    · obtain rfl := Option.some.inj hs
      exact .inr ⟨rfl, rfl⟩
  · obtain ⟨r, -, rfl⟩ := Option.map_eq_some_iff.mp hs
    exact .inr ⟨rfl, rfl⟩
  · cases hs
  · split at hs
    · obtain ⟨r, -, rfl⟩ := Option.map_eq_some_iff.mp hs
      exact .inr ⟨rfl, rfl⟩
    · obtain rfl := Option.some.inj hs
      exact .inr ⟨rfl, rfl⟩
  · obtain ⟨r, -, rfl⟩ := Option.map_eq_some_iff.mp hs
    exact .inr ⟨rfl, rfl⟩
  · obtain rfl := Option.some.inj hs
    refine .inl fun p => ?_
    dsimp only
    split_ifs
    · exact Place.noConfusion
    · exact wakeup_ne_asleep s.place p

/-- Only a process that waits for others is put to sleep. -/
theorem Inv.full (h : Inv sb s st) (hrun : s.pc.recovering = false)
    (hwait : s.log.committing = true ∨ s.log.full = true) : s.log.committing = true ∨ ∃ q, s.place q = .inOp := by
  rcases hwait with hflag | hfull
  · exact .inl hflag
  · by_cases hflag : s.log.committing = true
    · exact .inl hflag
    · have hpc := h.run_of_idle hrun (Bool.eq_false_of_not_eq_true hflag)
      have hout : s.log.outstanding ≠ 0 := by
        intro hzero
        -- An idle log is empty, and one operation fits into an empty log.
        have hnil := h.counted.clean hpc hzero
        simp [Log.full, hzero, hnil] at hfull
      have hpos : 0 < tally s.place Place.inside := by
        rw [h.counted.outstanding] at hout
        omega
      obtain ⟨q, hq⟩ := tally_pos_iff.mp hpos
      exact .inr ⟨q, of_decide_eq_true hq⟩

theorem Awaited.step (h : Awaited s) (hinv : Inv sb s st) (hs : System.step sb e s = some s') : Awaited s' := by
  cases e with
  | beginOp p =>
      simp only [System.step, Option.ite_none_right_eq_some, Option.some.injEq] at hs
      obtain ⟨-, rfl⟩ := hs
      exact fun q _ => .inr ⟨p, Function.update_self ..⟩
  | sleep p =>
      simp only [System.step, Option.ite_none_right_eq_some, Option.some.injEq] at hs
      obtain ⟨⟨hp, hrun, hwait⟩, rfl⟩ := hs
      intro q _
      rcases hinv.full hrun hwait with hflag | ⟨r, hr⟩
      · exact .inl hflag
      · have hne : r ≠ p := by
          rintro rfl
          exact Place.noConfusion (hp.symm.trans hr)
        exact .inr ⟨r, (Function.update_of_ne hne ..).trans hr⟩
  | write p b v =>
      obtain ⟨-, hplace, hlog⟩ := hinv.write_log hs
      rw [Awaited, hplace, hlog]
      exact h
  | read b v =>
      simp only [System.step, Option.ite_none_right_eq_some] at hs
      obtain ⟨-, hs⟩ := hs
      obtain ⟨r, -, hs⟩ := Option.bind_eq_some_iff.mp hs
      simp only [Option.ite_none_right_eq_some, Option.some.injEq] at hs
      obtain ⟨-, rfl⟩ := hs
      exact h
  | endOp p =>
      simp only [System.step, Option.ite_none_right_eq_some, Option.ite_none_left_eq_some] at hs
      obtain ⟨-, -, hs⟩ := hs
      by_cases hlast : s.log.outstanding - 1 = 0
      · rw [if_pos hlast] at hs
        obtain rfl := Option.some.inj hs
        exact fun q _ => .inl rfl
      · rw [if_neg hlast] at hs
        obtain rfl := Option.some.inj hs
        exact fun q hq => absurd hq (wakeup_ne_asleep _ q)
  | advance =>
      rcases advance_place hs with hnone | ⟨hplace, hflag⟩
      · exact fun q hq => absurd hq (hnone q)
      · rw [Awaited, hplace, hflag]
        exact h
  | crash first second =>
      obtain rfl := Option.some.inj hs
      exact fun q hq => Place.noConfusion hq

/-- Nobody is left asleep: whoever sleeps in `begin_op` waits for an operation or a commit that is still to end. -/
theorem sleeper_awaited (h : Run (System.step sb) (boot disk) tr s) (hempty : loadHeader (disk sb.logstart) = some [])
    (hout : ∀ x ∈ tr, x.event.Outside sb) : Awaited s := by
  have hboth : (∃ st, Inv sb s st) ∧ Awaited s := by
    induction h with
    | nil => exact ⟨⟨_, Inv.boot (Recoverable.empty hempty)⟩, fun q hq => Place.noConfusion hq⟩
    | @snoc tr t e u h he ih =>
        obtain ⟨⟨st, hinv⟩, hawaited⟩ := ih fun x hx => hout x (List.mem_append_left _ hx)
        obtain ⟨_, st', -, -, hinv'⟩ := (simulates sb).matched hinv (hout ⟨t, e, u⟩ (by simp)) he
        exact ⟨⟨st', hinv'⟩, hawaited.step hinv he⟩
  exact hboth.2

/-- A process sleeps while the last of two operations is still to end. -/
theorem sleeper_awaited_ended : ∃ s : System, s.place 2 = .asleep ∧ Awaited s := by
  let sb : Superblock := ⟨30, 2⟩
  let events : List Event := [.advance, .advance, .advance, .beginOp 0, .write 0 32 fun _ => 7, .beginOp 1, .sleep 2]
  have hplay : (final (System.step sb) (boot fun _ _ => 0) events).any (fun s => s.place 2 = .asleep) = true := by
    decide +kernel
  have houtside : ∀ e ∈ events, e.Outside sb := by decide +kernel
  obtain ⟨tr, s, h, hevents, hasleep⟩ := Run.replay hplay
  have hout (x : Transition System Event) (hx : x ∈ tr) : x.event.Outside sb :=
    houtside _ (hevents ▸ List.mem_map_of_mem (f := Transition.event) hx)
  exact ⟨s, of_decide_eq_true hasleep, sleeper_awaited h (by decide +kernel) hout⟩

end Xv6Mlfq.Journal
