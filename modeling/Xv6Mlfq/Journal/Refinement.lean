import Xv6Mlfq.Journal.Invariant
import Xv6Mlfq.Runs.Simulation

/-!
# The log is a durable store

Whatever the order of the steps and wherever the power goes, the processes see no other reads than those of a store
whose transactions become durable together.
-/

namespace Xv6Mlfq.Journal

open Cache Counts Runs Stores
open Queue (Slot)

/-- What an event of the log is to the store. -/
def Event.seen : Event → Option (Action Slot UInt32 Block)
  | .beginOp p => some (.enter p)
  | .sleep _ => none
  | .write p blockno data => some (.write p blockno data)
  | .read blockno data => some (.read blockno data)
  | .endOp p => some (.leave p)
  | .advance => none
  | .crash _ _ => some .crash

/-- The file system reads and writes blocks outside the log only. -/
def Event.Outside (sb : Superblock) : Event → Prop
  | .write _ blockno _ => sb.Home blockno
  | .read blockno _ => sb.Home blockno
  | _ => True

instance (sb : Superblock) (e : Event) : Decidable (e.Outside sb) := by
  cases e <;> unfold Event.Outside <;> infer_instance

variable {sb : Superblock} {s s' : System} {st : Spec} {disk D : UInt32 → Block} {b : UInt32} {p : Slot} {v : Block}

/-! ## The start -/

theorem Shows.boot (disk : UInt32 → Block) : Shows (Journal.boot disk).device disk (Journal.refs []) := by
  have hbuf (i : Index) : (Journal.boot disk).device.cache.buf i = ⟨false, 0, 0, 0, fun _ => 0⟩ := by
    rw [Journal.boot, boot_buf]
    rfl
  refine ⟨⟨_, Listed.boot _⟩, fun i hi => ?_, fun i hi => ?_, fun b hb => absurd rfl hb, fun i hi => ?_,
    fun i hi hv => ?_, fun b _ => rfl⟩
  · simp [hbuf] at hi
  · simp [hbuf, refs_nil]
  · simp [hbuf] at hi
  · simp [hbuf] at hv

theorem Inv.boot (h : Recoverable sb disk D) : Inv sb (Journal.boot disk) (Store.fresh D) := by
  refine ⟨⟨disk, .boot disk, fun hrun => by cases hrun⟩, ⟨h, fun _ _ => rfl⟩, .nil, fun p => rfl, ?_, fun _ => rfl,
    fun _ _ => rfl, rfl⟩
  rw [tally_eq_zero fun p => rfl]
  rfl

/-- A disk whose log is empty. -/
theorem Recoverable.empty (h : loadHeader (disk sb.logstart) = some []) : Recoverable sb disk disk :=
  ⟨[], h, List.nodup_nil, Nat.zero_le _, fun _ h => absurd h List.not_mem_nil, fun j b hj => by simp at hj,
    fun _ _ _ => rfl⟩

/-! ## The steps of the processes -/

namespace Inv

theorem crash (h : Inv sb s st) (first second : Bool) :
    Recoverable sb (fun b => tear first second (s.device.disk b) (((s.advance sb).getD s).device.disk b))
      (if s.pc = .writeHead ∧ first = true ∧ (s.advance sb).isSome then st.current else st.durable) := by
  cases hs : s.advance sb with
  | some s' => simpa using (h.advance hs).2 first second
  | none =>
      rw [Option.getD_none, tear_self, if_neg (by simp)]
      exact h.phase.recoverable

theorem inOp_run (h : Inv sb s st) (hp : s.place p = .inOp) : s.pc = .run ∧ 0 < s.log.outstanding := by
  have hpos : 0 < tally s.place Place.inside := tally_pos_iff.mpr ⟨p, by simp [Place.inside, hp]⟩
  have hout : 0 < s.log.outstanding := by
    rw [h.counted.outstanding]
    exact_mod_cast hpos
  refine ⟨?_, hout⟩
  by_contra hne
  exact hout.ne' (h.counted.quiet hne)

theorem run_of_idle (h : Inv sb s st) (hrun : s.pc.recovering = false) (hflag : s.log.committing = false) :
    s.pc = .run := by
  rw [h.counted.committing, Pc.committing, hrun] at hflag
  simpa using hflag

theorem quiet (h : Inv sb s st) (hpc : s.pc ≠ .run) : st.Quiet := by
  intro p
  rw [h.counted.active p]
  by_contra hp
  have hpos : 0 < tally s.place Place.inside := tally_pos_iff.mpr ⟨p, by simpa using hp⟩
  have hzero := h.counted.quiet hpc
  rw [h.counted.outstanding] at hzero
  omega

theorem beginOp (h : Inv sb s st) (hs : System.step sb (.beginOp p) s = some s') :
    st.active p = false ∧ Inv sb s' { st with active := Function.update st.active p true } := by
  simp only [System.step, Option.ite_none_right_eq_some, Option.some.injEq] at hs
  obtain ⟨⟨hp, hrun, hflag, -⟩, rfl⟩ := hs
  have hpc := h.run_of_idle hrun hflag
  have hinside : (s.place p).inside = false := by rw [hp]; rfl
  have htally := tally_update s.place Place.inside p .inOp
  rw [hinside] at htally
  refine ⟨(h.counted.active p).trans hinside, ⟨h.view, h.phase, h.blocks, fun q => ?_, ?_, fun hne => absurd hpc hne,
    fun _ hzero => ?_, h.counted.committing⟩⟩
  · by_cases hq : q = p
    · subst hq
      simp [Place.inside]
    · simp [hq, h.counted.active q]
  · have hout := h.counted.outstanding
    simp only [Place.inside, decide_true, Bool.toNat_true, Bool.toNat_false] at htally hout ⊢
    omega
  · have hout := h.counted.outstanding
    simp only at hzero
    omega

theorem sleep (h : Inv sb s st) (hs : System.step sb (.sleep p) s = some s') : Inv sb s' st := by
  simp only [System.step, Option.ite_none_right_eq_some, Option.some.injEq] at hs
  obtain ⟨⟨hp, -, -⟩, rfl⟩ := hs
  have hinside (q : Slot) : (Function.update s.place p .asleep q).inside = (s.place q).inside := by
    by_cases hq : q = p
    · rw [hq, Function.update_self, hp]
      rfl
    · rw [Function.update_of_ne hq]
  refine ⟨h.view, h.phase, h.blocks, fun q => ?_, ?_, h.counted.quiet, h.counted.clean, h.counted.committing⟩
  · rw [hinside, h.counted.active q]
  · rw [h.counted.outstanding]
    simp only [tally, hinside]

theorem write (h : Inv sb s st) (hb : sb.Home b) (hs : System.step sb (.write p b v) s = some s') :
    st.active p = true ∧ Inv sb s' { st with current := Function.update st.current b v } := by
  simp only [System.step, Option.ite_none_right_eq_some] at hs
  obtain ⟨hp, hs⟩ := hs
  obtain ⟨⟨log, d'⟩, hr, rfl⟩ := Option.map_eq_some_iff.mp hs
  obtain ⟨hpc, hout⟩ := h.inOp_run hp
  obtain ⟨V, hview, hcurrent⟩ := h.view
  have hpinned : s.pinned = s.log.block := by simp only [System.pinned, hpc]
  have hphase := h.phase
  rw [hpinned] at hview
  simp only [hpc, Phase] at hphase
  obtain ⟨hdisk, hlength, hlog, hview'⟩ := hview.write rfl v _ hr
  dsimp only at hdisk hlog hview'
  rw [refs_snoc] at hview'
  refine ⟨(h.counted.active p).trans (by simp [Place.inside, hp]),
    ⟨⟨Function.update V b v, ?_, fun _ c hc => ?_⟩, ?_, ?_, ⟨h.counted.active, ?_, fun hne => absurd hpc hne,
      fun _ hzero => ?_, ?_⟩⟩⟩
  · simpa only [System.pinned, hpc, hlog] using hview'
  · dsimp only
    by_cases hcb : c = b
    · rw [hcb, Function.update_self, Function.update_self]
    · rw [Function.update_of_ne hcb, Function.update_of_ne hcb, hcurrent (by rw [hpc]; rfl) c hc]
  · simpa only [hpc, Phase, hdisk] using hphase
  · simp only [hlog]
    split_ifs with hmem
    · exact h.blocks
    · refine ⟨?_, (List.length_append ..).trans_le hlength, fun c hc => ?_⟩
      · exact List.nodup_append.mpr ⟨h.blocks.nodup, List.nodup_singleton b, by
          rintro x hx y hy rfl
          exact hmem (List.mem_singleton.mp hy ▸ hx)⟩
      · rcases List.mem_append.mp hc with hc | hc
        · exact h.blocks.home c hc
        · exact List.mem_singleton.mp hc ▸ hb
  · rw [hlog]
    exact h.counted.outstanding
  · rw [hlog] at hzero
    exact absurd hzero hout.ne'
  · rw [hlog]
    exact h.counted.committing

theorem write_log (h : Inv sb s st) (hs : System.step sb (.write p b v) s = some s') :
    s.place p = .inOp ∧ s'.place = s.place ∧
      s'.log = { s.log with block := if b ∈ s.log.block then s.log.block else s.log.block ++ [b] } := by
  simp only [System.step, Option.ite_none_right_eq_some] at hs
  obtain ⟨hp, hs⟩ := hs
  obtain ⟨⟨log, d'⟩, hr, rfl⟩ := Option.map_eq_some_iff.mp hs
  obtain ⟨V, hview, -⟩ := h.view
  have hpinned : s.pinned = s.log.block := by simp only [System.pinned, (h.inOp_run hp).1]
  rw [hpinned] at hview
  exact ⟨hp, rfl, (hview.write rfl v _ hr).2.2.1⟩

theorem read (h : Inv sb s st) (hb : sb.Home b) (hs : System.step sb (.read b v) s = some s') :
    st.current b = v ∧ Inv sb s' st := by
  simp only [System.step, Option.ite_none_right_eq_some] at hs
  obtain ⟨hrun, hs⟩ := hs
  obtain ⟨⟨v', d'⟩, hr, hs⟩ := Option.bind_eq_some_iff.mp hs
  simp only [Option.ite_none_right_eq_some, Option.some.injEq] at hs
  obtain ⟨rfl, rfl⟩ := hs
  obtain ⟨V, hview, hcurrent⟩ := h.view
  have hone : refs s.pinned b + 1 ≠ 0 := by
    unfold refs
    split_ifs
    · decide
    · decide
  obtain ⟨hv, hdisk, hview'⟩ := hview.read hone _ hr
  dsimp only at hv hdisk hview'
  refine ⟨?_, ⟨V, hview', hcurrent⟩, ?_, h.blocks, h.counted.active, h.counted.outstanding, h.counted.quiet,
    h.counted.clean, h.counted.committing⟩
  · rw [hv, hcurrent hrun b hb]
  · simpa only [hdisk] using h.phase

theorem wakeup_inside (place : Slot → Place) (q : Slot) : (wakeup place q).inside = (place q).inside := by
  unfold wakeup
  cases place q with
  | out => rfl
  | asleep => rfl
  | inOp => rfl
  | inCommit => rfl

/-- Between the commits everything is durable when no operation is under way. -/
theorem durable_of_idle (h : Inv sb s st) (hpc : s.pc = .run) (hout : s.log.outstanding = 0) (hb : sb.Home b) :
    st.durable b = st.current b := by
  obtain ⟨V, hview, hcurrent⟩ := h.view
  have hpinned : s.pinned = [] := by simp only [System.pinned, hpc, h.counted.clean hpc hout]
  have hphase := h.phase
  rw [hpinned] at hview
  simp only [hpc, Phase] at hphase
  rw [← hphase.2.rest b hb List.not_mem_nil, hview.clean b rfl, hcurrent (by rw [hpc]; rfl) b hb]

theorem endOp (h : Inv sb s st) (hs : System.step sb (.endOp p) s = some s') :
    st.active p = true ∧ Inv sb s' { st with active := Function.update st.active p false } := by
  simp only [System.step, Option.ite_none_right_eq_some, Option.ite_none_left_eq_some] at hs
  obtain ⟨hp, -, hs⟩ := hs
  obtain ⟨hpc, hout⟩ := h.inOp_run hp
  obtain ⟨V, hview, hcurrent⟩ := h.view
  have hinside : (s.place p).inside = true := by simp [Place.inside, hp]
  have hphase := h.phase
  have hpinned : s.pinned = s.log.block := by simp only [System.pinned, hpc]
  rw [hpinned] at hview
  simp only [hpc, Phase] at hphase
  refine ⟨(h.counted.active p).trans hinside, ?_⟩
  have htally (a : Place) (ha : a.inside = false) : s.log.outstanding - 1 =
      tally (Function.update s.place p a) Place.inside := by
    have hupdate := tally_update s.place Place.inside p a
    rw [hinside, ha] at hupdate
    simp only [Bool.toNat_true, Bool.toNat_false] at hupdate
    rw [h.counted.outstanding]
    omega
  have hactive (a : Place) (ha : a.inside = false) (q : Slot) :
      Function.update st.active p false q = (Function.update s.place p a q).inside := by
    by_cases hq : q = p
    · rw [hq, Function.update_self, Function.update_self, ha]
    · rw [Function.update_of_ne hq, Function.update_of_ne hq, h.counted.active q]
  have hV : s.pc.recovering = false := by rw [hpc]; rfl
  by_cases hzero : s.log.outstanding - 1 = 0
  · rw [if_pos hzero] at hs
    obtain rfl := Option.some.inj hs
    by_cases hblock : 0 < s.log.block.length
    · simp only [if_pos hblock]
      refine ⟨⟨V, hview, fun _ => hcurrent hV⟩, ⟨hphase.1, hphase.2, Nat.zero_le _, fun j c hj => absurd hj
        (Nat.not_lt_zero j)⟩, h.blocks, hactive _ rfl, htally _ rfl, fun _ => hzero, fun hrun => (by cases hrun), rfl⟩
    · simp only [if_neg hblock]
      have hnil := List.length_eq_zero_iff.mp (Nat.eq_zero_of_not_pos hblock)
      refine ⟨⟨V, hview, fun _ => hcurrent hV⟩, ⟨hphase.1, hphase.2, hnil, fun c hc => ?_⟩, h.blocks, hactive _ rfl,
        htally _ rfl, fun _ => hzero, fun hrun => (by cases hrun), rfl⟩
      rw [hnil] at hview
      rw [← hphase.2.rest c hc List.not_mem_nil, hview.clean c rfl, hcurrent hV c hc]
  · rw [if_neg hzero] at hs
    obtain rfl := Option.some.inj hs
    refine ⟨⟨V, ?_, fun _ => hcurrent hV⟩, ?_, h.blocks, fun q => ?_, ?_, fun hne => absurd hpc hne,
      fun _ hz => absurd hz hzero, h.counted.committing⟩
    · simpa only [System.pinned, hpc] using hview
    · simpa only [hpc, Phase] using hphase
    · rw [wakeup_inside]
      exact hactive .out rfl q
    · simpa only [tally, wakeup_inside] using htally .out rfl

end Inv

/-! ## Whole runs -/

theorem simulates (sb : Superblock) :
    Simulates (System.step sb) (Store.step : Action Slot UInt32 Block → Spec → Option Spec) Event.seen Action.seen
      (Event.Outside sb) (Inv sb) := by
  refine ⟨fun {s st e s'} h hout hs => ?_⟩
  have hone (a : Action Slot UInt32 Block) (st' : Spec) (ha : Store.step a st = some st') (hinv : Inv sb s' st') :
      ∃ tr st', Run Store.step st tr st' ∧ trace Action.seen tr = a.seen.toList ∧ Inv sb s' st' :=
    ⟨_, st', .single ha, trace_single _ _, hinv⟩
  cases e with
  | beginOp p =>
      obtain ⟨hp, hinv⟩ := h.beginOp hs
      exact hone (.enter p) _ (if_neg (by simp [hp])) hinv
  | sleep p => exact ⟨[], st, .nil, rfl, h.sleep hs⟩
  | write p b v =>
      obtain ⟨hp, hinv⟩ := h.write hout hs
      exact hone (.write p b v) _ (if_pos hp) hinv
  | read b v =>
      obtain ⟨hv, hinv⟩ := h.read hout hs
      exact hone (.read b v) _ (if_pos hv) hinv
  | endOp p =>
      obtain ⟨hp, hinv⟩ := h.endOp hs
      exact hone (.leave p) _ (if_pos hp) hinv
  | advance =>
      have hinv := (h.advance hs).1
      unfold System.synced at hinv
      split_ifs at hinv with hpc
      · exact hone .sync _ (if_pos (h.quiet (by simp [hpc]))) hinv
      · exact ⟨[], st, .nil, rfl, hinv⟩
  | crash first second =>
      obtain rfl := Option.some.inj hs
      have hrecover := h.crash first second
      split_ifs at hrecover with hpc
      · have hsync : Store.step .sync st = some { st with durable := st.current } :=
          if_pos (h.quiet (by simp [hpc.1]))
        have hrun : Run Store.step st _ (Store.fresh st.current) := (Run.single hsync).snoc (e := .crash) rfl
        exact ⟨_, _, hrun, rfl, .boot hrecover⟩
      · exact hone .crash _ rfl (.boot hrecover)

/-- From a disk with an empty log, every run looks like one of a durable store, and between the commits all that the
finished operations have written is durable. -/
theorem log_durable {tr : List (Transition System Event)} (h : Run (System.step sb) (boot disk) tr s)
    (hempty : loadHeader (disk sb.logstart) = some []) (hout : ∀ x ∈ tr, x.event.Outside sb) :
    ∃ tr' st, Run Store.step (Store.fresh disk) tr' st ∧ trace Action.seen tr' = trace Event.seen tr ∧
      (s.pc = .run → s.log.outstanding = 0 → ∀ b, sb.Home b → st.durable b = st.current b) := by
  obtain ⟨tr', st, hrun, htrace, hinv⟩ := (simulates sb).run h (Inv.boot (.empty hempty)) hout
  exact ⟨tr', st, hrun, htrace, fun hpc hzero b hb => hinv.durable_of_idle hpc hzero hb⟩

/-- Two operations share a transaction; power goes after its header has been written, and a recovery installs it. -/
theorem log_durable_crashed : ∃ (tr : List (Transition System Event)) (tr' : _) (st : Spec),
    Run Store.step (Store.fresh fun _ _ => 0) tr' st ∧ trace Action.seen tr' = trace Event.seen tr ∧
    trace Event.seen tr = [.enter 0, .enter 1, .write 0 32 fun _ => 7, .leave 0, .write 1 33 fun _ => 8, .leave 1,
      .crash, .read 32 fun _ => 7] := by
  let sb : Superblock := ⟨30, 2⟩
  let events : List Event := [.advance, .advance, .advance, .beginOp 0, .beginOp 1, .write 0 32 fun _ => 7, .endOp 0,
    .write 1 33 fun _ => 8, .endOp 1, .advance, .advance, .advance, .advance, .advance, .crash true false, .advance,
    .advance, .advance, .advance, .advance, .read 32 fun _ => 7]
  have hplay : (final (System.step sb) (boot fun _ _ => 0) events).any (fun _ => true) = true := by decide +kernel
  have houtside : ∀ e ∈ events, e.Outside sb := by decide +kernel
  obtain ⟨tr, s, h, hevents, -⟩ := Run.replay hplay
  have hout : ∀ x ∈ tr, x.event.Outside sb := fun x hx =>
    houtside _ (hevents ▸ List.mem_map_of_mem (f := Transition.event) hx)
  obtain ⟨tr', st, hrun, htrace, -⟩ := log_durable h (by decide +kernel) hout
  refine ⟨tr, tr', st, hrun, htrace, ?_⟩
  have hseen : trace Event.seen tr = (tr.map Transition.event).filterMap Event.seen := by
    rw [List.filterMap_map]
    rfl
  rw [hseen, hevents]
  rfl

end Xv6Mlfq.Journal
