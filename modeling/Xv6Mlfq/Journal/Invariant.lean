import Xv6Mlfq.Counts.Tally
import Xv6Mlfq.Journal.Effects
import Xv6Mlfq.Journal.Recovery
import Xv6Mlfq.Stores.Durable

/-!
# The invariant of the log

The log is related to a store whose transactions become durable together: the buffers show its current contents, and
a recovery from the disk would bring back its durable ones. The `write_head` of a commit is the moment when the
current contents become durable.
-/

namespace Xv6Mlfq.Journal

open Cache Counts Stores
open Queue (Slot)

abbrev Spec := Store Slot UInt32 Block

def Pc.committing (pc : Pc) : Bool := pc ≠ .run && !pc.recovering

def Place.inside (a : Place) : Bool := a = .inOp

/-- The blocks that the log has pinned. -/
def System.pinned (s : System) : List UInt32 :=
  match s.pc with
  | .run | .writeLog _ | .writeHead | .finish => s.log.block
  | .installTrans false tail => s.log.block.drop tail
  | _ => []

def refs (bs : List UInt32) : UInt32 → UInt32 := fun b => if b ∈ bs then 1 else 0

theorem refs_nil : refs [] = fun _ => 0 := rfl

theorem refs_of_mem {bs : List UInt32} {b : UInt32} (h : b ∈ bs) : refs bs b = 1 := if_pos h

theorem refs_of_notMem {bs : List UInt32} {b : UInt32} (h : b ∉ bs) : refs bs b = 0 := if_neg h

theorem refs_cons {bs : List UInt32} {b : UInt32} (h : b ∉ bs) : Function.update (refs (b :: bs)) b 0 = refs bs := by
  funext c
  by_cases hc : c = b
  · rw [hc, Function.update_self, refs_of_notMem h]
  · simp [refs, hc]

theorem refs_snoc (bs : List UInt32) (b : UInt32) :
    Function.update (refs bs) b 1 = refs (if b ∈ bs then bs else bs ++ [b]) := by
  funext c
  by_cases hc : c = b
  · subst hc
    rw [Function.update_self]
    split_ifs with hmem
    · exact (refs_of_mem hmem).symm
    · exact (refs_of_mem (by simp)).symm
  · rw [Function.update_of_ne hc]
    split_ifs with hmem
    · rfl
    · simp [refs, hc]

/-- What is on the disk and in the log at each point of a commit or a recovery. -/
def Phase (sb : Superblock) (disk : UInt32 → Block) (bs : List UInt32) (D C : UInt32 → Block) : Pc → Prop
  | .readHead => Recoverable sb disk D ∧ ∀ b, sb.Home b → D b = C b
  | .installTrans _ tail => Header sb disk bs ∧ Saved sb disk D bs ∧ tail ≤ bs.length ∧
      (∀ b, sb.Home b → b ∉ bs.drop tail → disk b = D b) ∧ ∀ b, sb.Home b → D b = C b
  | .clear _ => Recoverable sb disk D ∧ Saved sb disk D [] ∧ bs = [] ∧ ∀ b, sb.Home b → D b = C b
  | .run => Header sb disk [] ∧ Saved sb disk D []
  | .writeLog tail => Header sb disk [] ∧ Saved sb disk D [] ∧ tail ≤ bs.length ∧
      ∀ j b, j < tail → bs[j]? = some b → disk (sb.slot j) = C b
  | .writeHead => Header sb disk [] ∧ Saved sb disk D [] ∧ Saved sb disk C bs
  | .finish => Header sb disk [] ∧ Saved sb disk D [] ∧ bs = [] ∧ ∀ b, sb.Home b → D b = C b

structure Blocks (sb : Superblock) (bs : List UInt32) : Prop where
  nodup : bs.Nodup
  length : bs.length ≤ sb.capacity
  home : ∀ b ∈ bs, sb.Home b

/-- The counters of the log agree with the processes. -/
structure Counted (s : System) (active : Slot → Bool) : Prop where
  active : ∀ p, active p = (s.place p).inside
  outstanding : s.log.outstanding = tally s.place Place.inside
  quiet : s.pc ≠ .run → s.log.outstanding = 0
  clean : s.pc = .run → s.log.outstanding = 0 → s.log.block = []
  committing : s.log.committing = s.pc.committing

structure Inv (sb : Superblock) (s : System) (st : Spec) : Prop where
  view : ∃ V, Shows s.device V (refs s.pinned) ∧ (s.pc.recovering = false → ∀ b, sb.Home b → V b = st.current b)
  phase : Phase sb s.device.disk s.log.block st.durable st.current s.pc
  blocks : Blocks sb s.log.block
  counted : Counted s st.active

variable {sb : Superblock} {s s' : System} {st : Spec} {disk D C : UInt32 → Block} {bs : List UInt32} {b : UInt32}
  {t : Nat} {active : Slot → Bool}

theorem Saved.blocks (h : Saved sb disk D bs) : Blocks sb bs := ⟨h.nodup, h.length, h.home⟩

theorem Blocks.nil : Blocks sb [] := ⟨List.nodup_nil, Nat.zero_le _, fun _ h => absurd h List.not_mem_nil⟩

theorem Phase.recoverable {pc : Pc} (h : Phase sb disk bs D C pc) : Recoverable sb disk D := by
  cases pc with
  | readHead => exact h.1
  | installTrans recovering tail => exact ⟨bs, h.1, h.2.1⟩
  | clear recovering => exact h.1
  | run => exact ⟨[], h.1, h.2⟩
  | writeLog tail => exact ⟨[], h.1, h.2.1⟩
  | writeHead => exact ⟨[], h.1, h.2.1⟩
  | finish => exact ⟨[], h.1, h.2.1⟩

/-! ## The steps of a commit and of a recovery -/

theorem Counted.moved (h : Counted s active) (hpc : s.pc ≠ .run) (hpc' : s'.pc ≠ .run)
    (hcommitting : s'.pc.committing = s.pc.committing) (hplace : s'.place = s.place)
    (hout : s'.log.outstanding = s.log.outstanding) (hflag : s'.log.committing = s.log.committing) :
    Counted s' active := by
  refine ⟨?_, ?_, fun _ => ?_, fun hrun => absurd hrun hpc', ?_⟩
  · rw [hplace]
    exact h.active
  · rw [hplace, hout]
    exact h.outstanding
  · rw [hout]
    exact h.quiet hpc
  · rw [hflag, hcommitting]
    exact h.committing

/-- The store after the step of a commit. -/
def System.synced (s : System) (st : Spec) : Spec := if s.pc = .writeHead then { st with durable := st.current } else st

/-- What a loss of power during the step would leave. -/
def Survives (sb : Superblock) (s s' : System) (st : Spec) : Prop :=
  ∀ first second, Recoverable sb (fun b => tear first second (s.device.disk b) (s'.device.disk b))
    (if s.pc = .writeHead ∧ first = true then st.current else st.durable)

theorem Survives.of_update {c : UInt32} {v : Block} (hdisk : s'.device.disk = Function.update s.device.disk c v)
    (hpc : s.pc ≠ .writeHead) (h : ∀ w, Recoverable sb (Function.update s.device.disk c w) st.durable) :
    Survives sb s s' st := by
  intro first second
  rw [hdisk, tear_update, if_neg fun hc => hpc hc.1]
  exact h _

theorem Survives.of_same (h : Inv sb s st) (hdisk : s'.device.disk = s.device.disk) (hpc : s.pc ≠ .writeHead) :
    Survives sb s s' st := by
  intro first second
  rw [hdisk, tear_self, if_neg fun hc => hpc hc.1]
  exact h.phase.recoverable

theorem mem_of_pinned (h : b ∈ s.pinned) : b ∈ s.log.block := by
  unfold System.pinned at h
  split at h
  · exact h
  · exact h
  · exact h
  · exact h
  · exact List.mem_of_mem_drop h
  · exact absurd h List.not_mem_nil

/-- The view of the blocks outside the log is not changed by a write to the log. -/
theorem update_home {V : UInt32 → Block} {c : UInt32} (hc : ¬ sb.Home c) (v : Block) (hb : sb.Home b) :
    Function.update V c v b = V b := by
  refine Function.update_of_ne ?_ _ _
  rintro rfl
  exact hc hb

theorem not_home_slot (ht : t < sb.capacity) : ¬ sb.Home (sb.slot t) := fun h => h.ne_slot ht rfl

theorem not_home_logstart : ¬ sb.Home sb.logstart := fun h => h.ne_logstart rfl

namespace Inv

theorem refs_of_not_home (h : Inv sb s st) (hb : ¬ sb.Home b) : refs s.pinned b = 0 :=
  refs_of_notMem fun hmem => hb (h.blocks.home b (mem_of_pinned hmem))

theorem readHead (h : Inv sb s st) (hpc : s.pc = .readHead) (hs : s.advance sb = some s') :
    Inv sb s' st ∧ Survives sb s s' st := by
  have hphase := h.phase
  obtain ⟨V, hview, -⟩ := h.view
  simp only [hpc, Phase, System.pinned, System.advance] at hphase hview hs
  obtain ⟨⟨bs, hheader, hsaved⟩, hsame⟩ := hphase
  obtain ⟨⟨bs', d'⟩, hr, rfl⟩ := Option.map_eq_some_iff.mp hs
  obtain ⟨hload, hdisk, hview'⟩ := hview.readHead rfl _ hr
  have hbs : bs' = bs := by
    rw [← hview.clean _ rfl] at hload
    exact Option.some.inj (hload.symm.trans hheader)
  dsimp only at hdisk hview'
  rw [hbs]
  refine ⟨⟨⟨V, hview', fun hrun => by cases hrun⟩, ?_, hsaved.blocks, ?_⟩, ?_⟩
  · simp only [Phase, hdisk]
    exact ⟨hheader, hsaved, Nat.zero_le _, hsaved.rest, hsame⟩
  · exact h.counted.moved (by simp [hpc]) (by simp) (by simp [hpc, Pc.committing, Pc.recovering]) rfl rfl rfl
  · exact .of_same h hdisk (by simp [hpc])

theorem installTrans {recovering : Bool} (h : Inv sb s st) (hpc : s.pc = .installTrans recovering t)
    (hs : s.advance sb = some s') : Inv sb s' st ∧ Survives sb s s' st := by
  have hphase := h.phase
  obtain ⟨V, hview, hcurrent⟩ := h.view
  simp only [hpc, Phase, System.advance] at hphase hs
  obtain ⟨hheader, hsaved, hle, hrest, hsame⟩ := hphase
  cases hb : s.log.block[t]? with
  | some b =>
      rw [hb] at hs
      obtain ⟨⟨_, d'⟩, hr, rfl⟩ := Option.map_eq_some_iff.mp hs
      obtain ⟨hlt, hget⟩ := List.getElem?_eq_some_iff.mp hb
      have hhome := hsaved.home_of_getElem? hb
      have hdrop : s.log.block.drop t = b :: s.log.block.drop (t + 1) := by
        rw [← hget, ← List.drop_eq_getElem_cons]
      have hnot : b ∉ s.log.block.drop (t + 1) := by
        have hnd := hsaved.nodup.sublist (List.drop_sublist t _)
        rw [hdrop] at hnd
        exact (List.nodup_cons.mp hnd).1
      have hslot := h.refs_of_not_home (not_home_slot (hsaved.lt_of_getElem? hb))
      have hone : refs s.pinned b = if recovering then 0 else 1 := by
        cases recovering with
        | true => simp [System.pinned, hpc, refs_nil]
        | false => simp [System.pinned, hpc, hdrop, refs_of_mem]
      have hcopy : V (sb.slot t) = st.durable b := by rw [← hview.clean _ hslot, hsaved.copied t b hb]
      obtain ⟨hdisk, hview'⟩ := hview.installTrans recovering (hhome.ne_slot (hsaved.lt_of_getElem? hb)) hslot hone _ hr
      dsimp only at hdisk hview'
      rw [hcopy] at hdisk hview'
      have hrefs : Function.update (refs s.pinned) b 0 =
          refs { s with device := d', pc := .installTrans recovering (t + 1) }.pinned := by
        cases recovering with
        | true => simp [System.pinned, hpc, refs_nil]
        | false =>
            have hpinned : s.pinned = b :: s.log.block.drop (t + 1) := by simp only [System.pinned, hpc, hdrop]
            rw [hpinned, refs_cons hnot]
            rfl
      rw [hrefs] at hview'
      refine ⟨⟨⟨Function.update V b (st.durable b), hview', fun hrun c hc => ?_⟩, ?_, h.blocks, ?_⟩, ?_⟩
      · by_cases hcb : c = b
        · rw [hcb, Function.update_self, hsame b hhome]
        · rw [Function.update_of_ne hcb]
          exact hcurrent (by rw [hpc]; exact hrun) c hc
      · simp only [Phase, hdisk]
        refine ⟨hheader.update hhome.ne_logstart _, hsaved.update_home (List.mem_of_getElem? hb) _, hlt,
          fun c hc hmem => ?_, hsame⟩
        by_cases hcb : c = b
        · rw [hcb, Function.update_self]
        · rw [Function.update_of_ne hcb]
          refine hrest c hc ?_
          rw [hdrop]
          exact fun h => (List.mem_cons.mp h).elim hcb hmem
      · exact h.counted.moved (by simp [hpc]) (by simp) (by simp [hpc, Pc.committing, Pc.recovering]) rfl rfl rfl
      · exact .of_update hdisk (by simp [hpc]) fun w =>
          ⟨_, hheader.update hhome.ne_logstart w, hsaved.update_home (List.mem_of_getElem? hb) w⟩
  | none =>
      rw [hb] at hs
      obtain rfl := Option.some.inj hs
      have hdrop : s.log.block.drop t = [] := List.drop_eq_nil_of_le (List.getElem?_eq_none_iff.mp hb)
      have hrefs : refs s.pinned = refs { s with log := { s.log with block := [] }, pc := .clear recovering }.pinned := by
        cases recovering with
        | true => simp [System.pinned, hpc]
        | false => simp [System.pinned, hpc, hdrop]
      rw [hrefs] at hview
      refine ⟨⟨⟨V, hview, fun hrun => hcurrent (by rw [hpc]; exact hrun)⟩, ?_, .nil, ?_⟩, ?_⟩
      · refine ⟨⟨_, hheader, hsaved⟩, ⟨List.nodup_nil, Nat.zero_le _, fun _ h => absurd h List.not_mem_nil,
          fun j b hj => by simp at hj, fun b hb _ => hrest b hb ?_⟩, rfl, hsame⟩
        rw [hdrop]
        exact List.not_mem_nil
      · exact h.counted.moved (by simp [hpc]) (by simp) (by simp [hpc, Pc.committing, Pc.recovering]) rfl rfl rfl
      · exact .of_same h rfl (by simp [hpc])

theorem clear {recovering : Bool} (h : Inv sb s st) (hpc : s.pc = .clear recovering) (hs : s.advance sb = some s') :
    Inv sb s' st ∧ Survives sb s s' st := by
  have hphase := h.phase
  obtain ⟨V, hview, hcurrent⟩ := h.view
  simp only [hpc, Phase, System.advance] at hphase hs
  obtain ⟨hrecover, hsaved, hnil, hsame⟩ := hphase
  obtain ⟨⟨_, d'⟩, hr, rfl⟩ := Option.map_eq_some_iff.mp hs
  obtain ⟨hdisk, hview'⟩ := hview.writeHead (h.refs_of_not_home not_home_logstart) s.log.block _ hr
  have hpinned : s.pinned = [] := by simp only [System.pinned, hpc]
  dsimp only at hdisk hview'
  rw [hpinned] at hview hview'
  rw [hnil] at hdisk hview'
  have hsaved' := hsaved.update_header (storeHeader [] (V sb.logstart))
  have hheader' : Header sb (Function.update s.device.disk sb.logstart (storeHeader [] (V sb.logstart))) [] :=
    .store (Nat.zero_le _) _ _
  have hV (c : UInt32) (hc : sb.Home c) : V c = st.current c := by
    rw [← hview.clean c rfl, hsaved.rest c hc List.not_mem_nil, hsame c hc]
  refine ⟨⟨⟨Function.update V sb.logstart (storeHeader [] (V sb.logstart)), ?_, fun _ c hc => ?_⟩, ?_, h.blocks, ?_⟩, ?_⟩
  · cases recovering with
    | true => simpa [System.pinned, hnil] using hview'
    | false => simpa [System.pinned, hnil] using hview'
  · rw [update_home not_home_logstart _ hc, hV c hc]
  · cases recovering with
    | true =>
        simp only [if_true, Phase, hdisk]
        exact ⟨hheader', hsaved'⟩
    | false =>
        simp only [Bool.false_eq_true, if_false, Phase, hdisk]
        exact ⟨hheader', hsaved', hnil, hsame⟩
  · cases recovering with
    | true =>
        refine ⟨h.counted.active, h.counted.outstanding, fun hrun => absurd rfl hrun, fun _ _ => hnil, ?_⟩
        exact h.counted.committing.trans (by simp [hpc, Pc.committing, Pc.recovering])
    | false =>
        exact h.counted.moved (by simp [hpc]) (by simp) (by simp [hpc, Pc.committing, Pc.recovering]) rfl rfl rfl
  · intro first second
    dsimp only
    rw [hdisk, tear_update, ← hview.clean _ rfl]
    have htorn := hrecover.torn hsaved (s.device.disk sb.logstart) first second
    simpa [hpc] using htorn

theorem writeLog (h : Inv sb s st) (hpc : s.pc = .writeLog t) (hs : s.advance sb = some s') :
    Inv sb s' st ∧ Survives sb s s' st := by
  have hphase := h.phase
  obtain ⟨V, hview, hcurrent⟩ := h.view
  have hpinned : s.pinned = s.log.block := by simp only [System.pinned, hpc]
  simp only [hpc, Phase, System.advance] at hphase hs
  obtain ⟨hheader, hsaved, hle, hcopied⟩ := hphase
  have hV (c : UInt32) (hc : sb.Home c) : V c = st.current c := hcurrent (by rw [hpc]; rfl) c hc
  cases hb : s.log.block[t]? with
  | some b =>
      rw [hb] at hs
      obtain ⟨⟨_, d'⟩, hr, rfl⟩ := Option.map_eq_some_iff.mp hs
      have hmem := List.mem_of_getElem? hb
      have hlength := (List.getElem?_eq_some_iff.mp hb).1
      have ht := hlength.trans_le h.blocks.length
      have hone : refs s.pinned b = 1 := by rw [hpinned, refs_of_mem hmem]
      obtain ⟨hdisk, hview'⟩ := hview.writeLog (h.refs_of_not_home (not_home_slot ht)) hone _ hr
      dsimp only at hdisk hview'
      rw [hV b (h.blocks.home b hmem)] at hdisk hview'
      rw [hpinned] at hview'
      refine ⟨⟨⟨Function.update V (sb.slot t) (st.current b), hview', fun _ c hc => ?_⟩, ?_, h.blocks, ?_⟩, ?_⟩
      · rw [update_home (not_home_slot ht) _ hc, hV c hc]
      · simp only [Phase, hdisk]
        refine ⟨hheader.update (slot_ne_logstart ht) _, hsaved.update_slot ht _, hlength, fun j c hj hc => ?_⟩
        have hjt : j < sb.capacity := (Nat.le_of_lt_succ hj).trans_lt ht
        rcases (Nat.le_of_lt_succ hj).eq_or_lt with rfl | hj
        · rw [Function.update_self, Option.some.inj (hb.symm.trans hc)]
        · rw [Function.update_of_ne fun heq => hj.ne (slot_inj hjt ht heq), hcopied j c hj hc]
      · exact h.counted.moved (by simp [hpc]) (by simp) (by simp [hpc, Pc.committing, Pc.recovering]) rfl rfl rfl
      · exact .of_update hdisk (by simp [hpc]) fun w =>
          ⟨_, hheader.update (slot_ne_logstart ht) w, hsaved.update_slot ht w⟩
  | none =>
      rw [hb] at hs
      obtain rfl := Option.some.inj hs
      have hlength := List.getElem?_eq_none_iff.mp hb
      have hsaved' : Saved sb s.device.disk st.current s.log.block := by
        refine ⟨h.blocks.nodup, h.blocks.length, h.blocks.home, fun j c hc => ?_, fun c hc hmem => ?_⟩
        · exact hcopied j c ((List.getElem?_eq_some_iff.mp hc).1.trans_le hlength) hc
        · rw [hview.clean c (by rw [hpinned, refs_of_notMem hmem]), hV c hc]
      rw [hpinned] at hview
      refine ⟨⟨⟨V, hview, fun _ => hV⟩, ⟨hheader, hsaved, hsaved'⟩, h.blocks, ?_⟩, ?_⟩
      · exact h.counted.moved (by simp [hpc]) (by simp) (by simp [hpc, Pc.committing, Pc.recovering]) rfl rfl rfl
      · exact .of_same h rfl (by simp [hpc])

/-- The current contents become durable. -/
theorem writeHead (h : Inv sb s st) (hpc : s.pc = .writeHead) (hs : s.advance sb = some s') :
    Inv sb s' { st with durable := st.current } ∧ Survives sb s s' st := by
  have hphase := h.phase
  obtain ⟨V, hview, hcurrent⟩ := h.view
  have hpinned : s.pinned = s.log.block := by simp only [System.pinned, hpc]
  simp only [hpc, Phase, System.advance] at hphase hs
  obtain ⟨hheader, hsaved, hsaved'⟩ := hphase
  obtain ⟨⟨_, d'⟩, hr, rfl⟩ := Option.map_eq_some_iff.mp hs
  have hlogstart : refs s.pinned sb.logstart = 0 := h.refs_of_not_home not_home_logstart
  obtain ⟨hdisk, hview'⟩ := hview.writeHead hlogstart s.log.block _ hr
  dsimp only at hdisk hview'
  rw [hpinned] at hview'
  refine ⟨⟨⟨Function.update V sb.logstart (storeHeader s.log.block (V sb.logstart)), hview', fun _ c hc => ?_⟩, ?_,
    h.blocks, ?_⟩, ?_⟩
  · rw [update_home not_home_logstart _ hc, hcurrent (by rw [hpc]; rfl) c hc]
  · simp only [Phase, hdisk]
    have hinstalled := hsaved'.update_header (storeHeader s.log.block (V sb.logstart))
    exact ⟨.store h.blocks.length _ _, hinstalled, Nat.zero_le _, hinstalled.rest, fun _ _ => trivial⟩
  · exact h.counted.moved (by simp [hpc]) (by simp) (by simp [hpc, Pc.committing, Pc.recovering]) rfl rfl rfl
  · intro first second
    dsimp only
    rw [hdisk, tear_update, ← hview.clean _ hlogstart]
    have htorn := Recoverable.torn ⟨_, hheader, hsaved⟩ hsaved' (s.device.disk sb.logstart) first second
    simpa [hpc] using htorn

theorem finish (h : Inv sb s st) (hpc : s.pc = .finish) (hs : s.advance sb = some s') :
    Inv sb s' st ∧ Survives sb s s' st := by
  have hphase := h.phase
  obtain ⟨V, hview, hcurrent⟩ := h.view
  have hpinned : s.pinned = s.log.block := by simp only [System.pinned, hpc]
  simp only [hpc, Phase, System.advance] at hphase hs
  obtain ⟨hheader, hsaved, hnil, -⟩ := hphase
  obtain rfl := Option.some.inj hs
  rw [hpinned] at hview
  have hinOp (p : Slot) : (if s.place p = .inCommit then Place.out else wakeup s.place p).inside =
      (s.place p).inside := by
    unfold wakeup
    cases s.place p with
    | out => rfl
    | asleep => rfl
    | inOp => rfl
    | inCommit => rfl
  refine ⟨⟨⟨V, hview, fun _ => hcurrent (by rw [hpc]; rfl)⟩, ⟨hheader, hsaved⟩, h.blocks, ?_⟩, .of_same h rfl (by simp [hpc])⟩
  refine ⟨fun p => ?_, ?_, fun hrun => absurd rfl hrun, fun _ _ => hnil, rfl⟩
  · rw [h.counted.active p, hinOp]
  · rw [h.counted.outstanding]
    simp only [tally, hinOp]

/-- One step of a commit or a recovery. -/
theorem advance (h : Inv sb s st) (hs : s.advance sb = some s') :
    Inv sb s' (s.synced st) ∧ Survives sb s s' st := by
  cases hpc : s.pc with
  | readHead => simpa only [System.synced, hpc, reduceCtorEq, if_false] using h.readHead hpc hs
  | installTrans recovering tail =>
      simpa only [System.synced, hpc, reduceCtorEq, if_false] using h.installTrans hpc hs
  | clear recovering => simpa only [System.synced, hpc, reduceCtorEq, if_false] using h.clear hpc hs
  | run => simp only [System.advance, hpc, reduceCtorEq] at hs
  | writeLog tail => simpa only [System.synced, hpc, reduceCtorEq, if_false] using h.writeLog hpc hs
  | writeHead => simpa only [System.synced, hpc, if_true] using h.writeHead hpc hs
  | finish => simpa only [System.synced, hpc, reduceCtorEq, if_false] using h.finish hpc hs

end Inv

end Xv6Mlfq.Journal
