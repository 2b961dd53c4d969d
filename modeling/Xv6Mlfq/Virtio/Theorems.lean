import Xv6Mlfq.Runs.Simulation
import Xv6Mlfq.Virtio.Requests

/-!
# The driver as a disk

Seen from the processes, a request takes effect at one moment between the call of `virtio_disk_rw` and its return.
-/

namespace Xv6Mlfq.Virtio

open Counts Rings Runs
open Cache (Index)
open Queue (Slot)

/-- What a step can be, with the two rings before and after it. -/
inductive Stepped {β : Type*} (s : System β) (as us : List DescId) : Event β → System β → List DescId → List DescId → Prop
  | rw {p b write blockno} (hp : (s.call p).args = none) (hb : s.Unused b) :
      Stepped s as us (.rw p b write blockno) (s.setCall p (.allocating ⟨b, write, (blockno * 2).toUInt64⟩)) as us
  | submit {p a idx} (hp : s.call p = .allocating a) (hnodup : idx.ids.Nodup)
      (hfree : ∀ i ∈ idx.ids, s.disk.free i = true) :
      Stepped s as us (.alloc p) ((s.take idx.ids).submit p a idx) (as ++ [idx.first]) us
  | retry {p a ids} (hp : s.call p = .allocating a) (hids : ∀ i ∈ ids, s.disk.free i = true)
      (hcount : freeCount s.disk ≤ 2) :
      Stepped s as us (.alloc p) (((s.take ids).release ids).setCall p (.asleepFree a)) as us
  | resleep {p a idx} (hp : s.call p = .waiting a idx) (hbusy : s.busy a.b = true) :
      Stepped s as us (.resleep p) (s.setCall p (.asleep a idx)) as us
  | ret {p a idx} (hp : s.call p = .waiting a idx) (hbusy : s.busy a.b = false) :
      Stepped s as us (.ret p) (s.finish p idx) as us
  | kill {p} : Stepped s as us (.kill p) (s.setCall p (s.call p).awake) as us
  | intr : Stepped s as us .intr { s with intr := true } as us
  | used {p a idx us'} (hus : us = idx.first :: us') (hp : (s.call p).flight = some (a, idx)) :
      Stepped s as us .used (s.complete idx.first) as us'
  | intrRet : Stepped s as us .intrRet { s with intr := false } as us
  | fetch {id as'} (has : as = id :: as') :
      Stepped s as us .fetch { s with pending := s.pending ++ [id], lastAvail := s.lastAvail + 1 } as' us
  | serve {p a idx} (hid : idx.first ∈ s.pending) (hp : (s.call p).flight = some (a, idx)) :
      Stepped s as us (.serve idx.first 0)
        (s.serve idx.first 0 ⟨if a.write then VIRTIO_BLK_T_OUT else VIRTIO_BLK_T_IN, a.sector⟩ a.b idx.first) as
        (us ++ [idx.first])
  | modify {b v} (hb : s.Unused b) : Stepped s as us (.modify b v) { s with data := Function.update s.data b v } as us

variable {β : Type*} {s s' : System β} {e : Event β} {as as' us us' ids : List DescId} {id : DescId} {p q : Slot} {a : Args}
  {idx : Idx} {b : Index} {data : Index → β} {sectors : UInt64 → β} {tr : List (Transition (System β) (Event β))}

theorem allocate_stepped (as us : List DescId) (hp : s.call p = .allocating a) :
    ∃ as' us', Stepped s as us (.alloc p) (s.allocate p a) as' us' := by
  unfold System.allocate
  rcases alloc3Desc_cases s 3 [] List.nodup_nil (by simp) with ⟨got, hlen, hnodup, hfree, heq⟩ | ⟨got, hfree, heq, hlt⟩
  · obtain ⟨i₀, i₁, i₂, rfl⟩ := List.length_eq_three.mp hlen
    rw [System.take_nil, List.nil_append] at heq
    rw [heq]
    have hstep : Stepped s as us (.alloc p) ((s.take [i₀, i₁, i₂]).submit p a ⟨i₀, i₁, i₂⟩) (as ++ [i₀]) us :=
      .submit hp hnodup hfree
    exact ⟨_, _, hstep⟩
  · rw [System.take_nil] at heq
    rw [heq]
    exact ⟨_, _, .retry hp hfree (Nat.le_of_lt_succ hlt)⟩

theorem Inv.stepped (h : Inv s as us) (hok : e.succeeds = true) (hs : System.step e s = some s') :
    ∃ as' us', Stepped s as us e s' as' us' := by
  unfold System.step at hs
  rw [if_neg (Bool.eq_false_iff.mp h.live)] at hs
  cases e with
  | rw p b write blockno =>
      simp only [Option.ite_none_right_eq_some, Option.some.injEq, Option.isNone_iff_eq_none] at hs
      obtain ⟨⟨hp, hb⟩, rfl⟩ := hs
      exact ⟨_, _, .rw hp hb⟩
  | alloc p =>
      dsimp only at hs
      split at hs
      · rename_i a hp _
        obtain rfl := Option.some.inj hs
        exact allocate_stepped as us hp
      · cases hs
  | resleep p =>
      dsimp only at hs
      split at hs
      · rename_i a idx hp _
        simp only [Option.ite_none_right_eq_some, Option.some.injEq] at hs
        obtain ⟨hbusy, rfl⟩ := hs
        exact ⟨_, _, .resleep hp hbusy⟩
      · cases hs
  | ret p =>
      dsimp only at hs
      split at hs
      · rename_i a idx hp _
        simp only [Option.ite_none_left_eq_some, Option.some.injEq, Bool.not_eq_true] at hs
        obtain ⟨hbusy, rfl⟩ := hs
        exact ⟨_, _, .ret hp hbusy⟩
      · cases hs
  | kill p =>
      obtain rfl := Option.some.inj hs
      exact ⟨_, _, .kill⟩
  | intr =>
      simp only [Option.ite_none_left_eq_some, Option.some.injEq] at hs
      obtain ⟨-, rfl⟩ := hs
      exact ⟨_, _, .intr⟩
  | used =>
      simp only [Option.ite_none_right_eq_some, Option.some.injEq] at hs
      obtain ⟨⟨-, hne⟩, rfl⟩ := hs
      obtain ⟨us', p, a, idx, hus, hentry, hp, -⟩ := h.exists_used hne
      rw [hentry]
      exact ⟨_, _, .used hus hp⟩
  | intrRet =>
      simp only [Option.ite_none_right_eq_some, Option.some.injEq] at hs
      obtain ⟨-, rfl⟩ := hs
      exact ⟨_, _, .intrRet⟩
  | fetch =>
      simp only [Option.ite_none_right_eq_some, Option.some.injEq] at hs
      obtain ⟨hne, rfl⟩ := hs
      obtain ⟨as', has⟩ := h.exists_avail hne
      exact ⟨_, _, .fetch has⟩
  | serve id status =>
      simp only [Option.ite_none_right_eq_some, Option.some.injEq] at hs
      obtain ⟨hid, rfl⟩ := hs
      obtain rfl : status = 0 := eq_of_beq hok
      obtain ⟨p, a, idx, hp, rfl, -⟩ := (h.heads id).mp (List.mem_append_left _ (List.mem_append_right _ hid))
      rw [(h.chain hp).2.2.1.request, Option.elim_some]
      exact ⟨_, _, .serve hid hp⟩
  | modify b v =>
      simp only [Option.ite_none_right_eq_some, Option.some.injEq] at hs
      obtain ⟨hb, rfl⟩ := hs
      exact ⟨_, _, .modify hb⟩

theorem Stepped.inv (hs : Stepped s as us e s' as' us') (h : Inv s as us) : Inv s' as' us' := by
  cases hs with
  | rw hp hb => exact h.rw hp hb
  | submit hp hnodup hfree => exact h.submit hp hnodup hfree
  | retry hp hids hcount => exact h.retry hp hids hcount
  | resleep hp hbusy =>
      exact h.setCall (congrArg Call.flight hp).symm (congrArg Call.args hp).symm (fun _ => Call.noConfusion)
        fun _ _ heq => (Call.asleep.inj heq).1 ▸ hbusy
  | ret hp hbusy => exact h.finish hp hbusy
  | kill => exact h.kill _
  | intr => exact h.frame true s.data
  | used hus hp =>
      subst hus
      exact h.complete hp
  | intrRet => exact h.frame false s.data
  | fetch has =>
      subst has
      exact h.fetch
  | serve hid hp => exact h.serve hid
  | modify hb => exact h.frame s.intr _

/-! ## The specification -/

/-- Requests that each take effect at once, with those of the processes and whether they have. -/
structure Spec (β : Type*) where
  req : Slot → Option (Args × Bool)
  data : Index → β
  sectors : UInt64 → β

inductive Action (β : Type*) where
  | rw (p : Slot) (a : Args)
  | transfer (p : Slot)
  | ret (p : Slot)
  | modify (b : Index) (v : β)

namespace Spec

variable {d : Spec β}

def Unused (d : Spec β) (b : Index) : Prop := ∀ q, ((d.req q).map fun x => x.1.b) ≠ some b

instance (d : Spec β) (b : Index) : Decidable (d.Unused b) :=
  inferInstanceAs (Decidable (∀ q, ((d.req q).map fun x => x.1.b) ≠ some b))

def setReq (d : Spec β) (p : Slot) (r : Option (Args × Bool)) : Spec β := { d with req := Function.update d.req p r }

/-- The data goes one way or the other. -/
def move (d : Spec β) (a : Args) : Spec β :=
  if a.write then { d with sectors := Function.update d.sectors a.sector (d.data a.b) }
  else { d with data := Function.update d.data a.b (d.sectors a.sector) }

def step (e : Action β) (d : Spec β) : Option (Spec β) :=
  match e with
  | .rw p a => if (d.req p).isNone ∧ d.Unused a.b then some (d.setReq p (some (a, false))) else none
  | .transfer p =>
      match d.req p with
      | some (a, false) => some ((d.move a).setReq p (some (a, true)))
      | _ => none
  | .ret p =>
      match d.req p with
      | some (_, true) => some (d.setReq p none)
      | _ => none
  | .modify b v => if d.Unused b then some { d with data := Function.update d.data b v } else none

def start (data : Index → β) (sectors : UInt64 → β) : Spec β := ⟨fun _ => none, data, sectors⟩

end Spec

/-- The calls, their returns, and what the owners of buffers do with them. -/
def Event.seen : Event β → Option (Action β)
  | .rw p b write blockno => some (.rw p ⟨b, write, (blockno * 2).toUInt64⟩)
  | .ret p => some (.ret p)
  | .modify b v => some (.modify b v)
  | _ => none

def Action.seen : Action β → Option (Action β)
  | .transfer _ => none
  | x => some x

/-- A request has taken effect if it is not among those that the device has yet to serve. -/
def progress (todo : List DescId) (c : Call) : Option (Args × Bool) :=
  c.args.map fun a => (a, c.flight.any fun x => decide (x.2.first ∉ todo))

structure Shows (s : System β) (as : List DescId) (d : Spec β) : Prop where
  data : d.data = s.data
  sectors : d.sectors = s.sectors
  req : ∀ p, d.req p = progress (as ++ s.pending) (s.call p)

variable {d : Spec β} {todo todo' : List DescId} {c c' : Call}

theorem progress_args (todo : List DescId) (c : Call) : (progress todo c).map (fun x => x.1.b) = c.args.map Args.b := by
  rw [progress, Option.map_map]
  rfl

/-- What a process can see of the step is the same. -/
theorem progress_congr (hargs : c'.args = c.args) (hflight : c'.flight = c.flight)
    (htodo : ∀ a idx, c.flight = some (a, idx) → (idx.first ∈ todo' ↔ idx.first ∈ todo)) :
    progress todo' c' = progress todo c := by
  rw [progress, progress, hargs, hflight]
  cases hc : c.flight with
  | none => rfl
  | some x => rw [Option.any_some, Option.any_some, decide_eq_decide.mpr (not_congr (htodo x.1 x.2 hc))]

theorem progress_flight (h : c.flight = some (a, idx)) : progress todo c = some (a, decide (idx.first ∉ todo)) := by
  rw [progress, flight_args h, h]
  rfl

namespace Shows

theorem quiet (hshows : Shows s as d) (hdata : s'.data = s.data) (hsectors : s'.sectors = s.sectors)
    (hargs : ∀ q, (s'.call q).args = (s.call q).args) (hflight : ∀ q, (s'.call q).flight = (s.call q).flight)
    (htodo : ∀ i, i ∈ as' ++ s'.pending ↔ i ∈ as ++ s.pending) : Shows s' as' d where
  data := hshows.data.trans hdata.symm
  sectors := hshows.sectors.trans hsectors.symm
  req q := (hshows.req q).trans (progress_congr (hargs q) (hflight q) fun _ _ _ => htodo _).symm

theorem setCall (hshows : Shows s as d) (hargs : c.args = (s.call p).args) (hflight : c.flight = (s.call p).flight) :
    Shows (s.setCall p c) as d := by
  refine hshows.quiet rfl rfl (fun q => ?_) (fun q => ?_) fun _ => Iff.rfl
  · by_cases hqp : q = p
    · rw [hqp, System.setCall_self, hargs]
    · rw [System.setCall_of_ne hqp]
  · by_cases hqp : q = p
    · rw [hqp, System.setCall_self, hflight]
    · rw [System.setCall_of_ne hqp]

theorem unused (hshows : Shows s as d) (hb : s.Unused b) : d.Unused b := by
  intro q
  rw [hshows.req, progress_args]
  exact hb q

theorem rw (hshows : Shows s as d) (hp : (s.call p).args = none) (hb : s.Unused a.b) :
    Spec.step (.rw p a) d = some (d.setReq p (some (a, false))) ∧
      Shows (s.setCall p (.allocating a)) as (d.setReq p (some (a, false))) := by
  have hreq : d.req p = none := by
    rw [hshows.req, progress, hp]
    rfl
  refine ⟨if_pos ⟨by rw [hreq]; rfl, hshows.unused hb⟩, hshows.data, hshows.sectors, fun q => ?_⟩
  by_cases hqp : q = p
  · rw [hqp, System.setCall_self]
    exact Function.update_self ..
  · rw [System.setCall_of_ne hqp]
    exact (Function.update_of_ne hqp ..).trans (hshows.req q)

theorem submit (hshows : Shows s as d) (h : Inv s as us) (hp : s.call p = .allocating a)
    (hfree : ∀ i ∈ idx.ids, s.disk.free i = true) : Shows ((s.take idx.ids).submit p a idx) (as ++ [idx.first]) d := by
  refine ⟨hshows.data, hshows.sectors, fun q => (hshows.req q).trans ?_⟩
  by_cases hqp : q = p
  · have hself : ((s.take idx.ids).submit p a idx).call p = .asleep a idx := Function.update_self ..
    rw [hqp, hp, hself, progress_flight (c := .asleep a idx) rfl, decide_eq_false (not_not.mpr (by simp))]
    rfl
  · have hother : ((s.take idx.ids).submit p a idx).call q = s.call q := Function.update_of_ne hqp ..
    rw [hother]
    refine (progress_congr rfl rfl fun a' idx' hq => ?_).symm
    have hne : idx'.first ≠ idx.first := by
      intro heq
      have hused := (h.chain hq).2.1 idx'.first (first_mem idx')
      rw [heq, hfree idx.first (first_mem idx)] at hused
      cases hused
    change idx'.first ∈ as ++ [idx.first] ++ s.pending ↔ _
    simp [hne]

theorem retry (hshows : Shows s as d) (hp : s.call p = .allocating a) :
    Shows (((s.take ids).release ids).setCall p (.asleepFree a)) as d := by
  have hcall (q : Slot) : ((s.take ids).release ids).call q = s.call q ∨
      ((s.take ids).release ids).call q = wakeFree s.call q := by
    by_cases hids : ids = []
    · exact .inl (congrFun (if_pos hids) q)
    · exact .inr (congrFun (if_neg hids) q)
  have hargs (q : Slot) : (((s.take ids).release ids).call q).args = (s.call q).args := by
    rcases hcall q with hq | hq
    · rw [hq]
    · rw [hq, (wakeFree_frame ..).1]
  have hflight (q : Slot) : (((s.take ids).release ids).call q).flight = (s.call q).flight := by
    rcases hcall q with hq | hq
    · rw [hq]
    · rw [hq, (wakeFree_frame ..).2]
  have hrelease : Shows ((s.take ids).release ids) as d := hshows.quiet rfl rfl hargs hflight fun _ => Iff.rfl
  exact hrelease.setCall (by rw [hargs, hp]; rfl) (by rw [hflight, hp]; rfl)

theorem ret (hshows : Shows s as d) (h : Inv s as us) (hp : s.call p = .waiting a idx) (hbusy : s.busy a.b = false) :
    Spec.step (.ret p) d = some (d.setReq p none) ∧ Shows (s.finish p idx) as (d.setReq p none) := by
  have hflight : (s.call p).flight = some (a, idx) := congrArg Call.flight hp
  have hdone : idx.first ∉ as ++ s.pending := by
    intro hmem
    obtain ⟨q, a', idx', hq, hfirst, hq'⟩ := (h.heads idx.first).mp (List.mem_append_left _ hmem)
    obtain ⟨-, rfl, -⟩ := h.flight_first hflight hq hfirst
    cases hbusy.symm.trans hq'
  have hreq : d.req p = some (a, true) := by
    rw [hshows.req, progress_flight hflight, decide_eq_true hdone]
  rw [h.finish_eq hflight]
  refine ⟨by simp only [Spec.step, hreq], hshows.data, hshows.sectors, fun q => ?_⟩
  by_cases hqp : q = p
  · rw [hqp, System.setCall_self]
    exact Function.update_self ..
  · rw [System.setCall_of_ne hqp]
    refine (Function.update_of_ne hqp ..).trans ((hshows.req q).trans (progress_congr ?_ ?_ fun _ _ _ => Iff.rfl).symm)
    · exact (wakeFree_frame ..).1
    · exact (wakeFree_frame ..).2

/-- The device serves a request, which takes effect. -/
theorem serve (hshows : Shows s as d) (h : Inv s as us) (hid : idx.first ∈ s.pending)
    (hp : (s.call p).flight = some (a, idx)) :
    Spec.step (.transfer p) d = some ((d.move a).setReq p (some (a, true))) ∧
      Shows (s.serve idx.first 0 ⟨if a.write then VIRTIO_BLK_T_OUT else VIRTIO_BLK_T_IN, a.sector⟩ a.b idx.first) as
        ((d.move a).setReq p (some (a, true))) := by
  have hreq : d.req p = some (a, false) := by
    rw [hshows.req, progress_flight hp, decide_eq_false (not_not.mpr (List.mem_append_right _ hid))]
  have hdistinct := (List.nodup_append.mp h.nodup).1
  have hmoved : (d.move a).req = d.req := by
    unfold Spec.move
    split_ifs
    · rfl
    · rfl
  have heffect : (d.move a).data = (s.serve idx.first 0
        ⟨if a.write then VIRTIO_BLK_T_OUT else VIRTIO_BLK_T_IN, a.sector⟩ a.b idx.first).data ∧
      (d.move a).sectors = (s.serve idx.first 0
        ⟨if a.write then VIRTIO_BLK_T_OUT else VIRTIO_BLK_T_IN, a.sector⟩ a.b idx.first).sectors := by
    unfold Spec.move System.serve
    rw [hshows.data, hshows.sectors]
    cases a.write with
    | true => exact ⟨rfl, rfl⟩
    | false => exact ⟨rfl, rfl⟩
  refine ⟨by simp only [Spec.step, hreq], heffect.1, heffect.2, fun q => ?_⟩
  change Function.update (d.move a).req p _ q = progress (as ++ s.pending.erase idx.first) (s.call q)
  have hout : idx.first ∉ as ++ s.pending.erase idx.first := by
    obtain ⟨-, hpending, hapart⟩ := List.nodup_append.mp hdistinct
    rw [List.mem_append]
    rintro (hmem | hmem)
    · exact hapart _ hmem _ hid rfl
    · exact hpending.not_mem_erase hmem
  by_cases hqp : q = p
  · rw [hqp, Function.update_self, progress_flight hp, decide_eq_true hout]
  · rw [Function.update_of_ne hqp, hmoved, hshows.req]
    refine (progress_congr rfl rfl fun a' idx' hq => ?_).symm
    have hne : idx'.first ≠ idx.first := fun heq => hqp (h.flight_first hp hq heq).1
    rw [List.mem_append, List.mem_append, List.mem_erase_of_ne hne]

end Shows

/-! ## Runs -/

def Represents (s : System β) (d : Spec β) : Prop := ∃ as us, Inv s as us ∧ Shows s as d

theorem Stepped.matched (hs : Stepped s as us e s' as' us') (h : Inv s as us) (hshows : Shows s as d) :
    ∃ tr d', Run Spec.step d tr d' ∧ trace Action.seen tr = (Event.seen e).toList ∧ Shows s' as' d' := by
  cases hs with
  | rw hp hb =>
      obtain ⟨hstep, hshows'⟩ := hshows.rw (a := ⟨_, _, _⟩) hp hb
      exact ⟨_, _, .single hstep, rfl, hshows'⟩
  | submit hp hnodup hfree => exact ⟨_, _, .nil, rfl, hshows.submit h hp hfree⟩
  | retry hp hids hcount => exact ⟨_, _, .nil, rfl, hshows.retry hp⟩
  | resleep hp hbusy =>
      exact ⟨_, _, .nil, rfl, hshows.setCall (congrArg Call.args hp).symm (congrArg Call.flight hp).symm⟩
  | ret hp hbusy =>
      obtain ⟨hstep, hshows'⟩ := hshows.ret h hp hbusy
      exact ⟨_, _, .single hstep, rfl, hshows'⟩
  | kill => exact ⟨_, _, .nil, rfl, hshows.setCall (awake_frame _).1 (awake_frame _).2⟩
  | intr => exact ⟨_, _, .nil, rfl, hshows.quiet rfl rfl (fun _ => rfl) (fun _ => rfl) fun _ => Iff.rfl⟩
  | used hus hp =>
      subst hus
      have hstatus := h.served _ List.mem_cons_self
      rw [System.complete, if_neg (not_not.mpr hstatus), (h.chain hp).2.2.2, Option.elim_some]
      exact ⟨_, _, .nil, rfl,
        hshows.quiet rfl rfl (fun _ => (wakeBuf_frame ..).1) (fun _ => (wakeBuf_frame ..).2) fun _ => Iff.rfl⟩
  | intrRet => exact ⟨_, _, .nil, rfl, hshows.quiet rfl rfl (fun _ => rfl) (fun _ => rfl) fun _ => Iff.rfl⟩
  | fetch has =>
      subst has
      refine ⟨_, _, .nil, rfl, hshows.quiet rfl rfl (fun _ => rfl) (fun _ => rfl) fun i => ?_⟩
      simp only [List.mem_append, List.mem_cons, List.not_mem_nil, or_false]
      tauto
  | serve hid hp =>
      obtain ⟨hstep, hshows'⟩ := hshows.serve h hid hp
      exact ⟨_, _, .single hstep, rfl, hshows'⟩
  | @modify b v hb =>
      have hstep : Spec.step (.modify b v) d = some { d with data := Function.update d.data b v } :=
        if_pos (hshows.unused hb)
      refine ⟨_, _, .single hstep, rfl, ?_, hshows.sectors, hshows.req⟩
      rw [hshows.data]

theorem simulates :
    Simulates (System.step (β := β)) Spec.step Event.seen Action.seen (fun e => e.succeeds = true) Represents where
  matched := by
    rintro s d e s' ⟨as, us, h, hshows⟩ hok hs
    obtain ⟨as', us', hstepped⟩ := h.stepped hok hs
    obtain ⟨tr, d', hrun, htrace, hshows'⟩ := hstepped.matched h hshows
    exact ⟨tr, d', hrun, htrace, as', us', hstepped.inv h, hshows'⟩

theorem Represents.boot : Represents (System.boot data sectors) (Spec.start data sectors) :=
  ⟨[], [], .boot data sectors, rfl, rfl, fun _ => rfl⟩

/-- Every run of the driver with a device that does not fail is one in which each request takes effect at one moment
between its call and its return. -/
theorem disk_served (hrun : Run System.step (System.boot data sectors) tr s) (hok : ∀ x ∈ tr, x.event.succeeds = true) :
    ∃ tr' d, Run Spec.step (Spec.start data sectors) tr' d ∧ trace Action.seen tr' = trace Event.seen tr ∧
      d.data = s.data ∧ d.sectors = s.sectors ∧ ∀ p, (d.req p).map Prod.fst = (s.call p).args := by
  obtain ⟨tr', d, hrun', htrace, as, us, -, hshows⟩ := simulates.run hrun .boot hok
  refine ⟨tr', d, hrun', htrace, hshows.data, hshows.sectors, fun p => ?_⟩
  rw [hshows.req, progress, Option.map_map]
  cases (s.call p).args with
  | none => rfl
  | some a => rfl

/-- Two processes make requests, a third sleeps for descriptors, and the device serves the second request first. -/
def requests (p q r : Slot) (b c d : Index) (i j : DescId) : List (Event Nat) :=
  [.rw p b true 5, .rw q c false 6, .rw r d true 7, .alloc p, .alloc q, .alloc r, .fetch, .fetch, .serve j 0, .serve i 0,
    .intr, .used, .used, .intrRet]

theorem run_requests {p q r : Slot} {b c d : Index} {i j : DescId} {P : System Nat → Bool}
    (hplay : (final System.step (System.boot (fun i => i.val) fun n => n.toNat) (requests p q r b c d i j)).any P = true) :
    ∃ tr s, Run System.step (System.boot (fun i => i.val) fun n => n.toNat) tr s ∧
      (∀ x ∈ tr, x.event.succeeds = true) ∧ P s = true := by
  obtain ⟨tr, s, hrun, hevents, hs⟩ := Run.replay hplay
  have hall : ∀ e ∈ requests p q r b c d i j, e.succeeds = true := List.all_eq_true.mp rfl
  exact ⟨tr, s, hrun, fun x hx => hall x.event (hevents ▸ List.mem_map_of_mem (f := Transition.event) hx), hs⟩

theorem disk_served_two : ∃ (tr' : List (Transition (Spec Nat) (Action Nat))) (d : Spec Nat),
    Run Spec.step (Spec.start (fun i => i.val) fun n => n.toNat) tr' d ∧ d.sectors 10 = 3 ∧ d.data ⟨4, by decide⟩ = 12 := by
  have hplay : (final System.step (System.boot (fun i => i.val) fun n => n.toNat)
      (requests ⟨0, by decide⟩ ⟨1, by decide⟩ ⟨2, by decide⟩ ⟨3, by decide⟩ ⟨4, by decide⟩ ⟨5, by decide⟩ ⟨0, by decide⟩
        ⟨3, by decide⟩)).any
      (fun s => s.sectors 10 = 3 ∧ s.data ⟨4, by decide⟩ = 12) = true := by
    decide +kernel
  obtain ⟨tr, s, hrun, hok, hs⟩ := run_requests hplay
  obtain ⟨tr', d, hrun', -, hdata, hsectors, -⟩ := disk_served hrun hok
  rw [← hdata, ← hsectors] at hs
  exact ⟨tr', d, hrun', of_decide_eq_true hs⟩

theorem Inv.run (hrun : Run System.step (System.boot data sectors) tr s) (hok : ∀ x ∈ tr, x.event.succeeds = true) :
    ∃ as us, Inv s as us := by
  obtain ⟨-, -, -, -, as, us, h, -⟩ := simulates.run hrun .boot hok
  exact ⟨as, us, h⟩

/-- The driver does not panic, and the descriptors are free but for those of the requests in flight, each of which has three
of its own. -/
theorem disk_chains (hrun : Run System.step (System.boot data sectors) tr s) (hok : ∀ x ∈ tr, x.event.succeeds = true) :
    s.panicked = false ∧
      (∀ i, s.disk.free i = true ↔ ∀ p a idx, (s.call p).flight = some (a, idx) → i ∉ idx.ids) ∧
      ∀ p a idx, (s.call p).flight = some (a, idx) → idx.ids.Nodup ∧ Formatted s.disk a idx ∧
        ∀ q a' idx', q ≠ p → (s.call q).flight = some (a', idx') → idx.ids.Disjoint idx'.ids := by
  obtain ⟨as, us, h⟩ := Inv.run hrun hok
  refine ⟨h.live, fun i => ⟨fun hfree p a idx hp hi => ?_, fun hnone => ?_⟩, fun p a idx hp => ?_⟩
  · cases hfree.symm.trans ((h.chain hp).2.1 i hi)
  · refine Bool.eq_true_of_not_eq_false fun hused => ?_
    obtain ⟨p, a, idx, hp, hi⟩ := h.owned i hused
    exact hnone p a idx hp hi
  · obtain ⟨hnodup, -, hformat, -⟩ := h.chain hp
    exact ⟨hnodup, hformat, fun q a' idx' hne hq i hi hi' => hne (h.apart hq hp hi' hi)⟩

theorem disk_chains_two : ∃ s : System Nat, s.disk.free ⟨4, by decide⟩ = false ∧ s.panicked = false ∧
    ∃ p a idx, (s.call p).flight = some (a, idx) ∧ ⟨4, by decide⟩ ∈ idx.ids := by
  have hplay : (final System.step (System.boot (fun i => i.val) fun n => n.toNat)
      (requests ⟨0, by decide⟩ ⟨1, by decide⟩ ⟨2, by decide⟩ ⟨3, by decide⟩ ⟨4, by decide⟩ ⟨5, by decide⟩ ⟨0, by decide⟩
        ⟨3, by decide⟩)).any
      (fun s => s.disk.free ⟨4, by decide⟩ = false) = true := by
    decide +kernel
  obtain ⟨tr, s, hrun, hok, hs⟩ := run_requests hplay
  obtain ⟨hlive, hfree, -⟩ := disk_chains hrun hok
  have hused := of_decide_eq_true hs
  refine ⟨s, hused, hlive, ?_⟩
  by_contra hnone
  have hnot := (hfree ⟨4, by decide⟩).mpr fun p a idx hp hi => hnone ⟨p, a, idx, hp, hi⟩
  cases hused.symm.trans hnot

/-- A process that sleeps for descriptors finds less than three. When the device has served all requests and the
handler has seen that, no process sleeps on its buffer, and if one sleeps for descriptors, then another is awake, its
request is over, and it gives its own back next. -/
theorem disk_wakes (hrun : Run System.step (System.boot data sectors) tr s) (hok : ∀ x ∈ tr, x.event.succeeds = true) :
    (∀ p a, s.call p = .asleepFree a → freeCount s.disk ≤ 2) ∧
      (s.lastAvail = s.disk.availIdx → s.pending = [] → s.disk.usedIdx = s.disk.usedRingIdx →
        (∀ p a idx, s.call p ≠ .asleep a idx) ∧
          ∀ p a, s.call p = .asleepFree a → ∃ q a idx, s.call q = .waiting a idx ∧ s.busy a.b = false) := by
  obtain ⟨as, us, h⟩ := Inv.run hrun hok
  refine ⟨h.sleepers, fun havail hpending hused => ?_⟩
  have hlen : as.length + s.pending.length + us.length ≤ 8 := h.length_le
  have hbound : 8 < 2 ^ 16 := by decide
  obtain rfl : as = [] := by
    have hqueued := h.avail
    rw [← havail] at hqueued
    exact hqueued.eq_nil (by omega)
  obtain rfl : us = [] := by
    have hqueued := h.used
    rw [← hused] at hqueued
    exact hqueued.eq_nil (by omega)
  have hover {p : Slot} {a : Args} {idx : Idx} (hp : (s.call p).flight = some (a, idx)) : s.busy a.b = false := by
    refine Bool.eq_false_of_not_eq_true fun hbusy => ?_
    have hmem := (h.heads idx.first).mpr ⟨p, a, idx, hp, rfl, hbusy⟩
    rw [hpending] at hmem
    cases hmem
  have hasleep (p : Slot) (a : Args) (idx : Idx) : s.call p ≠ .asleep a idx := by
    intro hp
    cases (hover (congrArg Call.flight hp)).symm.trans (h.awake p a idx hp)
  refine ⟨hasleep, fun p a hp => ?_⟩
  obtain ⟨i, hi⟩ : ∃ i, s.disk.free i = false := by
    by_contra hall
    have hcount := (freeCount_le (d := System.disk (System.boot data sectors)) fun i _ =>
      Bool.eq_true_of_not_eq_false fun hi => hall ⟨i, hi⟩).trans (h.sleepers p a hp)
    simp only [freeCount, tally, System.boot, id, Finset.filter_true, Finset.card_univ, Fintype.card_fin] at hcount
    exact absurd hcount (by decide)
  obtain ⟨q, a', idx', hq, -⟩ := h.owned i hi
  cases hc : s.call q with
  | waiting a idx => exact ⟨q, a, idx, hc, hover (congrArg Call.flight hc)⟩
  | asleep a idx => exact absurd hc (hasleep q a idx)
  | _ =>
      rw [hc] at hq
      cases hq

theorem disk_wakes_two : ∃ s : System Nat, freeCount s.disk ≤ 2 ∧
    ∃ q a idx, s.call q = .waiting a idx ∧ s.busy a.b = false := by
  let a : Args := ⟨⟨5, by decide⟩, true, 14⟩
  have hplay : (final System.step (System.boot (fun i => i.val) fun n => n.toNat)
      (requests ⟨0, by decide⟩ ⟨1, by decide⟩ ⟨2, by decide⟩ ⟨3, by decide⟩ ⟨4, by decide⟩ ⟨5, by decide⟩ ⟨0, by decide⟩
        ⟨3, by decide⟩)).any
      (fun s => s.call ⟨2, by decide⟩ = .asleepFree a ∧ s.lastAvail = s.disk.availIdx ∧ s.pending = [] ∧
        s.disk.usedIdx = s.disk.usedRingIdx) = true := by
    decide +kernel
  obtain ⟨tr, s, hrun, hok, hs⟩ := run_requests hplay
  obtain ⟨hasleep, havail, hpending, hused⟩ := of_decide_eq_true hs
  obtain ⟨hcount, hidle⟩ := disk_wakes hrun hok
  exact ⟨s, hcount _ a hasleep, (hidle havail hpending hused).2 _ a hasleep⟩

end Xv6Mlfq.Virtio
