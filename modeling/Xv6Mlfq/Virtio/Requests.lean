import Xv6Mlfq.Virtio.Descriptors

/-!
# Requests in flight

The first descriptor of a request is in the ring of the driver, with the device, or in the ring of the device, until
the interrupt handler has seen it.
-/

namespace Xv6Mlfq.Virtio

open Counts Rings
open Cache (Index)
open Queue (Slot)

variable {β : Type*} {s : System β} {as us ids : List DescId} {i id : DescId} {p q : Slot} {a a' : Args}
  {idx idx' : Idx} {b : Index}

/-- `as` is in the ring of the driver and `us` in that of the device. -/
structure Inv (s : System β) (as us : List DescId) : Prop where
  live : s.panicked = false
  alone : ∀ {p q a a'}, (s.call p).args = some a → (s.call q).args = some a' → a.b = a'.b → p = q
  chain : ∀ {p a idx}, (s.call p).flight = some (a, idx) →
    idx.ids.Nodup ∧ (∀ i ∈ idx.ids, s.disk.free i = false) ∧ Formatted s.disk a idx ∧ s.disk.b idx.first = some a.b
  apart : ∀ {p q a a' idx idx' i}, (s.call p).flight = some (a, idx) → (s.call q).flight = some (a', idx') →
    i ∈ idx.ids → i ∈ idx'.ids → p = q
  owned : ∀ i, s.disk.free i = false → ∃ p a idx, (s.call p).flight = some (a, idx) ∧ i ∈ idx.ids
  avail : Queued s.disk.avail s.lastAvail s.disk.availIdx as
  used : Queued s.disk.used s.disk.usedIdx s.disk.usedRingIdx us
  nodup : (as ++ s.pending ++ us).Nodup
  heads : ∀ i, i ∈ as ++ s.pending ++ us ↔
    ∃ p a idx, (s.call p).flight = some (a, idx) ∧ idx.first = i ∧ s.busy a.b = true
  served : ∀ i ∈ us, s.disk.status i = 0
  sleepers : ∀ p a, s.call p = .asleepFree a → freeCount s.disk ≤ 2
  awake : ∀ p a idx, s.call p = .asleep a idx → s.busy a.b = true

theorem flight_args {c : Call} (h : c.flight = some (a, idx)) : c.args = some a := by
  cases c with
  | waiting a' idx' =>
      cases h
      rfl
  | asleep a' idx' =>
      cases h
      rfl
  | _ => cases h

theorem first_mem (idx : Idx) : idx.first ∈ idx.ids := List.mem_cons_self

theorem wakeBuf_frame (b : Index) (call : Slot → Call) (p : Slot) :
    (wakeBuf b call p).args = (call p).args ∧ (wakeBuf b call p).flight = (call p).flight := by
  unfold wakeBuf
  cases call p with
  | asleep a idx =>
      dsimp only
      split_ifs
      · exact ⟨rfl, rfl⟩
      · exact ⟨rfl, rfl⟩
  | _ => exact ⟨rfl, rfl⟩

theorem wakeBuf_asleepFree {call : Slot → Call} (h : wakeBuf b call p = .asleepFree a) : call p = .asleepFree a := by
  unfold wakeBuf at h
  cases hp : call p with
  | asleep a' idx' =>
      simp only [hp] at h
      split_ifs at h
  | _ => rwa [hp] at h

theorem wakeBuf_asleep {call : Slot → Call} (h : wakeBuf b call p = .asleep a idx) :
    call p = .asleep a idx ∧ a.b ≠ b := by
  unfold wakeBuf at h
  cases hp : call p with
  | asleep a' idx' =>
      simp only [hp] at h
      split_ifs at h with hb
      cases h
      exact ⟨rfl, hb⟩
  | _ =>
      rw [hp] at h
      cases h

theorem awake_frame (c : Call) : c.awake.args = c.args ∧ c.awake.flight = c.flight := by
  cases c with
  | _ => exact ⟨rfl, rfl⟩

theorem awake_ne (c : Call) : (∀ a, c.awake ≠ .asleepFree a) ∧ ∀ a idx, c.awake ≠ .asleep a idx := by
  cases c with
  | _ => exact ⟨fun _ => Call.noConfusion, fun _ _ => Call.noConfusion⟩

namespace Inv

/-! ## Where the requests are -/

theorem length_le (h : Inv s as us) : as.length + s.pending.length + us.length ≤ NUM := by
  have hle := h.nodup.length_le_card
  rwa [List.length_append, List.length_append, Fintype.card_fin] at hle

theorem flight_first (h : Inv s as us) (hp : (s.call p).flight = some (a, idx)) (hq : (s.call q).flight = some (a', idx'))
    (hfirst : idx'.first = idx.first) : q = p ∧ a' = a ∧ idx' = idx := by
  obtain rfl : q = p := h.apart hq hp (first_mem idx') (hfirst ▸ first_mem idx)
  have heq := Option.some.inj (hq.symm.trans hp)
  exact ⟨rfl, congrArg Prod.fst heq, congrArg Prod.snd heq⟩

/-- No request starts at a descriptor that is free. -/
theorem notMem_of_free (h : Inv s as us) (hfree : s.disk.free i = true) : i ∉ as ++ s.pending ++ us := by
  intro hi
  obtain ⟨q, a', idx', hq, rfl, -⟩ := (h.heads i).mp hi
  exact absurd ((h.chain hq).2.1 idx'.first (first_mem idx')) (by simp [hfree])

/-! ## Steps of the calls alone -/

/-- The calls change, but no request does. -/
theorem relabel {call : Slot → Call} (h : Inv s as us) (hflight : ∀ q, (call q).flight = (s.call q).flight)
    (halone : ∀ {p q a a'}, (call p).args = some a → (call q).args = some a' → a.b = a'.b → p = q)
    (hsleep : ∀ q a, call q = .asleepFree a → freeCount s.disk ≤ 2)
    (hawake : ∀ q a idx, call q = .asleep a idx → s.busy a.b = true) : Inv { s with call := call } as us where
  live := h.live
  alone := halone
  chain hq := h.chain ((hflight _).symm.trans hq)
  apart hp hq := h.apart ((hflight _).symm.trans hp) ((hflight _).symm.trans hq)
  owned i hi := by
    obtain ⟨q, a, idx, hq, hmem⟩ := h.owned i hi
    exact ⟨q, a, idx, (hflight q).trans hq, hmem⟩
  avail := h.avail
  used := h.used
  nodup := h.nodup
  heads i := by
    simp only [hflight]
    exact h.heads i
  served := h.served
  sleepers := hsleep
  awake := hawake

theorem relabel_args {call : Slot → Call} (h : Inv s as us) (hflight : ∀ q, (call q).flight = (s.call q).flight)
    (hargs : ∀ q, (call q).args = (s.call q).args) (hsleep : ∀ q a, call q = .asleepFree a → freeCount s.disk ≤ 2)
    (hawake : ∀ q a idx, call q = .asleep a idx → s.busy a.b = true) : Inv { s with call := call } as us :=
  h.relabel hflight (fun hp hq => h.alone ((hargs _).symm.trans hp) ((hargs _).symm.trans hq)) hsleep hawake

theorem setCall {c : Call} (h : Inv s as us) (hflight : c.flight = (s.call p).flight) (hargs : c.args = (s.call p).args)
    (hsleep : ∀ a, c = .asleepFree a → freeCount s.disk ≤ 2) (hawake : ∀ a idx, c = .asleep a idx → s.busy a.b = true) :
    Inv (s.setCall p c) as us := by
  refine h.relabel_args (fun q => ?_) (fun q => ?_) (fun q a hq => ?_) fun q a idx hq => ?_
  · by_cases hqp : q = p
    · rw [hqp, Function.update_self, hflight]
    · rw [Function.update_of_ne hqp]
  · by_cases hqp : q = p
    · rw [hqp, Function.update_self, hargs]
    · rw [Function.update_of_ne hqp]
  · by_cases hqp : q = p
    · rw [hqp, Function.update_self] at hq
      exact hsleep a hq
    · rw [Function.update_of_ne hqp] at hq
      exact h.sleepers q a hq
  · by_cases hqp : q = p
    · rw [hqp, Function.update_self] at hq
      exact hawake a idx hq
    · rw [Function.update_of_ne hqp] at hq
      exact h.awake q a idx hq

theorem rw (h : Inv s as us) (hp : (s.call p).args = none) (hb : s.Unused a.b) :
    Inv (s.setCall p (.allocating a)) as us := by
  have hflight : (s.call p).flight = none := by
    cases hc : (s.call p).flight with
    | none => rfl
    | some x => exact absurd (hp.symm.trans (flight_args hc)) (by simp)
  have hargs {q a'} (hq : ((s.setCall p (.allocating a)).call q).args = some a') :
      (q = p ∧ a' = a) ∨ ((s.call q).args = some a' ∧ a'.b ≠ a.b) := by
    by_cases hqp : q = p
    · rw [hqp, System.setCall_self] at hq
      exact .inl ⟨hqp, (Option.some.inj hq).symm⟩
    · rw [System.setCall_of_ne hqp] at hq
      refine .inr ⟨hq, fun hab => hb q ?_⟩
      rw [hq, Option.map_some, hab]
  refine h.relabel (fun q => ?_) (fun hp hq hab => ?_) (fun q a' hq => ?_) fun q a' idx hq => ?_
  · by_cases hqp : q = p
    · rw [hqp, Function.update_self, hflight]
      rfl
    · rw [Function.update_of_ne hqp]
  · rcases hargs hp with ⟨rfl, rfl⟩ | ⟨hp, hne⟩
    · rcases hargs hq with ⟨rfl, -⟩ | ⟨-, hne⟩
      · rfl
      · exact absurd hab.symm hne
    · rcases hargs hq with ⟨-, rfl⟩ | ⟨hq, -⟩
      · exact absurd hab hne
      · exact h.alone hp hq hab
  · by_cases hqp : q = p
    · rw [hqp, Function.update_self] at hq
      cases hq
    · rw [Function.update_of_ne hqp] at hq
      exact h.sleepers q a' hq
  · by_cases hqp : q = p
    · rw [hqp, Function.update_self] at hq
      cases hq
    · rw [Function.update_of_ne hqp] at hq
      exact h.awake q a' idx hq

theorem kill (h : Inv s as us) (p : Slot) : Inv (s.setCall p (s.call p).awake) as us :=
  h.setCall (awake_frame _).2 (awake_frame _).1 (fun a hc => absurd hc ((awake_ne _).1 a))
    fun a idx hc => absurd hc ((awake_ne _).2 a idx)

/-! ## `alloc3_desc` fails -/

/-- Only descriptors that are free are written to. -/
theorem desc {desc : DescId → Desc} (h : Inv s as us) (hsame : ∀ i, s.disk.free i = false → desc i = s.disk.desc i) :
    Inv { s with disk := { s.disk with desc := desc } } as us where
  live := h.live
  alone := h.alone
  chain hq := by
    obtain ⟨hnodup, hused, hformat, hb⟩ := h.chain hq
    exact ⟨hnodup, hused, hformat.congr (fun i hi => hsame i (hused i hi)) rfl, hb⟩
  apart := h.apart
  owned := h.owned
  avail := h.avail
  used := h.used
  nodup := h.nodup
  heads := h.heads
  served := h.served
  sleepers := h.sleepers
  awake := h.awake

theorem retry (h : Inv s as us) (hp : s.call p = .allocating a) (hids : ∀ i ∈ ids, s.disk.free i = true)
    (hcount : freeCount s.disk ≤ 2) : Inv (((s.take ids).release ids).setCall p (.asleepFree a)) as us := by
  have hfree : (fun i => (s.disk.free i && decide (i ∉ ids)) || decide (i ∈ ids)) = s.disk.free := by
    funext i
    by_cases hi : i ∈ ids
    · simp [hi, hids i hi]
    · simp [hi]
  have hdesc : Inv { s with disk := { s.disk with desc := fun i => if i ∈ ids then .zero else s.disk.desc i } } as us :=
    h.desc fun i hi => if_neg fun hmem => by simp [hids i hmem] at hi
  have hstate : (s.take ids).release ids =
      { s with disk := { s.disk with desc := fun i => if i ∈ ids then .zero else s.disk.desc i },
               call := if ids = [] then s.call else wakeFree s.call } := by
    simp only [System.take, System.release, hfree]
  rw [hstate]
  by_cases hnil : ids = []
  · rw [if_pos hnil]
    exact hdesc.setCall (congrArg Call.flight hp).symm (congrArg Call.args hp).symm (fun _ _ => hcount)
      fun _ _ => Call.noConfusion
  · rw [if_neg hnil]
    have hwake := hdesc.relabel_args (fun q => (wakeFree_frame s.call q).2) (fun q => (wakeFree_frame s.call q).1)
      (fun q a hq => absurd hq (wakeFree_ne _ q a)) fun q a idx hq => h.awake q a idx (wakeFree_asleep hq)
    have hpw : wakeFree s.call p = .allocating a := by
      rw [wakeFree, hp]
    exact hwake.setCall (congrArg Call.flight hpw).symm (congrArg Call.args hpw).symm (fun _ _ => hcount)
      fun _ _ => Call.noConfusion

/-! ## A new request -/

theorem submit_self : ((s.take idx.ids).submit p a idx).call p = .asleep a idx := Function.update_self ..

theorem submit_of_ne (hq : q ≠ p) : ((s.take idx.ids).submit p a idx).call q = s.call q := Function.update_of_ne hq ..

theorem ne_of_flight (hp : s.call p = .allocating a) (hq : (s.call q).flight = some (a', idx')) : q ≠ p := by
  rintro rfl
  rw [hp] at hq
  cases hq

/-- The requests are the new one and those that there were. -/
theorem submit_flight (hp : s.call p = .allocating a) :
    (((s.take idx.ids).submit p a idx).call q).flight = some (a', idx') ↔
      (q = p ∧ a' = a ∧ idx' = idx) ∨ (s.call q).flight = some (a', idx') := by
  constructor
  · intro hq
    by_cases hqp : q = p
    · rw [hqp, submit_self] at hq
      cases hq
      exact .inl ⟨hqp, rfl, rfl⟩
    · exact .inr (by rwa [submit_of_ne hqp] at hq)
  · rintro (⟨rfl, rfl, rfl⟩ | hq)
    · exact congrArg Call.flight submit_self
    · rw [submit_of_ne (ne_of_flight hp hq), hq]

theorem submit_args (hp : s.call p = .allocating a) (q : Slot) :
    (((s.take idx.ids).submit p a idx).call q).args = (s.call q).args := by
  by_cases hqp : q = p
  · rw [hqp, submit_self, hp]
    rfl
  · rw [submit_of_ne hqp]

theorem submit_busy (h : Inv s as us) (hp : s.call p = .allocating a) (hq : (s.call q).flight = some (a', idx')) :
    ((s.take idx.ids).submit p a idx).busy a'.b = s.busy a'.b := by
  have hne : a'.b ≠ a.b := fun hab =>
    ne_of_flight hp hq (h.alone (flight_args hq) (congrArg Call.args hp) hab)
  exact Function.update_of_ne hne ..

theorem notMem_of_flight (h : Inv s as us) (hfree : ∀ i ∈ idx.ids, s.disk.free i = true)
    (hq : (s.call q).flight = some (a', idx')) : ∀ i ∈ idx'.ids, i ∉ idx.ids :=
  fun i hi hmem => by simpa [hfree i hmem] using (h.chain hq).2.1 i hi

theorem submit_desc (hi : i ∉ idx.ids) : ((s.take idx.ids).submit p a idx).disk.desc i = s.disk.desc i := by
  simp only [Idx.ids, List.mem_cons, List.not_mem_nil, or_false, not_or] at hi
  obtain ⟨hi₁, hi₂, hi₃⟩ := hi
  exact (Function.update_of_ne hi₃ ..).trans ((Function.update_of_ne hi₂ ..).trans (Function.update_of_ne hi₁ ..))

theorem submit_formatted (hnodup : idx.ids.Nodup) : Formatted ((s.take idx.ids).submit p a idx).disk a idx := by
  simp only [Idx.ids, List.nodup_cons, List.mem_cons, List.not_mem_nil, or_false, not_or] at hnodup
  obtain ⟨⟨hne₁, hne₂⟩, hne₃, -⟩ := hnodup
  exact {
    first := (Function.update_of_ne hne₂ ..).trans ((Function.update_of_ne hne₁ ..).trans (Function.update_self ..))
    second := (Function.update_of_ne hne₃ ..).trans (Function.update_self ..)
    third := Function.update_self ..
    op := Function.update_self .. }

theorem submit_chain (h : Inv s as us) (hp : s.call p = .allocating a) (hnodup : idx.ids.Nodup)
    (hfree : ∀ i ∈ idx.ids, s.disk.free i = true)
    (hq : (((s.take idx.ids).submit p a idx).call q).flight = some (a', idx')) :
    idx'.ids.Nodup ∧ (∀ i ∈ idx'.ids, ((s.take idx.ids).submit p a idx).disk.free i = false) ∧
      Formatted ((s.take idx.ids).submit p a idx).disk a' idx' ∧
      ((s.take idx.ids).submit p a idx).disk.b idx'.first = some a'.b := by
  rcases (submit_flight hp).mp hq with ⟨-, rfl, rfl⟩ | hq
  · exact ⟨hnodup, fun i hi => by simp [System.take, System.submit, hi], submit_formatted hnodup, Function.update_self ..⟩
  · obtain ⟨hn, hused, hf, hb⟩ := h.chain hq
    have hdisj := h.notMem_of_flight hfree hq
    have hfirst : idx'.first ≠ idx.first := fun heq => hdisj _ (first_mem idx') (heq ▸ first_mem idx)
    refine ⟨hn, fun i hi => ?_, hf.congr (fun i hi => submit_desc (hdisj i hi)) (Function.update_of_ne hfirst ..),
      (Function.update_of_ne hfirst ..).trans hb⟩
    simp [System.take, System.submit, hused i hi]

theorem submit_apart (h : Inv s as us) (hp : s.call p = .allocating a) (hfree : ∀ i ∈ idx.ids, s.disk.free i = true)
    {q q' : Slot} {a' a'' : Args} {idx' idx'' : Idx}
    (hq : (((s.take idx.ids).submit p a idx).call q).flight = some (a', idx'))
    (hq' : (((s.take idx.ids).submit p a idx).call q').flight = some (a'', idx'')) (hi : i ∈ idx'.ids)
    (hi' : i ∈ idx''.ids) : q = q' := by
  rcases (submit_flight hp).mp hq with ⟨rfl, -, rfl⟩ | hold
  · rcases (submit_flight hp).mp hq' with ⟨rfl, -, -⟩ | hold'
    · rfl
    · exact absurd hi (h.notMem_of_flight hfree hold' i hi')
  · rcases (submit_flight hp).mp hq' with ⟨-, -, rfl⟩ | hold'
    · exact absurd hi' (h.notMem_of_flight hfree hold i hi)
    · exact h.apart hold hold' hi hi'

theorem submit_perm (as' : List DescId) :
    (as ++ [id] ++ as' ++ us).Perm (id :: (as ++ as' ++ us)) := by
  simp only [List.append_assoc, List.singleton_append]
  exact List.perm_middle

theorem submit_heads (h : Inv s as us) (hp : s.call p = .allocating a) :
    i ∈ as ++ [idx.first] ++ s.pending ++ us ↔
      ∃ q a' idx', (((s.take idx.ids).submit p a idx).call q).flight = some (a', idx') ∧ idx'.first = i ∧
        ((s.take idx.ids).submit p a idx).busy a'.b = true := by
  rw [(submit_perm s.pending).mem_iff, List.mem_cons, h.heads]
  constructor
  · rintro (rfl | ⟨q, a', idx', hq, hfirst, hb⟩)
    · exact ⟨p, a, idx, congrArg Call.flight submit_self, rfl, Function.update_self ..⟩
    · exact ⟨q, a', idx', (submit_flight hp).mpr (.inr hq), hfirst, (h.submit_busy hp hq).trans hb⟩
  · rintro ⟨q, a', idx', hq, hfirst, hb⟩
    rcases (submit_flight hp).mp hq with ⟨-, -, rfl⟩ | hq
    · exact .inl hfirst.symm
    · exact .inr ⟨q, a', idx', hq, hfirst, (h.submit_busy hp hq).symm.trans hb⟩

theorem submit (h : Inv s as us) (hp : s.call p = .allocating a) (hnodup : idx.ids.Nodup)
    (hfree : ∀ i ∈ idx.ids, s.disk.free i = true) :
    Inv ((s.take idx.ids).submit p a idx) (as ++ [idx.first]) us :=
  have hnew : idx.first ∉ as ++ s.pending ++ us := h.notMem_of_free (hfree idx.first (first_mem idx))
  { live := h.live
    alone := fun hq hq' => h.alone ((submit_args hp _).symm.trans hq) ((submit_args hp _).symm.trans hq')
    chain := h.submit_chain hp hnodup hfree
    apart := h.submit_apart hp hfree
    owned := by
      intro i hi
      by_cases hmem : i ∈ idx.ids
      · exact ⟨p, a, idx, congrArg Call.flight submit_self, hmem⟩
      · have hused : s.disk.free i = false := by simpa [System.take, System.submit, hmem] using hi
        obtain ⟨q, a', idx', hq, hown⟩ := h.owned i hused
        exact ⟨q, a', idx', (submit_flight hp).mpr (.inr hq), hown⟩
    avail := by
      refine h.avail.push (by decide) ?_
      have hlen := (List.nodup_cons.mpr ⟨hnew, h.nodup⟩).length_le_card
      simp only [List.length_cons, List.length_append, Fintype.card_fin] at hlen
      omega
    used := h.used
    nodup := (submit_perm s.pending).nodup_iff.mpr (List.nodup_cons.mpr ⟨hnew, h.nodup⟩)
    heads := fun _ => h.submit_heads hp
    served := by
      intro i hi
      have hne : i ≠ idx.first := by
        rintro rfl
        exact hnew (List.mem_append_right _ hi)
      exact (Function.update_of_ne hne ..).trans (h.served i hi)
    sleepers := by
      intro q a' hq
      have hqp : q ≠ p := by
        rintro rfl
        cases submit_self.symm.trans hq
      refine (freeCount_le fun i hi => ?_).trans (h.sleepers q a' ((submit_of_ne hqp).symm.trans hq))
      simp only [System.submit, System.take, Bool.and_eq_true] at hi
      exact hi.1
    awake := by
      intro q a' idx' hq
      by_cases hqp : q = p
      · rw [hqp, submit_self] at hq
        cases hq
        exact Function.update_self ..
      · rw [submit_of_ne hqp] at hq
        exact (h.submit_busy hp (congrArg Call.flight hq)).trans (h.awake q a' idx' hq) }

/-! ## The end of a request -/

theorem finish_eq (h : Inv s as us) (hp : (s.call p).flight = some (a, idx)) :
    s.finish p idx = ((s.forget idx.first).release idx.ids).setCall p .out := by
  obtain ⟨hnodup, hused, hformat, -⟩ := h.chain hp
  have hforget : Formatted (s.forget idx.first).disk a idx := hformat.congr (fun _ _ => rfl) rfl
  rw [System.finish, freeChain_eq hforget hnodup hused]

theorem done_of_ne (hq : q ≠ p) :
    (((s.forget idx.first).release idx.ids).setCall p .out).call q = wakeFree s.call q :=
  System.setCall_of_ne hq

/-- The requests are those of the others. -/
theorem done_flight : ((((s.forget idx.first).release idx.ids).setCall p .out).call q).flight = some (a', idx') ↔
    q ≠ p ∧ (s.call q).flight = some (a', idx') := by
  constructor
  · intro hq
    by_cases hqp : q = p
    · rw [hqp, System.setCall_self] at hq
      cases hq
    · rw [done_of_ne hqp, (wakeFree_frame ..).2] at hq
      exact ⟨hqp, hq⟩
  · rintro ⟨hqp, hq⟩
    rw [done_of_ne hqp, (wakeFree_frame ..).2, hq]

theorem args_of_done (hq : ((((s.forget idx.first).release idx.ids).setCall p .out).call q).args = some a') :
    (s.call q).args = some a' := by
  by_cases hqp : q = p
  · rw [hqp, System.setCall_self] at hq
    cases hq
  · rwa [done_of_ne hqp, (wakeFree_frame ..).1] at hq

theorem done_chain (h : Inv s as us) (hp : (s.call p).flight = some (a, idx)) (hqp : q ≠ p)
    (hq : (s.call q).flight = some (a', idx')) :
    idx'.ids.Nodup ∧ (∀ i ∈ idx'.ids, (((s.forget idx.first).release idx.ids).setCall p .out).disk.free i = false) ∧
      Formatted (((s.forget idx.first).release idx.ids).setCall p .out).disk a' idx' ∧
      (((s.forget idx.first).release idx.ids).setCall p .out).disk.b idx'.first = some a'.b := by
  obtain ⟨hn, hused, hf, hb⟩ := h.chain hq
  have hdisj : ∀ i ∈ idx'.ids, i ∉ idx.ids := fun i hi hmem => hqp (h.apart hq hp hi hmem)
  have hfirst : idx'.first ≠ idx.first := fun heq => hdisj _ (first_mem idx') (heq ▸ first_mem idx)
  refine ⟨hn, fun i hi => ?_, hf.congr (fun i hi => if_neg (hdisj i hi)) rfl, (Function.update_of_ne hfirst ..).trans hb⟩
  exact Bool.or_eq_false_iff.mpr ⟨hused i hi, decide_eq_false (hdisj i hi)⟩

theorem finish (h : Inv s as us) (hp : s.call p = .waiting a idx) (hbusy : s.busy a.b = false) :
    Inv (s.finish p idx) as us := by
  have hflight : (s.call p).flight = some (a, idx) := congrArg Call.flight hp
  have hsame {a' idx'} (hp' : (s.call p).flight = some (a', idx')) : a' = a ∧ idx' = idx := by
    have heq := Option.some.inj (hp'.symm.trans hflight)
    exact ⟨congrArg Prod.fst heq, congrArg Prod.snd heq⟩
  rw [h.finish_eq hflight]
  exact {
    live := h.live
    alone := fun hq hq' => h.alone (args_of_done hq) (args_of_done hq')
    chain := fun hq => h.done_chain hflight (done_flight.mp hq).1 (done_flight.mp hq).2
    apart := fun hq hq' => h.apart (done_flight.mp hq).2 (done_flight.mp hq').2
    owned := by
      intro i hi
      obtain ⟨hused, hnot⟩ := Bool.or_eq_false_iff.mp hi
      obtain ⟨q, a', idx', hq, hown⟩ := h.owned i hused
      have hqp : q ≠ p := by
        rintro rfl
        obtain ⟨-, rfl⟩ := hsame hq
        exact of_decide_eq_false hnot hown
      exact ⟨q, a', idx', done_flight.mpr ⟨hqp, hq⟩, hown⟩
    avail := h.avail
    used := h.used
    nodup := h.nodup
    heads := by
      refine fun i => (h.heads i).trans ⟨?_, ?_⟩
      · rintro ⟨q, a', idx', hq, hfirst, hq'⟩
        have hqp : q ≠ p := by
          rintro rfl
          obtain ⟨rfl, -⟩ := hsame hq
          cases hbusy.symm.trans hq'
        exact ⟨q, a', idx', done_flight.mpr ⟨hqp, hq⟩, hfirst, hq'⟩
      · rintro ⟨q, a', idx', hq, hfirst, hq'⟩
        exact ⟨q, a', idx', (done_flight.mp hq).2, hfirst, hq'⟩
    served := h.served
    sleepers := by
      intro q a' hq
      by_cases hqp : q = p
      · rw [hqp, System.setCall_self] at hq
        cases hq
      · exact absurd ((done_of_ne hqp).symm.trans hq) (wakeFree_ne _ q a')
    awake := by
      intro q a' idx' hq
      by_cases hqp : q = p
      · rw [hqp, System.setCall_self] at hq
        cases hq
      · exact h.awake q a' idx' (wakeFree_asleep ((done_of_ne hqp).symm.trans hq)) }

/-! ## The interrupt handler and the device -/

/-- The handler finds a request that has been served, and its buffer. -/
theorem exists_used (h : Inv s as us) (hne : s.disk.usedIdx ≠ s.disk.usedRingIdx) : ∃ us' p a idx,
    us = idx.first :: us' ∧ s.disk.used (entry NUM s.disk.usedIdx) = idx.first ∧
      (s.call p).flight = some (a, idx) ∧ s.busy a.b = true := by
  cases us with
  | nil => exact absurd h.used hne
  | cons id us' =>
      obtain ⟨p, a, idx, hflight, rfl, hbusy⟩ := (h.heads id).mp (by simp)
      exact ⟨us', p, a, idx, rfl, h.used.1, hflight, hbusy⟩

theorem complete {us' : List DescId} (h : Inv s as (idx.first :: us')) (hflight : (s.call p).flight = some (a, idx)) :
    Inv (s.complete idx.first) as us' := by
  have hstatus := h.served idx.first List.mem_cons_self
  have hb := (h.chain hflight).2.2.2
  have hperm : (as ++ s.pending ++ idx.first :: us').Perm (idx.first :: (as ++ s.pending ++ us')) := List.perm_middle
  have hnodup := List.nodup_cons.mp (hperm.nodup_iff.mp h.nodup)
  rw [System.complete, if_neg (not_not.mpr hstatus), hb, Option.elim_some]
  exact {
    live := h.live
    alone := fun hq hq' => h.alone ((wakeBuf_frame ..).1.symm.trans hq) ((wakeBuf_frame ..).1.symm.trans hq')
    chain := by
      intro q a' idx' hq
      obtain ⟨hn, hused, hf, hb⟩ := h.chain ((wakeBuf_frame ..).2.symm.trans hq)
      exact ⟨hn, hused, hf.congr (fun _ _ => rfl) rfl, hb⟩
    apart := fun hq hq' => h.apart ((wakeBuf_frame ..).2.symm.trans hq) ((wakeBuf_frame ..).2.symm.trans hq')
    owned := by
      intro i hi
      obtain ⟨q, a', idx', hq, hown⟩ := h.owned i hi
      exact ⟨q, a', idx', (wakeBuf_frame ..).2.trans hq, hown⟩
    avail := h.avail
    used := h.used.2
    nodup := hnodup.2
    heads := by
      intro i
      constructor
      · intro hi
        obtain ⟨q, a', idx', hq, rfl, hbusy⟩ := (h.heads i).mp (hperm.mem_iff.mpr (List.mem_cons_of_mem _ hi))
        have hne : a'.b ≠ a.b := by
          intro hab
          obtain rfl := h.alone (flight_args hq) (flight_args hflight) hab
          obtain rfl := congrArg Prod.snd (Option.some.inj (hq.symm.trans hflight))
          exact hnodup.1 hi
        exact ⟨q, a', idx', (wakeBuf_frame ..).2.trans hq, rfl, (Function.update_of_ne hne ..).trans hbusy⟩
      · rintro ⟨q, a', idx', hq, rfl, hbusy⟩
        have hold := (wakeBuf_frame ..).2.symm.trans hq
        change Function.update s.busy a.b false a'.b = true at hbusy
        by_cases hab : a'.b = a.b
        · rw [hab, Function.update_self] at hbusy
          cases hbusy
        · rw [Function.update_of_ne hab] at hbusy
          have hmem := hperm.mem_iff.mp ((h.heads idx'.first).mpr ⟨q, a', idx', hold, rfl, hbusy⟩)
          rcases List.mem_cons.mp hmem with heq | hmem
          · obtain ⟨-, rfl, -⟩ := h.flight_first hflight hold heq
            exact absurd rfl hab
          · exact hmem
    served := fun i hi => h.served i (List.mem_cons_of_mem _ hi)
    sleepers := fun q a' hq => h.sleepers q a' (wakeBuf_asleepFree hq)
    awake := by
      intro q a' idx' hq
      obtain ⟨hold, hne⟩ := wakeBuf_asleep hq
      exact (Function.update_of_ne hne ..).trans (h.awake q a' idx' hold) }

theorem exists_avail (h : Inv s as us) (hne : s.lastAvail ≠ s.disk.availIdx) :
    ∃ as', as = s.disk.avail (entry NUM s.lastAvail) :: as' := by
  cases as with
  | nil => exact absurd h.avail hne
  | cons id as' => exact ⟨as', by rw [h.avail.1]⟩

theorem fetch (h : Inv s (id :: as) us) :
    Inv { s with pending := s.pending ++ [id], lastAvail := s.lastAvail + 1 } as us := by
  have hperm : (as ++ (s.pending ++ [id]) ++ us).Perm (id :: as ++ s.pending ++ us) := by
    have hassoc : as ++ (s.pending ++ [id]) ++ us = (as ++ s.pending) ++ id :: us := by simp
    rw [hassoc, List.cons_append, List.cons_append]
    exact List.perm_middle
  exact ⟨h.live, h.alone, h.chain, h.apart, h.owned, h.avail.2, h.used, hperm.nodup_iff.mpr h.nodup,
    fun i => hperm.mem_iff.trans (h.heads i), h.served, h.sleepers, h.awake⟩

theorem serve {r : Req} (h : Inv s as us) (hid : id ∈ s.pending) : Inv (s.serve id 0 r b id) as (us ++ [id]) := by
  have hperm : (as ++ s.pending.erase id ++ (us ++ [id])).Perm (as ++ s.pending ++ us) := by
    have hassoc : as ++ s.pending.erase id ++ (us ++ [id]) = as ++ (s.pending.erase id ++ (us ++ [id])) := by simp
    have hassoc' : as ++ s.pending ++ us = as ++ (s.pending ++ us) := by simp
    rw [hassoc, hassoc']
    refine List.Perm.append_left as ?_
    have hcons : (s.pending.erase id ++ (us ++ [id])).Perm (id :: s.pending.erase id ++ us) := by
      have hassoc : s.pending.erase id ++ (us ++ [id]) = (s.pending.erase id ++ us) ++ [id] := by simp
      rw [hassoc]
      exact List.perm_append_singleton ..
    exact hcons.trans ((List.perm_cons_erase hid).symm.append_right us)
  have hlen := h.length_le
  have hpos := List.length_pos_of_mem hid
  exact {
    live := h.live
    alone := h.alone
    chain := by
      intro q a' idx' hq
      obtain ⟨hn, hused, hf, hb⟩ := h.chain hq
      exact ⟨hn, hused, hf.congr (fun _ _ => rfl) rfl, hb⟩
    apart := h.apart
    owned := h.owned
    avail := h.avail
    used := h.used.push (by decide) (by omega)
    nodup := hperm.nodup_iff.mpr h.nodup
    heads := fun i => hperm.mem_iff.trans (h.heads i)
    served := by
      intro i hi
      by_cases hi' : i = id
      · rw [hi']
        exact Function.update_self ..
      · refine (Function.update_of_ne hi' ..).trans (h.served i ?_)
        rcases List.mem_append.mp hi with hmem | hmem
        · exact hmem
        · exact absurd (List.mem_singleton.mp hmem) hi'
    sleepers := h.sleepers
    awake := h.awake }

/-- The invariant is about neither the data nor the state of the handler. -/
theorem frame (h : Inv s as us) (intr : Bool) (data : Index → β) : Inv { s with intr := intr, data := data } as us :=
  ⟨h.live, h.alone, h.chain, h.apart, h.owned, h.avail, h.used, h.nodup, h.heads, h.served, h.sleepers, h.awake⟩

theorem boot (data : Index → β) (sectors : UInt64 → β) : Inv (System.boot data sectors) [] [] where
  live := rfl
  alone hp := by cases hp
  chain hp := by cases hp
  apart hp := by cases hp
  owned i hi := by cases hi
  avail := rfl
  used := rfl
  nodup := List.nodup_nil
  heads i := by
    constructor
    · intro hi
      cases hi
    · rintro ⟨p, a, idx, hp, -⟩
      cases hp
  served i hi := by cases hi
  sleepers p a hp := by cases hp
  awake p a idx hp := by cases hp

end Inv

end Xv6Mlfq.Virtio
