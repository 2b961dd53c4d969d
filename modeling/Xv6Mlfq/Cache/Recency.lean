import Xv6Mlfq.Cache.Buffers

/-!
# Which buffer `bget` takes

Over any sequence of calls the list stays in the order in which `brelse` has freed the buffers, so `bget` recycles the
free one that was freed first. A `bunpin` that drops the last reference does not move its buffer; as long as there is none,
the buffer that is recycled has been free for the longest time.
-/

namespace Xv6Mlfq.Cache

open Caches Links Runs

variable {β : Type*}

inductive Call (β : Type*) where
  | bget (dev blockno : UInt32)
  | brelse (i : Index)
  | bpin (i : Index)
  | bunpin (i : Index)
  | setData (i : Index) (data : β)

def step : Call β → Bcache β → Option (Bcache β)
  | .bget dev blockno, c => (bget c dev blockno).map Prod.snd
  | .brelse i, c => some (brelse c i)
  | .bpin i, c => some (bpin c i)
  | .bunpin i, c => some (bunpin c i)
  | .setData i data, c => some (setData c i data)

def Call.released : Call β → Option Index
  | .brelse i => some i
  | _ => none

def Call.unpinned : Call β → Option Index
  | .bunpin i => some i
  | _ => none

/-- The call is a `brelse` that drops the last reference to `i`, and so moves the buffer to the front. -/
def frees (i : Index) (x : Transition (Bcache β) (Call β)) : Bool :=
  x.event.released = some i ∧ (x.post.buf i).refcnt = 0

/-- The call drops the last reference to `i`. -/
def drops (i : Index) (x : Transition (Bcache β) (Call β)) : Bool :=
  (x.event.released = some i ∨ x.event.unpinned = some i) ∧ (x.post.buf i).refcnt = 0

/-- The number of calls up to the last one of some kind; 0 if there is none. -/
def lastCall (p : Transition (Bcache β) (Call β) → Bool) (tr : List (Transition (Bcache β) (Call β))) : Nat :=
  tr.length - tr.reverse.findIdx p

def lastRelease (tr : List (Transition (Bcache β) (Call β))) (i : Index) : Nat := lastCall (frees i) tr

def lastDrop (tr : List (Transition (Bcache β) (Call β))) (i : Index) : Nat := lastCall (drops i) tr

/-- No `bunpin` drops the last reference, as in `install_trans`, which holds a reference of its own meanwhile. -/
def UnpinsHeld (tr : List (Transition (Bcache β) (Call β))) : Prop :=
  ∀ x ∈ tr, ∀ i, x.event.unpinned = some i → (x.post.buf i).refcnt ≠ 0

/-- What `bget` does after the calls `tr`. -/
inductive Served (tr : List (Transition (Bcache β) (Call β))) (c : Bcache β) (dev blockno : UInt32) :
    Option (Index × Bcache β) → Prop
  | hit {i : Index} (hi : Holds c dev blockno i)
      (honly : (dev, blockno) ≠ (0, 0) → ∀ j, Holds c dev blockno j → j = i) :
      Served tr c dev blockno (some (i, c.modify i fun b => { b with refcnt := b.refcnt + 1 }))
  | recycle {i : Index} (hmiss : ∀ j, ¬ Holds c dev blockno j) (hfree : (c.buf i).refcnt = 0)
      (hfirst : ∀ j, (c.buf j).refcnt = 0 → lastRelease tr i ≤ lastRelease tr j)
      (hlongest : UnpinsHeld tr → ∀ j, (c.buf j).refcnt = 0 → lastDrop tr i ≤ lastDrop tr j) :
      Served tr c dev blockno
        (some (i, c.modify i fun b => { b with dev := dev, blockno := blockno, valid := false, refcnt := 1 }))
  | panic (hmiss : ∀ j, ¬ Holds c dev blockno j) (hused : ∀ j, (c.buf j).refcnt ≠ 0) : Served tr c dev blockno none

variable {c c' : Bcache β} {i j : Index} {dev blockno : UInt32} {order : List Index}
  {tr : List (Transition (Bcache β) (Call β))} {x : Transition (Bcache β) (Call β)}

theorem lastRelease_le (tr : List (Transition (Bcache β) (Call β))) (i : Index) : lastRelease tr i ≤ tr.length :=
  Nat.sub_le ..

theorem lastRelease_snoc (tr : List (Transition (Bcache β) (Call β))) (x : Transition (Bcache β) (Call β))
    (i : Index) : lastRelease (tr ++ [x]) i = if frees i x then tr.length + 1 else lastRelease tr i := by
  have hrev : (tr ++ [x]).reverse = x :: tr.reverse := by simp
  unfold lastRelease lastCall
  rw [hrev, List.findIdx_cons, List.length_append, List.length_singleton]
  cases frees i x with
  | true => simp
  | false => simp

theorem lastDrop_eq (h : UnpinsHeld tr) (i : Index) : lastDrop tr i = lastRelease tr i := by
  have hsame : ∀ x ∈ tr.reverse, drops i x = frees i x := by
    intro x hx
    refine decide_eq_decide.mpr (and_congr_left fun hzero => or_iff_left fun hunpin => ?_)
    exact h x (List.mem_reverse.mp hx) i hunpin hzero
  refine congrArg (tr.length - ·) (le_antisymm ?_ ?_)
  · exact List.findIdx_le_findIdx fun x hx hfrees => (hsame x hx).trans hfrees
  · exact List.findIdx_le_findIdx fun x hx hdrops => (hsame x hx).symm.trans hdrops

/-- The list of the buffers after the calls `tr`. -/
structure Sorted (tr : List (Transition (Bcache β) (Call β))) (c : Bcache β) (order : List Index) : Prop
    extends Listed c order where
  recent : order.Pairwise fun i j => lastRelease tr j ≤ lastRelease tr i

namespace Sorted

/-- A call that frees no buffer and keeps the order. -/
theorem keep (h : Sorted tr c order) (hl : Listed c' order) (hx : x.event.released = none) :
    Sorted (tr ++ [x]) c' order := by
  refine ⟨hl, h.recent.imp fun hle => ?_⟩
  have hnone : ∀ i, frees i x = false := fun i => by simp [frees, hx]
  rw [lastRelease_snoc, lastRelease_snoc, hnone, hnone]
  exact hle

theorem brelse (h : Sorted tr c order) (i : Index) :
    ∃ order', Sorted (tr ++ [⟨c, .brelse i, brelse c i⟩]) (brelse c i) order' := by
  refine ⟨_, h.toListed.brelse i, ?_⟩
  have hrefs : ((Cache.brelse c i).buf i).refcnt = (c.buf i).refcnt - 1 := by
    rw [brelse_buf]
    simp [Bcache.modify]
  have hfrees : ∀ j, frees j (⟨c, .brelse i, Cache.brelse c i⟩ : Transition (Bcache β) (Call β)) =
      decide (i = j ∧ (c.buf i).refcnt - 1 = 0) := by
    intro j
    by_cases hij : i = j
    · subst hij
      simp [frees, Call.released, hrefs]
    · simp [frees, Call.released, hij]
  have hother : ∀ j, j ≠ i → lastRelease (tr ++ [⟨c, .brelse i, Cache.brelse c i⟩]) j = lastRelease tr j := by
    intro j hj
    rw [lastRelease_snoc, hfrees]
    simp [Ne.symm hj]
  rw [Lru.release_order]
  split_ifs with hzero
  · have hself : lastRelease (tr ++ [⟨c, .brelse i, Cache.brelse c i⟩]) i = tr.length + 1 := by
      rw [lastRelease_snoc, hfrees]
      exact if_pos (decide_eq_true ⟨rfl, hzero⟩)
    have hnot : i ∉ order.erase i := h.wf.nodup.not_mem_erase
    refine List.pairwise_cons.mpr ⟨fun j _ => ?_, ?_⟩
    · rw [hself]
      exact (lastRelease_le _ j).trans_eq (List.length_append ..)
    · refine (h.recent.sublist List.erase_sublist).imp_of_mem fun hi hj hle => ?_
      rw [hother _ (ne_of_mem_of_not_mem hi hnot), hother _ (ne_of_mem_of_not_mem hj hnot)]
      exact hle
  · refine h.recent.imp fun {a b} hle => ?_
    have hnone : ∀ j, ¬ frees j (⟨c, .brelse i, Cache.brelse c i⟩ : Transition (Bcache β) (Call β)) = true := by
      intro j
      rw [hfrees]
      exact fun hj => hzero (of_decide_eq_true hj).2
    rw [lastRelease_snoc, lastRelease_snoc, if_neg (hnone a), if_neg (hnone b)]
    exact hle

theorem step {e : Call β} (h : Sorted tr c order) (he : step e c = some c') :
    ∃ order', Sorted (tr ++ [⟨c, e, c'⟩]) c' order' := by
  cases e with
  | bget dev blockno =>
      obtain ⟨⟨i, c''⟩, hget, rfl⟩ := Option.map_eq_some_iff.mp he
      exact ⟨order, h.keep (h.toListed.bget hget) rfl⟩
  | brelse i =>
      obtain rfl := Option.some.inj he
      exact h.brelse i
  | bpin i =>
      obtain rfl := Option.some.inj he
      exact ⟨order, h.keep (h.toListed.modify (fun _ => rfl) fun _ => rfl) rfl⟩
  | bunpin i =>
      obtain rfl := Option.some.inj he
      exact ⟨order, h.keep (h.toListed.modify (fun _ => rfl) fun _ => rfl) rfl⟩
  | setData i data =>
      obtain rfl := Option.some.inj he
      exact ⟨order, h.keep (h.toListed.modify (fun _ => rfl) fun _ => rfl) rfl⟩

theorem boot (blank : β) : Sorted [] (binit (static blank)) (List.finRange NBUF).reverse := by
  exact ⟨.boot blank, List.pairwise_of_forall fun i j => le_rfl⟩

theorem run {blank : β} (h : Run Cache.step (binit (static blank)) tr c) : ∃ order, Sorted tr c order := by
  induction h with
  | nil => exact ⟨_, boot blank⟩
  | snoc h he ih =>
      obtain ⟨order, ih⟩ := ih
      exact ih.step he

end Sorted

/-- In the order of the last releases, the last buffer without references is the one freed first. -/
theorem Sorted.longest (h : Sorted tr c order) (hv : (c.lru order).victim = some i) (hj : (c.buf j).refcnt = 0) :
    lastRelease tr i ≤ lastRelease tr j := by
  obtain ⟨us, vs, hsplit, hvs⟩ := Lru.exists_victim hv
  have hsplit : order = us ++ i :: vs := hsplit
  have hrecent := h.recent
  rw [hsplit] at hrecent
  have hmem : j ∈ us ++ i :: vs := hsplit ▸ h.wf.complete j
  rcases List.mem_append.mp hmem with hu | hv
  · exact (List.pairwise_append.mp hrecent).2.2 j hu i List.mem_cons_self
  · rcases List.mem_cons.mp hv with rfl | hv
    · exact le_rfl
    · exact absurd hj (hvs j hv)

/-- After any sequence of calls, `bget` gives the buffer of the block if there is one, else the free buffer that `brelse`
freed first, and it panics only if there is neither. -/
theorem bget_served {blank : β} (h : Run step (binit (static blank)) tr c) (dev blockno : UInt32) :
    Served tr c dev blockno (bget c dev blockno) := by
  obtain ⟨order, hs⟩ := Sorted.run h
  have hmiss (hf : (c.lru order).find (dev, blockno) = none) (j : Index) : ¬ Holds c dev blockno j :=
    mt holds_iff.mp ((Lru.find_eq_none hs.wf).mp hf j)
  rw [bget_eq hs.ordered]
  cases hf : (c.lru order).find (dev, blockno) with
  | some i =>
      refine .hit (holds_iff.mpr (Lru.find_key hf)) fun hne j hj => ?_
      have hj := (Lru.find_eq_some hs.wf hne).mpr (holds_iff.mp hj)
      exact Option.some.inj (hj.symm.trans hf)
  | none =>
      cases hv : (c.lru order).victim with
      | some i =>
          refine .recycle (hmiss hf) (Lru.victim_refs hv) (fun j hj => hs.longest hv hj) fun hheld j hj => ?_
          rw [lastDrop_eq hheld, lastDrop_eq hheld]
          exact hs.longest hv hj
      | none => exact .panic (hmiss hf) ((Lru.victim_eq_none hs.wf).mp hv)

/-- Two buffers are used and released, and a third block comes into one that has never been used. -/
theorem bget_served_fresh : ∃ tr, ∃ c : Bcache Nat, (bget c 1 9).any (fun r => r.1.val = 2) = true ∧
    Served tr c 1 9 (bget c 1 9) := by
  have hplay : (final step (binit (static 0)) [.bget 1 7, .bget 1 8, .brelse 1, .brelse 0]).any
      (fun c => (bget c 1 9).any fun r => r.1.val = 2) = true := by
    decide +kernel
  obtain ⟨tr, c, h, -, hc⟩ := Run.replay hplay
  exact ⟨tr, c, hc, bget_served h 1 9⟩

end Xv6Mlfq.Cache
