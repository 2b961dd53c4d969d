import Xv6Mlfq.Cache.Locks

/-!
# One process at a time has a block

The reference count of a buffer is the number of processes that wait for it, hold it or are about to drop it, and of
its pin. So no buffer is recycled while somebody refers to it, and two processes that want one block wait for one
lock.
-/

namespace Xv6Mlfq.Cache

open Caches Counts Runs
open Queue (Slot NPROC)

variable {β : Type*}

/-- The process refers to the buffer without its lock. -/
def Pc.refers (i : Index) : Pc → Bool
  | .waiting j => i = j
  | .dropping j => i = j
  | _ => false

/-- The references to the buffer. -/
def System.count (s : System β) (i : Index) : Nat :=
  tally s.pc (Pc.refers i) + (s.lock i).isSome.toNat + (s.pinned i).toNat

structure Sound (s : System β) : Prop where
  listed : ∃ order, Listed s.cache order
  refs : ∀ i, (s.cache.buf i).refcnt.toNat = s.count i
  rootdev : ∀ i, (s.cache.buf i).refcnt ≠ 0 → (s.cache.buf i).dev = ROOTDEV
  loading : ∀ p i, s.pc p = .loading i → s.lock i = some p

variable {s s' : System β} {e : Event β} {p q : Slot} {i j : Index} {pc : Pc} {c : Bcache β} {r : UInt32}

/-! ## Counters -/

theorem toNat_succ (h : r.toNat < 2 ^ 32 - 1) : (r + 1).toNat = r.toNat + 1 := by
  rw [UInt32.toNat_add]
  exact Nat.mod_eq_of_lt (by simpa using Nat.add_lt_of_lt_sub h)

theorem toNat_pred (h : 0 < r.toNat) : (r - 1).toNat = r.toNat - 1 := by
  rw [UInt32.toNat_sub_of_le]
  · rfl
  · exact UInt32.le_iff_toNat_le.mpr h

theorem ne_zero_iff : r ≠ 0 ↔ 0 < r.toNat := by
  rw [Nat.pos_iff_ne_zero, ne_eq, ne_eq, ← UInt32.toNat_inj]
  rfl

theorem count_lt (s : System β) (i : Index) : s.count i < 2 ^ 32 - 1 := by
  have hpc : tally s.pc (Pc.refers i) ≤ 64 := tally_le.trans_eq (Fintype.card_fin NPROC)
  have hlock := Bool.toNat_le (s.lock i).isSome
  have hpin := Bool.toNat_le (s.pinned i)
  unfold System.count
  omega

@[simp] theorem count_cache (s : System β) (c : Bcache β) : System.count { s with cache := c } = s.count := rfl

theorem count_setPc (s : System β) (p : Slot) (pc : Pc) (i : Index) :
    (s.setPc p pc).count i + (Pc.refers i (s.pc p)).toNat = s.count i + (pc.refers i).toNat := by
  have htally := tally_update s.pc (Pc.refers i) p pc
  simp only [System.count, System.setPc] at htally ⊢
  omega

theorem count_setLock_self (s : System β) (i : Index) (o : Option Slot) :
    (s.setLock i o).count i + (s.lock i).isSome.toNat = s.count i + o.isSome.toNat := by
  simp only [System.count, System.setLock, Function.update_self]
  omega

theorem count_setLock_of_ne (o : Option Slot) (h : j ≠ i) : (s.setLock i o).count j = s.count j := by
  simp only [System.count, System.setLock, Function.update_of_ne h]

theorem count_pin_self (s : System β) (c : Bcache β) (i : Index) (b : Bool) :
    System.count { s with cache := c, pinned := Function.update s.pinned i b } i + (s.pinned i).toNat =
      s.count i + b.toNat := by
  simp only [System.count, Function.update_self]
  omega

theorem count_pin_of_ne (c : Bcache β) (b : Bool) (h : j ≠ i) :
    System.count { s with cache := c, pinned := Function.update s.pinned i b } j = s.count j := by
  simp only [System.count, Function.update_of_ne h]

theorem count_pos_of_lock (h : s.lock i = some p) : 0 < s.count i := by
  simp only [System.count, h, Option.isSome_some, Bool.toNat_true]
  omega

theorem count_pos_of_pc (h : Pc.refers i (s.pc p) = true) : 0 < s.count i := by
  have hpos : 0 < tally s.pc (Pc.refers i) := tally_pos_iff.mpr ⟨p, h⟩
  unfold System.count
  omega

/-! ## Every step -/

namespace Sound

theorem refcnt_ne_zero (h : Sound s) (hpos : 0 < s.count i) : (s.cache.buf i).refcnt ≠ 0 :=
  ne_zero_iff.mpr ((h.refs i).symm ▸ hpos)

theorem succ (h : Sound s) (i : Index) : ((s.cache.buf i).refcnt + 1).toNat = s.count i + 1 := by
  rw [toNat_succ, h.refs]
  rw [h.refs]
  exact count_lt s i

theorem pred (h : Sound s) (hpos : 0 < s.count i) : ((s.cache.buf i).refcnt - 1).toNat = s.count i - 1 := by
  rw [toNat_pred, h.refs]
  rwa [h.refs]

/-- One buffer changes its count of references. -/
theorem recount (h : Sound s) {f : Buf β → Buf β} (hlisted : ∃ order, Listed s'.cache order)
    (hbuf : s'.cache.buf = (s.cache.modify i f).buf) (hself : (f (s.cache.buf i)).refcnt.toNat = s'.count i)
    (hother : ∀ j, j ≠ i → s'.count j = s.count j) (hdev : (f (s.cache.buf i)).dev = ROOTDEV)
    (hloading : ∀ p i, s'.pc p = .loading i → s'.lock i = some p) : Sound s' := by
  refine ⟨hlisted, fun j => ?_, fun j hj => ?_, hloading⟩
  · rw [hbuf]
    by_cases hji : j = i
    · rw [hji, modify_self, hself]
    · rw [modify_of_ne f hji, hother j hji, h.refs]
  · rw [hbuf] at hj ⊢
    by_cases hji : j = i
    · rw [hji, modify_self, hdev]
    · rw [modify_of_ne f hji] at hj ⊢
      exact h.rootdev j hj

/-- No buffer changes its count of references. -/
theorem stay (h : Sound s) (hlisted : ∃ order, Listed s'.cache order)
    (hbuf : ∀ j, (s'.cache.buf j).refcnt = (s.cache.buf j).refcnt ∧ (s'.cache.buf j).dev = (s.cache.buf j).dev)
    (hcount : ∀ j, s'.count j = s.count j) (hloading : ∀ p i, s'.pc p = .loading i → s'.lock i = some p) :
    Sound s' := by
  refine ⟨hlisted, fun j => ?_, fun j hj => ?_, hloading⟩
  · rw [(hbuf j).1, hcount, h.refs]
  · rw [(hbuf j).1] at hj
    rw [(hbuf j).2]
    exact h.rootdev j hj

theorem setPc_loading (h : Sound s) (hpc : ∀ i, pc ≠ .loading i) (q : Slot) (j : Index)
    (hq : (s.setPc p pc).pc q = .loading j) : s.lock j = some q := by
  by_cases hqp : q = p
  · subst hqp
    exact absurd (System.setPc_self.symm.trans hq) (hpc j)
  · exact h.loading q j ((System.setPc_of_ne hqp).symm.trans hq)

theorem bget (h : Sound s) {blockno : UInt32} {order : List Index} (hl : Listed s.cache order)
    (hpc : s.pc p = .idle) (hget : bget s.cache ROOTDEV blockno = some (i, c)) :
    Sound ({ s with cache := c }.setPc p (.waiting i)) := by
  have hcount := count_setPc { s with cache := c } p (.waiting i)
  have hpc' : ∀ j, Pc.waiting i ≠ .loading j := by simp
  have hload := h.setPc_loading (p := p) hpc'
  have hself : (({ s with cache := c } : System β).setPc p (.waiting i)).count i = s.count i + 1 := by
    simpa [hpc, Pc.refers] using hcount i
  have hother : ∀ j, j ≠ i → (({ s with cache := c } : System β).setPc p (.waiting i)).count j = s.count j := by
    intro j hj
    simpa [hpc, Pc.refers, hj] using hcount j
  have hlisted := hl.bget hget
  cases hl.bget_cases hget with
  | hit hi => exact h.recount ⟨order, hlisted⟩ rfl ((h.succ i).trans hself.symm) hother hi.1 hload
  | recycle hmiss hfree =>
      have hzero : s.count i = 0 := by
        rw [← h.refs, hfree]
        rfl
      rw [hzero] at hself
      exact h.recount ⟨order, hlisted⟩ rfl hself.symm hother rfl hload

theorem acquiresleep (h : Sound s) (hpc : s.pc p = .waiting i) (hlock : s.lock i = none) :
    Sound ((s.setLock i (some p)).setPc p (.loading i)) := by
  refine h.stay h.listed (fun j => ⟨rfl, rfl⟩) (fun j => ?_) fun q j hq => ?_
  · have hcount := count_setPc (s.setLock i (some p)) p (.loading i) j
    have hpc' : (s.setLock i (some p)).pc p = .waiting i := hpc
    rw [hpc'] at hcount
    by_cases hj : j = i
    · subst hj
      have hset := count_setLock_self s j (some p)
      simp [Pc.refers, hlock] at hcount hset
      omega
    · have hset := count_setLock_of_ne (s := s) (some p) hj
      simp [Pc.refers, hj] at hcount
      omega
  · by_cases hqp : q = p
    · subst hqp
      obtain rfl : i = j := Pc.loading.inj (System.setPc_self.symm.trans hq)
      exact System.setLock_self
    · have hold := h.loading q j ((System.setPc_of_ne hqp).symm.trans hq)
      have hj : j ≠ i := fun hji => by simp [hji ▸ hold] at hlock
      exact (System.setLock_of_ne hj).trans hold

theorem releasesleep (h : Sound s) (hhas : s.Has p i) : Sound ((s.setLock i none).setPc p (.dropping i)) := by
  refine h.stay h.listed (fun j => ⟨rfl, rfl⟩) (fun j => ?_) fun q j hq => ?_
  · have hcount := count_setPc (s.setLock i none) p (.dropping i) j
    have hpc' : (s.setLock i none).pc p = .idle := hhas.2
    rw [hpc'] at hcount
    by_cases hj : j = i
    · subst hj
      have hset := count_setLock_self s j none
      simp [Pc.refers, hhas.1] at hcount hset
      omega
    · have hset := count_setLock_of_ne (s := s) none hj
      simp [Pc.refers, hj] at hcount
      omega
  · have hpc' : ∀ j, Pc.dropping i ≠ .loading j := by simp
    have hold := h.setPc_loading hpc' q j hq
    have hqp : q ≠ p := fun hqp => by
      rw [hqp, System.setPc_self] at hq
      cases hq
    have hj : j ≠ i := fun hji => hqp (Option.some.inj ((hji ▸ hold).symm.trans hhas.1))
    exact (System.setLock_of_ne hj).trans hold

theorem load (h : Sound s) (hpc : s.pc p = .loading i) (hlisted : ∃ order, Listed c order)
    (hbuf : ∀ j, (c.buf j).refcnt = (s.cache.buf j).refcnt ∧ (c.buf j).dev = (s.cache.buf j).dev) :
    Sound ({ s with cache := c }.setPc p .idle) := by
  refine h.stay hlisted hbuf (fun j => ?_) (h.setPc_loading (by simp))
  simpa [hpc, Pc.refers] using count_setPc { s with cache := c } p .idle j

theorem brelse (h : Sound s) (hpc : s.pc p = .dropping i) :
    Sound ({ s with cache := brelse s.cache i }.setPc p .idle) := by
  obtain ⟨order, hl⟩ := h.listed
  have hpos : 0 < s.count i := count_pos_of_pc (p := p) (by simp [hpc, Pc.refers])
  have hcount := count_setPc { s with cache := Cache.brelse s.cache i } p .idle
  refine h.recount ⟨_, hl.brelse i⟩ (brelse_buf s.cache i) ?_ (fun j hj => ?_) (h.rootdev i (h.refcnt_ne_zero hpos))
    (h.setPc_loading (by simp))
  · have hself := hcount i
    simp [hpc, Pc.refers] at hself
    rw [h.pred hpos]
    omega
  · simpa [hpc, Pc.refers, hj] using hcount j

theorem modify_same (c : Bcache β) {f : Buf β → Buf β} (hrefcnt : ∀ b, (f b).refcnt = b.refcnt)
    (hdev : ∀ b, (f b).dev = b.dev) (j : Index) :
    ((c.modify i f).buf j).refcnt = (c.buf j).refcnt ∧ ((c.modify i f).buf j).dev = (c.buf j).dev := by
  by_cases hj : j = i
  · subst hj
    simp [hrefcnt, hdev]
  · simp [modify_of_ne f hj]

theorem step (h : Sound s) (he : System.step e s = some s') : Sound s' := by
  obtain ⟨order, hl⟩ := h.listed
  cases step_stepped he with
  | bget hpc hget => exact h.bget hl hpc hget
  | acquiresleep hpc hlock => exact h.acquiresleep hpc hlock
  | loaded hpc hvalid => exact h.load hpc h.listed fun j => ⟨rfl, rfl⟩
  | @load p i hpc hvalid =>
      have hlisted : Listed (setData s.cache i (s.disk (s.block i))) order := hl.modify (fun _ => rfl) fun _ => rfl
      exact h.load hpc ⟨order, hlisted⟩ (modify_same (i := i) s.cache (fun _ => rfl) fun _ => rfl)
  | @modify p i data hhas =>
      have hlisted : Listed (s.cache.modify i fun b => { b with data := data }) order :=
        hl.modify (fun _ => rfl) fun _ => rfl
      have hsame := modify_same (i := i) (f := fun b => { b with data := data }) s.cache (fun _ => rfl) fun _ => rfl
      exact h.stay ⟨order, hlisted⟩ hsame (fun j => rfl) h.loading
  | bwrite hhas => exact ⟨h.listed, h.refs, h.rootdev, h.loading⟩
  | @bpin p i hhas hpin =>
      have hcount := count_pin_self s (bpin s.cache i) i true
      simp [hpin] at hcount
      have hlisted : Listed (bpin s.cache i) order := hl.modify (fun _ => rfl) fun _ => rfl
      refine h.recount ⟨order, hlisted⟩ rfl ((h.succ i).trans hcount.symm)
        (fun j hj => count_pin_of_ne _ true hj) ?_ h.loading
      exact h.rootdev i (h.refcnt_ne_zero (count_pos_of_lock hhas.1))
  | @bunpin p i hhas hpin =>
      have hpos := count_pos_of_lock hhas.1
      have hcount := count_pin_self s (bunpin s.cache i) i false
      simp [hpin] at hcount
      have hlisted : Listed (bunpin s.cache i) order := hl.modify (fun _ => rfl) fun _ => rfl
      refine h.recount ⟨order, hlisted⟩ rfl ?_ (fun j hj => count_pin_of_ne _ false hj) (h.rootdev i (h.refcnt_ne_zero hpos)) h.loading
      rw [h.pred hpos]
      omega
  | releasesleep hhas => exact h.releasesleep hhas
  | brelse hpc => exact h.brelse hpc

theorem boot (blank : β) (disk : UInt32 → β) : Sound (System.boot blank disk) := by
  have hrefcnt : ∀ i, ((System.boot blank disk).cache.buf i).refcnt = 0 := fun i => by
    rw [System.boot, boot_buf]
    rfl
  refine ⟨⟨_, .boot blank⟩, fun i => ?_, fun i hi => absurd (hrefcnt i) hi, fun p i hp => by cases hp⟩
  have htally : tally (System.boot blank disk).pc (Pc.refers i) = 0 := tally_eq_zero fun _ => rfl
  rw [hrefcnt, System.count, htally]
  rfl

end Sound

/-! ## Who has which block -/

/-- The process waits for the buffer, holds it, or is about to drop it. -/
def System.Uses (s : System β) (p : Slot) (i : Index) : Prop :=
  s.lock i = some p ∨ Pc.refers i (s.pc p) = true

theorem Sound.referenced (h : Sound s) (huse : s.Uses p i ∨ s.pinned i = true) : (s.cache.buf i).refcnt ≠ 0 := by
  refine h.refcnt_ne_zero ?_
  rcases huse with (hlock | hpc) | hpin
  · exact count_pos_of_lock hlock
  · exact count_pos_of_pc hpc
  · simp only [System.count, hpin, Bool.toNat_true]
    omega

/-- A buffer with references stays with its block. -/
theorem Sound.kept (h : Sound s) (he : System.step e s = some s') (hi : (s.cache.buf i).refcnt ≠ 0) :
    s'.block i = s.block i := by
  obtain ⟨order, hl⟩ := h.listed
  have hmodify : ∀ (j : Index) (f : Buf β → Buf β) (c : Bcache β), c.buf = (s.cache.modify j f).buf →
      (∀ b, (f b).blockno = b.blockno) → (c.buf i).blockno = (s.cache.buf i).blockno := by
    intro j f c hc hf
    rw [hc]
    by_cases hij : i = j
    · subst hij
      rw [modify_self, hf]
    · rw [modify_of_ne f hij]
  cases step_stepped he with
  | @bget p blockno j c hpc hget =>
      have hblockno : (c.buf i).blockno = (s.cache.buf i).blockno := by
        cases hl.bget_cases hget with
        | hit hj => exact hmodify j _ _ rfl fun _ => rfl
        | recycle hmiss hfree =>
            have hij : i ≠ j := fun hij => hi (hij ▸ hfree)
            rw [modify_of_ne _ hij]
      exact hblockno
  | acquiresleep hpc hlock => rfl
  | loaded hpc hvalid => rfl
  | @load p j hpc hvalid => exact hmodify j _ (setData s.cache j (s.disk (s.block j))) rfl fun _ => rfl
  | @modify p j data hhas => exact hmodify j _ (s.cache.modify j fun b => { b with data := data }) rfl fun _ => rfl
  | bwrite hhas => rfl
  | @bpin p j hhas hpin => exact hmodify j _ (Cache.bpin s.cache j) rfl fun _ => rfl
  | @bunpin p j hhas hpin => exact hmodify j _ (bunpin s.cache j) rfl fun _ => rfl
  | releasesleep hhas => rfl
  | @brelse p j hpc => exact hmodify j _ (Cache.brelse s.cache j) (brelse_buf s.cache j) fun _ => rfl

theorem rootdev_ne (b : UInt32) : (ROOTDEV, b) ≠ (0, 0) := fun h => absurd (Prod.mk.inj h).1 (by decide)

theorem Sound.same (h : Sound s) (hp : s.Uses p i ∨ s.pinned i = true) (hq : s.Uses q j ∨ s.pinned j = true)
    (hblock : s.block i = s.block j) : i = j := by
  obtain ⟨order, hl⟩ := h.listed
  have hi : Holds s.cache ROOTDEV (s.block j) i := ⟨h.rootdev i (h.referenced hp), hblock⟩
  have hj : Holds s.cache ROOTDEV (s.block j) j := ⟨h.rootdev j (h.referenced hq), rfl⟩
  exact hl.unique hi hj (rootdev_ne _)

variable {blank : β} {disk : UInt32 → β} {tr : List (Transition (System β) (Event β))}

theorem Sound.run (h : Run System.step (System.boot blank disk) tr s) : Sound s :=
  h.invariant (Sound.boot blank disk) fun _ _ he hs => hs.step he

end Xv6Mlfq.Cache
