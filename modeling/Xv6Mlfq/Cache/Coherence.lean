import Xv6Mlfq.Cache.Exclusive

/-!
# The cache shows the last write

The contents of a block are what a holder of its buffer has last stored in it. A buffer that is released with changes
has been written to the disk or is pinned, as the comments of `bio.c` and `log.c` ask; then the contents are always
in the buffer of the block, or on the disk if it has none.
-/

namespace Xv6Mlfq.Cache

open Runs
open Queue (Slot)

variable {β : Type*}

/-- What the holders have last stored in each block, from the disk at boot. -/
def stored (disk : UInt32 → β) (tr : List (Transition (System β) (Event β))) : UInt32 → β :=
  tr.foldl (fun w x => match x.event with
    | .modify _ i data => Function.update w (x.pre.block i) data
    | _ => w) disk

/-- A buffer is released only with its contents on the disk, or pinned. -/
def Careful (x : Transition (System β) (Event β)) : Prop :=
  ∀ p i, x.event = .releasesleep p i →
    x.pre.disk (x.pre.block i) = (x.pre.cache.buf i).data ∨ x.pre.pinned i = true

/-- The cache and the disk have the contents `w`. -/
structure Coherent (s : System β) (w : UInt32 → β) : Prop where
  filled : ∀ p i, s.lock i = some p → s.pc p ≠ .loading i → (s.cache.buf i).valid = true
  pinned : ∀ i, s.pinned i = true → (s.cache.buf i).valid = true
  fresh : ∀ i, (s.cache.buf i).dev = ROOTDEV → (s.cache.buf i).valid = true → (s.cache.buf i).data = w (s.block i)
  clean : ∀ b, s.disk b ≠ w b → ∃ i, Holds s.cache ROOTDEV b i ∧ (s.cache.buf i).valid = true ∧
    (s.lock i ≠ none ∨ s.pinned i = true)

variable {s s' : System β} {e : Event β} {p q : Slot} {i j : Index} {w : UInt32 → β}

/-- A buffer keeps what it shows. -/
structure Shows (b b' : Buf β) : Prop where
  dev : b'.dev = b.dev
  blockno : b'.blockno = b.blockno
  valid : b'.valid = b.valid
  data : b'.data = b.data

theorem Shows.refl (b : Buf β) : Shows b b := ⟨rfl, rfl, rfl, rfl⟩

theorem Shows.modify {c c' : Bcache β} {f : Buf β → Buf β} (hc : c'.buf = (c.modify i f).buf)
    (hf : ∀ b, Shows b (f b)) (j : Index) : Shows (c.buf j) (c'.buf j) := by
  rw [hc]
  by_cases hj : j = i
  · subst hj
    rw [modify_self]
    exact hf _
  · rw [modify_of_ne f hj]
    exact .refl _

namespace Coherent

/-- The buffers keep what they show, and a block that is not on the disk is still held or pinned. -/
theorem stay (h : Coherent s w) (hbuf : ∀ i, Shows (s.cache.buf i) (s'.cache.buf i))
    (hfilled : ∀ p i, s'.lock i = some p → s'.pc p ≠ .loading i → (s.cache.buf i).valid = true)
    (hpinned : ∀ i, s'.pinned i = true → (s.cache.buf i).valid = true)
    (hdisk : ∀ b, s'.disk b ≠ w b → s.disk b ≠ w b)
    (hheld : ∀ i, Holds s.cache ROOTDEV (s.block i) i → (s.cache.buf i).valid = true →
      s'.disk (s.block i) ≠ w (s.block i) → s.lock i ≠ none ∨ s.pinned i = true →
      s'.lock i ≠ none ∨ s'.pinned i = true) : Coherent s' w := by
  refine ⟨fun p i hlock hpc => ?_, fun i hi => ?_, fun i hdev hvalid => ?_, fun b hb => ?_⟩
  · exact (hbuf i).valid.trans (hfilled p i hlock hpc)
  · exact (hbuf i).valid.trans (hpinned i hi)
  · rw [(hbuf i).data, System.block, (hbuf i).blockno]
    exact h.fresh i ((hbuf i).dev.symm.trans hdev) ((hbuf i).valid.symm.trans hvalid)
  · obtain ⟨i, ⟨hdev, rfl⟩, hvalid, hold⟩ := h.clean b (hdisk b hb)
    refine ⟨i, ⟨(hbuf i).dev.trans hdev, (hbuf i).blockno⟩, (hbuf i).valid.trans hvalid, ?_⟩
    exact hheld i ⟨hdev, rfl⟩ hvalid hb hold

/-- A buffer that is not loaded yet has its contents on the disk. -/
theorem unloaded (h : Coherent s w) (hs : Sound s) (hpc : s.pc p = .loading i)
    (hvalid : (s.cache.buf i).valid = false) : s.disk (s.block i) = w (s.block i) := by
  by_contra hne
  obtain ⟨j, hj, hvalid', -⟩ := h.clean _ hne
  obtain ⟨order, hl⟩ := hs.listed
  have hi : Holds s.cache ROOTDEV (s.block i) i :=
    ⟨hs.rootdev i (hs.referenced (p := p) (.inl (.inl (hs.loading p i hpc)))), rfl⟩
  obtain rfl := hl.unique hi hj (rootdev_ne _)
  rw [hvalid] at hvalid'
  cases hvalid'

/-- The data of one buffer of the root device is set, and its contents with it. -/
theorem set {t : System β} (h : Coherent s w) (hs : Sound s) {f : Buf β → Buf β} (hlock : s.lock i = some p)
    (hbuf : t.cache.buf = (s.cache.modify i f).buf) (hf : ∀ b, (f b).dev = b.dev ∧ (f b).blockno = b.blockno)
    (hvalid : (f (s.cache.buf i)).valid = true) (hdisk : t.disk = s.disk) (hlocks : t.lock = s.lock)
    (hpins : t.pinned = s.pinned)
    (hfilled : ∀ q j, j ≠ i → t.pc q ≠ .loading j → s.pc q ≠ .loading j) :
    Coherent t (Function.update w (s.block i) (f (s.cache.buf i)).data) := by
  have hself : t.cache.buf i = f (s.cache.buf i) := by rw [hbuf, modify_self]
  have hother : ∀ j, j ≠ i → t.cache.buf j = s.cache.buf j := fun j hj => by rw [hbuf, modify_of_ne f hj]
  have hblockno : ∀ j, t.block j = s.block j := by
    intro j
    by_cases hj : j = i
    · rw [hj, System.block, hself, (hf _).2, System.block]
    · rw [System.block, hother j hj, System.block]
  have hdev : (s.cache.buf i).dev = ROOTDEV := hs.rootdev i (hs.referenced (p := p) (.inl (.inl hlock)))
  obtain ⟨order, hl⟩ := hs.listed
  have hblock : ∀ j, j ≠ i → (s.cache.buf j).dev = ROOTDEV → s.block j ≠ s.block i := fun j hj hjdev heq =>
    hj (hl.unique ⟨hjdev, heq⟩ ⟨hdev, rfl⟩ (rootdev_ne _))
  refine ⟨fun q j hq hpc => ?_, fun j hj => ?_, fun j hjdev hjvalid => ?_, fun b hb => ?_⟩
  · by_cases hj : j = i
    · rw [hj, hself, hvalid]
    · rw [hother j hj]
      exact h.filled q j (hlocks ▸ hq) (hfilled q j hj hpc)
  · by_cases hji : j = i
    · rw [hji, hself, hvalid]
    · rw [hother j hji]
      exact h.pinned j (hpins ▸ hj)
  · by_cases hj : j = i
    · subst hj
      rw [hself, hblockno]
      exact (Function.update_self (s.block j) _ w).symm
    · rw [hother j hj] at hjdev hjvalid ⊢
      rw [hblockno]
      exact (h.fresh j hjdev hjvalid).trans (Function.update_of_ne (hblock j hj hjdev) ..).symm
  · by_cases hbi : b = s.block i
    · refine ⟨i, ⟨?_, ?_⟩, ?_, ?_⟩
      · rw [hself, (hf _).1, hdev]
      · rw [hself, (hf _).2, hbi, System.block]
      · rw [hself, hvalid]
      · rw [hlocks, hlock]
        simp
    · rw [hdisk, Function.update_of_ne hbi] at hb
      obtain ⟨j, hj, hjvalid, hheld⟩ := h.clean b hb
      have hji : j ≠ i := fun hji => hbi (hji ▸ hj.2).symm
      refine ⟨j, ?_, ?_, ?_⟩
      · rw [Holds, hother j hji]
        exact hj
      · rw [hother j hji]
        exact hjvalid
      · rw [hlocks, hpins]
        exact hheld

/-- A free buffer is taken for another block. -/
theorem recycle (h : Coherent s w) (hs : Sound s) {f : Buf β → Buf β} (hfree : (s.cache.buf i).refcnt = 0)
    (hbuf : s'.cache.buf = (s.cache.modify i f).buf) (hf : (f (s.cache.buf i)).valid = false)
    (hdisk : s'.disk = s.disk) (hlocks : s'.lock = s.lock) (hpins : s'.pinned = s.pinned)
    (hfilled : ∀ q j, s'.pc q ≠ .loading j → s.pc q ≠ .loading j) : Coherent s' w := by
  have hself : s'.cache.buf i = f (s.cache.buf i) := by rw [hbuf, modify_self]
  have hother : ∀ j, j ≠ i → s'.cache.buf j = s.cache.buf j := fun j hj => by rw [hbuf, modify_of_ne f hj]
  have hlocked : ∀ q j, s.lock j = some q → j ≠ i := by
    rintro q j hj rfl
    exact hs.referenced (.inl (.inl hj)) hfree
  have hpinned : ∀ j, s.pinned j = true → j ≠ i := by
    rintro j hj rfl
    exact hs.referenced (p := 0) (.inr hj) hfree
  refine ⟨fun q j hq hpc => ?_, fun j hj => ?_, fun j hjdev hjvalid => ?_, fun b hb => ?_⟩
  · rw [hother j (hlocked q j (hlocks ▸ hq))]
    exact h.filled q j (hlocks ▸ hq) (hfilled q j hpc)
  · rw [hother j (hpinned j (hpins ▸ hj))]
    exact h.pinned j (hpins ▸ hj)
  · have hj : j ≠ i := by
      rintro rfl
      rw [hself, hf] at hjvalid
      cases hjvalid
    rw [hother j hj] at hjdev hjvalid ⊢
    rw [System.block, hother j hj]
    exact h.fresh j hjdev hjvalid
  · obtain ⟨j, hj, hjvalid, hheld⟩ := h.clean b (hdisk ▸ hb)
    have hji : j ≠ i := by
      rcases hheld with hlock | hpin
      · obtain ⟨q, hq⟩ := Option.ne_none_iff_exists'.mp hlock
        exact hlocked q j hq
      · exact hpinned j hpin
    refine ⟨j, ?_, ?_, ?_⟩
    · rw [Holds, hother j hji]
      exact hj
    · rw [hother j hji]
      exact hjvalid
    · rw [hlocks, hpins]
      exact hheld

/-- A process that was not loading and has only changed its place. -/
theorem setPc_ne_loading {pc : Pc} (hpc : ∀ i, s.pc p ≠ .loading i) {q : Slot} {j : Index}
    (hq : (s.setPc p pc).pc q ≠ .loading j) : s.pc q ≠ .loading j := by
  by_cases hqp : q = p
  · rw [hqp]
    exact hpc j
  · rwa [System.setPc_of_ne hqp] at hq

/-- The contents after a step. -/
def next (w : UInt32 → β) (x : Transition (System β) (Event β)) : UInt32 → β :=
  match x.event with
  | .modify _ i data => Function.update w (x.pre.block i) data
  | _ => w

theorem bget {blockno : UInt32} {c : Bcache β} {order : List Index} (h : Coherent s w) (hs : Sound s)
    (hl : Listed s.cache order) (hpc : s.pc p = .idle) (hget : bget s.cache ROOTDEV blockno = some (i, c)) :
    Coherent ({ s with cache := c }.setPc p (.waiting i)) w := by
  have hidle : ∀ j, s.pc p ≠ .loading j := by simp [hpc]
  cases hl.bget_cases hget with
  | hit hi =>
      refine h.stay (Shows.modify rfl fun b => ⟨rfl, rfl, rfl, rfl⟩) (fun q j hq hqpc => ?_) h.pinned (fun b hb => hb)
        fun j _ _ _ hheld => hheld
      exact h.filled q j hq (setPc_ne_loading hidle hqpc)
  | recycle hmiss hfree =>
      exact h.recycle hs hfree rfl rfl rfl rfl rfl fun q j hq => setPc_ne_loading hidle hq

theorem acquiresleep (h : Coherent s w) (hpc : s.pc p = .waiting i) (hlock : s.lock i = none) :
    Coherent ((s.setLock i (some p)).setPc p (.loading i)) w := by
  refine h.stay (fun j => .refl _) (fun q j hq hqpc => ?_) h.pinned (fun b hb => hb) fun j _ _ _ hheld => ?_
  · by_cases hj : j = i
    · subst hj
      obtain rfl : p = q := Option.some.inj (System.setLock_self.symm.trans hq)
      exact absurd System.setPc_self hqpc
    · refine h.filled q j ((System.setLock_of_ne hj).symm.trans hq) (setPc_ne_loading (p := p) ?_ hqpc)
      simp [hpc]
  · by_cases hj : j = i
    · subst hj
      left
      simp
    · simpa [System.setLock_of_ne hj] using hheld

theorem releasesleep (h : Coherent s w) (hhas : s.Has p i)
    (hcare : s.disk (s.block i) = (s.cache.buf i).data ∨ s.pinned i = true) :
    Coherent ((s.setLock i none).setPc p (.dropping i)) w := by
  have hidle : ∀ j, s.pc p ≠ .loading j := by simp [hhas.2]
  refine h.stay (fun j => .refl _) (fun q j hq hqpc => ?_) h.pinned (fun b hb => hb) fun j hdev hvalid hdirty hheld => ?_
  · have hj : j ≠ i := by
      rintro rfl
      simp at hq
    exact h.filled q j ((System.setLock_of_ne hj).symm.trans hq) (setPc_ne_loading hidle hqpc)
  · by_cases hj : j = i
    · subst hj
      rcases hcare with hdisk | hpin
      · exact absurd (hdisk.trans (h.fresh j hdev.1 hvalid)) hdirty
      · exact .inr hpin
    · simpa [System.setLock_of_ne hj] using hheld

theorem step (h : Coherent s w) (hs : Sound s) (he : System.step e s = some s') (hcare : Careful ⟨s, e, s'⟩) :
    Coherent s' (next w ⟨s, e, s'⟩) := by
  obtain ⟨order, hl⟩ := hs.listed
  cases step_stepped he with
  | bget hpc hget => exact h.bget hs hl hpc hget
  | acquiresleep hpc hlock => exact h.acquiresleep hpc hlock
  | @loaded p i hpc hvalid =>
      refine h.stay (fun j => .refl _) (fun q j hq hqpc => ?_) h.pinned (fun b hb => hb) fun j _ _ _ hheld => hheld
      by_cases hj : j = i
      · rw [hj, hvalid]
      · refine h.filled q j hq fun hload => ?_
        have hqp : q ≠ p := fun hqp => hj (Pc.loading.inj ((hqp ▸ hload).symm.trans hpc))
        exact hqpc ((System.setPc_of_ne hqp).trans hload)
  | @load p i hpc hvalid =>
      have hdata := h.unloaded hs hpc hvalid
      have hset := h.set hs (f := fun b => { b with valid := true, data := s.disk (s.block i) })
        (t := { s with cache := setData s.cache i (s.disk (s.block i)) }.setPc p .idle) (hs.loading p i hpc) rfl
        (fun b => ⟨rfl, rfl⟩) rfl rfl rfl rfl fun q j hj hq hload => ?_
      · dsimp only at hset
        rwa [hdata, Function.update_eq_self, ← hdata] at hset
      · have hqp : q ≠ p := fun hqp => hj (Pc.loading.inj ((hqp ▸ hload).symm.trans hpc))
        exact hq ((System.setPc_of_ne hqp).trans hload)
  | @modify p i data hhas =>
      have hvalid := h.filled p i hhas.1 (by simp [hhas.2])
      exact h.set hs (f := fun b => { b with data := data }) hhas.1 rfl (fun b => ⟨rfl, rfl⟩) hvalid rfl rfl rfl
        fun q j _ hq => hq
  | @bwrite p i hhas =>
      have hvalid := h.filled p i hhas.1 (by simp [hhas.2])
      have hdata := h.fresh i (hs.rootdev i (hs.referenced (p := p) (.inl (.inl hhas.1)))) hvalid
      refine h.stay (fun j => .refl _) h.filled h.pinned (fun b hb => ?_) fun j _ _ _ hheld => hheld
      by_cases hbi : b = s.block i
      · subst hbi
        exact absurd ((Function.update_self ..).trans hdata) hb
      · exact fun hdisk => hb ((Function.update_of_ne hbi ..).trans hdisk)
  | @bpin p i hhas hpin =>
      have hvalid := h.filled p i hhas.1 (by simp [hhas.2])
      refine h.stay (Shows.modify rfl fun b => ⟨rfl, rfl, rfl, rfl⟩) h.filled (fun j hj => ?_) (fun b hb => hb)
        fun j _ _ _ hheld => ?_
      · by_cases hji : j = i
        · rw [hji, hvalid]
        · exact h.pinned j ((Function.update_of_ne hji ..).symm.trans hj)
      · by_cases hji : j = i
        · subst hji
          exact .inr (Function.update_self ..)
        · simpa [hji] using hheld
  | @bunpin p i hhas hpin =>
      refine h.stay (Shows.modify rfl fun b => ⟨rfl, rfl, rfl, rfl⟩) h.filled (fun j hj => ?_) (fun b hb => hb)
        fun j _ _ _ hheld => ?_
      · have hji : j ≠ i := by
          rintro rfl
          simp at hj
        exact h.pinned j ((Function.update_of_ne hji ..).symm.trans hj)
      · by_cases hji : j = i
        · subst hji
          left
          simp [hhas.1]
        · simpa [hji] using hheld
  | @releasesleep p i hhas => exact h.releasesleep hhas (hcare p i rfl)
  | @brelse p i hpc =>
      have hshows := Shows.modify (brelse_buf s.cache i) fun b => ⟨rfl, rfl, rfl, rfl⟩
      refine h.stay hshows (fun q j hq hqpc => ?_) h.pinned (fun b hb => hb) fun j _ _ _ hheld => hheld
      exact h.filled q j hq (setPc_ne_loading (p := p) (by simp [hpc]) hqpc)

theorem boot (blank : β) (disk : UInt32 → β) : Coherent (System.boot blank disk) disk where
  filled p i hi := by cases hi
  pinned i hi := by cases hi
  fresh i hdev := by
    rw [System.boot, boot_buf] at hdev
    exact absurd hdev (by decide : (0 : UInt32) ≠ ROOTDEV)
  clean b hb := absurd rfl hb

end Coherent

/-! ## Every run -/

variable {blank : β} {disk : UInt32 → β} {tr : List (Transition (System β) (Event β))}

theorem stored_snoc (disk : UInt32 → β) (tr : List (Transition (System β) (Event β)))
    (x : Transition (System β) (Event β)) : stored disk (tr ++ [x]) = Coherent.next (stored disk tr) x := by
  simp only [stored, List.foldl_append, List.foldl_cons, List.foldl_nil]
  rfl

theorem Coherent.run (h : Run System.step (System.boot blank disk) tr s) (hcare : ∀ x ∈ tr, Careful x) :
    Coherent s (stored disk tr) := by
  induction h with
  | nil => exact .boot blank disk
  | snoc h he ih =>
      rw [stored_snoc]
      exact (ih fun x hx => hcare x (List.mem_append_left _ hx)).step (.run h) he (hcare _ (by simp))

/-- What the cache promises to the processes. -/
structure Exclusive (tr : List (Transition (System β) (Event β))) (s : System β) : Prop where
  counts : ∀ i, (s.cache.buf i).refcnt.toNat = s.count i
  /-- A buffer that somebody refers to is not recycled. -/
  kept : ∀ x ∈ tr, ∀ p i, x.pre.Uses p i ∨ x.pre.pinned i = true → x.post.block i = x.pre.block i
  /-- All who refer to one block refer to one buffer, so they share its lock. -/
  shared : ∀ p q i j, s.Uses p i → s.Uses q j → s.block i = s.block j → i = j
  alone : ∀ p q i j, s.Has p i → s.Has q j → s.block i = s.block j → p = q

/-- A process that `bread` has given the buffer of a block finds there what was last stored in the block. -/
theorem bread_stored (h : Run System.step (System.boot blank disk) tr s) (hcare : ∀ x ∈ tr, Careful x)
    (hlock : s.lock i = some p) (hpc : s.pc p ≠ .loading i) : (s.cache.buf i).data = stored disk tr (s.block i) := by
  have hs := Sound.run h
  have hc := Coherent.run h hcare
  exact hc.fresh i (hs.rootdev i (hs.referenced (p := p) (.inl (.inl hlock)))) (hc.filled p i hlock hpc)

theorem careful_of_ne {x : Transition (System β) (Event β)} (h : ∀ p i, x.event ≠ .releasesleep p i) : Careful x :=
  fun p i hx => absurd hx (h p i)

/-- A process changes a block, writes it and releases it, and another one reads it. -/
theorem bread_stored_written : ∃ tr, ∃ s : System Nat, s.lock 0 = some 1 ∧ (s.cache.buf 0).data = 42 ∧
    (s.cache.buf 0).data = stored (fun _ => 0) tr (s.block 0) := by
  have hplay : (final System.step (System.boot 0 fun _ => 0)
      [.bget 0 7, .acquiresleep 0, .load 0, .modify 0 0 42, .bwrite 0 0]).any (fun s =>
        s.disk (s.block 0) = (s.cache.buf 0).data ∧ (System.step (.releasesleep 0 0) s).any fun s =>
          (final System.step s [.brelse 0, .bget 1 7, .acquiresleep 1, .load 1]).any fun s =>
            s.lock 0 = some 1 ∧ s.pc 1 = .idle ∧ (s.cache.buf 0).data = 42) = true := by
    decide +kernel
  obtain ⟨tr, s, h, hev, hs⟩ := Run.replay hplay
  obtain ⟨hdisk, hs⟩ := of_decide_eq_true hs
  obtain ⟨t, ht, hs⟩ := (Option.any_eq_true _ _).mp hs
  obtain ⟨tr', u, h', hev', hu⟩ := Run.replay hs
  obtain ⟨hlock, hpc, hdata⟩ := of_decide_eq_true hu
  have hquiet : ∀ tr : List (Transition (System Nat) (Event Nat)),
      (∀ e ∈ tr.map Transition.event, ∀ p i, e ≠ .releasesleep p i) → ∀ x ∈ tr, Careful x :=
    fun tr hall x hx => careful_of_ne (hall _ (List.mem_map_of_mem hx))
  refine ⟨_, u, hlock, hdata, bread_stored ((h.snoc ht).append h') ?_ hlock (by simp [hpc])⟩
  refine List.forall_mem_append.mpr ⟨List.forall_mem_append.mpr ⟨hquiet tr ?_, ?_⟩, hquiet tr' ?_⟩
  · rw [hev]
    simp
  · refine List.forall_mem_singleton.mpr fun p i hx => ?_
    obtain ⟨-, rfl⟩ := Event.releasesleep.inj hx
    exact .inl hdisk
  · rw [hev']
    simp

end Xv6Mlfq.Cache
