import Xv6Mlfq.Cache.Exclusive

/-!
# The disk behind the buffer cache (`bio.c`)

The log uses a buffer from `bread` to `brelse` without giving it up. A block is seen through the cache: what
its buffer holds, or what is on the disk if it has none.
-/

namespace Xv6Mlfq.Journal

open Cache

/-- The words of a block: `BSIZE / sizeof(uint)` of them. -/
abbrev Block := Fin 256 → UInt32

structure Device where
  disk : UInt32 → Block
  cache : Bcache Block

/-- Code that runs on the device; it has no outcome if `bget` panics. -/
abbrev Io := StateT Device Option

def bread (blockno : UInt32) : Io Index := fun d =>
  (bget d.cache ROOTDEV blockno).map fun r =>
    if (r.2.buf r.1).valid then (r.1, { d with cache := r.2 })
    else (r.1, { d with cache := setData r.2 r.1 (d.disk (r.2.buf r.1).blockno) })

/-- `b->data`. -/
def getData (i : Index) : Io Block := fun d => some ((d.cache.buf i).data, d)

/-- The data of the buffer are overwritten. -/
def memmove (i : Index) (data : Block) : Io PUnit := fun d =>
  some (⟨⟩, { d with cache := d.cache.modify i fun b => { b with data := data } })

def bwrite (i : Index) : Io PUnit := fun d =>
  some (⟨⟩, { d with disk := Function.update d.disk (d.cache.buf i).blockno (d.cache.buf i).data })

def brelse (i : Index) : Io PUnit := fun d => some (⟨⟩, { d with cache := Cache.brelse d.cache i })

def bpin (i : Index) : Io PUnit := fun d => some (⟨⟩, { d with cache := Cache.bpin d.cache i })

def bunpin (i : Index) : Io PUnit := fun d => some (⟨⟩, { d with cache := Cache.bunpin d.cache i })

/-- Every outcome of the code has the property. -/
def Ensures {α : Type} (x : Io α) (d : Device) (Q : α → Device → Prop) : Prop := ∀ r, x d = some r → Q r.1 r.2

theorem Ensures.bind {α γ : Type} {x : Io α} {f : α → Io γ} {d : Device} {P : α → Device → Prop}
    {Q : γ → Device → Prop} (hx : Ensures x d P) (hf : ∀ a d', P a d' → Ensures (f a) d' Q) :
    Ensures (x >>= f) d Q := by
  intro r hr
  obtain ⟨⟨a, d'⟩, ha, hr⟩ := Option.bind_eq_some_iff.mp hr
  exact hf a d' (hx _ ha) r hr

/-! ## What the device shows -/

/-- The blocks have the contents `V` and the buffers the references `R`; what nobody refers to is on the disk. -/
structure Shows (d : Device) (V : UInt32 → Block) (R : UInt32 → UInt32) : Prop where
  listed : ∃ order, Listed d.cache order
  rootdev : ∀ i, (d.cache.buf i).refcnt ≠ 0 → (d.cache.buf i).dev = ROOTDEV
  refs : ∀ i, (d.cache.buf i).dev = ROOTDEV → (d.cache.buf i).refcnt = R (d.cache.buf i).blockno
  held : ∀ b, R b ≠ 0 → ∃ i, Holds d.cache ROOTDEV b i
  valid : ∀ i, (d.cache.buf i).refcnt ≠ 0 → (d.cache.buf i).valid = true
  view : ∀ i, (d.cache.buf i).dev = ROOTDEV → (d.cache.buf i).valid = true →
    (d.cache.buf i).data = V (d.cache.buf i).blockno
  clean : ∀ b, R b = 0 → d.disk b = V b

variable {d : Device} {V : UInt32 → Block} {R : UInt32 → UInt32} {b : UInt32} {i j : Index} {v : Block}

namespace Shows

theorem unique (h : Shows d V R) (hi : Holds d.cache ROOTDEV b i) (hj : Holds d.cache ROOTDEV b j) : i = j := by
  obtain ⟨order, hl⟩ := h.listed
  exact hl.unique hi hj (rootdev_ne b)

theorem refs_of_holds (h : Shows d V R) (hi : Holds d.cache ROOTDEV b i) : (d.cache.buf i).refcnt = R b :=
  hi.2 ▸ h.refs i hi.1

theorem valid_of_refs (h : Shows d V R) (hi : Holds d.cache ROOTDEV b i) (hR : R b ≠ 0) :
    (d.cache.buf i).valid = true := h.valid i (h.refs_of_holds hi ▸ hR)

theorem data (h : Shows d V R) (hi : Holds d.cache ROOTDEV b i) (hR : R b ≠ 0) : (d.cache.buf i).data = V b :=
  hi.2 ▸ h.view i hi.1 (h.valid_of_refs hi hR)

/-- The buffer of one block changes its data or its references. -/
theorem modify {e : Device} (h : Shows d V R) {f : Buf Block → Buf Block} (hi : Holds d.cache ROOTDEV b i)
    (hlisted : ∃ order, Listed e.cache order) (hbuf : e.cache.buf = (d.cache.modify i f).buf)
    (hdev : ∀ b, (f b).dev = b.dev ∧ (f b).blockno = b.blockno)
    (hvalid : (f (d.cache.buf i)).refcnt ≠ 0 → (f (d.cache.buf i)).valid = true)
    (hdata : (f (d.cache.buf i)).valid = true → (f (d.cache.buf i)).data = v)
    (hdisk : ∀ b', b' ≠ b → e.disk b' = d.disk b')
    (hclean : (f (d.cache.buf i)).refcnt = 0 → e.disk b = v) :
    Shows e (Function.update V b v) (Function.update R b (f (d.cache.buf i)).refcnt) ∧
      ∀ b' j, Holds d.cache ROOTDEV b' j → Holds e.cache ROOTDEV b' j := by
  have hself : e.cache.buf i = f (d.cache.buf i) := by rw [hbuf, modify_self]
  have hother : ∀ j, j ≠ i → e.cache.buf j = d.cache.buf j := fun j hj => by rw [hbuf, modify_of_ne f hj]
  have hkey : ∀ j, (e.cache.buf j).dev = (d.cache.buf j).dev ∧ (e.cache.buf j).blockno = (d.cache.buf j).blockno := by
    intro j
    by_cases hj : j = i
    · rw [hj, hself]
      exact hdev _
    · rw [hother j hj]
      exact ⟨rfl, rfl⟩
  have hholds : ∀ b' j, Holds d.cache ROOTDEV b' j → Holds e.cache ROOTDEV b' j := fun b' j hj =>
    ⟨(hkey j).1.trans hj.1, (hkey j).2.trans hj.2⟩
  have hblockno : ∀ j, j ≠ i → (d.cache.buf j).dev = ROOTDEV → (d.cache.buf j).blockno ≠ b := fun j hj hjdev heq =>
    hj (h.unique ⟨hjdev, heq⟩ hi)
  refine ⟨⟨hlisted, fun j hj => ?_, fun j hj => ?_, fun b' hb' => ?_, fun j hj => ?_, fun j hj hjv => ?_,
    fun b' hb' => ?_⟩, hholds⟩
  · by_cases hji : j = i
    · rw [hji, (hkey i).1, hi.1]
    · rw [hother j hji] at hj ⊢
      exact h.rootdev j hj
  · by_cases hji : j = i
    · subst hji
      rw [(hkey j).2, hi.2, Function.update_self, hself]
    · rw [hother j hji] at hj ⊢
      rw [Function.update_of_ne (hblockno j hji hj), h.refs j hj]
  · by_cases hbb : b' = b
    · exact ⟨i, hholds b' i (hbb ▸ hi)⟩
    · rw [Function.update_of_ne hbb] at hb'
      obtain ⟨j, hj⟩ := h.held b' hb'
      exact ⟨j, hholds b' j hj⟩
  · by_cases hji : j = i
    · rw [hji, hself] at hj ⊢
      exact hvalid hj
    · rw [hother j hji] at hj ⊢
      exact h.valid j hj
  · by_cases hji : j = i
    · subst hji
      rw [(hkey j).2, hi.2, Function.update_self]
      rw [hself] at hjv ⊢
      exact hdata hjv
    · rw [hother j hji] at hj hjv ⊢
      rw [Function.update_of_ne (hblockno j hji hj)]
      exact h.view j hj hjv
  · by_cases hbb : b' = b
    · subst hbb
      rw [Function.update_self] at hb' ⊢
      exact hclean hb'
    · rw [Function.update_of_ne hbb] at hb' ⊢
      rw [hdisk b' hbb, h.clean b' hb']

/-- The buffer of a block that nobody refers to, or a free one, is filled from the disk. -/
theorem recycle {e : Device} (h : Shows d V R) (hlisted : ∃ order, Listed e.cache order) (hdisk : e.disk = d.disk)
    (hother : ∀ j, j ≠ i → e.cache.buf j = d.cache.buf j) (hfree : (d.cache.buf i).refcnt = 0)
    (hmiss : ∀ j, ¬ Holds d.cache ROOTDEV b j)
    (hself : e.cache.buf i = ⟨true, ROOTDEV, b, 1, d.disk b⟩) :
    Shows e V (Function.update R b 1) ∧
      ∀ b' j, Holds d.cache ROOTDEV b' j → R b' ≠ 0 → Holds e.cache ROOTDEV b' j := by
  have hR : R b = 0 := by
    by_contra hne
    obtain ⟨j, hj⟩ := h.held b hne
    exact hmiss j hj
  have hkeep : ∀ b' j, Holds d.cache ROOTDEV b' j → R b' ≠ 0 → j ≠ i := by
    rintro b' j hj hne rfl
    exact hne (h.refs_of_holds hj ▸ hfree)
  have hholds : ∀ b' j, Holds d.cache ROOTDEV b' j → R b' ≠ 0 → Holds e.cache ROOTDEV b' j := by
    intro b' j hj hne
    rw [Holds, hother j (hkeep b' j hj hne)]
    exact hj
  refine ⟨⟨hlisted, fun j hj => ?_, fun j hj => ?_, fun b' hb' => ?_, fun j hj => ?_, fun j hj hjv => ?_,
    fun b' hb' => ?_⟩, hholds⟩
  · by_cases hji : j = i
    · rw [hji, hself]
    · rw [hother j hji] at hj ⊢
      exact h.rootdev j hj
  · by_cases hji : j = i
    · rw [hji, hself, Function.update_self]
    · rw [hother j hji] at hj ⊢
      have hne : (d.cache.buf j).blockno ≠ b := fun heq => hmiss j ⟨hj, heq⟩
      rw [Function.update_of_ne hne, h.refs j hj]
  · by_cases hbb : b' = b
    · subst hbb
      refine ⟨i, ?_⟩
      rw [Holds, hself]
      exact ⟨rfl, rfl⟩
    · rw [Function.update_of_ne hbb] at hb'
      obtain ⟨j, hj⟩ := h.held b' hb'
      exact ⟨j, hholds b' j hj hb'⟩
  · by_cases hji : j = i
    · rw [hji, hself]
    · rw [hother j hji] at hj ⊢
      exact h.valid j hj
  · by_cases hji : j = i
    · rw [hji, hself]
      exact h.clean b hR
    · rw [hother j hji] at hj hjv ⊢
      exact h.view j hj hjv
  · rw [hdisk]
    by_cases hbb : b' = b
    · rw [hbb]
      exact h.clean b hR
    · rw [Function.update_of_ne hbb] at hb'
      exact h.clean b' hb'

/-! ## The functions of `bio.c` -/

theorem bread (h : Shows d V R) (hR : R b + 1 ≠ 0) :
    Ensures (bread b) d fun i d' => d'.disk = d.disk ∧ Shows d' V (Function.update R b (R b + 1)) ∧
      Holds d'.cache ROOTDEV b i ∧ ∀ b' j, Holds d.cache ROOTDEV b' j → R b' ≠ 0 → Holds d'.cache ROOTDEV b' j := by
  intro r hr
  obtain ⟨⟨i, c⟩, hget, rfl⟩ := Option.map_eq_some_iff.mp hr
  obtain ⟨order, hl⟩ := h.listed
  have hl' := hl.bget hget
  have hfill : ∀ b', Listed (setData c i b') order := fun b' => hl'.modify (fun _ => rfl) fun _ => rfl
  cases hl.bget_cases hget with
  | hit hi =>
      have hrefs := h.refs_of_holds hi
      by_cases hvalid : (d.cache.buf i).valid = true
      · have hm := h.modify (e := { d with cache := d.cache.modify i fun b => { b with refcnt := b.refcnt + 1 } })
          (v := V b) hi ⟨order, hl'⟩ rfl (fun b => ⟨rfl, rfl⟩) (fun _ => hvalid) (fun _ => hi.2 ▸ h.view i hi.1 hvalid)
          (fun b' _ => rfl) fun hzero => absurd (hrefs ▸ hzero) hR
        dsimp only at hm ⊢
        rw [modify_self, if_pos hvalid]
        rw [Function.update_eq_self, hrefs] at hm
        exact ⟨rfl, hm.1, hm.2 b i hi, fun b' j hj _ => hm.2 b' j hj⟩
      · have hzero : (d.cache.buf i).refcnt = 0 := by
          by_contra hne
          exact hvalid (h.valid i hne)
        have hclean := h.clean b (hrefs ▸ hzero)
        have hfilled : setData (d.cache.modify i fun buf => { buf with refcnt := buf.refcnt + 1 }) i
            (d.disk (d.cache.buf i).blockno) = d.cache.modify i fun buf =>
              { buf with valid := true, refcnt := buf.refcnt + 1, data := d.disk (d.cache.buf i).blockno } := by
          unfold setData
          exact modify_modify ..
        have hm := h.modify (e := { d with cache := setData (d.cache.modify i fun buf =>
            { buf with refcnt := buf.refcnt + 1 }) i (d.disk (d.cache.buf i).blockno) })
          (f := fun buf => { buf with valid := true, refcnt := buf.refcnt + 1, data := d.disk (d.cache.buf i).blockno })
          (v := V b) hi ⟨order, hfill _⟩ (congrArg Bcache.buf hfilled) (fun b => ⟨rfl, rfl⟩) (fun _ => rfl)
          (fun _ => hi.2.symm ▸ hclean) (fun b' _ => rfl) fun hzero => absurd (hrefs ▸ hzero) hR
        dsimp only at hm ⊢
        rw [modify_self, if_neg hvalid]
        rw [Function.update_eq_self, hrefs] at hm
        exact ⟨rfl, hm.1, hm.2 b i hi, fun b' j hj _ => hm.2 b' j hj⟩
  | recycle hmiss hfree =>
      dsimp only
      rw [modify_self, if_neg Bool.false_ne_true]
      have hself : (setData (d.cache.modify i fun buf =>
          { buf with dev := ROOTDEV, blockno := b, valid := false, refcnt := 1 }) i (d.disk b)).buf i =
            ⟨true, ROOTDEV, b, 1, d.disk b⟩ := by
        simp [setData]
      have hm := h.recycle (e := { d with cache := setData (d.cache.modify i fun buf =>
          { buf with dev := ROOTDEV, blockno := b, valid := false, refcnt := 1 }) i (d.disk b) }) ⟨order, hfill _⟩ rfl
        (fun j hj => by simp [setData, modify_of_ne _ hj]) hfree hmiss hself
      have hR₀ : R b = 0 := by
        by_contra hne
        obtain ⟨j, hj⟩ := h.held b hne
        exact hmiss j hj
      rw [hR₀]
      refine ⟨rfl, hm.1, ?_, hm.2⟩
      rw [Holds, hself]
      exact ⟨rfl, rfl⟩

theorem getData (h : Shows d V R) (hi : Holds d.cache ROOTDEV b i) (hR : R b ≠ 0) :
    Ensures (getData i) d fun v d' => v = V b ∧ d' = d := by
  rintro r hr
  obtain rfl := Option.some.inj hr
  exact ⟨h.data hi hR, rfl⟩

theorem memmove (h : Shows d V R) (hi : Holds d.cache ROOTDEV b i) (hR : R b ≠ 0) (v : Block) :
    Ensures (memmove i v) d fun _ d' => d'.disk = d.disk ∧ Shows d' (Function.update V b v) R ∧
      ∀ b' j, Holds d.cache ROOTDEV b' j → Holds d'.cache ROOTDEV b' j := by
  rintro r hr
  obtain rfl := Option.some.inj hr
  obtain ⟨order, hl⟩ := h.listed
  have hlisted : Listed (d.cache.modify i fun b => { b with data := v }) order := hl.modify (fun _ => rfl) fun _ => rfl
  have hrefs := h.refs_of_holds hi
  have hm := h.modify (e := { d with cache := d.cache.modify i fun b => { b with data := v } }) (v := v) hi
    ⟨order, hlisted⟩ rfl (fun b => ⟨rfl, rfl⟩) (fun _ => h.valid_of_refs hi hR) (fun _ => rfl) (fun b' _ => rfl)
    fun hzero => absurd (hrefs ▸ hzero) hR
  dsimp only at hm
  rw [hrefs, Function.update_eq_self] at hm
  exact ⟨rfl, hm⟩

theorem bwrite (h : Shows d V R) (hi : Holds d.cache ROOTDEV b i) (hR : R b ≠ 0) :
    Ensures (bwrite i) d fun _ d' => d'.disk = Function.update d.disk b (V b) ∧ Shows d' V R ∧
      ∀ b' j, Holds d.cache ROOTDEV b' j → Holds d'.cache ROOTDEV b' j := by
  rintro r hr
  obtain rfl := Option.some.inj hr
  have hdisk : Function.update d.disk (d.cache.buf i).blockno (d.cache.buf i).data = Function.update d.disk b (V b) := by
    rw [h.data hi hR, hi.2]
  refine ⟨hdisk, ⟨h.listed, h.rootdev, h.refs, h.held, h.valid, h.view, fun b' hb' => ?_⟩, fun _ _ hj => hj⟩
  have hbb : b' ≠ b := fun heq => hR (heq ▸ hb')
  dsimp only
  rw [hdisk, Function.update_of_ne hbb, h.clean b' hb']

/-- A change of the references to a buffer; the last one goes only if the block is on the disk. -/
theorem rerefer (h : Shows d V R) {c : Bcache Block} {r : UInt32} (hi : Holds d.cache ROOTDEV b i) (hR : R b ≠ 0)
    (hlisted : ∃ order, Listed c order)
    (hbuf : c.buf = (d.cache.modify i fun buf => { buf with refcnt := r }).buf) (hclean : r = 0 → d.disk b = V b) :
    Shows { d with cache := c } V (Function.update R b r) ∧
      ∀ b' j, Holds d.cache ROOTDEV b' j → Holds c ROOTDEV b' j := by
  have hm := h.modify (e := { d with cache := c }) (v := V b) hi hlisted hbuf (fun b => ⟨rfl, rfl⟩)
    (fun _ => h.valid_of_refs hi hR) (fun _ => h.data hi hR) (fun b' _ => rfl) hclean
  rwa [Function.update_eq_self] at hm

theorem brelse (h : Shows d V R) (hi : Holds d.cache ROOTDEV b i) (hR : R b ≠ 0)
    (hclean : R b - 1 = 0 → d.disk b = V b) :
    Ensures (brelse i) d fun _ d' => d'.disk = d.disk ∧ Shows d' V (Function.update R b (R b - 1)) ∧
      ∀ b' j, Holds d.cache ROOTDEV b' j → Holds d'.cache ROOTDEV b' j := by
  rintro r hr
  obtain rfl := Option.some.inj hr
  obtain ⟨order, hl⟩ := h.listed
  refine ⟨rfl, h.rerefer hi hR ⟨_, hl.brelse i⟩ ?_ hclean⟩
  rw [brelse_buf, ← h.refs_of_holds hi]
  rfl

theorem bpin (h : Shows d V R) (hi : Holds d.cache ROOTDEV b i) (hR : R b ≠ 0) (hR' : R b + 1 ≠ 0) :
    Ensures (bpin i) d fun _ d' => d'.disk = d.disk ∧ Shows d' V (Function.update R b (R b + 1)) ∧
      ∀ b' j, Holds d.cache ROOTDEV b' j → Holds d'.cache ROOTDEV b' j := by
  rintro r hr
  obtain rfl := Option.some.inj hr
  obtain ⟨order, hl⟩ := h.listed
  have hlisted : Listed (Cache.bpin d.cache i) order := hl.modify (fun _ => rfl) fun _ => rfl
  refine ⟨rfl, h.rerefer hi hR ⟨order, hlisted⟩ ?_ fun hzero => absurd hzero hR'⟩
  rw [← h.refs_of_holds hi]
  rfl

theorem bunpin (h : Shows d V R) (hi : Holds d.cache ROOTDEV b i) (hR : R b ≠ 0)
    (hclean : R b - 1 = 0 → d.disk b = V b) :
    Ensures (bunpin i) d fun _ d' => d'.disk = d.disk ∧ Shows d' V (Function.update R b (R b - 1)) ∧
      ∀ b' j, Holds d.cache ROOTDEV b' j → Holds d'.cache ROOTDEV b' j := by
  rintro r hr
  obtain rfl := Option.some.inj hr
  obtain ⟨order, hl⟩ := h.listed
  have hlisted : Listed (Cache.bunpin d.cache i) order := hl.modify (fun _ => rfl) fun _ => rfl
  refine ⟨rfl, h.rerefer hi hR ⟨order, hlisted⟩ ?_ hclean⟩
  rw [← h.refs_of_holds hi]
  rfl

end Shows

end Xv6Mlfq.Journal
