import Xv6Mlfq.Journal.Log

/-!
# What the log keeps on the disk

The header names the blocks that a recovery copies to their homes. It lies in the first sector of its block, so a
torn write leaves the old header or the new one.
-/

namespace Xv6Mlfq.Journal

variable {sb : Superblock} {disk : UInt32 → Block} {D : UInt32 → Block} {bs : List UInt32} {b c : UInt32}
  {v v' old new : Block} {t t' : Nat} {first second : Bool}

/-! ## The places of the log -/

/-- The block lies outside the log: it is not the header, nor one of the blocks behind it. -/
def Superblock.Home (sb : Superblock) (b : UInt32) : Prop := ∀ t ≤ sb.capacity, b ≠ sb.logstart + UInt32.ofNat t

instance (sb : Superblock) (b : UInt32) : Decidable (sb.Home b) := inferInstanceAs (Decidable (∀ t ≤ _, _))

theorem capacity_le (sb : Superblock) : sb.capacity ≤ LOGSIZE := min_le_left ..

theorem slot_eq (sb : Superblock) (t : Nat) : sb.slot t = sb.logstart + UInt32.ofNat (t + 1) := by
  rw [Superblock.slot, UInt32.add_assoc, UInt32.ofNat_add]
  rfl

theorem Superblock.Home.ne_slot (h : sb.Home b) (ht : t < sb.capacity) : b ≠ sb.slot t := slot_eq sb t ▸ h (t + 1) ht

theorem Superblock.Home.ne_logstart (h : sb.Home b) : b ≠ sb.logstart := by
  have hzero := h 0 (Nat.zero_le _)
  simpa using hzero

theorem ofNat_inj (ht : t ≤ LOGSIZE) (ht' : t' ≤ LOGSIZE) (h : UInt32.ofNat t = UInt32.ofNat t') : t = t' := by
  have heq := congrArg UInt32.toNat h
  rwa [UInt32.toNat_ofNat_of_lt' (ht.trans_lt (by decide)), UInt32.toNat_ofNat_of_lt' (ht'.trans_lt (by decide))] at heq

theorem slot_inj (ht : t < sb.capacity) (ht' : t' < sb.capacity) (h : sb.slot t = sb.slot t') : t = t' := by
  rw [slot_eq, slot_eq] at h
  exact Nat.succ.inj (ofNat_inj (ht.trans_le (capacity_le sb)) (ht'.trans_le (capacity_le sb))
    ((UInt32.add_right_inj _).mp h))

theorem slot_ne_logstart (ht : t < sb.capacity) : sb.slot t ≠ sb.logstart := by
  intro h
  rw [slot_eq] at h
  have hzero : UInt32.ofNat (t + 1) = UInt32.ofNat 0 := (UInt32.add_right_inj _).mp (h.trans (UInt32.add_zero _).symm)
  exact absurd (ofNat_inj (ht.trans_le (capacity_le sb)) (Nat.zero_le _) hzero) (Nat.succ_ne_zero t)

/-! ## The header -/

theorem toInt_ofNat {n : Nat} (hn : n ≤ LOGSIZE) : (UInt32.ofNat n).toBitVec.toInt = n := by
  have hlt : n < 2 ^ 31 := hn.trans_lt (by decide)
  have hnat : (UInt32.ofNat n).toBitVec.toNat = n := UInt32.toNat_ofNat_of_lt' (hn.trans_lt (by decide))
  rw [BitVec.toInt_eq_toNat_of_lt (by rw [hnat]; omega), hnat]

theorem loadHeader_storeHeader (hbs : bs.length ≤ LOGSIZE) (v : Block) : loadHeader (storeHeader bs v) = some bs := by
  have hn : (storeHeader bs v 0).toBitVec.toInt = bs.length := toInt_ofNat hbs
  have hwords : (List.range bs.length).map (fun i => storeHeader bs v (Fin.ofNat 256 (i + 1))) = bs := by
    refine List.ext_getElem (by simp) fun i hi hi' => ?_
    have hlt : i + 1 < 256 := (Nat.succ_le_of_lt hi').trans_lt (hbs.trans_lt (by decide))
    have hne : Fin.ofNat 256 (i + 1) ≠ 0 := by
      simp [Fin.ext_iff, Nat.mod_eq_of_lt hlt]
    have hval : (Fin.ofNat 256 (i + 1)).val = i + 1 := Nat.mod_eq_of_lt hlt
    rw [List.getElem_map, List.getElem_range, storeHeader, if_neg hne, hval, Nat.add_sub_cancel,
      List.getElem?_eq_getElem hi', Option.getD_some]
  unfold loadHeader
  dsimp only
  rw [hn, if_neg (by omega), Int.toNat_natCast, hwords]

/-- The header is read from the first sector. -/
theorem loadHeader_congr (h : ∀ w : Fin 256, w.val < 128 → v w = v' w) : loadHeader v = loadHeader v' := by
  unfold loadHeader
  rw [h 0 (by decide)]
  dsimp only
  split_ifs with hn
  · rfl
  · refine congrArg some (List.map_congr_left fun i hi => h _ ?_)
    have hi := List.mem_range.mp hi
    have hle : i + 1 ≤ LOGSIZE := by omega
    have hlt : i + 1 < 128 := hle.trans_lt (by decide)
    show (i + 1) % 256 < 128
    omega

theorem loadHeader_tear (first second : Bool) (old new : Block) :
    loadHeader (tear first second old new) = loadHeader (if first then new else old) := by
  refine loadHeader_congr fun w hw => ?_
  rw [tear, if_pos hw]
  cases first with
  | true => rfl
  | false => rfl

/-- A write to one block that is torn is another write to it. -/
theorem tear_update (disk : UInt32 → Block) (c : UInt32) (v : Block) (first second : Bool) :
    (fun b => tear first second (disk b) (Function.update disk c v b)) =
      Function.update disk c (tear first second (disk c) v) := by
  funext b
  by_cases hb : b = c
  · subst hb
    rw [Function.update_self, Function.update_self]
  · rw [Function.update_of_ne hb, Function.update_of_ne hb]
    exact funext fun _ => ite_self _

theorem tear_self (disk : UInt32 → Block) (first second : Bool) :
    (fun b => tear first second (disk b) (disk b)) = disk := funext fun _ => funext fun _ => ite_self _

/-! ## The transaction in the log -/

def Header (sb : Superblock) (disk : UInt32 → Block) (bs : List UInt32) : Prop :=
  loadHeader (disk sb.logstart) = some bs

/-- The log has the contents `D` of these blocks, the homes have those of all others. -/
structure Saved (sb : Superblock) (disk D : UInt32 → Block) (bs : List UInt32) : Prop where
  nodup : bs.Nodup
  length : bs.length ≤ sb.capacity
  home : ∀ b ∈ bs, sb.Home b
  copied : ∀ j b, bs[j]? = some b → disk (sb.slot j) = D b
  rest : ∀ b, sb.Home b → b ∉ bs → disk b = D b

/-- A recovery from this disk brings the contents `D` back. -/
def Recoverable (sb : Superblock) (disk D : UInt32 → Block) : Prop := ∃ bs, Header sb disk bs ∧ Saved sb disk D bs

theorem Header.update (h : Header sb disk bs) (hc : c ≠ sb.logstart) (v : Block) :
    Header sb (Function.update disk c v) bs := by
  rwa [Header, Function.update_of_ne hc.symm]

theorem Header.store (hbs : bs.length ≤ sb.capacity) (disk : UInt32 → Block) (v : Block) :
    Header sb (Function.update disk sb.logstart (storeHeader bs v)) bs := by
  rw [Header, Function.update_self, loadHeader_storeHeader (hbs.trans (capacity_le sb))]

namespace Saved

theorem lt_of_getElem? {t : Nat} (h : Saved sb disk D bs) (ht : bs[t]? = some b) : t < sb.capacity :=
  (List.getElem?_eq_some_iff.mp ht).1.trans_le h.length

theorem home_of_getElem? {t : Nat} (h : Saved sb disk D bs) (ht : bs[t]? = some b) : sb.Home b :=
  h.home b (List.mem_of_getElem? ht)

/-- The write goes to a block that the transaction does not need. -/
theorem update (h : Saved sb disk D bs) (hslot : ∀ t < bs.length, c ≠ sb.slot t) (hhome : sb.Home c → c ∈ bs)
    (v : Block) : Saved sb (Function.update disk c v) D bs := by
  refine ⟨h.nodup, h.length, h.home, fun j b hj => ?_, fun b hb hmem => ?_⟩
  · rw [Function.update_of_ne (hslot j (List.getElem?_eq_some_iff.mp hj).1).symm]
    exact h.copied j b hj
  · have hne : b ≠ c := fun heq => hmem (heq ▸ hhome (heq ▸ hb))
    rw [Function.update_of_ne hne]
    exact h.rest b hb hmem

theorem update_header (h : Saved sb disk D bs) (v : Block) : Saved sb (Function.update disk sb.logstart v) D bs :=
  h.update (fun _ ht => (slot_ne_logstart (ht.trans_le h.length)).symm) (fun hc => absurd rfl hc.ne_logstart) v

theorem update_slot (h : Saved sb disk D []) (ht : t < sb.capacity) (v : Block) :
    Saved sb (Function.update disk (sb.slot t) v) D [] :=
  h.update (fun _ hj => absurd hj (Nat.not_lt_zero _)) (fun hc => absurd rfl (hc.ne_slot ht)) v

theorem update_home (h : Saved sb disk D bs) (hb : b ∈ bs) (v : Block) : Saved sb (Function.update disk b v) D bs :=
  h.update (fun _ ht => (h.home b hb).ne_slot (ht.trans_le h.length)) (fun _ => hb) v

end Saved

/-- The header is written, in one piece. -/
theorem Recoverable.torn {D' : UInt32 → Block} (h : Recoverable sb disk D) (h' : Saved sb disk D' bs) (v : Block)
    (first second : Bool) :
    Recoverable sb (Function.update disk sb.logstart (tear first second (disk sb.logstart) (storeHeader bs v)))
      (if first then D' else D) := by
  cases first with
  | true =>
      refine ⟨bs, ?_, h'.update_header _⟩
      rw [Header, Function.update_self, loadHeader_tear, if_pos rfl, loadHeader_storeHeader (h'.length.trans (capacity_le sb))]
  | false =>
      obtain ⟨bs₀, hheader, hsaved⟩ := h
      refine ⟨bs₀, ?_, hsaved.update_header _⟩
      rwa [Header, Function.update_self, loadHeader_tear, if_neg Bool.false_ne_true]

end Xv6Mlfq.Journal
