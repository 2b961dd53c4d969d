import Mathlib.Data.List.Perm.Basic
import Mathlib.Logic.Function.Basic

/-!
# A cache that recycles the entry released longest ago

The entries are counted references to keyed data. A lookup takes the entry of the key, or the one without references
that is last in the order of the most recent releases.
-/

namespace Caches

structure Entry (κ β : Type*) where
  key : κ
  valid : Bool
  refs : UInt32
  data : β

structure Lru (ι κ β : Type*) where
  /-- The entries, the most recently released first. -/
  order : List ι
  entry : ι → Entry κ β

variable {ι κ β : Type*}

namespace Lru

def find [DecidableEq κ] (c : Lru ι κ β) (k : κ) : Option ι := c.order.find? fun i => (c.entry i).key = k

def victim (c : Lru ι κ β) : Option ι := c.order.reverse.find? fun i => (c.entry i).refs = 0

/-- Every entry is in the order once, and no two hold the same key, but for the key of the entries never used. -/
structure WF (blank : κ) (c : Lru ι κ β) : Prop where
  nodup : c.order.Nodup
  complete : ∀ i, i ∈ c.order
  unique : ∀ i j, (c.entry i).key = (c.entry j).key → (c.entry i).key ≠ blank → i = j

variable {c c' : Lru ι κ β} {i j : ι} {k blank : κ} {e : Entry κ β}

/-! ## Searches -/

theorem find_key [DecidableEq κ] (h : c.find k = some i) : (c.entry i).key = k := by
  simpa using List.find?_some (show c.order.find? (fun i => (c.entry i).key = k) = some i from h)

theorem find_eq_some [DecidableEq κ] (h : c.WF blank) (hk : k ≠ blank) : c.find k = some i ↔ (c.entry i).key = k := by
  refine ⟨find_key, fun hi => ?_⟩
  cases hf : c.find k with
  | none => exact absurd hi (by simpa using List.find?_eq_none.mp hf i (h.complete i))
  | some j => rw [h.unique i j (hi.trans (find_key hf).symm) (hi ▸ hk)]

theorem find_eq_none [DecidableEq κ] (h : c.WF blank) : c.find k = none ↔ ∀ i, (c.entry i).key ≠ k := by
  refine List.find?_eq_none.trans ⟨fun hn i => ?_, fun hn i _ => ?_⟩
  · simpa using hn i (h.complete i)
  · simpa using hn i

theorem victim_refs (h : c.victim = some i) : (c.entry i).refs = 0 := by
  simpa using List.find?_some (show c.order.reverse.find? (fun i => (c.entry i).refs = 0) = some i from h)

theorem victim_eq_none (h : c.WF blank) : c.victim = none ↔ ∀ i, (c.entry i).refs ≠ 0 := by
  refine List.find?_eq_none.trans ⟨fun hn i => ?_, fun hn i _ => ?_⟩
  · simpa using hn i (List.mem_reverse.mpr (h.complete i))
  · simpa using hn i

/-- The entries after the victim in the order all have references. -/
theorem exists_victim (h : c.victim = some i) :
    ∃ us vs, c.order = us ++ i :: vs ∧ ∀ j ∈ vs, (c.entry j).refs ≠ 0 := by
  obtain ⟨-, us, vs, hrev, hus⟩ := List.find?_eq_some_iff_append.mp h
  refine ⟨vs.reverse, us.reverse, ?_, fun j hj => ?_⟩
  · rw [← List.reverse_reverse c.order, hrev]
    simp
  · simpa using hus j (List.mem_reverse.mp hj)

theorem WF.of_keys (h : c.WF blank) (hnodup : c'.order.Nodup) (hcomplete : ∀ i, i ∈ c'.order)
    (hkey : ∀ i, (c'.entry i).key = (c.entry i).key) : c'.WF blank where
  nodup := hnodup
  complete := hcomplete
  unique i j := by
    rw [hkey, hkey]
    exact h.unique i j

/-! ## Operations -/

variable [DecidableEq ι]

def set (c : Lru ι κ β) (i : ι) (e : Entry κ β) : Lru ι κ β := { c with entry := Function.update c.entry i e }

def get [DecidableEq κ] (c : Lru ι κ β) (k : κ) : Option (ι × Lru ι κ β) :=
  match c.find k with
  | some i => some (i, c.set i { c.entry i with refs := (c.entry i).refs + 1 })
  | none => c.victim.map fun i => (i, c.set i { c.entry i with key := k, valid := false, refs := 1 })

def release (c : Lru ι κ β) (i : ι) : Lru ι κ β :=
  let c := c.set i { c.entry i with refs := (c.entry i).refs - 1 }
  if (c.entry i).refs = 0 then { c with order := i :: c.order.erase i } else c

@[simp] theorem set_entry_self : (c.set i e).entry i = e := Function.update_self ..

theorem set_entry_of_ne (h : j ≠ i) : (c.set i e).entry j = c.entry j := Function.update_of_ne h ..

theorem release_entry (c : Lru ι κ β) (i : ι) :
    (c.release i).entry = (c.set i { c.entry i with refs := (c.entry i).refs - 1 }).entry := by
  unfold release
  dsimp only
  split_ifs
  · rfl
  · rfl

theorem release_order (c : Lru ι κ β) (i : ι) :
    (c.release i).order = if (c.entry i).refs - 1 = 0 then i :: c.order.erase i else c.order := by
  unfold release
  dsimp only
  rw [set_entry_self]
  split_ifs
  · rfl
  · rfl

/-- What a lookup does. -/
inductive Got (c : Lru ι κ β) (k : κ) : ι → Lru ι κ β → Prop
  | hit {i : ι} (hkey : (c.entry i).key = k) : Got c k i (c.set i { c.entry i with refs := (c.entry i).refs + 1 })
  | recycle {i : ι} (hnone : ∀ j, (c.entry j).key ≠ k) (hfree : (c.entry i).refs = 0) :
      Got c k i (c.set i { c.entry i with key := k, valid := false, refs := 1 })

theorem get_got [DecidableEq κ] (h : c.WF blank) (hget : c.get k = some (i, c')) : Got c k i c' := by
  unfold get at hget
  cases hf : c.find k with
  | some j =>
      simp only [hf, Option.some.injEq, Prod.mk.injEq] at hget
      obtain ⟨rfl, rfl⟩ := hget
      exact .hit (find_key hf)
  | none =>
      simp only [hf, Option.map_eq_some_iff, Prod.mk.injEq] at hget
      obtain ⟨j, hv, rfl, rfl⟩ := hget
      exact .recycle ((find_eq_none h).mp hf) (victim_refs hv)

/-! ## The operations keep a cache well-formed -/

/-- An update that keeps the key. -/
theorem WF.set (h : c.WF blank) (he : e.key = (c.entry i).key) : (c.set i e).WF blank := by
  refine h.of_keys h.nodup h.complete fun j => ?_
  by_cases hj : j = i
  · subst hj
    simpa using he
  · rw [set_entry_of_ne hj]

theorem WF.got (h : c.WF blank) (hgot : Got c k i c') : c'.WF blank := by
  cases hgot with
  | hit hkey => exact h.set rfl
  | recycle hnone hfree =>
      refine ⟨h.nodup, h.complete, fun j l hjl hj => ?_⟩
      by_cases hji : j = i
      · by_cases hli : l = i
        · exact hji.trans hli.symm
        · rw [hji, set_entry_self, set_entry_of_ne hli] at hjl
          exact absurd hjl.symm (hnone l)
      · by_cases hli : l = i
        · rw [hli, set_entry_self, set_entry_of_ne hji] at hjl
          exact absurd hjl (hnone j)
        · rw [set_entry_of_ne hji, set_entry_of_ne hli] at hjl
          rw [set_entry_of_ne hji] at hj
          exact h.unique j l hjl hj

theorem WF.release (h : c.WF blank) (i : ι) : (c.release i).WF blank := by
  have hset := h.set (i := i) (e := { c.entry i with refs := (c.entry i).refs - 1 }) rfl
  refine hset.of_keys ?_ (fun j => ?_) fun j => by rw [release_entry]
  · rw [release_order]
    split_ifs
    · exact List.nodup_cons.mpr ⟨h.nodup.not_mem_erase, h.nodup.erase i⟩
    · exact h.nodup
  · rw [release_order]
    split_ifs
    · by_cases hj : j = i
      · simp [hj]
      · exact List.mem_cons_of_mem _ ((List.mem_erase_of_ne hj).mpr (h.complete j))
    · exact h.complete j

end Lru

end Caches
