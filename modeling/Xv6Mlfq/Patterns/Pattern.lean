import Mathlib.Computability.Language

/-!
# Patterns of single characters

A pattern is a list of items, each of which stands for one character of a class or for any number of them. A text has
the pattern if a part of it is in the language of the items.
-/

namespace Patterns

open Computability

variable {α : Type*}

/-- The words of one character of the class `p`. -/
def single (p : α → Bool) : Language α := {u | ∃ a, p a = true ∧ u = [a]}

inductive Item (α : Type*) where
  | one (p : α → Bool)
  | many (p : α → Bool)

def Item.lang : Item α → Language α
  | .one p => single p
  | .many p => (single p)∗

structure Pattern (α : Type*) where
  /-- The part is at the start of the text. -/
  start : Bool
  items : List (Item α)
  /-- The part is at the end of the text. -/
  stop : Bool

namespace Pattern

def lang (P : Pattern α) : Language α := (P.items.map Item.lang).prod

def Matches (P : Pattern α) (text : List α) : Prop :=
  ∃ before part after, text = before ++ part ++ after ∧ part ∈ P.lang ∧ (P.start = true → before = []) ∧
    (P.stop = true → after = [])

end Pattern

variable {p : α → Bool} {a : α} {u : List α} {is : List (Item α)}

theorem mem_many : u ∈ (Item.many p).lang ↔ ∀ a ∈ u, p a = true := by
  constructor
  · intro hu
    obtain ⟨us, rfl, hus⟩ := Language.mem_kstar.mp hu
    intro a ha
    obtain ⟨v, hv, hav⟩ := List.mem_flatten.mp ha
    obtain ⟨b, hb, rfl⟩ := hus v hv
    obtain rfl := List.mem_singleton.mp hav
    exact hb
  · intro hu
    refine Language.mem_kstar.mpr ⟨u.map fun a => [a], (List.flatMap_singleton' u).symm, fun v hv => ?_⟩
    obtain ⟨a, ha, rfl⟩ := List.mem_map.mp hv
    exact ⟨a, hu a ha, rfl⟩

/-- The words of a list of items that starts with one character. -/
theorem mem_one_cons : u ∈ ((Item.one p :: is).map Item.lang).prod ↔
    ∃ a v, u = a :: v ∧ p a = true ∧ v ∈ (is.map Item.lang).prod := by
  rw [List.map_cons, List.prod_cons, Language.mem_mul]
  constructor
  · rintro ⟨-, ⟨a, ha, rfl⟩, v, hv, rfl⟩
    exact ⟨a, v, rfl, ha, hv⟩
  · rintro ⟨a, v, rfl, ha, hv⟩
    exact ⟨[a], ⟨a, ha, rfl⟩, v, hv, rfl⟩

theorem mem_many_cons : u ∈ ((Item.many p :: is).map Item.lang).prod ↔
    ∃ v w, u = v ++ w ∧ (∀ a ∈ v, p a = true) ∧ w ∈ (is.map Item.lang).prod := by
  rw [List.map_cons, List.prod_cons, Language.mem_mul]
  constructor
  · rintro ⟨v, hv, w, hw, rfl⟩
    exact ⟨v, w, rfl, mem_many.mp hv, hw⟩
  · rintro ⟨v, w, rfl, hv, hw⟩
    exact ⟨v, mem_many.mpr hv, w, hw, rfl⟩

end Patterns
