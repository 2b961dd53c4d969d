import Xv6Mlfq.Patterns.Pattern

/-!
# The matcher of `grep`

Strings are lists of characters, without the null at the end.
-/

namespace Xv6Mlfq.Grep

open Patterns

/-- `matchstar`, with the matcher for what follows the star. -/
def matchstar (here : List Char → Bool) (c : Char) : List Char → Bool
  | [] => here []
  | t :: text => here (t :: text) || ((t == c || c == '.') && matchstar here c text)

/-- The last case of `matchhere`: one character of the text. -/
def matchchar (c : Char) (here : List Char → Bool) : List Char → Bool
  | [] => false
  | t :: text => (c == '.' || c == t) && here text

def matchhere : List Char → List Char → Bool
  | [] => fun _ => true
  | [c] => fun text => if c = '$' then text.isEmpty else matchchar c (matchhere []) text
  | c :: d :: re => fun text =>
      if d = '*' then matchstar (matchhere re) c text else matchchar c (matchhere (d :: re)) text

/-- The loop of `match`, which looks at every suffix. -/
def matchany (re : List Char) : List Char → Bool
  | [] => matchhere re []
  | t :: text => matchhere re (t :: text) || matchany re text

/-- `match` -/
def matchtext (re text : List Char) : Bool :=
  match re with
  | [] => matchany [] text
  | c :: re => if c = '^' then matchhere re text else matchany (c :: re) text

/-! ## The meaning of a pattern -/

/-- The characters that `c` stands for. -/
def sat (c a : Char) : Bool := c == '.' || c == a

/-- What `matchhere` looks for, and whether the text must end there. -/
def items : List Char → List (Item Char) × Bool
  | [] => ([], false)
  | [c] => if c = '$' then ([], true) else ([.one (sat c)], false)
  | c :: d :: re =>
      if d = '*' then (.many (sat c) :: (items re).1, (items re).2)
      else (.one (sat c) :: (items (d :: re)).1, (items (d :: re)).2)

def meaning : List Char → Pattern Char
  | [] => ⟨false, [], false⟩
  | c :: re => if c = '^' then ⟨true, (items re).1, (items re).2⟩ else ⟨false, (items (c :: re)).1, (items (c :: re)).2⟩

variable {re text : List Char} {here : List Char → Bool} {c : Char}

/-- A start of the text is in the language. -/
def Starts (is : List (Item Char) × Bool) (text : List Char) : Prop :=
  ∃ part after, text = part ++ after ∧ part ∈ (is.1.map Item.lang).prod ∧ (is.2 = true → after = [])

theorem matchstar_iff : matchstar here c text = true ↔
    ∃ u v, text = u ++ v ∧ (∀ a ∈ u, sat c a = true) ∧ here v = true := by
  induction text with
  | nil =>
      constructor
      · intro h
        exact ⟨[], [], rfl, by simp, h⟩
      · rintro ⟨u, v, heq, -, hv⟩
        obtain ⟨rfl, rfl⟩ := List.append_eq_nil_iff.mp heq.symm
        exact hv
  | cons t text ih =>
      have hsat : (t == c || c == '.') = sat c t := by rw [sat, Bool.or_comm, BEq.comm (a := t)]
      rw [matchstar, Bool.or_eq_true, Bool.and_eq_true, ih, hsat]
      constructor
      · rintro (h | ⟨hc, u, v, rfl, hu, hv⟩)
        · exact ⟨[], t :: text, rfl, by simp, h⟩
        · exact ⟨t :: u, v, rfl, List.forall_mem_cons.mpr ⟨hc, hu⟩, hv⟩
      · rintro ⟨u, v, heq, hu, hv⟩
        cases u with
        | nil => exact .inl (heq ▸ hv)
        | cons a u =>
            obtain ⟨rfl, rfl⟩ := List.cons.inj heq
            obtain ⟨ha, hu⟩ := List.forall_mem_cons.mp hu
            exact .inr ⟨ha, u, v, rfl, hu, hv⟩

theorem starts_one {is : List (Item Char) × Bool} (hhere : ∀ text, here text = true ↔ Starts is text) :
    matchchar c here text = true ↔ Starts (.one (sat c) :: is.1, is.2) text := by
  simp only [Starts, mem_one_cons]
  cases text with
  | nil =>
      simp only [matchchar, Bool.false_eq_true, false_iff]
      rintro ⟨-, after, heq, ⟨a, v, rfl, -⟩, -⟩
      cases heq
  | cons t text =>
      have hsat : (c == '.' || c == t) = sat c t := rfl
      rw [matchchar, Bool.and_eq_true, hsat, hhere]
      constructor
      · rintro ⟨ht, part, after, rfl, hpart, hafter⟩
        exact ⟨t :: part, after, rfl, ⟨t, part, rfl, ht, hpart⟩, hafter⟩
      · rintro ⟨-, after, heq, ⟨a, v, rfl, ha, hv⟩, hafter⟩
        obtain ⟨rfl, rfl⟩ := List.cons.inj heq
        exact ⟨ha, v, after, rfl, hv, hafter⟩

theorem starts_many {is : List (Item Char) × Bool} (hhere : ∀ text, here text = true ↔ Starts is text) :
    matchstar here c text = true ↔ Starts (.many (sat c) :: is.1, is.2) text := by
  simp only [matchstar_iff, Starts, mem_many_cons, hhere]
  constructor
  · rintro ⟨u, -, rfl, hu, part, after, rfl, hpart, hafter⟩
    exact ⟨u ++ part, after, by simp, ⟨u, part, rfl, hu, hpart⟩, hafter⟩
  · rintro ⟨-, after, rfl, ⟨u, part, rfl, hu, hpart⟩, hafter⟩
    exact ⟨u, part ++ after, by simp, hu, part, after, rfl, hpart, hafter⟩

theorem starts_nil : Starts ([], false) text :=
  ⟨[], text, rfl, Language.nil_mem_one, fun h => Bool.noConfusion h⟩

theorem starts_end : text.isEmpty = true ↔ Starts ([], true) text := by
  rw [List.isEmpty_iff]
  constructor
  · rintro rfl
    exact ⟨[], [], rfl, Language.nil_mem_one, fun _ => rfl⟩
  · rintro ⟨part, after, rfl, hpart, hafter⟩
    obtain rfl := hafter rfl
    obtain rfl : part = [] := hpart
    rfl

theorem matchhere_iff (re : List Char) : ∀ text, matchhere re text = true ↔ Starts (items re) text := by
  induction re using matchhere.induct with
  | case1 => exact fun text => iff_of_true rfl starts_nil
  | case2 c ih =>
      intro text
      rw [matchhere, items]
      split_ifs with hc
      · exact starts_end
      · exact starts_one ih
  | case3 c d re ih ih' =>
      intro text
      rw [matchhere, items]
      split_ifs with hd
      · exact starts_many ih
      · exact starts_one ih'

theorem matchany_iff : matchany re text = true ↔ ∃ before rest, text = before ++ rest ∧ matchhere re rest = true := by
  induction text with
  | nil =>
      constructor
      · intro h
        exact ⟨[], [], rfl, h⟩
      · rintro ⟨before, rest, heq, h⟩
        obtain ⟨rfl, rfl⟩ := List.append_eq_nil_iff.mp heq.symm
        exact h
  | cons t text ih =>
      rw [matchany, Bool.or_eq_true, ih]
      constructor
      · rintro (h | ⟨before, rest, rfl, h⟩)
        · exact ⟨[], t :: text, rfl, h⟩
        · exact ⟨t :: before, rest, rfl, h⟩
      · rintro ⟨before, rest, heq, h⟩
        cases before with
        | nil => exact .inl (heq ▸ h)
        | cons a before =>
            obtain ⟨rfl, rfl⟩ := List.cons.inj heq
            exact .inr ⟨before, rest, rfl, h⟩

theorem matches_start {is : List (Item Char) × Bool} : Pattern.Matches ⟨true, is.1, is.2⟩ text ↔ Starts is text := by
  constructor
  · rintro ⟨before, part, after, rfl, hpart, hbefore, hafter⟩
    obtain rfl := hbefore rfl
    exact ⟨part, after, rfl, hpart, hafter⟩
  · rintro ⟨part, after, rfl, hpart, hafter⟩
    exact ⟨[], part, after, rfl, hpart, fun _ => rfl, hafter⟩

theorem matches_any {is : List (Item Char) × Bool} : Pattern.Matches ⟨false, is.1, is.2⟩ text ↔
    ∃ before rest, text = before ++ rest ∧ Starts is rest := by
  constructor
  · rintro ⟨before, part, after, rfl, hpart, -, hafter⟩
    exact ⟨before, part ++ after, by simp, part, after, rfl, hpart, hafter⟩
  · rintro ⟨before, -, rfl, part, after, rfl, hpart, hafter⟩
    exact ⟨before, part, after, by simp, hpart, fun h => Bool.noConfusion h, hafter⟩

/-- The matcher decides whether the text has the pattern. -/
theorem matchtext_iff (re text : List Char) : matchtext re text = true ↔ (meaning re).Matches text := by
  cases re with
  | nil =>
      have hany : (meaning []).Matches text ↔ _ := @matches_any text ([], false)
      rw [matchtext, matchany_iff, hany]
      simp only [matchhere_iff]
      rfl
  | cons c re =>
      dsimp only [matchtext, meaning]
      split_ifs with hc
      · rw [matchhere_iff, matches_start]
      · rw [matchany_iff, matches_any]
        simp only [matchhere_iff]

example : matchtext ['^', 'a', '.', '*', 'b', '$'] ['a', 'b', 'c', 'b'] = true := by decide

end Xv6Mlfq.Grep
