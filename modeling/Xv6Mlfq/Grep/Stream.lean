import Xv6Mlfq.Grep.Match

/-!
# The buffer of `grep`

The input comes in pieces, as the reads happen to split it. A line that does not fit into the buffer ends the output.
-/

namespace Xv6Mlfq.Grep

/-- The size of `buf`. -/
def BUFSIZE : Nat := 1024

/-- The character at the end of a string. -/
def NUL : Char := Char.ofNat 0

/-- `strchr`, with what stands before the character and what stands after it. -/
def strchr (c : Char) : List Char → Option (List Char × List Char)
  | [] => none
  | s :: rest =>
      if s = NUL then none
      else if s = c then some ([], rest)
      else (strchr c rest).map fun x => (s :: x.1, x.2)

/-- The inner loop of `grep`: what it writes, and what is left from `p` on. -/
def scan (pattern : List Char) : Nat → List Char → List Char × List Char
  | 0, p => ([], p)
  | k + 1, p =>
      (strchr '\n' p).elim ([], p) fun x =>
        ((if matchtext pattern x.1 then x.1 ++ ['\n'] else []) ++ (scan pattern k x.2).1, (scan pattern k x.2).2)

/-- What `grep` writes. The numbers are those of the bytes that the reads would give if they had the room, and 0 for an
error. -/
def grep (pattern : List Char) : List Nat → List Char → List Char → List Char
  | [], _, _ => []
  | k :: ks, buf, input =>
      let n := min k (min (BUFSIZE - buf.length - 1) input.length)
      if n = 0 then []
      else
        let m := buf ++ input.take n
        (scan pattern m.length m).1 ++ grep pattern ks (scan pattern m.length m).2 (input.drop n)

/-! ## The lines of the input -/

/-- The lines that are ended by a newline. -/
def lines (input : List Char) : List (List Char) := (input.splitOn '\n').dropLast

/-- The lines before the first that does not fit into the buffer. -/
def fitting (input : List Char) : List (List Char) := (lines input).takeWhile fun line => line.length + 1 < BUFSIZE

/-- The matching ones of them. -/
def printed (pattern input : List Char) : List Char :=
  ((fitting input).filter (matchtext pattern)).flatMap fun line => line ++ ['\n']

variable {pattern line rest buf input text out : List Char} {k n : Nat}

theorem printed_of_notMem (h : '\n' ∉ text) : printed pattern text = [] := by
  rw [printed, fitting, lines, List.splitOn_eq_singleton h]
  rfl

theorem lines_cons (h : '\n' ∉ line) : lines (line ++ '\n' :: rest) = line :: lines rest := by
  rw [lines, List.splitOn_append_cons_self_of_not_mem h, List.dropLast_cons_of_ne_nil (List.splitOn_ne_nil _ _)]
  rfl

theorem printed_cons (h : '\n' ∉ line) (hlen : line.length + 1 < BUFSIZE) :
    printed pattern (line ++ '\n' :: rest) =
      (if matchtext pattern line then line ++ ['\n'] else []) ++ printed pattern rest := by
  have hfits : fitting (line ++ '\n' :: rest) = line :: fitting rest := by
    rw [fitting, lines_cons h]
    exact List.takeWhile_cons_of_pos (decide_eq_true hlen)
  rw [printed, hfits, List.filter_cons]
  split_ifs
  · rfl
  · rfl

/-- A first line that is too long. -/
theorem printed_long (h : '\n' ∉ buf) (hlen : BUFSIZE ≤ buf.length + 1) : printed pattern (buf ++ input) = [] := by
  by_cases hmem : '\n' ∈ input
  · obtain ⟨before, after, rfl, hbefore⟩ := List.eq_append_cons_of_mem hmem
    have hline : '\n' ∉ buf ++ before := by simp [h, hbefore]
    have hlong : ¬ (buf ++ before).length + 1 < BUFSIZE := by
      rw [List.length_append]
      omega
    have hfits : fitting (buf ++ before ++ '\n' :: after) = [] := by
      rw [fitting, lines_cons hline]
      exact List.takeWhile_cons_of_neg (by simpa using hlong)
    rw [← List.append_assoc, printed, hfits]
    rfl
  · exact printed_of_notMem (by simp [h, hmem])

/-! ## The loops -/

theorem strchr_cases (h : NUL ∉ text) :
    ('\n' ∉ text ∧ strchr '\n' text = none) ∨
      ∃ line rest, text = line ++ '\n' :: rest ∧ '\n' ∉ line ∧ strchr '\n' text = some (line, rest) := by
  induction text with
  | nil => exact .inl ⟨List.not_mem_nil, rfl⟩
  | cons s text ih =>
      obtain ⟨hs, htext⟩ : NUL ≠ s ∧ NUL ∉ text := by simpa using h
      rw [strchr, if_neg hs.symm]
      by_cases hnewline : s = '\n'
      · subst hnewline
        exact .inr ⟨[], text, rfl, List.not_mem_nil, if_pos rfl⟩
      · rw [if_neg hnewline]
        rcases ih htext with ⟨hno, heq⟩ | ⟨line, rest, rfl, hno, heq⟩
        · exact .inl ⟨by simp [hno, Ne.symm hnewline], by rw [heq]; rfl⟩
        · exact .inr ⟨s :: line, rest, rfl, by simp [hno, Ne.symm hnewline], by rw [heq]; rfl⟩

/-- The inner loop writes the matching lines of the buffer, and leaves what is not a line yet. -/
theorem scan_spec (pattern : List Char) (hnul : NUL ∉ text) (hlen : text.length < BUFSIZE) (hk : text.length ≤ k) :
    '\n' ∉ (scan pattern k text).2 ∧ (scan pattern k text).2 <:+ text ∧
      ∀ input, printed pattern (text ++ input) =
        (scan pattern k text).1 ++ printed pattern ((scan pattern k text).2 ++ input) := by
  induction k generalizing text with
  | zero =>
      obtain rfl := List.length_eq_zero_iff.mp (Nat.le_zero.mp hk)
      exact ⟨List.not_mem_nil, List.suffix_rfl, fun _ => rfl⟩
  | succ k ih =>
      rcases strchr_cases hnul with ⟨hno, heq⟩ | ⟨line, rest, rfl, hno, heq⟩
      · rw [scan, heq]
        exact ⟨hno, List.suffix_rfl, fun _ => rfl⟩
      · have hline : line.length + (rest.length + 1) = (line ++ '\n' :: rest).length := by simp
        have hrest : NUL ∉ rest := fun hmem => hnul (by simp [hmem])
        obtain ⟨hleft, hsuffix, hprinted⟩ := ih hrest (by omega) (by omega)
        rw [scan, heq]
        refine ⟨hleft, hsuffix.trans ⟨line ++ ['\n'], by simp⟩, fun input => ?_⟩
        have hcons : line ++ '\n' :: rest ++ input = line ++ '\n' :: (rest ++ input) := by simp
        rw [hcons, printed_cons hno (by omega), hprinted, Option.elim_some, List.append_assoc]

/-- However the reads split the input, `grep` writes the matching lines before the first that does not fit. -/
theorem grep_from {ks : List Nat} (hbuf : '\n' ∉ buf) (hlen : buf.length < BUFSIZE) (hnul : NUL ∉ buf ++ input)
    (hks : ∀ k ∈ ks, 0 < k) (hlong : input.length < ks.length) :
    grep pattern ks buf input = printed pattern (buf ++ input) := by
  induction ks generalizing buf input with
  | nil => exact absurd hlong (Nat.not_lt_zero _)
  | cons k ks ih =>
      have hk := hks k List.mem_cons_self
      rw [grep]
      split_ifs with hzero
      · rcases List.eq_nil_or_concat input with rfl | ⟨input', c, rfl⟩
        · rw [List.append_nil, printed_of_notMem hbuf]
        · refine (printed_long hbuf ?_).symm
          simp only [List.concat_eq_append, List.length_append, List.length_singleton] at hzero
          omega
      · generalize hn : min k (min (BUFSIZE - buf.length - 1) input.length) = n at *
        have hle : n ≤ input.length ∧ buf.length + n < BUFSIZE := by omega
        have htake : (buf ++ input.take n).length = buf.length + n := by
          rw [List.length_append, List.length_take, Nat.min_eq_left hle.1]
        have hparts : buf ++ input = buf ++ input.take n ++ input.drop n := by
          rw [List.append_assoc, List.take_append_drop]
        rw [hparts] at hnul ⊢
        obtain ⟨hfirst, hrest⟩ : NUL ∉ buf ++ input.take n ∧ NUL ∉ input.drop n := by
          rwa [List.mem_append, not_or] at hnul
        obtain ⟨hleft, hsuffix, hprinted⟩ := scan_spec pattern hfirst (by omega) le_rfl
        rw [hprinted]
        refine congrArg _ (ih hleft ?_ ?_ (fun k hk => hks k (List.mem_cons_of_mem _ hk)) ?_)
        · have hle := hsuffix.length_le
          omega
        · rw [List.mem_append, not_or]
          exact ⟨fun hmem => hfirst (hsuffix.subset hmem), hrest⟩
        · rw [List.length_drop]
          rw [List.length_cons] at hlong
          omega

theorem grep_lines {ks : List Nat} (hnul : NUL ∉ input) (hks : ∀ k ∈ ks, 0 < k) (hlong : input.length < ks.length) :
    grep pattern ks [] input = printed pattern input :=
  grep_from List.not_mem_nil (by decide) hnul hks hlong

theorem grep_lines_three : grep ['^', 'a'] (List.replicate 9 3) [] ['a', 'b', '\n', 'b', 'a', '\n', 'a', 'c'] =
    ['a', 'b', '\n'] :=
  (grep_lines (by decide) (by decide) (by decide)).trans (by decide)

end Xv6Mlfq.Grep
