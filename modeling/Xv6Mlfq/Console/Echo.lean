import Xv6Mlfq.Console.Discipline

/-!
# The echo

What `consoleintr` has echoed and not taken back is what the readers have had, what they will get next, and the line
that can still be edited.
-/

namespace Xv6Mlfq.Console

open Rings Runs
open Queue (Slot)

/-- The bytes that a step takes from the console. -/
def Event.taken : Event → List UInt8
  | .take _ c | .fault _ c _ => [c]
  | .eof _ value => if value = 0 then [C 'D'] else []
  | _ => []

def taken (tr : List (Transition System Event)) : List UInt8 := tr.flatMap fun x => x.event.taken

variable {s s' : System} {ev : Event} {tr : List (Transition System Event)}

/-! ## Every run -/

theorem taken_snoc (tr : List (Transition System Event)) (x : Transition System Event) :
    taken (tr ++ [x]) = taken tr ++ x.event.taken := by
  simp [taken]

/-- What the echo has left. -/
def Echoed (tr : List (Transition System Event)) (s : System) : Prop :=
  ∃ ready line, Holds s.cons ready line ∧ retained [] s.echo = taken tr ++ (ready ++ line)

namespace Echoed

theorem same (h : Echoed tr s) (hcons : s'.cons = s.cons) (hecho : s'.echo = s.echo) (htaken : ev.taken = []) :
    Echoed (tr ++ [⟨s, ev, s'⟩]) s' := by
  obtain ⟨ready, line, hring, hretained⟩ := h
  exact ⟨ready, line, hcons ▸ hring, by rw [hecho, taken_snoc, htaken, List.append_nil, hretained]⟩

theorem take (h : Echoed tr s) (hsome : s.cons.r ≠ s.cons.w) (hcons : s'.cons = { s.cons with r := s.cons.r + 1 })
    (hecho : s'.echo = s.echo) (htaken : ev.taken = [s.cons.front]) : Echoed (tr ++ [⟨s, ev, s'⟩]) s' := by
  obtain ⟨ready, line, hring, hretained⟩ := h
  obtain ⟨hready, hring'⟩ := hring.take hsome
  refine ⟨ready.tail, line, hcons ▸ hring', ?_⟩
  calc
    retained [] s'.echo = taken tr ++ (ready ++ line) := by rw [hecho, hretained]
    _ = taken tr ++ (s.cons.front :: ready.tail ++ line) := by rw [← hready]
    _ = taken (tr ++ [⟨s, ev, s'⟩]) ++ (ready.tail ++ line) := by rw [taken_snoc, htaken]; simp

theorem step (hrun : Run System.step System.boot tr s) (h : Echoed tr s) (hs : System.step ev s = some s') :
    Echoed (tr ++ [⟨s, ev, s'⟩]) s' := by
  cases step_stepped hs with
  | @consoleintr ch hfree _ hcons hecho hlock hkilled hcall =>
      obtain ⟨ready, line, hring, hretained⟩ := h
      have hedited := hring.consoleintr ch
      refine ⟨_, _, hcons ▸ hedited.ring, ?_⟩
      rw [hecho, retained_append, hretained, hedited.echo, taken_snoc]
      simp [Event.taken]
  | consoleread hp => exact h.same rfl rfl rfl
  | acquire hfree hp => exact h.same rfl rfl rfl
  | test hp hn hempty => exact h.same rfl rfl rfl
  | sleep hp => exact h.same rfl rfl rfl
  | take hp hn hsome hc => exact h.take hsome rfl rfl rfl
  | fault hp hn hsome hc => exact h.take hsome rfl rfl rfl
  | @eof p target n hp hn hsome hc =>
      obtain ⟨-, d, -, -, hshows, -⟩ := console_refines hrun
      obtain ⟨got, -, hlength, -⟩ := hshows.loop hp
      by_cases hlt : n < target
      · refine h.same ?_ rfl (if_neg (by omega))
        simp only [release_cons, if_pos hlt]
      · refine h.take hsome ?_ rfl ?_
        · simp only [release_cons, if_neg hlt]
        · rw [hc]
          exact if_pos (by omega)
  | retKilled hp hn hempty => exact h.same rfl rfl rfl
  | retFull hp hn => exact h.same rfl rfl rfl
  | retLine hp => exact h.same rfl rfl rfl
  | kill => exact h.same rfl rfl rfl
  | reuse => exact h.same rfl rfl rfl

end Echoed

/-- In every run, what has been echoed, less what a `BACKSPACE` has taken back, is what the readers have taken, then
the complete lines, then the line that can still be edited. -/
theorem console_echoed (h : Run System.step System.boot tr s) : Echoed tr s := by
  induction h with
  | nil => exact ⟨[], [], Shows.boot.ring, rfl⟩
  | snoc h he ih => exact ih.step h he

/-- A byte has been taken, a line is complete, and of the next one a byte has been erased. -/
theorem console_echoed_erased :
    ∃ (tr : List (Transition System Event)) (s : System), taken tr = [97] ∧ s.uart = [97, 10, 98, 8, 32, 8, 99] ∧
      Echoed tr s := by
  let events : List Event := [.consoleintr 97, .consoleintr newline, .consoleintr 98, .consoleintr (C 'H'),
    .consoleintr 99, .consoleread 0 10, .acquire 0, .take 0 97]
  have hplay : (final System.step System.boot events).any (fun s => s.uart = [97, 10, 98, 8, 32, 8, 99]) = true := by
    decide +kernel
  obtain ⟨tr, s, h, hevents, hs⟩ := Run.replay hplay
  refine ⟨tr, s, ?_, of_decide_eq_true hs, console_echoed h⟩
  have htaken : taken tr = (tr.map Transition.event).flatMap Event.taken := by
    rw [List.flatMap_map]
    rfl
  rw [htaken, hevents]
  rfl

end Xv6Mlfq.Console
