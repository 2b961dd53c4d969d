import Xv6Mlfq.Pipes.System

/-!
# The bytes of a pipe

Bytes come out of a pipe in the order in which they went in, whoever writes and reads them and however often the
counters wrap. A byte on which `copyout` fails is taken out all the same.
-/

namespace Xv6Mlfq.Pipes

open Rings Runs
open Queue (Slot)

variable {s s' : System} {e : Event} {pi : Pipe} {ch : UInt8} {data : Fin PIPESIZE → UInt8}
  {tr : List (Transition System Event)}

/-- The byte that goes into the pipe. -/
def Event.stored : Event → Option UInt8
  | .store _ ch => some ch
  | _ => none

/-- The byte that comes out of it. -/
def Event.taken : Event → Option UInt8
  | .load _ ch => some ch
  | .faultOut _ ch _ => some ch
  | _ => none

def stored (tr : List (Transition System Event)) : List UInt8 := tr.filterMap fun x => x.event.stored

def taken (tr : List (Transition System Event)) : List UInt8 := tr.filterMap fun x => x.event.taken

theorem stored_snoc (tr : List (Transition System Event)) (x : Transition System Event) :
    stored (tr ++ [x]) = stored tr ++ x.event.stored.toList := by
  cases h : x.event.stored with
  | none => simp [stored, h]
  | some ch => simp [stored, h]

theorem taken_snoc (tr : List (Transition System Event)) (x : Transition System Event) :
    taken (tr ++ [x]) = taken tr ++ x.event.taken.toList := by
  cases h : x.event.taken with
  | none => simp [taken, h]
  | some ch => simp [taken, h]

namespace Pipe

theorem pipesize_dvd : PIPESIZE ∣ 2 ^ 31 := by decide

theorem full_iff : pi.full = true ↔ pi.contents.length = PIPESIZE := by
  rw [contents, length_window, span_eq_iff (by decide)]
  exact decide_eq_true_iff

theorem empty_iff : pi.empty = true ↔ pi.contents = [] := by
  rw [contents, window_eq_nil]
  exact decide_eq_true_iff

theorem contents_put (h : pi.contents.length < PIPESIZE) : (pi.put ch).contents = pi.contents ++ [ch] :=
  window_snoc pipesize_dvd ((length_window).symm.trans_lt h)

theorem contents_take (h : pi.empty = false) :
    pi.contents = pi.front :: { pi with nread := pi.nread + 1 }.contents :=
  window_cons (of_decide_eq_false h)

end Pipe

/-- What went in is what came out and what is still there. -/
structure Ordered (tr : List (Transition System Event)) (s : System) : Prop where
  bytes : stored tr = taken tr ++ s.pipe.contents
  bound : s.pipe.contents.length ≤ PIPESIZE

theorem Ordered.same (h : Ordered tr s) (he : e.stored = none ∧ e.taken = none)
    (hpipe : s'.pipe.contents = s.pipe.contents) : Ordered (tr ++ [⟨s, e, s'⟩]) s' := by
  refine ⟨?_, hpipe ▸ h.bound⟩
  rw [stored_snoc, taken_snoc, he.1, he.2, hpipe, Option.toList_none, List.append_nil, List.append_nil]
  exact h.bytes

theorem Ordered.take (h : Ordered tr s) (hsome : s.pipe.empty = false) (hstored : e.stored = none)
    (htaken : e.taken = some s.pipe.front)
    (hpipe : s'.pipe.contents = { s.pipe with nread := s.pipe.nread + 1 }.contents) :
    Ordered (tr ++ [⟨s, e, s'⟩]) s' := by
  have hbytes := h.bytes
  have hbound := h.bound
  rw [Pipe.contents_take hsome, ← hpipe] at hbytes hbound
  refine ⟨?_, (Nat.le_succ _).trans hbound⟩
  rw [stored_snoc, taken_snoc, hstored, htaken, Option.toList_none, List.append_nil, hbytes]
  simp

theorem Ordered.step (h : Ordered tr s) (hs : System.step e s = some s') : Ordered (tr ++ [⟨s, e, s'⟩]) s' := by
  cases step_stepped hs with
  | @store p ch i n hp hroom =>
      have hlt : s.pipe.contents.length < PIPESIZE := by
        refine h.bound.lt_of_ne fun heq => ?_
        rw [Pipe.full_iff.mpr heq] at hroom
        cases hroom
      have hcontents : (s.pipe.put ch).contents = s.pipe.contents ++ [ch] := Pipe.contents_put hlt
      refine ⟨?_, ?_⟩
      · rw [stored_snoc, taken_snoc, hcontents, h.bytes]
        simp [Event.stored, Event.taken]
      · rw [hcontents, List.length_append]
        exact hlt
  | load hp hsome => exact h.take hsome rfl rfl rfl
  | faultOut hp hsome => exact h.take hsome rfl rfl rfl
  | pipewrite hp => exact h.same ⟨rfl, rfl⟩ rfl
  | piperead hp => exact h.same ⟨rfl, rfl⟩ rfl
  | acquireWrite hp hfree => exact h.same ⟨rfl, rfl⟩ rfl
  | acquireRead hp hfree => exact h.same ⟨rfl, rfl⟩ rfl
  | testWrite hp hopen hlive => exact h.same ⟨rfl, rfl⟩ rfl
  | testRead hp hempty hopen => exact h.same ⟨rfl, rfl⟩ rfl
  | faultIn hp hroom => exact h.same ⟨rfl, rfl⟩ rfl
  | proceed hp => exact h.same ⟨rfl, rfl⟩ rfl
  | sleepWrite hp hfull => exact h.same ⟨rfl, rfl⟩ rfl
  | sleepRead hp => exact h.same ⟨rfl, rfl⟩ rfl
  | retBroken hp hbroken => exact h.same ⟨rfl, rfl⟩ rfl
  | retWrite hp => exact h.same ⟨rfl, rfl⟩ rfl
  | retKilled hp => exact h.same ⟨rfl, rfl⟩ rfl
  | retRead hp => exact h.same ⟨rfl, rfl⟩ rfl
  | kill => exact h.same ⟨rfl, rfl⟩ rfl
  | reuse hp => exact h.same ⟨rfl, rfl⟩ rfl
  | closeWrite hfree => exact h.same ⟨rfl, rfl⟩ rfl
  | closeRead hfree => exact h.same ⟨rfl, rfl⟩ rfl

/-- In every run the bytes that went into the pipe are those that came out, in this order, and then those that are
still in it; there are never more than `PIPESIZE` of these. -/
theorem pipe_ordered (h : Run System.step (System.fresh data) tr s) : Ordered tr s := by
  induction h with
  | nil => exact ⟨by simp [stored, taken, Pipe.contents, System.fresh], by simp [Pipe.contents, System.fresh]⟩
  | snoc h he ih => exact ih.step he

/-- Two bytes go in, one comes out and one is lost to a fault. -/
theorem pipe_ordered_fault : ∃ tr s, stored tr = [5, 6, 7] ∧ Ordered tr s := by
  let events : List Event := [.pipewrite 0 3, .piperead 1 2, .acquire 0, .test 0, .store 0 5, .test 0, .store 0 6, .test 0,
    .store 0 7, .ret 0 3, .acquire 1, .proceed 1, .load 1 5, .faultOut 1 6 1]
  have hplay : (final System.step (System.fresh fun _ => 0) events).any (fun _ => true) = true := by decide +kernel
  obtain ⟨tr, s, h, hevents, -⟩ := Run.replay hplay
  refine ⟨tr, s, ?_, pipe_ordered h⟩
  have hstored : stored tr = (tr.map Transition.event).filterMap Event.stored := by
    rw [List.filterMap_map]
    rfl
  rw [hstored, hevents]
  rfl

end Xv6Mlfq.Pipes
