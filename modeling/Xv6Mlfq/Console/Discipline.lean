import Xv6Mlfq.Console.System
import Xv6Mlfq.Runs.Simulation

/-!
# The line discipline

What the console is for: a line can be edited until it is complete, and then waits for the readers; a call of `read`
gets at most one line, or what there is of it before an end-of-file.
-/

namespace Xv6Mlfq.Console

open Rings Runs
open Queue (Slot)

/-! ## The editor -/

/-- What a key does to the lines that are complete and to the one that is being typed. -/
def edit (c : UInt8) (ready line : List UInt8) : List UInt8 × List UInt8 :=
  if c = C 'P' then (ready, line)
  else if c = C 'U' then (ready, [])
  else if c = C 'H' ∨ c = delete then (ready, line.dropLast)
  else if c ≠ 0 ∧ ready.length + line.length < INPUT_BUF then
    let c := if c = carriageReturn then newline else c
    if c = newline ∨ c = C 'D' ∨ ready.length + line.length + 1 = INPUT_BUF then (ready ++ (line ++ [c]), [])
    else (ready, line ++ [c])
  else (ready, line)

structure Spec where
  ready : List UInt8
  line : List UInt8
  /-- The number of bytes that a call asks for, and those that it got. -/
  reading : Slot → Option (Int × List UInt8)

inductive Action where
  | key (c : UInt8)
  | call (p : Slot) (n : Int)
  | take (p : Slot) (c : UInt8)
  | lose (p : Slot) (c : UInt8) (value : Int)
  | eof (p : Slot) (value : Int)
  | ret (p : Slot) (value : Int)

namespace Spec

def setReading (d : Spec) (p : Slot) (o : Option (Int × List UInt8)) : Spec :=
  { d with reading := Function.update d.reading p o }

/-- The call wants more bytes. -/
def wants (n : Int) (got : List UInt8) : Prop := got.length < n ∧ newline ∉ got

instance (n : Int) (got : List UInt8) : Decidable (wants n got) := inferInstanceAs (Decidable (_ ∧ _))

def step (a : Action) (d : Spec) : Option Spec :=
  match a with
  | .key c => some { d with ready := (edit c d.ready d.line).1, line := (edit c d.ready d.line).2 }
  | .call p n => if d.reading p = none then some (d.setReading p (some (n, []))) else none
  | .take p c =>
      (d.reading p).bind fun x =>
        if wants x.1 x.2 ∧ d.ready.head? = some c ∧ c ≠ C 'D' then
          some ({ d with ready := d.ready.tail }.setReading p (some (x.1, x.2 ++ [c])))
        else none
  | .lose p c value =>
      (d.reading p).bind fun x =>
        if wants x.1 x.2 ∧ d.ready.head? = some c ∧ c ≠ C 'D' ∧ value = x.2.length then
          some ({ d with ready := d.ready.tail }.setReading p none)
        else none
  | .eof p value =>
      (d.reading p).bind fun x =>
        if wants x.1 x.2 ∧ d.ready.head? = some (C 'D') ∧ value = x.2.length then
          -- the next call finds the end-of-file again, unless this one got nothing
          some ({ d with ready := if x.2 = [] then d.ready.tail else d.ready }.setReading p none)
        else none
  | .ret p value =>
      (d.reading p).bind fun x =>
        if ¬ wants x.1 x.2 ∧ value = x.2.length ∨ wants x.1 x.2 ∧ d.ready = [] ∧ value = -1 then
          some (d.setReading p none)
        else none

def start : Spec := ⟨[], [], fun _ => none⟩

end Spec

/-- What a step shows to the outside. -/
def Event.seen : Event → Option Action
  | .consoleintr c => some (.key c)
  | .consoleread p n => some (.call p n)
  | .take p c => some (.take p c)
  | .fault p c value => some (.lose p c value)
  | .eof p value => some (.eof p value)
  | .ret p value => some (.ret p value)
  | .acquire _ | .test _ | .sleep _ | .kill _ | .reuse _ => none

@[simp] theorem Spec.setReading_self (d : Spec) (p : Slot) (o : Option (Int × List UInt8)) :
    (d.setReading p o).reading p = o := Function.update_self ..

theorem Spec.setReading_of_ne {p q : Slot} (d : Spec) (o : Option (Int × List UInt8)) (h : q ≠ p) :
    (d.setReading p o).reading q = d.reading q := Function.update_of_ne h ..

/-! ## The echo -/

/-- A `BACKSPACE` takes back the byte before it. -/
def retract (text : List UInt8) (c : Nat) : List UInt8 :=
  if c = BACKSPACE then text.dropLast else text ++ [UInt8.ofNat c]

/-- The bytes that these calls of `consputc` leave behind `text`. -/
def retained (text : List UInt8) (echo : List Nat) : List UInt8 := echo.foldl retract text

variable {cons : Cons} {ready line text : List UInt8} {c b : UInt8}

theorem retained_append (text : List UInt8) (echo echo' : List Nat) :
    retained text (echo ++ echo') = retained (retained text echo) echo' := List.foldl_append ..

theorem retained_backspace (text : List UInt8) (echo : List Nat) :
    retained text (BACKSPACE :: echo) = retained text.dropLast echo := rfl

theorem retained_char (text : List UInt8) (b : UInt8) : retained text [b.toNat] = text ++ [b] := by
  have hne : b.toNat ≠ BACKSPACE := (b.toNat_lt.trans_le (Nat.le_refl 256)).ne
  change retract text b.toNat = text ++ [b]
  rw [retract, if_neg hne, UInt8.ofNat_toNat]

/-! ## The ring -/

/-- The ring holds the complete lines, and behind them the one that is being typed. -/
structure Holds (cons : Cons) (ready line : List UInt8) : Prop where
  spans : span cons.r cons.w + span cons.w cons.e = span cons.r cons.e
  room : span cons.r cons.e ≤ INPUT_BUF
  complete : window cons.buf cons.r cons.w = ready
  edited : window cons.buf cons.w cons.e = line
  typing : newline ∉ line

/-- What a key has done to the ring is what it does to the lines, and is echoed; readers are woken for new lines. -/
structure Edited (x : Cons × List Nat × Bool) (ready line : List UInt8) (y : List UInt8 × List UInt8) : Prop where
  ring : Holds x.1 y.1 y.2
  quiet : x.2.2 = false → y.1 = ready
  echo : ∀ text, retained (text ++ (ready ++ line)) x.2.1 = text ++ (y.1 ++ y.2)

theorem input_buf_dvd : INPUT_BUF ∣ 2 ^ 31 := by decide

namespace Holds

theorem length_eq (h : Holds cons ready line) : ready.length + line.length = span cons.r cons.e := by
  rw [← h.complete, ← h.edited, length_window, length_window, h.spans]

theorem not_empty (h : Holds cons ready line) (hne : cons.e ≠ cons.w) : cons.r ≠ cons.e := by
  intro heq
  have hspans := h.spans
  rw [heq, span_self] at hspans
  exact hne.symm (span_eq_zero.mp (by omega))

theorem erase (h : Holds cons ready line) (hne : cons.e ≠ cons.w) :
    Holds { cons with e := cons.e - 1 } ready line.dropLast ∧
      line = line.dropLast ++ [cons.buf (place INPUT_BUF (cons.e - 1))] := by
  have hwindow : line = window cons.buf cons.w (cons.e - 1) ++ [cons.buf (place INPUT_BUF (cons.e - 1))] := by
    rw [← h.edited]
    exact window_back hne.symm
  have hdrop : line.dropLast = window cons.buf cons.w (cons.e - 1) := by
    rw [hwindow, List.dropLast_concat]
  refine ⟨⟨?_, ?_, h.complete, hdrop.symm, fun hmem => h.typing (List.dropLast_subset line hmem)⟩, hdrop ▸ hwindow⟩
  · have hspans := h.spans
    have hback := span_back hne.symm
    have hback' := span_back (h.not_empty hne)
    dsimp only
    omega
  · have hroom := h.room
    have hback := span_back (h.not_empty hne)
    dsimp only
    omega

theorem line_nil (h : Holds cons ready line) (heq : cons.e = cons.w) : line = [] := by
  rw [← h.edited, heq, window_self]

theorem killLine (h : Holds cons ready line) {n : Nat} (hn : line.length = n) :
    Holds (killLine cons n).1 ready [] ∧ ∀ text, retained (text ++ line) (Console.killLine cons n).2 = text := by
  induction n generalizing cons line with
  | zero =>
      obtain rfl := List.eq_nil_of_length_eq_zero hn
      exact ⟨h, fun text => List.append_nil text⟩
  | succ n ih =>
      have hline : line ≠ [] := List.ne_nil_of_length_eq_add_one hn
      have hne : cons.e ≠ cons.w := fun heq => hline (h.line_nil heq)
      obtain ⟨herase, hlast⟩ := h.erase hne
      have hopen : cons.buf (place INPUT_BUF (cons.e - 1)) ≠ newline := by
        intro heq
        refine h.typing ?_
        rw [hlast, heq]
        simp
      have hdrop : line.dropLast.length = n := by
        rw [List.length_dropLast, hn, Nat.add_sub_cancel]
      obtain ⟨hring, hecho⟩ := ih herase hdrop
      unfold Console.killLine
      rw [if_pos ⟨hne, hopen⟩]
      refine ⟨hring, fun text => ?_⟩
      calc
        retained (text ++ line) (BACKSPACE :: (Console.killLine { cons with e := cons.e - 1 } n).2)
          = retained (text ++ line.dropLast) (Console.killLine { cons with e := cons.e - 1 } n).2 := by
            rw [retained_backspace, List.dropLast_append_of_ne_nil hline]
        _ = text := hecho text

/-- A byte is put behind the line that is being typed, which may complete it. -/
theorem put (h : Holds cons ready line) (hroom : ready.length + line.length < INPUT_BUF) {b : UInt8} :
    window (Function.update cons.buf (place INPUT_BUF cons.e) b) cons.r cons.w = ready ∧
      window (Function.update cons.buf (place INPUT_BUF cons.e) b) cons.w (cons.e + 1) = line ++ [b] ∧
        window (Function.update cons.buf (place INPUT_BUF cons.e) b) cons.r (cons.e + 1) = ready ++ (line ++ [b]) ∧
          span cons.r (cons.e + 1) = ready.length + line.length + 1 := by
  have hspans := h.spans
  rw [h.length_eq] at hroom ⊢
  have hline : span cons.w cons.e < INPUT_BUF := by omega
  refine ⟨?_, ?_, ?_, ?_⟩
  · rw [window_update input_buf_dvd (by omega)]
    exact h.complete
  · rw [window_snoc input_buf_dvd hline, h.edited]
  · rw [window_snoc input_buf_dvd hroom, window_append hspans, h.complete, h.edited, List.append_assoc]
  · exact span_succ hroom (by decide)

theorem store (h : Holds cons ready line) (hP : c ≠ C 'P') (hU : c ≠ C 'U') (hH : ¬ (c = C 'H' ∨ c = delete)) :
    Edited (store cons c) ready line (edit c ready line) := by
  have hused : (cons.e - cons.r).toNat = span cons.r cons.e := rfl
  unfold edit Console.store
  rw [if_neg hP, if_neg hU, if_neg hH, h.length_eq, hused]
  by_cases hroom : c ≠ 0 ∧ span cons.r cons.e < INPUT_BUF
  · rw [if_pos hroom, if_pos hroom]
    generalize (if c = carriageReturn then newline else c) = b
    obtain ⟨hcomplete, hedited, hall, hspan⟩ := h.put (b := b) (h.length_eq.trans_lt hroom.2)
    rw [h.length_eq] at hspan
    have hfull : cons.e + 1 = cons.r + UInt32.ofNat INPUT_BUF ↔ span cons.r cons.e + 1 = INPUT_BUF := by
      rw [← span_eq_iff (by decide), hspan]
    have hle : span cons.r (cons.e + 1) ≤ INPUT_BUF := hspan ▸ hroom.2
    have hecho (text : List UInt8) :
        retained (text ++ (ready ++ line)) [b.toNat] = text ++ (ready ++ (line ++ [b])) := by
      rw [retained_char]
      simp
    simp only [hfull]
    by_cases hcommit : b = newline ∨ b = C 'D' ∨ span cons.r cons.e + 1 = INPUT_BUF
    · rw [if_pos hcommit, if_pos hcommit]
      refine ⟨⟨?_, hle, hall, window_self, List.not_mem_nil⟩, fun hquiet => Bool.noConfusion hquiet, fun text => ?_⟩
      · rw [span_self, Nat.add_zero]
      · rw [List.append_nil]
        exact hecho text
    · rw [if_neg hcommit, if_neg hcommit]
      refine ⟨⟨?_, hle, hcomplete, hedited, ?_⟩, fun _ => rfl, hecho⟩
      · have hspans := h.spans
        have hlt : span cons.w cons.e < INPUT_BUF := by omega
        have hline : span cons.w (cons.e + 1) = span cons.w cons.e + 1 := span_succ hlt (by decide)
        change span cons.r cons.w + span cons.w (cons.e + 1) = span cons.r (cons.e + 1)
        omega
      · intro hmem
        rcases List.mem_append.mp hmem with hmem | hmem
        · exact h.typing hmem
        · exact hcommit (.inl (List.mem_singleton.mp hmem).symm)
  · rw [if_neg hroom, if_neg hroom]
    exact ⟨h, fun _ => rfl, fun _ => rfl⟩

theorem consoleintr (h : Holds cons ready line) (c : UInt8) :
    Edited (consoleintr cons c) ready line (edit c ready line) := by
  by_cases hP : c = C 'P'
  · subst hP
    exact ⟨h, fun _ => rfl, fun _ => rfl⟩
  by_cases hU : c = C 'U'
  · subst hU
    have hlength : line.length = span cons.w cons.e := by rw [← h.edited, length_window]
    obtain ⟨hring, hecho⟩ := h.killLine hlength
    refine ⟨hring, fun _ => rfl, fun text => ?_⟩
    have hecho := hecho (text ++ ready)
    rw [List.append_assoc] at hecho
    exact hecho.trans (by simp [edit, C])
  by_cases hH : c = C 'H' ∨ c = delete
  · unfold edit Console.consoleintr
    rw [if_neg hP, if_neg hU, if_pos hH, if_neg hP, if_neg hU, if_pos hH]
    by_cases hne : cons.e ≠ cons.w
    · have hline : line ≠ [] := by
        rw [← h.edited]
        exact fun hnil => hne (window_eq_nil.mp hnil).symm
      rw [if_pos hne]
      refine ⟨(h.erase hne).1, fun _ => rfl, fun text => ?_⟩
      change (text ++ (ready ++ line)).dropLast = text ++ (ready ++ line.dropLast)
      rw [← List.append_assoc, List.dropLast_append_of_ne_nil hline, List.append_assoc]
    · obtain rfl := h.line_nil (not_not.mp hne)
      rw [if_neg hne]
      exact ⟨h, fun _ => rfl, fun _ => rfl⟩
  · unfold Console.consoleintr
    rw [if_neg hP, if_neg hU, if_neg hH]
    exact h.store hP hU hH

/-- The oldest byte of the complete lines is taken. -/
theorem take (h : Holds cons ready line) (hne : cons.r ≠ cons.w) :
    ready = cons.front :: ready.tail ∧ Holds { cons with r := cons.r + 1 } ready.tail line := by
  have hcons : ready = cons.front :: window cons.buf (cons.r + 1) cons.w := by
    rw [← h.complete]
    exact window_cons hne
  have htail : ready.tail = window cons.buf (cons.r + 1) cons.w := by rw [hcons, List.tail_cons]
  have hspans := h.spans
  have hroom := h.room
  have hpred := span_pred hne
  have hre : cons.r ≠ cons.e := by
    intro heq
    have hzero : span cons.r cons.e = 0 := span_eq_zero.mpr heq
    omega
  have hpred' := span_pred hre
  refine ⟨htail ▸ hcons, ⟨?_, ?_, htail.symm, h.edited, h.typing⟩⟩
  · dsimp only
    omega
  · dsimp only
    omega

theorem ready_nil (h : Holds cons ready line) : ready = [] ↔ cons.r = cons.w := by
  rw [← h.complete, window_eq_nil]

end Holds

/-! ## Refinement -/

/-- How a call of `consoleread` appears. -/
def Call.Shows : Call → Option (Int × List UInt8) → Prop
  | .out, o => o = none
  | .acquire target n, o | .loop target n, o | .tested target n, o | .asleep target n, o =>
      ∃ got, o = some (target, got) ∧ got.length = target - n ∧ newline ∉ got
  | .line target n, o => ∃ got, o = some (target, got) ∧ got.length = target - n ∧ newline ∈ got

/-- The process holds the lock. -/
def Call.holds : Call → Bool
  | .loop _ _ | .tested _ _ | .line _ _ => true
  | _ => false

/-- The process sleeps, or will do so without another look at the ring. -/
def Call.waits : Call → Bool
  | .tested _ _ | .asleep _ _ => true
  | _ => false

structure Shows (s : System) (d : Spec) : Prop where
  ring : Holds s.cons d.ready d.line
  calls : ∀ p, (s.call p).Shows (d.reading p)
  lock : ∀ p, (s.call p).holds = true → s.lock = some p
  -- no wakeup is lost
  sleepers : ∀ p, (s.call p).waits = true → d.ready = []

variable {s s' : System} {d : Spec} {ev : Event} {p q : Slot} {call : Call} {o : Option (Int × List UInt8)}

theorem Call.shows_out : Call.out.Shows none := rfl

theorem Call.Shows.awake (h : call.Shows o) : call.awake.Shows o := by
  cases call with
  | _ => exact h

theorem Call.awake_holds : call.awake.holds = call.holds := by
  cases call with
  | _ => rfl

theorem Call.awake_waits (h : call.awake.waits = true) : call.holds = true ∧ call.waits = true := by
  cases call with
  | tested target n => exact ⟨rfl, rfl⟩
  | _ => cases h

namespace Shows

theorem boot : Shows System.boot Spec.start where
  ring := ⟨rfl, Nat.zero_le _, rfl, rfl, List.not_mem_nil⟩
  calls _ := rfl
  lock p h := by cases h
  sleepers p h := by cases h

theorem setCalls (h : ∀ q, (s.call q).Shows (d.reading q)) (p : Slot) (hcall : call.Shows o) (q : Slot) :
    ((s.setCall p call).call q).Shows ((d.setReading p o).reading q) := by
  by_cases hq : q = p
  · subst hq
    rw [setCall_self, Spec.setReading_self]
    exact hcall
  · rw [setCall_of_ne hq, Spec.setReading_of_ne d o hq]
    exact h q

theorem not_holds (h : Shows s d) (hfree : s.lock = none) (q : Slot) : (s.call q).holds = false := by
  by_contra hq
  have hlock := h.lock q (Bool.eq_true_of_not_eq_false hq)
  rw [hfree] at hlock
  cases hlock

/-- A process goes from one call to another, and holds the lock if it did. -/
theorem lock_setCall (h : Shows s d) (hc : call.holds = true → (s.call p).holds = true) (q : Slot)
    (hq : ((s.setCall p call).call q).holds = true) : s.lock = some q := by
  by_cases hqp : q = p
  · subst hqp
    rw [setCall_self] at hq
    exact h.lock q (hc hq)
  · rw [setCall_of_ne hqp] at hq
    exact h.lock q hq

theorem lock_acquire (h : Shows s d) (hfree : s.lock = none) (q : Slot)
    (hq : ((s.setCall p call).call q).holds = true) : some p = some q := by
  by_cases hqp : q = p
  · rw [hqp]
  · rw [setCall_of_ne hqp, h.not_holds hfree q] at hq
    cases hq

/-- The holder of the lock gives it up. -/
theorem lock_release (h : Shows s d) (hp : (s.call p).holds = true) (hc : call.holds = false) (q : Slot)
    (hq : ((s.setCall p call).call q).holds = true) : none = some q := by
  by_cases hqp : q = p
  · rw [hqp, setCall_self, hc] at hq
    cases hq
  · rw [setCall_of_ne hqp] at hq
    exact absurd (Option.some.inj ((h.lock q hq).symm.trans (h.lock p hp))) hqp

/-- Only the call of one process changes. -/
theorem moved (h : Shows s d) {lock : Option Slot} {killed : Slot → Bool} (hcall : call.Shows (d.reading p))
    (hlock : ∀ q, ((s.setCall p call).call q).holds = true → lock = some q)
    (hwaits : call.waits = true → d.ready = []) : Shows { s.setCall p call with lock := lock, killed := killed } d where
  ring := h.ring
  calls q := by
    have hself : d.setReading p (d.reading p) = d := by simp [Spec.setReading]
    have hcalls := setCalls h.calls p hcall q
    rwa [hself] at hcalls
  lock := hlock
  sleepers q hq := by
    dsimp only at hq
    by_cases hqp : q = p
    · rw [hqp, setCall_self] at hq
      exact hwaits hq
    · rw [setCall_of_ne hqp] at hq
      exact h.sleepers q hq

/-- The call of a process takes something from the ring, or ends. -/
theorem changed (h : Shows s d) {cons : Cons} {ready : List UInt8} {lock : Option Slot}
    (hring : Holds cons ready d.line) (hcall : call.Shows o)
    (hlock : ∀ q, ((s.setCall p call).call q).holds = true → lock = some q) (hawake : call.waits = false)
    (hready : d.ready = [] → ready = []) :
    Shows { s.setCall p call with cons := cons, lock := lock } ({ d with ready := ready }.setReading p o) where
  ring := hring
  calls q := setCalls h.calls p hcall q
  lock := hlock
  sleepers q hq := by
    dsimp only at hq
    by_cases hqp : q = p
    · rw [hqp, setCall_self, hawake] at hq
      cases hq
    · rw [setCall_of_ne hqp] at hq
      exact hready (h.sleepers q hq)

theorem key (h : Shows s d) {c : UInt8} (hfree : s.lock = none) (hcons : s'.cons = (consoleintr s.cons c).1)
    (hcall : s'.call = s.call ∧ (consoleintr s.cons c).2.2 = false ∨ s'.call = fun p => (s.call p).awake) :
    Shows s' { d with ready := (edit c d.ready d.line).1, line := (edit c d.ready d.line).2 } := by
  have hedited := h.ring.consoleintr c
  refine ⟨hcons ▸ hedited.ring, fun q => ?_, fun q hq => ?_, fun q hq => ?_⟩
  · rcases hcall with ⟨hcall, -⟩ | hcall
    · rw [hcall]
      exact h.calls q
    · rw [hcall]
      exact (h.calls q).awake
  · rcases hcall with ⟨hcall, -⟩ | hcall
    · rw [hcall, h.not_holds hfree q] at hq
      cases hq
    · rw [hcall, Call.awake_holds, h.not_holds hfree q] at hq
      cases hq
  · rcases hcall with ⟨hcall, hwakes⟩ | hcall
    · rw [hcall] at hq
      exact (hedited.quiet hwakes).trans (h.sleepers q hq)
    · rw [hcall] at hq
      -- whoever is about to sleep holds the lock
      exact absurd ((h.not_holds hfree q).symm.trans (Call.awake_waits hq).1) Bool.noConfusion

end Shows

/-- What a process in the loop of `consoleread` has got. -/
theorem Shows.loop (h : Shows s d) {target n : Int} (hp : s.call p = .loop target n) :
    ∃ got, d.reading p = some (target, got) ∧ got.length = target - n ∧ newline ∉ got := by
  have hcall := h.calls p
  rw [hp] at hcall
  exact hcall

theorem Shows.front (h : Shows s d) (hsome : s.cons.r ≠ s.cons.w) :
    d.ready.head? = some s.cons.front ∧ Holds { s.cons with r := s.cons.r + 1 } d.ready.tail d.line := by
  obtain ⟨hready, hring⟩ := h.ring.take hsome
  refine ⟨?_, hring⟩
  rw [hready]
  rfl

theorem Shows.step (h : Shows s d) (hs : System.step ev s = some s') :
    (ev.seen = none ∧ Shows s' d) ∨ ∃ a d', ev.seen = some a ∧ Spec.step a d = some d' ∧ Shows s' d' := by
  have htail : d.ready = [] → d.ready.tail = [] := fun hnil => by rw [hnil]; rfl
  cases step_stepped hs with
  | consoleintr hfree hcons hecho hlock hkilled hcall => exact .inr ⟨_, _, rfl, rfl, h.key hfree hcons hcall⟩
  | @consoleread p n hp =>
      have hcall := h.calls p
      rw [hp] at hcall
      have hidle : d.reading p = none := hcall
      refine .inr ⟨_, d.setReading p (some (n, [])), rfl, if_pos hidle, ?_⟩
      exact h.changed h.ring ⟨[], rfl, by simp, List.not_mem_nil⟩ (h.lock_setCall fun hc => by cases hc) rfl id
  | @acquire p target n hfree hp =>
      have hcall := h.calls p
      rw [hp] at hcall
      exact .inl ⟨rfl, h.moved hcall (h.lock_acquire hfree) fun hwaits => by cases hwaits⟩
  | @test p target n hp hn hempty =>
      exact .inl ⟨rfl, h.moved (h.loop hp) (h.lock_setCall fun _ => by rw [hp]; rfl) fun _ => h.ring.ready_nil.mpr hempty⟩
  | @sleep p target n hp =>
      have hcall := h.calls p
      have hready := h.sleepers p
      rw [hp] at hcall hready
      exact .inl ⟨rfl, h.moved hcall (h.lock_release (by rw [hp]; rfl) rfl) fun _ => hready rfl⟩
  | @take p target n hp hn hsome hc =>
      have hholds : (s.call p).holds = true := by rw [hp]; rfl
      obtain ⟨got, hgot, hlength, hopen⟩ := h.loop hp
      obtain ⟨hhead, hring⟩ := h.front hsome
      have hwants : Spec.wants target got := ⟨by omega, hopen⟩
      refine .inr ⟨_, { d with ready := d.ready.tail }.setReading p (some (target, got ++ [s.cons.front])), rfl, ?_, ?_⟩
      · simp only [Spec.step, hgot, Option.bind_some]
        exact if_pos ⟨hwants, hhead, hc⟩
      · have hcount : ((got ++ [s.cons.front]).length : Int) = target - (n - 1) := by
          rw [List.length_append, List.length_singleton]
          omega
        by_cases hline : s.cons.front = newline
        · rw [if_pos hline]
          exact h.changed hring ⟨_, rfl, hcount, by simp [hline]⟩ (h.lock_setCall fun _ => hholds) rfl htail
        · rw [if_neg hline]
          exact h.changed hring ⟨_, rfl, hcount, by simp [hopen, Ne.symm hline]⟩ (h.lock_setCall fun _ => hholds) rfl
            htail
  | @fault p target n hp hn hsome hc =>
      have hholds : (s.call p).holds = true := by rw [hp]; rfl
      obtain ⟨got, hgot, hlength, hopen⟩ := h.loop hp
      obtain ⟨hhead, hring⟩ := h.front hsome
      have hwants : Spec.wants target got := ⟨by omega, hopen⟩
      refine .inr ⟨_, { d with ready := d.ready.tail }.setReading p none, rfl, ?_, ?_⟩
      · simp only [Spec.step, hgot, Option.bind_some]
        exact if_pos ⟨hwants, hhead, hc, hlength.symm⟩
      · exact h.changed hring Call.shows_out (h.lock_release hholds rfl) rfl htail
  | @eof p target n hp hn hsome hc =>
      have hholds : (s.call p).holds = true := by rw [hp]; rfl
      obtain ⟨got, hgot, hlength, hopen⟩ := h.loop hp
      obtain ⟨hhead, hring⟩ := h.front hsome
      have hwants : Spec.wants target got := ⟨by omega, hopen⟩
      have hfirst : n < target ↔ got ≠ [] := by
        rw [← List.length_pos_iff]
        omega
      refine .inr ⟨_, { d with ready := if got = [] then d.ready.tail else d.ready }.setReading p none, rfl, ?_, ?_⟩
      · simp only [Spec.step, hgot, Option.bind_some]
        exact if_pos ⟨hwants, hc ▸ hhead, hlength.symm⟩
      · by_cases hlt : n < target
        · rw [if_pos hlt, if_neg (hfirst.mp hlt)]
          exact h.changed h.ring Call.shows_out (h.lock_release hholds rfl) rfl id
        · rw [if_neg hlt, if_pos (not_not.mp fun hne => hlt (hfirst.mpr hne))]
          exact h.changed hring Call.shows_out (h.lock_release hholds rfl) rfl htail
  | @retKilled p target n hp hn hempty =>
      have hholds : (s.call p).holds = true := by rw [hp]; rfl
      obtain ⟨got, hgot, hlength, hopen⟩ := h.loop hp
      have hwants : Spec.wants target got := ⟨by omega, hopen⟩
      refine .inr ⟨_, d.setReading p none, rfl, ?_, h.changed h.ring Call.shows_out (h.lock_release hholds rfl) rfl id⟩
      simp only [Spec.step, hgot, Option.bind_some]
      exact if_pos (.inr ⟨hwants, h.ring.ready_nil.mpr hempty, trivial⟩)
  | @retFull p target n hp hn =>
      have hholds : (s.call p).holds = true := by rw [hp]; rfl
      obtain ⟨got, hgot, hlength, hopen⟩ := h.loop hp
      have hfull : ¬ Spec.wants target got := fun hwants => by
        have hlt := hwants.1
        omega
      refine .inr ⟨_, d.setReading p none, rfl, ?_, h.changed h.ring Call.shows_out (h.lock_release hholds rfl) rfl id⟩
      simp only [Spec.step, hgot, Option.bind_some]
      exact if_pos (.inl ⟨hfull, hlength.symm⟩)
  | @retLine p target n hp =>
      have hholds : (s.call p).holds = true := by rw [hp]; rfl
      have hcall := h.calls p
      rw [hp] at hcall
      obtain ⟨got, hgot, hlength, hline⟩ := hcall
      refine .inr ⟨_, d.setReading p none, rfl, ?_, h.changed h.ring Call.shows_out (h.lock_release hholds rfl) rfl id⟩
      simp only [Spec.step, hgot, Option.bind_some]
      exact if_pos (.inl ⟨fun hwants => hwants.2 hline, hlength.symm⟩)
  | @kill p =>
      have hlock := h.lock_setCall (p := p) (fun hc => Call.awake_holds ▸ hc : (s.call p).awake.holds = true → _)
      exact .inl ⟨rfl, h.moved (h.calls p).awake hlock fun hwaits => h.sleepers p (Call.awake_waits hwaits).2⟩
  | reuse => exact .inl ⟨rfl, ⟨h.ring, h.calls, h.lock, h.sleepers⟩⟩

theorem simulates : Simulates System.step Spec.step Event.seen some (fun _ => True) Shows where
  matched h _ hs := by
    rcases h.step hs with ⟨hseen, hshows⟩ | ⟨a, d', hseen, hstep, hshows⟩
    · exact ⟨[], _, .nil, by rw [hseen]; rfl, hshows⟩
    · exact ⟨_, d', Run.single hstep, by rw [trace_single, hseen], hshows⟩

/-! ## At most a line -/

/-- What a call has got: no end-of-file, no newline but as its last byte, and no more than it asked for. -/
def OneLine (n : Int) (got : List UInt8) : Prop :=
  C 'D' ∉ got ∧ newline ∉ got.dropLast ∧ (got.length ≤ n ∨ got = [])

theorem OneLine.set (h : ∀ p n got, d.reading p = some (n, got) → OneLine n got)
    (ho : ∀ n got, o = some (n, got) → OneLine n got) (p : Slot) :
    ∀ q n got, (d.setReading p o).reading q = some (n, got) → OneLine n got := by
  intro q n got hq
  by_cases hqp : q = p
  · subst hqp
    exact ho n got ((Spec.setReading_self d q o).symm.trans hq)
  · exact h q n got ((Spec.setReading_of_ne d o hqp).symm.trans hq)

theorem OneLine.step {a : Action} {d' : Spec} (h : ∀ p n got, d.reading p = some (n, got) → OneLine n got)
    (hs : Spec.step a d = some d') : ∀ p n got, d'.reading p = some (n, got) → OneLine n got := by
  cases a with
  | key c =>
      obtain rfl := Option.some.inj hs
      exact h
  | call p n =>
      obtain ⟨-, rfl⟩ := by simpa only [Spec.step, Option.ite_none_right_eq_some, Option.some.injEq] using hs
      refine OneLine.set h (fun n' got heq => ?_) p
      cases heq
      exact ⟨List.not_mem_nil, List.not_mem_nil, .inr rfl⟩
  | take p c =>
      simp only [Spec.step, Option.bind_eq_some_iff, Option.ite_none_right_eq_some, Option.some.injEq] at hs
      obtain ⟨⟨n, got⟩, hgot, ⟨⟨hlt, hopen⟩, -, hc⟩, rfl⟩ := hs
      obtain ⟨heof, -, -⟩ := h p n got hgot
      refine OneLine.set (d := { d with ready := d.ready.tail }) h (fun n' got' heq => ?_) p
      cases heq
      refine ⟨?_, ?_, .inl ?_⟩
      · simp [heof, Ne.symm hc]
      · rw [List.dropLast_concat]
        exact hopen
      · rw [List.length_append, List.length_singleton]
        have hlt : (got.length : Int) < n := hlt
        omega
  | lose p c value =>
      simp only [Spec.step, Option.bind_eq_some_iff, Option.ite_none_right_eq_some, Option.some.injEq] at hs
      obtain ⟨x, -, -, rfl⟩ := hs
      exact OneLine.set (d := { d with ready := d.ready.tail }) h (by simp) p
  | eof p value =>
      simp only [Spec.step, Option.bind_eq_some_iff, Option.ite_none_right_eq_some, Option.some.injEq] at hs
      obtain ⟨x, -, -, rfl⟩ := hs
      exact OneLine.set (d := { d with ready := if x.2 = [] then d.ready.tail else d.ready }) h (by simp) p
  | ret p value =>
      simp only [Spec.step, Option.bind_eq_some_iff, Option.ite_none_right_eq_some, Option.some.injEq] at hs
      obtain ⟨x, -, -, rfl⟩ := hs
      exact OneLine.set h (by simp) p

/-- Every run of the console is one of the line discipline with the same keys, calls, bytes and results, in which
each call gets at most one line; and no reader sleeps while there is a complete line. -/
theorem console_refines {tr : List (Transition System Event)} (h : Run System.step System.boot tr s) :
    ∃ tr' d, Run Spec.step Spec.start tr' d ∧ trace some tr' = trace Event.seen tr ∧ Shows s d ∧
      ∀ p n got, d.reading p = some (n, got) → OneLine n got := by
  obtain ⟨tr', d, hrun, htrace, hshows⟩ := simulates.run h Shows.boot fun _ _ => trivial
  refine ⟨tr', d, hrun, htrace, hshows, ?_⟩
  refine hrun.invariant (I := fun d => ∀ p n got, d.reading p = some (n, got) → OneLine n got) (fun p n got hp => ?_)
    fun _ _ hs hpre => OneLine.step hpre hs
  cases hp

/-- A reader sleeps until the line is complete, in which a byte has been erased. -/
theorem console_refines_erased :
    ∃ (tr : List (Transition System Event)) (s : System) (tr' : List (Transition Spec Action)) (d : Spec),
      s.call 0 = .line 10 7 ∧ Run Spec.step Spec.start tr' d ∧ trace some tr' = trace Event.seen tr ∧ Shows s d ∧
        ∀ p n got, d.reading p = some (n, got) → OneLine n got := by
  let events : List Event := [.consoleread 0 10, .acquire 0, .test 0, .sleep 0, .consoleintr 97, .consoleintr 98,
    .consoleintr delete, .consoleintr 99, .consoleintr carriageReturn, .acquire 0, .take 0 97, .take 0 99,
    .take 0 newline]
  have hplay : (final System.step System.boot events).any (fun s => s.call 0 = .line 10 7) = true := by decide +kernel
  obtain ⟨tr, s, h, -, hs⟩ := Run.replay hplay
  obtain ⟨tr', d, hrefines⟩ := console_refines h
  exact ⟨tr, s, tr', d, of_decide_eq_true hs, hrefines⟩

end Xv6Mlfq.Console
