import Xv6Mlfq.Threads.FooBar.Conditional
import Xv6Mlfq.Threads.FooBar.Semaphore

/-!
# Both classes
-/

namespace Xv6Mlfq.Threads.FooBar

open Posix

theorem Semaphore.completeTraces (n : Nat) :
    FooBar.completeTraces (Semaphore.code n) Semaphore.start id = {fooBar n} :=
  completeTraces_eq (fun _ => Semaphore.alternation) (Semaphore.exists_complete n)

theorem Conditional.completeTraces (n : Nat) :
    FooBar.completeTraces (Conditional.code n) Conditional.start Conditional.Shared.calls = {fooBar n} :=
  completeTraces_eq (fun _ => Conditional.alternation) (Conditional.exists_complete n)

/-- Both classes call `foo` and `bar` in turn, and have the same complete traces. -/
theorem calls_alternate (n : Nat) :
    (∀ w, Reaches (Semaphore.code n) Semaphore.start w → Alternation (Semaphore.code n) id n w) ∧
    (∀ w, Reaches (Conditional.code n) Conditional.start w →
      Alternation (Conditional.code n) Conditional.Shared.calls n w) ∧
    completeTraces (Semaphore.code n) Semaphore.start id =
      completeTraces (Conditional.code n) Conditional.start Conditional.Shared.calls :=
  ⟨fun _ => Semaphore.alternation, fun _ => Conditional.alternation,
    (Semaphore.completeTraces n).trans (Conditional.completeTraces n).symm⟩

end Xv6Mlfq.Threads.FooBar
