import Xv6Mlfq.Threads.PrintInOrder.Conditional
import Xv6Mlfq.Threads.PrintInOrder.Semaphore

/-!
# Both classes
-/

namespace Xv6Mlfq.Threads.PrintInOrder

open Posix

/-- Both classes call `first`, `second` and `third` in this order in every interleaving, whatever order the threads
start in, and neither blocks. -/
theorem calls_in_order :
    (∀ w, Reaches Semaphore.code Semaphore.start w →
      InOrder w.data (Finished Semaphore.code w) (∃ w', Step Semaphore.code w w')) ∧
    (∀ w, Arrives Conditional.code Conditional.start w →
      InOrder w.data.calls (Ended Conditional.code w) (∃ w', Move Conditional.code w w')) ∧
    (∃ w, Reaches Semaphore.code Semaphore.start w ∧ Finished Semaphore.code w) ∧
    ∃ w, Arrives Conditional.code Conditional.start w ∧ Ended Conditional.code w :=
  ⟨fun _ => Semaphore.ordered, fun _ => Conditional.ordered, Semaphore.exists_complete, Conditional.exists_complete⟩

end Xv6Mlfq.Threads.PrintInOrder
