import Mathlib.Data.Fintype.Basic
import Xv6Mlfq.Runs.Run

/-!
# A store whose transactions become durable together

Agents write inside transactions. A write shows at once; it outlives a crash only after a `sync`, and a `sync`
happens only when no transaction is under way.
-/

namespace Stores

open Runs

variable {σ ι α : Type*}

structure Store (σ ι α : Type*) where
  active : σ → Bool
  durable : ι → α
  current : ι → α

inductive Action (σ ι α : Type*) where
  | enter (p : σ)
  | write (p : σ) (i : ι) (v : α)
  | read (i : ι) (v : α)
  | leave (p : σ)
  | sync
  | crash

def Store.fresh (v : ι → α) : Store σ ι α := ⟨fun _ => false, v, v⟩

/-- No transaction is under way. -/
def Store.Quiet (s : Store σ ι α) : Prop := ∀ p, s.active p = false

instance [Fintype σ] (s : Store σ ι α) : Decidable s.Quiet := inferInstanceAs (Decidable (∀ _, _))

variable [Fintype σ] [DecidableEq σ] [DecidableEq ι] [DecidableEq α]

def Store.step : Action σ ι α → Store σ ι α → Option (Store σ ι α)
  | .enter p, s => if s.active p then none else some { s with active := Function.update s.active p true }
  | .write p i v, s => if s.active p then some { s with current := Function.update s.current i v } else none
  | .read i v, s => if s.current i = v then some s else none
  | .leave p, s => if s.active p then some { s with active := Function.update s.active p false } else none
  | .sync, s => if s.Quiet then some { s with durable := s.current } else none
  | .crash, s => some (Store.fresh s.durable)

/-- What all but `sync` shows to the agents. -/
def Action.seen : Action σ ι α → Option (Action σ ι α)
  | .sync => none
  | a => some a

end Stores
