import Mathlib.Logic.Function.Basic

/-!
# Programs of single memory accesses

A program is a tree of loads and stores on a memory of cells. `exec` runs it alone, `after` stops it
between two accesses, and `interrupted` lets a handler run there. `touched` is the footprint of a run.
-/

namespace Access

universe u v w

/-- Cells `ι` hold values `β`; the program returns an `α`. -/
inductive Prog (ι : Type u) (β : Type v) (α : Type w) where
  | ret (a : α)
  | load (i : ι) (k : β → Prog ι β α)
  | store (i : ι) (b : β) (k : Prog ι β α)

variable {ι : Type u} {β : Type v} {α γ : Type w}

namespace Prog

def bind : Prog ι β α → (α → Prog ι β γ) → Prog ι β γ
  | ret a, f => f a
  | load i k, f => load i fun b => (k b).bind f
  | store i b k, f => store i b (k.bind f)

instance : Monad (Prog ι β) where
  pure := ret
  bind := bind

theorem bind_ret (p : Prog ι β α) : p.bind ret = p := by
  induction p with
  | ret a => rfl
  | load i k ih => exact congrArg (load i) (funext ih)
  | store i b k ih => exact congrArg (store i b) ih

theorem bind_bind {δ : Type w} (p : Prog ι β α) (f : α → Prog ι β γ) (g : γ → Prog ι β δ) :
    (p.bind f).bind g = p.bind fun a => (f a).bind g := by
  induction p with
  | ret a => rfl
  | load i k ih => exact congrArg (load i) (funext ih)
  | store i b k ih => exact congrArg (store i b) ih

instance : LawfulMonad (Prog ι β) :=
  LawfulMonad.mk' _ (fun p => bind_ret p) (fun _ _ => rfl) (fun p f g => bind_bind p f g)

end Prog

def read (i : ι) : Prog ι β β := .load i .ret

def write (i : ι) (b : β) : Prog ι β PUnit := .store i b (.ret ⟨⟩)

variable [DecidableEq ι]

namespace Prog

/-- The whole program, run without interruption. -/
def exec : Prog ι β α → (ι → β) → α × (ι → β)
  | ret a, m => (a, m)
  | load i k, m => (k (m i)).exec m
  | store i b k, m => k.exec (Function.update m i b)

/-- The cells the run loads or stores, in order. -/
def touched : Prog ι β α → (ι → β) → List ι
  | ret _, _ => []
  | load i k, m => i :: (k (m i)).touched m
  | store i b k, m => i :: k.touched (Function.update m i b)

/-- What is left of the program, and the memory, after `n` accesses. -/
def after : Nat → Prog ι β α → (ι → β) → Prog ι β α × (ι → β)
  | 0, p, m => (p, m)
  | _ + 1, ret a, m => (ret a, m)
  | n + 1, load i k, m => after n (k (m i)) m
  | n + 1, store i b k, m => after n k (Function.update m i b)

/-- The run in which `handler` changes the memory once, after the first `n` accesses. -/
def interrupted (p : Prog ι β α) (n : Nat) (handler : (ι → β) → (ι → β)) (m : ι → β) :
    α × (ι → β) :=
  (p.after n m).1.exec (handler (p.after n m).2)

/-! ## The parts of a sequence -/

variable (m : ι → β)

@[simp] theorem exec_pure (a : α) : (pure a : Prog ι β α).exec m = (a, m) := rfl

@[simp] theorem exec_bind (p : Prog ι β α) (f : α → Prog ι β γ) :
    (p >>= f).exec m = (f (p.exec m).1).exec (p.exec m).2 := by
  show (p.bind f).exec m = _
  induction p generalizing m with
  | ret a => rfl
  | load i k ih => exact ih (m i) m
  | store i b k ih => exact ih _

@[simp] theorem exec_map (f : α → γ) (p : Prog ι β α) :
    (f <$> p).exec m = (f (p.exec m).1, (p.exec m).2) := by
  rw [← bind_pure_comp, exec_bind, exec_pure]

@[simp] theorem exec_read (i : ι) : (read i : Prog ι β β).exec m = (m i, m) := rfl

@[simp] theorem exec_write (i : ι) (b : β) :
    (write i b).exec m = (⟨⟩, Function.update m i b) := rfl

@[simp] theorem touched_pure (a : α) : (pure a : Prog ι β α).touched m = [] := rfl

@[simp] theorem touched_bind (p : Prog ι β α) (f : α → Prog ι β γ) :
    (p >>= f).touched m = p.touched m ++ (f (p.exec m).1).touched (p.exec m).2 := by
  show (p.bind f).touched m = _
  induction p generalizing m with
  | ret a => rfl
  | load i k ih => exact congrArg (i :: ·) (ih (m i) m)
  | store i b k ih => exact congrArg (i :: ·) (ih _)

@[simp] theorem touched_map (f : α → γ) (p : Prog ι β α) : (f <$> p).touched m = p.touched m := by
  rw [← bind_pure_comp, touched_bind, touched_pure, List.append_nil]

@[simp] theorem touched_read (i : ι) : (read i : Prog ι β β).touched m = [i] := rfl

@[simp] theorem touched_write (i : ι) (b : β) : (write i b).touched m = [i] := rfl

/-! ## Cells outside the footprint -/

variable {m}

theorem exec_update_snd {p : Prog ι β α} {i : ι} {b : β} (h : i ∉ p.touched m) :
    (p.exec (Function.update m i b)).2 = Function.update (p.exec m).2 i b := by
  induction p generalizing m with
  | ret a => rfl
  | load j k ih =>
      obtain ⟨hj, hk⟩ := not_or.mp (mt List.mem_cons.mpr h)
      simp only [exec]
      rw [Function.update_of_ne (Ne.symm hj)]
      exact ih (m j) hk
  | store j c k ih =>
      obtain ⟨hj, hk⟩ := not_or.mp (mt List.mem_cons.mpr h)
      simp only [exec]
      rw [Function.update_comm hj]
      exact ih hk

theorem exec_snd_of_notMem {p : Prog ι β α} {i : ι} (h : i ∉ p.touched m) :
    (p.exec m).2 i = m i := by
  induction p generalizing m with
  | ret a => rfl
  | load j k ih => exact ih (m j) (not_or.mp (mt List.mem_cons.mpr h)).2
  | store j c k ih =>
      obtain ⟨hj, hk⟩ := not_or.mp (mt List.mem_cons.mpr h)
      simp only [exec]
      rw [ih hk, Function.update_of_ne hj]

theorem touched_update {p : Prog ι β α} {i : ι} {b : β} (h : i ∉ p.touched m) :
    p.touched (Function.update m i b) = p.touched m := by
  induction p generalizing m with
  | ret a => rfl
  | load j k ih =>
      obtain ⟨hj, hk⟩ := not_or.mp (mt List.mem_cons.mpr h)
      simp only [touched]
      rw [Function.update_of_ne (Ne.symm hj), ih (m j) hk]
  | store j c k ih =>
      obtain ⟨hj, hk⟩ := not_or.mp (mt List.mem_cons.mpr h)
      simp only [touched]
      rw [Function.update_comm hj, ih hk]

/-! ## Programs that share no cell -/

/-- A program gives the same before and after one that shares no cell with it. -/
theorem exec_exec_of_disjoint {p : Prog ι β α} {q : Prog ι β γ} (h : ∀ i ∈ p.touched m, i ∉ q.touched m) :
    p.exec (q.exec m).2 = ((p.exec m).1, (q.exec (p.exec m).2).2) := by
  induction p generalizing m with
  | ret a => rfl
  | load i k ih =>
      simp only [exec]
      rw [exec_snd_of_notMem (h i List.mem_cons_self)]
      exact ih (m i) fun j hj => h j (List.mem_cons_of_mem _ hj)
  | store i b k ih =>
      have hi : i ∉ q.touched m := h i List.mem_cons_self
      simp only [exec]
      rw [← exec_update_snd hi]
      refine ih fun j hj => ?_
      rw [touched_update hi]
      exact h j (List.mem_cons_of_mem _ hj)

/-- An interruption by a handler that shares no cell with the program may as well come after it. -/
theorem interrupted_of_disjoint {p : Prog ι β α} {q : Prog ι β γ} (n : Nat)
    (h : ∀ i ∈ p.touched m, i ∉ q.touched m) :
    p.interrupted n (fun m => (q.exec m).2) m = ((p.exec m).1, (q.exec (p.exec m).2).2) := by
  induction n generalizing p m with
  | zero => exact exec_exec_of_disjoint h
  | succ n ih =>
      cases p with
      | ret a => rfl
      | load i k => exact ih fun j hj => h j (List.mem_cons_of_mem _ hj)
      | store i b k =>
          refine ih fun j hj => ?_
          rw [touched_update (h i List.mem_cons_self)]
          exact h j (List.mem_cons_of_mem _ hj)

section Interrupted

variable (n : Nat) (handler : (ι → β) → (ι → β))

@[simp] theorem interrupted_zero (p : Prog ι β α) : p.interrupted 0 handler m = p.exec (handler m) := rfl

@[simp] theorem interrupted_pure (a : α) :
    (pure a : Prog ι β α).interrupted n handler m = (a, handler m) := by
  cases n <;> rfl

@[simp] theorem interrupted_read_bind {δ : Type v} (i : ι) (f : β → Prog ι β δ) :
    (read i >>= f).interrupted (n + 1) handler m = (f (m i)).interrupted n handler m := rfl

@[simp] theorem interrupted_write_bind (i : ι) (b : β) (f : PUnit → Prog ι β α) :
    (write i b >>= f).interrupted (n + 1) handler m = (f ⟨⟩).interrupted n handler (Function.update m i b) := rfl

end Interrupted

end Prog

end Access
