import Mathlib.Logic.Function.Basic
import Mathlib.Logic.Relation
import Mathlib.Tactic.SplitIfs

/-!
# Threads with semaphores, mutexes and condition variables

A thread is a graph of labelled statements. A statement calls a POSIX primitive or acts on the data that the
threads share, and takes effect in one step of the thread. A thread that waits for a condition variable may also
wake up without a signal.
-/

namespace Posix

universe u

/-- A statement with the labels of those that follow it. An action without an outcome is undefined. -/
inductive Instr (κ μ χ σ ℓ : Type u)
  | semWait (s : κ) (next : ℓ)
  | semPost (s : κ) (next : ℓ)
  | lock (m : μ) (next : ℓ)
  | unlock (m : μ) (next : ℓ)
  | condWait (c : χ) (m : μ) (next : ℓ)
  | condSignal (c : χ) (next : ℓ)
  | act (f : σ → Option (σ × ℓ))
  | done

/-- Where a thread is: at a statement, or in `pthread_cond_wait`, before or after it has been woken. -/
inductive Status (μ χ ℓ : Type u)
  | ready (l : ℓ)
  | waiting (c : χ) (m : μ) (next : ℓ)
  | relocking (m : μ) (next : ℓ)

namespace Status

variable {μ χ ℓ : Type u}

def wake : Status μ χ ℓ → Status μ χ ℓ
  | .waiting _ m next => .relocking m next
  | st => st

/-- The statement that the thread executes next. -/
def label : Status μ χ ℓ → ℓ
  | .ready l => l
  | .waiting _ _ next => next
  | .relocking _ next => next

/-- The thread is at a statement, one with the property `I`. -/
def At (I : ℓ → Prop) : Status μ χ ℓ → Prop
  | .ready l => I l
  | _ => False

/-- If the thread is in `pthread_cond_wait`, it goes on with a statement with the property `I`. -/
def Parks (I : ℓ → Prop) : Status μ χ ℓ → Prop
  | .ready _ => True
  | .waiting _ _ next => I next
  | .relocking _ next => I next

variable {I : ℓ → Prop} {st : Status μ χ ℓ}

@[simp] theorem label_ready {l : ℓ} : (ready l : Status μ χ ℓ).label = l := rfl

@[simp] theorem label_waiting {c : χ} {m : μ} {next : ℓ} : (waiting c m next).label = next := rfl

@[simp] theorem label_relocking {m : μ} {next : ℓ} : (relocking m next : Status μ χ ℓ).label = next := rfl

@[simp] theorem label_wake : st.wake.label = st.label := by
  cases st with
  | _ => rfl

@[simp] theorem at_wake : st.wake.At I ↔ st.At I := by
  cases st with
  | _ => exact Iff.rfl

@[simp] theorem parks_wake : st.wake.Parks I ↔ st.Parks I := by
  cases st with
  | _ => exact Iff.rfl

theorem wake_ne_waiting {c : χ} {m : μ} {next : ℓ} : st.wake ≠ .waiting c m next := by
  cases st with
  | _ => simp [wake]

end Status

structure World {τ : Type u} (ℓ : τ → Type u) (κ μ χ σ : Type u) where
  status : (t : τ) → Status μ χ (ℓ t)
  sem : κ → Nat
  owner : μ → Option τ
  data : σ

variable {τ κ μ χ σ : Type u} {ℓ : τ → Type u} [DecidableEq τ]

namespace World

def set (w : World ℓ κ μ χ σ) (t : τ) (st : Status μ χ (ℓ t)) : World ℓ κ μ χ σ :=
  { w with status := Function.update w.status t st }

def WaitsOn (w : World ℓ κ μ χ σ) (c : χ) (t : τ) : Prop := ∃ m next, w.status t = .waiting c m next

def wake (w : World ℓ κ μ χ σ) (woken : τ → Bool) : World ℓ κ μ χ σ :=
  { w with status := fun t => if woken t then (w.status t).wake else w.status t }

variable {w : World ℓ κ μ χ σ} {t v : τ} {st : Status μ χ (ℓ t)}

@[simp] theorem set_self : (w.set t st).status t = st := Function.update_self ..

@[simp] theorem set_sem : (w.set t st).sem = w.sem := rfl

@[simp] theorem set_owner : (w.set t st).owner = w.owner := rfl

@[simp] theorem set_data : (w.set t st).data = w.data := rfl

theorem set_of_ne (h : v ≠ t) : (w.set t st).status v = w.status v := Function.update_of_ne h ..

end World

variable [DecidableEq κ] [DecidableEq μ]

/-- Thread `t` executes a statement. -/
inductive Fires (t : τ) : Instr κ μ χ σ (ℓ t) → World ℓ κ μ χ σ → World ℓ κ μ χ σ → Prop
  | semWait {s next w} (hpos : 0 < w.sem s) :
      Fires t (.semWait s next) w { w.set t (.ready next) with sem := Function.update w.sem s (w.sem s - 1) }
  | semPost {s next w} :
      Fires t (.semPost s next) w { w.set t (.ready next) with sem := Function.update w.sem s (w.sem s + 1) }
  | lock {m next w} (hfree : w.owner m = none) :
      Fires t (.lock m next) w { w.set t (.ready next) with owner := Function.update w.owner m (some t) }
  | unlock {m next w} (howner : w.owner m = some t) :
      Fires t (.unlock m next) w { w.set t (.ready next) with owner := Function.update w.owner m none }
  | condWait {c m next w} (howner : w.owner m = some t) :
      Fires t (.condWait c m next) w
        { w.set t (.waiting c m next) with owner := Function.update w.owner m none }
  -- at least one of the threads that wait is woken, if there are any
  | condSignal {c next w} (woken : τ → Bool) (hwaits : ∀ u, woken u = true → w.WaitsOn c u)
      (hsome : (∃ u, w.WaitsOn c u) → ∃ u, woken u = true) :
      Fires t (.condSignal c next) w ((w.wake woken).set t (.ready next))
  | act {f next w d} (hf : f w.data = some (d, next)) :
      Fires t (.act f) w { w.set t (.ready next) with data := d }

/-- What a signal does: a thread that alone waits for the condition variable is woken. -/
structure Signalled (t : τ) (c : χ) (next : ℓ t) (w w' : World ℓ κ μ χ σ) : Prop where
  self : w'.status t = .ready next
  others : ∀ u, u ≠ t → w'.status u = w.status u ∨ w'.status u = (w.status u).wake
  woken : ∀ u, u ≠ t → (∀ v, w.WaitsOn c v → v = u) → ¬ w'.WaitsOn c u
  owner : w'.owner = w.owner
  data : w'.data = w.data

namespace Fires

variable {w w' : World ℓ κ μ χ σ} {t : τ} {s : κ} {m : μ} {c : χ} {next : ℓ t}

theorem of_semWait (h : Fires t (.semWait s next) w w') :
    0 < w.sem s ∧ w' = { w.set t (.ready next) with sem := Function.update w.sem s (w.sem s - 1) } := by
  cases h with
  | semWait hpos => exact ⟨hpos, rfl⟩

theorem of_semPost (h : Fires t (.semPost s next) w w') :
    w' = { w.set t (.ready next) with sem := Function.update w.sem s (w.sem s + 1) } := by
  cases h with
  | semPost => rfl

theorem of_lock (h : Fires t (.lock m next) w w') :
    w.owner m = none ∧ w' = { w.set t (.ready next) with owner := Function.update w.owner m (some t) } := by
  cases h with
  | lock hfree => exact ⟨hfree, rfl⟩

theorem of_unlock (h : Fires t (.unlock m next) w w') :
    w.owner m = some t ∧ w' = { w.set t (.ready next) with owner := Function.update w.owner m none } := by
  cases h with
  | unlock howner => exact ⟨howner, rfl⟩

theorem of_condWait (h : Fires t (.condWait c m next) w w') :
    w.owner m = some t ∧ w' = { w.set t (.waiting c m next) with owner := Function.update w.owner m none } := by
  cases h with
  | condWait howner => exact ⟨howner, rfl⟩

theorem of_condSignal (h : Fires t (.condSignal c next) w w') : Signalled t c next w w' := by
  cases h with
  | condSignal woken hwaits hsome =>
      have hstatus : ∀ u, u ≠ t → ((w.wake woken).set t (.ready next)).status u =
          if woken u then (w.status u).wake else w.status u := fun u hu => World.set_of_ne hu
      refine ⟨World.set_self, fun u hu => ?_, fun u hu halone hw => ?_, rfl, rfl⟩
      · rw [hstatus u hu]
        split_ifs
        · exact .inr rfl
        · exact .inl rfl
      · obtain ⟨m, next', hw⟩ := hw
        rw [hstatus u hu] at hw
        split_ifs at hw with hwoken
        · exact Status.wake_ne_waiting hw
        · obtain ⟨v, hv⟩ := hsome ⟨u, m, next', hw⟩
          obtain rfl := halone v (hwaits v hv)
          exact hwoken hv

theorem of_act {f : σ → Option (σ × ℓ t)} (h : Fires t (.act f) w w') :
    ∃ d next, f w.data = some (d, next) ∧ w' = { w.set t (.ready next) with data := d } := by
  cases h with
  | act hf => exact ⟨_, _, hf, rfl⟩

theorem of_done (h : Fires t .done w w') : False := by
  cases h

end Fires

/-- The code of each thread. -/
abbrev Program (ℓ : τ → Type u) (κ μ χ σ : Type u) := (t : τ) → ℓ t → Instr κ μ χ σ (ℓ t)

inductive Step (code : Program ℓ κ μ χ σ) (w : World ℓ κ μ χ σ) : World ℓ κ μ χ σ → Prop
  | fires {t l w'} (hat : w.status t = .ready l) (hfires : Fires t (code t l) w w') : Step code w w'
  | relock {t m next} (hat : w.status t = .relocking m next) (hfree : w.owner m = none) :
      Step code w { w.set t (.ready next) with owner := Function.update w.owner m (some t) }

/-- A wakeup that no signal has caused. -/
inductive Spurious (w : World ℓ κ μ χ σ) : World ℓ κ μ χ σ → Prop
  | wake {t c m next} (hat : w.status t = .waiting c m next) :
      Spurious w (w.set t (.relocking m next))

/-- Any interleaving of the threads, with spurious wakeups. -/
def Reaches (code : Program ℓ κ μ χ σ) : World ℓ κ μ χ σ → World ℓ κ μ χ σ → Prop :=
  Relation.ReflTransGen fun w w' => Step code w w' ∨ Spurious w w'

def Finished (code : Program ℓ κ μ χ σ) (w : World ℓ κ μ χ σ) : Prop :=
  ∀ t, ∃ l, w.status t = .ready l ∧ code t l = .done

/-- The statement takes effect at once. -/
def Enabled (t : τ) (w : World ℓ κ μ χ σ) : Instr κ μ χ σ (ℓ t) → Prop
  | .semWait s _ => 0 < w.sem s
  | .semPost _ _ => True
  | .lock m _ => w.owner m = none
  | .unlock m _ => w.owner m = some t
  | .condWait _ m _ => w.owner m = some t
  | .condSignal _ _ => True
  | .act f => (f w.data).isSome
  | .done => False

/-- The statement has no defined effect: an action without an outcome, or a mutex of another thread. -/
def Undefined (t : τ) (w : World ℓ κ μ χ σ) : Instr κ μ χ σ (ℓ t) → Prop
  | .unlock m _ => w.owner m ≠ some t
  | .condWait _ m _ => w.owner m ≠ some t
  | .act f => f w.data = none
  | _ => False

variable {code : Program ℓ κ μ χ σ} {w w₀ : World ℓ κ μ χ σ} {t : τ} {l : ℓ t}

/-! ## Rules -/

theorem Enabled.fires {instr : Instr κ μ χ σ (ℓ t)} (h : Enabled t w instr) : ∃ w', Fires t instr w w' := by
  classical
  cases instr with
  | semWait s next => exact ⟨_, .semWait h⟩
  | semPost s next => exact ⟨_, .semPost⟩
  | lock m next => exact ⟨_, .lock h⟩
  | unlock m next => exact ⟨_, .unlock h⟩
  | condWait c m next => exact ⟨_, .condWait h⟩
  | condSignal c next =>
      exact ⟨_, .condSignal (fun u => decide (w.WaitsOn c u)) (fun u hu => of_decide_eq_true hu)
        fun ⟨u, hu⟩ => ⟨u, decide_eq_true hu⟩⟩
  | act f =>
      obtain ⟨⟨d, next⟩, hf⟩ := Option.isSome_iff_exists.mp h
      exact ⟨_, .act hf⟩
  | done => exact h.elim

/-- A thread at an enabled statement can move. -/
theorem Enabled.step (hat : w.status t = .ready l) (h : Enabled t w (code t l)) : ∃ w', Step code w w' := by
  obtain ⟨w', hw'⟩ := h.fires
  exact ⟨w', .fires hat hw'⟩

/-- A woken thread gets its mutex as soon as it is free. -/
theorem exists_relock {m : μ} {next : ℓ t} (hat : w.status t = .relocking m next) (hfree : w.owner m = none) :
    ∃ w', Step code w w' := ⟨_, .relock hat hfree⟩

/-- What the steps of a program and the disturbances preserve. -/
theorem invariant_of_steps {α : Type u} {R S : α → α → Prop} {I : α → Prop} {a b : α}
    (h : Relation.ReflTransGen (fun a b => R a b ∨ S a b) a b) (ha : I a) (hR : ∀ a b, I a → R a b → I b)
    (hS : ∀ a b, I a → S a b → I b) : I b := by
  induction h with
  | refl => exact ha
  | tail _ hnext ih =>
      rcases hnext with hs | hs
      · exact hR _ _ ih hs
      · exact hS _ _ ih hs

/-- If no state that satisfies the invariant is stuck, and every step makes the rank smaller, the steps lead to a
final state. -/
theorem exists_final {α : Type u} {R S : α → α → Prop} {I F : α → Prop} {a : α} (rank : α → Nat)
    (hlive : ∀ a, I a → F a ∨ ∃ b, R a b) (hR : ∀ a b, I a → R a b → I b)
    (hrank : ∀ a b, I a → R a b → rank b < rank a) (ha : I a) :
    ∃ b, Relation.ReflTransGen (fun a b => R a b ∨ S a b) a b ∧ I b ∧ F b := by
  induction hn : rank a using Nat.strongRecOn generalizing a with
  | ind n ih =>
      rcases hlive a ha with hfin | ⟨b, hb⟩
      · exact ⟨a, .refl, ha, hfin⟩
      · have hlt : rank b < n := hn ▸ hrank a b ha hb
        obtain ⟨c, hreach, hI, hfin⟩ := ih (rank b) hlt (hR a b ha hb) rfl
        exact ⟨c, hreach.head (.inl hb), hI, hfin⟩

theorem Reaches.invariant {I : World ℓ κ μ χ σ → Prop} (h : Reaches code w₀ w) (h₀ : I w₀)
    (hstep : ∀ w w', I w → Step code w w' → I w') (hspurious : ∀ w w', I w → Spurious w w' → I w') : I w :=
  invariant_of_steps h h₀ hstep hspurious

/-- If no state that satisfies the invariant is stuck, and every step makes the rank smaller, the threads can be run
until they have finished. -/
theorem exists_finished {I : World ℓ κ μ χ σ → Prop} (rank : World ℓ κ μ χ σ → Nat)
    (hlive : ∀ w, I w → Finished code w ∨ ∃ w', Step code w w') (hstep : ∀ w w', I w → Step code w w' → I w')
    (hrank : ∀ w w', I w → Step code w w' → rank w' < rank w) (h₀ : I w₀) :
    ∃ w, Reaches code w₀ w ∧ I w ∧ Finished code w :=
  exists_final rank hlive hstep hrank h₀

end Posix
