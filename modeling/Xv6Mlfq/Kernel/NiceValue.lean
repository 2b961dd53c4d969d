import Mathlib.Data.Nat.Digits.Defs
import Xv6Mlfq.Kernel.Lemmas.Closed

/-!
# The arithmetic of `nice` (`nice.c`, `ulib.c`, `syscall.c`, `proc.c`)

The increment goes from a command-line argument through `atoi`, a 64-bit register and `argint` into a sum that is
clamped after it has been formed. `none` stands for a signed overflow, which C leaves undefined.
-/

namespace Xv6Mlfq.Kernel

open Access Queue Runs

variable {idle : Idle} {m m' : Machine} {e : Event} {L : Fifos} {k : State} {p i : Slot} {inc n : Int}
  {outside : QTable} {tr : List (Transition Machine Event)} {ds : List Char} {c : Char}

/-! ## From the command line to the kernel -/

/-- The value is one of type `int`. -/
def InInt (x : Int) : Prop := -2 ^ 31 ≤ x ∧ x ≤ INT_MAX

instance (x : Int) : Decidable (InInt x) := inferInstanceAs (Decidable (_ ∧ _))

/-- The result of an operation on `int`s, from its result in the integers. -/
def intOp (x : Int) : Option Int := if InInt x then some x else none

def IsDigit (c : Char) : Prop := '0'.toNat ≤ c.toNat ∧ c.toNat ≤ '9'.toNat

instance (c : Char) : Decidable (IsDigit c) := inferInstanceAs (Decidable (_ ∧ _))

/-- The loop of `atoi`; `n*10 + *s++ - '0'` is formed from left to right. -/
def atoiFrom : Int → List Char → Option Int
  | n, [] => some n
  | n, c :: s =>
      if IsDigit c then do
        let product ← intOp (n * 10)
        let sum ← intOp (product + c.toNat)
        let n ← intOp (sum - '0'.toNat)
        atoiFrom n s
      else some n

def atoi (s : List Char) : Option Int := atoiFrom 0 s

/-- The register that carries an `int` argument to the kernel. -/
def register (n : Int) : Nat := (n % 2 ^ 64).toNat

def argint (a0 : Nat) : Int := int32 a0

/-- The system call with what the register `a0` holds. -/
def niceCall (idle : Idle) (a0 : Nat) (m : Machine) : Option Machine := do
  let p ← m.cproc
  let _ ← intOp ((m.kernel.proc p).nice + argint a0)
  step idle (.nice (argint a0)) m

/-- `main` of `nice.c` up to its `exec`. -/
def niceMain (idle : Idle) (argv : List (List Char)) (m : Machine) : Option Machine :=
  match argv with
  | _ :: arg :: _ :: _ => do
      let n ← atoi arg
      niceCall idle (register n) m
  | _ => some m

/-! ## Decimal numbers -/

/-- The number that a string of digits denotes. -/
def decimal (ds : List Char) : Nat := Nat.ofDigits 10 (ds.reverse.map fun c => c.toNat - '0'.toNat)

/-- A decimal integer with an optional minus sign. -/
inductive Denotes : List Char → Int → Prop
  | digits {ds : List Char} (hne : ds ≠ []) (hds : ∀ c ∈ ds, IsDigit c) : Denotes ds (decimal ds)
  | minus {ds : List Char} (hne : ds ≠ []) (hds : ∀ c ∈ ds, IsDigit c) : Denotes ('-' :: ds) (-(decimal ds))

theorem decimal_cons (c : Char) (ds : List Char) :
    decimal (c :: ds) = (c.toNat - '0'.toNat) * 10 ^ ds.length + decimal ds := by
  simp [decimal, Nat.ofDigits_append, Nat.ofDigits_singleton, mul_comm, add_comm]

theorem intOp_some (h : InInt n) : intOp n = some n := if_pos h

theorem intOp_none (h : ¬ InInt n) : intOp n = none := if_neg h

theorem atoiFrom_cons (hn : 0 ≤ n) (hc : IsDigit c) : atoiFrom n (c :: ds) =
    if n * 10 + c.toNat ≤ INT_MAX then atoiFrom (n * 10 + c.toNat - 48) ds else none := by
  have hzero : '0'.toNat = 48 := rfl
  have hlow := hc.1
  rw [hzero] at hlow
  rw [atoiFrom, if_pos hc]
  by_cases hsum : n * 10 + c.toNat ≤ INT_MAX
  · have hproduct : InInt (n * 10) := ⟨by omega, by omega⟩
    have hadd : InInt (n * 10 + c.toNat) := ⟨by omega, hsum⟩
    have hsub : InInt (n * 10 + c.toNat - 48) := ⟨by omega, by omega⟩
    rw [intOp_some hproduct, if_pos hsum, hzero]
    simp only [Option.bind_eq_bind, Option.bind_some, intOp_some hadd]
    exact congrArg (Option.bind · fun n => atoiFrom n ds) (intOp_some hsub)
  · rw [if_neg hsum]
    by_cases hproduct : InInt (n * 10)
    · rw [intOp_some hproduct]
      simp only [Option.bind_eq_bind, Option.bind_some]
      rw [intOp_none fun h => hsum h.2]
      rfl
    · rw [intOp_none hproduct]
      rfl

/-- What `atoi` makes of digits: the last round forms a sum that is greater by the code of `'0'` than the
number. -/
theorem atoiFrom_digits (hn : 0 ≤ n) (hne : ds ≠ []) (hds : ∀ c ∈ ds, IsDigit c) :
    atoiFrom n ds = if n * 10 ^ ds.length + decimal ds ≤ INT_MAX - 48 then
      some (n * 10 ^ ds.length + decimal ds) else none := by
  induction ds generalizing n with
  | nil => exact absurd rfl hne
  | cons c ds ih =>
      have hc := hds c (by simp)
      have hlow : 48 ≤ c.toNat := hc.1
      rw [atoiFrom_cons hn hc]
      have hdigit : ((c.toNat - 48 : Nat) : Int) = c.toNat - 48 := by omega
      have hnext : n * 10 ^ (c :: ds).length + decimal (c :: ds) =
          (n * 10 + c.toNat - 48) * 10 ^ ds.length + decimal ds := by
        rw [decimal_cons, List.length_cons, pow_succ]
        push_cast
        rw [hdigit]
        ring
      rw [hnext]
      cases ds with
      | nil =>
          have hnil : decimal [] = 0 := rfl
          simp only [atoiFrom, hnil, List.length_nil, pow_zero, mul_one]
          by_cases hsum : n * 10 + c.toNat ≤ INT_MAX
          · rw [if_pos hsum, if_pos (by push_cast; omega)]
            simp
          · rw [if_neg hsum, if_neg (by push_cast; omega)]
      | cons d ds =>
          have hle : n * 10 + c.toNat - 48 ≤ (n * 10 + c.toNat - 48) * 10 ^ (d :: ds).length := by
            refine le_mul_of_one_le_right (by omega) ?_
            exact one_le_pow₀ (by norm_num)
          by_cases hsum : n * 10 + c.toNat ≤ INT_MAX
          · rw [if_pos hsum]
            exact ih (by omega) (by simp) fun x hx => hds x (List.mem_cons_of_mem _ hx)
          · rw [if_neg hsum, if_neg (by omega)]

theorem atoi_digits (hne : ds ≠ []) (hds : ∀ c ∈ ds, IsDigit c) :
    atoi ds = if decimal ds ≤ INT_MAX - 48 then some (decimal ds : Int) else none := by
  have h := atoiFrom_digits le_rfl hne hds
  simpa [atoi] using h

theorem atoi_minus (ds : List Char) : atoi ('-' :: ds) = some 0 := rfl

/-! ## The nice value of a process -/

theorem int32_of_inInt (h : InInt n) : int32 n = n := int32_eq_self h.1 (Int.lt_of_le_sub_one h.2)

/-- An `int` survives the way through the register. -/
theorem argint_register (h : InInt n) : argint (register n) = n := by
  obtain ⟨hlow, hhigh⟩ := h
  simp only [INT_MAX] at hhigh
  simp only [argint, register, int32, Int.bmod_def]
  omega

theorem yield_nice (hu : (k.proc p).state ≠ .unused) (i : Slot) : ((yield k p).proc i).nice = (k.proc i).nice := by
  have hcharge : ((chargeTick k p).proc i).nice = (k.proc i).nice := by
    rw [chargeTick_proc hu]
    split_ifs with hi hs
    · rw [hi]; rfl
    · rw [hi]; rfl
    · rfl
  rw [yield_eq]
  split_ifs
  · rw [boost_proc (chargeTick_self hu)]
    split_ifs
    · exact hcharge
    · exact hcharge
  · exact hcharge

theorem step_nice_value (hL : Coherent m L) (hc : m.cproc = some p) (he : step idle (.nice inc) m = some m') :
    (m'.kernel.proc p).nice = max (min (int32 ((m.kernel.proc p).nice + inc)) NICE_MAX) NICE_MIN := by
  have hself : (sysNice m.kernel p inc).proc p = (m.kernel.proc p).reniced inc := by
    rw [sysNice_proc, if_pos rfl]
  have hu : ((sysNice m.kernel p inc).proc p).state ≠ .unused := by
    rw [hself]
    exact hL.queued.not_unused hc
  rw [step_nice hc he, yield_nice hu, hself]
  rfl

def NiceBounded (k : State) : Prop := ∀ i, NICE_MIN ≤ (k.proc i).nice ∧ (k.proc i).nice ≤ NICE_MAX

theorem clamped_closed : Proc.Closed fun p => NICE_MIN ≤ p.nice ∧ p.nice ≤ NICE_MAX where
  zero := by decide
  same hs h := by
    rw [hs.nice]
    exact h
  freed _ := by simp [freeproc]
  allocated _ _ h := h
  reniced inc _ := reniced_clamped _ inc
  charged _ h := h
  demoted h := h
  boosted h := h

theorem NiceBounded.run (h : Run (Kernel.step idle) (Kernel.boot outside) tr m) : NiceBounded m.kernel :=
  clamped_closed.run h

/-! ## The sum and the clamp -/

/-- The call has added `n` to the nice value of `p` in the integers and clamped the sum. -/
def Added (p : Slot) (n : Int) (m : Machine) (r : Option Machine) : Prop :=
  ∃ m', r = some m' ∧ (m'.kernel.proc p).nice = max NICE_MIN (min NICE_MAX ((m.kernel.proc p).nice + n))

/-- Of two increments the larger one does not give the smaller nice value. -/
def Ordered (idle : Idle) (p : Slot) (inc inc' : Int) (m : Machine) : Prop :=
  ∀ m₁ m₂, step idle (.nice inc) m = some m₁ → step idle (.nice inc') m = some m₂ →
    (m₁.kernel.proc p).nice ≤ (m₂.kernel.proc p).nice

theorem niceCall_eq (hc : m.cproc = some p) (hn : InInt n) : niceCall idle (register n) m =
    if InInt ((m.kernel.proc p).nice + n) then step idle (.nice n) m else none := by
  rw [niceCall, hc, argint_register hn]
  simp only [Option.bind_eq_bind, Option.bind_some]
  split_ifs with hsum
  · rw [intOp_some hsum]
    rfl
  · rw [intOp_none hsum]
    rfl

theorem niceCall_added (hL : Coherent m L) (hc : m.cproc = some p) (hn : InInt n) :
    Added p n m (niceCall idle (register n) m) ↔ InInt ((m.kernel.proc p).nice + n) := by
  rw [niceCall_eq hc hn]
  constructor
  · rintro ⟨m', he, -⟩
    split_ifs at he with hsum
    exact hsum
  · intro hsum
    rw [if_pos hsum]
    obtain ⟨m', he⟩ : ∃ m', step idle (.nice n) m = some m' := by simp [step, atYield, hc]
    refine ⟨m', he, ?_⟩
    rw [step_nice_value hL hc he, int32_of_inInt hsum, min_comm, max_comm]

theorem ordered_of_inInt (hL : Coherent m L) (hc : m.cproc = some p) {inc inc' : Int} (hle : inc ≤ inc')
    (hsum : InInt ((m.kernel.proc p).nice + inc)) (hsum' : InInt ((m.kernel.proc p).nice + inc')) :
    Ordered idle p inc inc' m := by
  intro m₁ m₂ h₁ h₂
  rw [step_nice_value hL hc h₁, step_nice_value hL hc h₂, int32_of_inInt hsum, int32_of_inInt hsum']
  exact max_le_max (min_le_min (by omega) le_rfl) le_rfl

theorem inInt_sum {v : Int} (hlow : NICE_MIN ≤ v) (hhigh : v ≤ NICE_MAX) (hn : 0 ≤ n) (hmax : n ≤ INT_MAX - 48) :
    InInt n ∧ InInt (v + n) := by
  simp only [NICE_MIN, NICE_MAX, INT_MAX, InInt] at *
  omega

theorem niceMain_digits (hL : Coherent m L) (hc : m.cproc = some p) (hv : NiceBounded m.kernel) (hne : ds ≠ [])
    (hds : ∀ c ∈ ds, IsDigit c) (name program : List Char) (rest : List (List Char)) :
    Added p (decimal ds) m (niceMain idle (name :: ds :: program :: rest) m) ↔
      (decimal ds : Int) ≤ INT_MAX - 48 := by
  simp only [niceMain, atoi_digits hne hds, Option.bind_eq_bind]
  constructor
  · rintro ⟨m', he, -⟩
    by_contra hmax
    rw [if_neg hmax] at he
    cases he
  · intro hmax
    obtain ⟨hn, hsum⟩ := inInt_sum (hv p).1 (hv p).2 (Int.natCast_nonneg _) hmax
    rw [if_pos hmax]
    exact (niceCall_added hL hc hn).mpr hsum

/-- With a minus sign the command adds 0. -/
theorem niceMain_minus (hL : Coherent m L) (hc : m.cproc = some p) (hv : NiceBounded m.kernel)
    (ds name program : List Char) (rest : List (List Char)) :
    Added p (-(decimal ds)) m (niceMain idle (name :: ('-' :: ds) :: program :: rest) m) ↔
      -(decimal ds : Int) = 0 ∨ (m.kernel.proc p).nice = NICE_MIN := by
  obtain ⟨hlow, hhigh⟩ := hv p
  have hzero : InInt 0 := by decide
  have hsum := (inInt_sum hlow hhigh le_rfl (by decide)).2
  have hadded : Added p 0 m (niceCall idle (register 0) m) := (niceCall_added hL hc hzero).mpr hsum
  obtain ⟨m', he, hnice⟩ := hadded
  simp only [niceMain, atoi_minus, Option.bind_eq_bind, Option.bind_some, he, Added, Option.some.injEq,
    exists_eq_left', hnice]
  simp only [NICE_MIN, NICE_MAX] at *
  omega

/-- On the way of an increment from the system call's register or the command line to the nice value no overflow
occurs, the sum is right and the order is kept, exactly in the cases on the right. -/
theorem nice_arithmetic_iff (h : Reachable idle m) (hc : m.cproc = some p) :
    (∀ inc inc', InInt inc → InInt inc' → inc ≤ inc' →
      (Added p inc m (niceCall idle (register inc) m) ∧ Added p inc' m (niceCall idle (register inc') m) ∧
          Ordered idle p inc inc' m ↔
        InInt ((m.kernel.proc p).nice + inc) ∧ InInt ((m.kernel.proc p).nice + inc'))) ∧
      ∀ s n, Denotes s n → |n| < 2 ^ 31 → ∀ name program rest,
        (Added p n m (niceMain idle (name :: s :: program :: rest) m) ↔
          if s.head? = some '-' then n = 0 ∨ (m.kernel.proc p).nice = NICE_MIN else n ≤ INT_MAX - 48) := by
  obtain ⟨L, hL⟩ := h.coherent
  have hv : NiceBounded m.kernel := by
    obtain ⟨outside, tr, hrun⟩ := h
    exact .run hrun
  constructor
  · intro inc inc' hinc hinc' hle
    rw [niceCall_added hL hc hinc, niceCall_added hL hc hinc']
    constructor
    · exact fun ⟨hsum, hsum', _⟩ => ⟨hsum, hsum'⟩
    · exact fun ⟨hsum, hsum'⟩ => ⟨hsum, hsum', ordered_of_inInt hL hc hle hsum hsum'⟩
  · intro s n hs _ name program rest
    cases hs with
    | digits hne hds =>
        have hhead : s.head? ≠ some '-' := by
          intro hminus
          have hdigit := hds '-' (List.mem_of_mem_head? hminus)
          exact absurd hdigit (by decide)
        rw [if_neg hhead]
        exact niceMain_digits hL hc hv hne hds name program rest
    | minus hne hds =>
        rw [List.head?_cons, if_pos rfl]
        exact niceMain_minus hL hc hv _ name program rest

/-- At nice value 1 the largest increment overflows the sum and raises the process to -20, and `nice -5` leaves
the first process at 0. -/
theorem nice_not_arithmetic :
    (¬ ∀ idle m p inc, Reachable idle m → m.cproc = some p → InInt inc →
      Added p inc m (niceCall idle (register inc) m)) ∧
    (¬ ∀ idle m p inc inc', Reachable idle m → m.cproc = some p → InInt inc → InInt inc' → inc ≤ inc' →
      Ordered idle p inc inc' m) ∧
    ¬ ∀ idle m p s n name program rest, Reachable idle m → m.cproc = some p → Denotes s n → |n| < 2 ^ 31 →
      Added p n m (niceMain idle (name :: s :: program :: rest) m) := by
  have hplay : (final (step .asWritten) (boot fun _ => 0) [.schedule, .nice 1, .schedule]).any (fun m =>
      m.cproc = some 0 ∧ (m.kernel.proc 0).nice = 1 ∧
        (step .asWritten (.nice 0) m).any (fun m' : Machine => (m'.kernel.proc 0).nice = 1) ∧
        (step .asWritten (.nice INT_MAX) m).any fun m' : Machine => (m'.kernel.proc 0).nice = -20) = true := by
    decide +kernel
  obtain ⟨tr, m, hrun, -, hm⟩ := Run.replay hplay
  obtain ⟨hc, hnice, hzero, hmax⟩ := of_decide_eq_true hm
  have h : Reachable .asWritten m := ⟨_, tr, hrun⟩
  obtain ⟨L, hL⟩ := h.coherent
  refine ⟨fun hall => ?_, fun hall => ?_, fun hall => ?_⟩
  · have hadded := hall .asWritten m 0 INT_MAX h hc (by decide)
    rw [niceCall_added hL hc (by decide), hnice] at hadded
    exact absurd hadded (by decide)
  · obtain ⟨m₁, h₁, hv₁⟩ := (Option.any_eq_true _ _).mp hzero
    obtain ⟨m₂, h₂, hv₂⟩ := (Option.any_eq_true _ _).mp hmax
    have hle := hall .asWritten m 0 0 INT_MAX h hc (by decide) (by decide) (by decide) m₁ m₂ h₁ h₂
    rw [of_decide_eq_true hv₁, of_decide_eq_true hv₂] at hle
    exact absurd hle (by decide)
  · have hden : Denotes ['-', '5'] (-5) := .minus (show ['5'] ≠ [] by simp) (List.forall_mem_singleton.mpr (by decide))
    have hadded := hall .asWritten m 0 ['-', '5'] (-5) [] [] [] h hc hden (by decide)
    rcases (niceMain_minus hL hc (NiceBounded.run hrun) ['5'] [] [] []).mp hadded with hzero | hlow
    · exact absurd hzero (by decide)
    · rw [hnice] at hlow
      exact absurd hlow (by decide)

/-- The first process adds 5 to its nice value, and the command `nice 7` adds 7. -/
theorem nice_arithmetic_iff_small :
    ∃ m : Machine, (m.kernel.proc 0).nice = 0 ∧ Added 0 5 m (niceCall .asWritten (register 5) m) ∧
      Added 0 7 m (niceMain .asWritten [['n'], ['7'], ['l', 's']] m) := by
  have hplay : (final (step .asWritten) (boot fun _ => 0) [.schedule]).any (fun m =>
      m.cproc = some 0 ∧ (m.kernel.proc 0).nice = 0) = true := by
    decide +kernel
  obtain ⟨tr, m, hrun, -, hm⟩ := Run.replay hplay
  obtain ⟨hc, hnice⟩ := of_decide_eq_true hm
  obtain ⟨hcalls, hcommands⟩ := nice_arithmetic_iff ⟨_, tr, hrun⟩ hc
  have hden : Denotes ['7'] 7 := .digits (show ['7'] ≠ [] by simp) (List.forall_mem_singleton.mpr (by decide))
  refine ⟨m, hnice, ?_, ?_⟩
  · have hsum : InInt ((m.kernel.proc 0).nice + 5) := by
      rw [hnice]
      decide
    exact ((hcalls 5 5 (by decide) (by decide) le_rfl).mpr ⟨hsum, hsum⟩).1
  · refine (hcommands ['7'] 7 hden (by decide) ['n'] ['l', 's'] []).mpr ?_
    rw [List.head?_cons, if_neg (by decide)]
    decide

end Xv6Mlfq.Kernel
