import Mathlib.Data.List.Infix

/-!
# Deterministic machines and their observable behaviour

A machine is a step function on configurations that goes on, halts with a result or is stuck. `run`
takes a number of steps. Runs compose (`run_add`), so a machine that halts keeps its result
(`run_eq_halt_of_le`), and along a run the output only grows (`Observed.prefix_of_le`).

A direct evaluator of the same program with a bound on its loops either finishes or is cut off. If
every finished evaluation is matched by a halting run, and every evaluation cut off at the bound `n`
by a run of at least `n` steps with the same output, the two behave alike (`behavesLike_of_simulates`):
they halt together, with one output and one result, the outputs of unbounded runs are the same, and
the machine is never stuck.
-/

set_option autoImplicit false
set_option relaxedAutoImplicit false

namespace Sipc.Machine

/-- What one step, or a number of them, comes to. -/
inductive Outcome (C R : Type*)
  | next (c : C)
  | halt (r : R)
  | stuck

section Run

variable {C R : Type*} (step : C → Outcome C R)

/-- The machine after `n` steps, or less where it halts or is stuck before. -/
def run : ℕ → C → Outcome C R
  | 0, c => .next c
  | n + 1, c =>
    match step c with
    | .next c' => run n c'
    | .halt r => .halt r
    | .stuck => .stuck

/-- The machine goes from `c` to `c'` in `n` steps. -/
def Reaches (n : ℕ) (c c' : C) : Prop :=
  run step n c = .next c'

@[simp] theorem run_zero (c : C) : run step 0 c = .next c := rfl

theorem Reaches.refl (c : C) : Reaches step 0 c c := rfl

variable {step}

theorem run_add {n : ℕ} {c c' : C} (h : Reaches step n c c') (m : ℕ) :
    run step (n + m) c = run step m c' := by
  induction n generalizing c with
  | zero =>
    cases h
    rw [Nat.zero_add]
  | succ n ih =>
    rw [Nat.add_right_comm, run]
    unfold Reaches at h
    rw [run] at h
    cases hstep : step c with
    | next d =>
      rw [hstep] at h
      exact ih h
    | halt r =>
      rw [hstep] at h
      cases h
    | stuck =>
      rw [hstep] at h
      cases h

theorem Reaches.trans {n m : ℕ} {c d e : C} (h : Reaches step n c d) (h' : Reaches step m d e) :
    Reaches step (n + m) c e :=
  (run_add h m).trans h'

theorem Reaches.single {c d : C} (h : step c = .next d) : Reaches step 1 c d := by
  simp [Reaches, run, h]

/-- One step, then the rest. -/
theorem Reaches.head {n : ℕ} {c d e : C} (h : step c = .next d) (h' : Reaches step n d e) :
    Reaches step (1 + n) c e :=
  (Reaches.single h).trans h'

theorem run_eq_halt_of_le {n m : ℕ} {c : C} {r : R} (h : run step n c = .halt r) (hle : n ≤ m) :
    run step m c = .halt r := by
  induction n generalizing c m with
  | zero => cases h
  | succ n ih =>
    obtain ⟨k, rfl⟩ : ∃ k, m = k + 1 := ⟨m - 1, by omega⟩
    rw [run] at h ⊢
    cases hstep : step c with
    | next d =>
      rw [hstep] at h
      exact ih h (by omega)
    | halt r' =>
      rw [hstep] at h
      exact h
    | stuck =>
      rw [hstep] at h
      cases h

theorem run_eq_stuck_of_le {n m : ℕ} {c : C} (h : run step n c = .stuck) (hle : n ≤ m) :
    run step m c = .stuck := by
  induction n generalizing c m with
  | zero => cases h
  | succ n ih =>
    obtain ⟨k, rfl⟩ : ∃ k, m = k + 1 := ⟨m - 1, by omega⟩
    rw [run] at h ⊢
    cases hstep : step c with
    | next d =>
      rw [hstep] at h
      exact ih h (by omega)
    | halt r' =>
      rw [hstep] at h
      cases h
    | stuck => rfl

end Run

/-! ### Outputs -/

section Outputs

variable {C V O : Type*}

/-- The output of a machine whose configurations carry what they have put out so far, and which
halts with its whole output and a value. -/
def outputs (trace : C → List O) : Outcome C (List O × V) → List O
  | .next c => trace c
  | .halt r => r.1
  | .stuck => []

/-- A step only adds to the output. -/
structure Observed (step : C → Outcome C (List O × V)) (trace : C → List O) : Prop where
  next : ∀ {c c' : C}, step c = .next c' → trace c <+: trace c'
  halt : ∀ {c : C} {r : List O × V}, step c = .halt r → trace c <+: r.1

variable {step : C → Outcome C (List O × V)} {trace : C → List O}

/-- Along a run that does not get stuck the output only grows. -/
theorem Observed.prefix_run (h : Observed step trace) {n : ℕ} {c : C}
    (hrun : run step n c ≠ .stuck) : trace c <+: outputs trace (run step n c) := by
  induction n generalizing c with
  | zero => exact List.prefix_rfl
  | succ n ih =>
    rw [run] at hrun ⊢
    cases hstep : step c with
    | next d =>
      rw [hstep] at hrun
      exact (h.next hstep).trans (ih hrun)
    | halt r => exact h.halt hstep
    | stuck =>
      rw [hstep] at hrun
      exact absurd rfl hrun

theorem Observed.prefix_of_le (h : Observed step trace) {n m : ℕ} {c : C} (hle : n ≤ m)
    (hrun : run step m c ≠ .stuck) :
    outputs trace (run step n c) <+: outputs trace (run step m c) := by
  cases hn : run step n c with
  | next d =>
    have hreach : Reaches step n c d := hn
    obtain ⟨k, rfl⟩ := Nat.exists_eq_add_of_le hle
    rw [run_add hreach] at hrun ⊢
    exact h.prefix_run hrun
  | halt r =>
    rw [run_eq_halt_of_le hn hle]
  | stuck =>
    exact absurd (run_eq_stuck_of_le hn hle) hrun

end Outputs

/-! ### Comparison with a bounded evaluator -/

section Simulation

variable {C V O : Type*}

/-- What an evaluator with a bound on its loops comes to, with the output so far. -/
inductive Evaluation (O V : Type*)
  | finished (out : List O) (v : V)
  | cutOff (out : List O)

/-- What an evaluation has put out. -/
def Evaluation.output : Evaluation O V → List O
  | .finished out _ => out
  | .cutOff out => out

/-- The machine does what the evaluator does with the bound `n`. -/
def Simulates (step : C → Outcome C (List O × V)) (trace : C → List O) (c : C) (n : ℕ) :
    Evaluation O V → Prop
  | .finished out v => ∃ k, run step k c = .halt (out, v)
  | .cutOff out => ∃ k d, n ≤ k ∧ Reaches step k c d ∧ trace d = out

/-- The machine started at `c` and the evaluator have the same behaviour: they halt with the same
output and value, or neither halts and every output of the one is reached by the other. -/
structure BehavesLike (step : C → Outcome C (List O × V)) (trace : C → List O) (c : C)
    (eval : ℕ → Evaluation O V) : Prop where
  halts_iff : ∀ out v, (∃ k, run step k c = .halt (out, v)) ↔ ∃ n, eval n = .finished out v
  outputs_iff : ∀ out, (∃ k, out <+: outputs trace (run step k c)) ↔ ∃ n, out <+: (eval n).output
  not_stuck : ∀ k, run step k c ≠ .stuck

theorem behavesLike_of_simulates {step : C → Outcome C (List O × V)} {trace : C → List O} {c : C}
    {eval : ℕ → Evaluation O V} (hobs : Observed step trace)
    (hsim : ∀ n, Simulates step trace c n (eval n)) : BehavesLike step trace c eval := by
  have hnot : ∀ k, run step k c ≠ .stuck := by
    intro k hk
    have h := hsim (k + 1)
    cases he : eval (k + 1) with
    | finished out v =>
      rw [he] at h
      obtain ⟨m, hm⟩ := h
      have h₁ := run_eq_halt_of_le hm (Nat.le_max_left m k)
      rw [run_eq_stuck_of_le hk (Nat.le_max_right m k)] at h₁
      cases h₁
    | cutOff out =>
      rw [he] at h
      obtain ⟨m, d, hm, hreach, -⟩ := h
      rw [Reaches, run_eq_stuck_of_le hk (by omega)] at hreach
      cases hreach
  refine ⟨?_, ?_, hnot⟩
  · intro out v
    constructor
    · rintro ⟨k, hk⟩
      refine ⟨k + 1, ?_⟩
      have h := hsim (k + 1)
      cases he : eval (k + 1) with
      | finished out' v' =>
        rw [he] at h
        obtain ⟨m, hm⟩ := h
        have h₁ := run_eq_halt_of_le hm (Nat.le_max_left m k)
        rw [run_eq_halt_of_le hk (Nat.le_max_right m k)] at h₁
        cases h₁
        rfl
      | cutOff out' =>
        rw [he] at h
        obtain ⟨m, d, hm, hreach, -⟩ := h
        rw [Reaches, run_eq_halt_of_le hk (by omega)] at hreach
        cases hreach
    · rintro ⟨n, hn⟩
      have h := hsim n
      rw [hn] at h
      exact h
  · intro out
    constructor
    · rintro ⟨k, hk⟩
      refine ⟨k + 1, ?_⟩
      have h := hsim (k + 1)
      cases he : eval (k + 1) with
      | finished out' v' =>
        rw [he] at h
        obtain ⟨m, hm⟩ := h
        have h₁ := hobs.prefix_of_le (Nat.le_max_right m k) (hnot _)
        rw [run_eq_halt_of_le hm (Nat.le_max_left m k)] at h₁
        exact hk.trans h₁
      | cutOff out' =>
        rw [he] at h
        obtain ⟨m, d, hm, hreach, htrace⟩ := h
        have h₁ := hobs.prefix_of_le (show k ≤ m by omega) (hnot _)
        rw [show run step m c = .next d from hreach, outputs, htrace] at h₁
        exact hk.trans h₁
    · rintro ⟨n, hn⟩
      have h := hsim n
      cases he : eval n with
      | finished out' v' =>
        rw [he] at h hn
        obtain ⟨m, hm⟩ := h
        refine ⟨m, ?_⟩
        rw [hm]
        exact hn
      | cutOff out' =>
        rw [he] at h hn
        obtain ⟨m, d, -, hreach, htrace⟩ := h
        refine ⟨m, ?_⟩
        rw [show run step m c = .next d from hreach, outputs, htrace]
        exact hn

end Simulation

/-! ### Invariants -/

section Invariants

variable {C R : Type*} {P : C → Prop}

/-- Where the machine goes on, it does so with the property. -/
def Outcome.All (P : C → Prop) : Outcome C R → Prop
  | .next c => P c
  | .halt _ | .stuck => True

/-- Where every step keeps the property, every run does. -/
theorem run_all {step : C → Outcome C R} (hstep : ∀ c, P c → (step c).All P) (n : ℕ) {c : C}
    (h : P c) : (run step n c).All P := by
  induction n generalizing c with
  | zero => exact h
  | succ n ih =>
    have hone := hstep c h
    rw [run]
    cases hc : step c with
    | next d =>
      rw [hc] at hone
      exact ih hone
    | halt r => trivial
    | stuck => trivial

end Invariants

/-! ### Two machines in step -/

section Lockstep

variable {C D R : Type*} {rel rel' : C → D → Prop}

/-- Both go on with configurations that are related, both halt with one result, or both are stuck. -/
inductive Outcome.Alike (rel : C → D → Prop) : Outcome C R → Outcome D R → Prop
  | next {c : C} {d : D} (h : rel c d) : Outcome.Alike rel (.next c) (.next d)
  | halt (r : R) : Outcome.Alike rel (.halt r) (.halt r)
  | stuck : Outcome.Alike rel .stuck .stuck

theorem Outcome.Alike.mono {o : Outcome C R} {o' : Outcome D R} (h : o.Alike rel o')
    (hrel : ∀ c d, rel c d → rel' c d) : o.Alike rel' o' := by
  cases h with
  | next h => exact .next (hrel _ _ h)
  | halt r => exact .halt r
  | stuck => exact .stuck

/-- Where every step keeps the relation, every run does. -/
theorem run_alike {step : C → Outcome C R} {step' : D → Outcome D R}
    (hstep : ∀ c d, rel c d → (step c).Alike rel (step' d)) (n : ℕ) {c : C} {d : D} (h : rel c d) :
    (run step n c).Alike rel (run step' n d) := by
  induction n generalizing c d with
  | zero => exact .next h
  | succ n ih =>
    have hone := hstep c d h
    rw [run, run]
    generalize step c = o at hone
    generalize step' d = o' at hone
    cases hone with
    | next h' => exact ih h'
    | halt r => exact .halt r
    | stuck => exact .stuck

end Lockstep

end Sipc.Machine
