import Mathlib.Data.List.Basic

/-!
# Runs of a step function

A run folds a step function over a list of operations.  An invariant that every step keeps holds
after every run, and one that only some steps keep holds along the runs made of such steps.
-/

namespace ExperienceCodex.Runs

variable {S O : Type} (next : S → O → S)

/-- The state after the operations. -/
def run (start : S) (ops : List O) : S := ops.foldl next start

variable {next}

/-- What every operation keeps, a run keeps. -/
theorem run_induction {P : S → Prop} (hstep : ∀ state op, P state → P (next state op))
    {start : S} (hstart : P start) (ops : List O) : P (run next start ops) := by
  induction ops generalizing start with
  | nil => exact hstart
  | cons op ops ih => exact ih (hstep start op hstart)

variable (next) in
/-- Every step of a run meets a condition on the state before it. -/
def Along (P : S → O → Prop) : S → List O → Prop
  | _, [] => True
  | state, op :: ops => P state op ∧ Along P (next state op) ops

instance Along.instDecidable {P : S → O → Prop} [∀ state op, Decidable (P state op)] :
    (start : S) → (ops : List O) → Decidable (Along next P start ops)
  | _, [] => .isTrue trivial
  | start, op :: ops =>
    have := Along.instDecidable (P := P) (next start op) ops
    inferInstanceAs (Decidable (_ ∧ _))

/-- An invariant that is kept by the steps that meet a condition holds in every state of a run
all of whose steps meet it. -/
theorem Along.invariant {P : S → O → Prop} {Q : S → Prop}
    (hstep : ∀ state op, Q state → P state op → Q (next state op)) {start : S} {ops : List O}
    (halong : Along next P start ops) (hstart : Q start) (k : ℕ) :
    Q (run next start (ops.take k)) := by
  induction ops generalizing start k with
  | nil =>
    rw [List.take_nil]
    exact hstart
  | cons op ops ih =>
    cases k with
    | zero => exact hstart
    | succ k => exact ih halong.2 (hstep start op hstart halong.1) k

/-- Where a step keeps `Q` exactly when it meets the condition, a run stays in `Q` exactly when all
of its steps meet it. -/
theorem Along.forall_iff {P : S → O → Prop} {Q : S → Prop}
    (hstep : ∀ state op, Q state → (Q (next state op) ↔ P state op)) {start : S} {ops : List O}
    (hstart : Q start) : (∀ k, Q (run next start (ops.take k))) ↔ Along next P start ops := by
  refine ⟨fun h => ?_, fun h => h.invariant (fun s op hs => (hstep s op hs).mpr) hstart⟩
  induction ops generalizing start with
  | nil => trivial
  | cons op ops ih =>
    exact ⟨(hstep start op hstart).mp (h 1), ih (h 1) fun k => h (k + 1)⟩

/-- The rest of a run, from one of its states on. -/
theorem Along.drop {P : S → O → Prop} {start : S} {ops : List O}
    (halong : Along next P start ops) (k : ℕ) :
    Along next P (run next start (ops.take k)) (ops.drop k) := by
  induction ops generalizing start k with
  | nil =>
    rw [List.take_nil, List.drop_nil]
    exact halong
  | cons op ops ih =>
    cases k with
    | zero => exact halong
    | succ k => exact ih halong.2 k

/-- The step after the first ones. -/
theorem run_take_succ (start : S) (ops : List O) {k : ℕ} (hk : k < ops.length) :
    run next start (ops.take (k + 1)) = next (run next start (ops.take k)) ops[k] := by
  rw [List.take_succ_eq_append_getElem hk]
  exact List.foldl_append

/-- Each step of such a run meets the condition in the state before it. -/
theorem Along.at_step {P : S → O → Prop} {start : S} {ops : List O}
    (halong : Along next P start ops) {k : ℕ} (hk : k < ops.length) :
    P (run next start (ops.take k)) ops[k] := by
  have hrest := halong.drop k
  rw [List.drop_eq_getElem_cons hk] at hrest
  exact hrest.1

/-- A run goes through each of its earlier states. -/
theorem run_take_of_le (start : S) (ops : List O) {i k : ℕ} (hik : i ≤ k) :
    run next start (ops.take k) =
      run next (run next start (ops.take i)) ((ops.drop i).take (k - i)) := by
  have hsplit : ops.take k = ops.take i ++ (ops.drop i).take (k - i) := by
    rw [← List.take_add]
    congr 1
    omega
  rw [hsplit]
  exact List.foldl_append

end ExperienceCodex.Runs
