import Mathlib.Data.List.Sort
import Mathlib.Data.Prod.Lex
import Mathlib.Data.Rat.Defs
import Mathlib.Algebra.Order.Ring.Rat
import Mathlib.Tactic.NormNum

/-!
# Selecting a plan for a task

The candidates whose preconditions hold are ranked, and the best one is given the first segments of
the task.  Nothing is selected when the two best cannot be told apart.  The confidences are exact
numbers here.
-/

namespace ExperienceCodex.Delegation

open List

structure TaskSegment where
  id : String
  text : String

structure ExperiencePlan where
  selected : List String
  skipped : List String
  coveredSegments : List String
  remainingSegments : List String
  reason : String

structure CandidateRank where
  name : String
  coverageHint : ℕ
  confidence : ℚ
  priority : ℕ

/-- `f64::EPSILON`. -/
def epsilon : ℚ := 1 / 2 ^ 52

/-- What candidates are ranked by: coverage, then confidence, then priority. -/
def CandidateRank.key (candidate : CandidateRank) : ℕ ×ₗ ℚ ×ₗ ℕ :=
  toLex (candidate.coverageHint, toLex (candidate.confidence, candidate.priority))

/-- The better candidate comes first. -/
def CandidateRank.Before (a b : CandidateRank) : Prop := b.key ≤ a.key

instance : DecidableRel CandidateRank.Before := fun a b =>
  inferInstanceAs (Decidable (b.key ≤ a.key))

/-- The first two candidates are as good as each other. -/
def tied (first second : CandidateRank) : Bool :=
  first.coverageHint == second.coverageHint &&
    decide (|first.confidence - second.confidence| < epsilon)

/-- The plan of a candidate. -/
def planFor (segments : List TaskSegment) (best : CandidateRank) (skipped : List String)
    (reason : String) : ExperiencePlan where
  selected := [best.name]
  skipped
  coveredSegments := (segments.take (min best.coverageHint segments.length)).map TaskSegment.id
  remainingSegments := (segments.drop (min best.coverageHint segments.length)).map TaskSegment.id
  reason

/-- The plan without a candidate. -/
def emptyPlan (segments : List TaskSegment) (skipped : List String) (reason : String) :
    ExperiencePlan where
  selected := []
  skipped
  coveredSegments := []
  remainingSegments := segments.map TaskSegment.id
  reason

/-- The plan for candidates in the order of their ranks. -/
def planOf (segments : List TaskSegment) : List CandidateRank → ExperiencePlan
  | [] => emptyPlan segments [] "no_match"
  | [best] => planFor segments best [] "single_best"
  | first :: second :: rest =>
    if tied first second then emptyPlan segments [first.name, second.name] "conflict"
    else planFor segments first ((second :: rest).map CandidateRank.name) "best"

def selectPlan (segments : List TaskSegment) (candidates : List CandidateRank)
    (preconditionsPass : String → Bool) : ExperiencePlan :=
  planOf segments ((candidates.filter fun candidate =>
    preconditionsPass candidate.name).insertionSort
    CandidateRank.Before)

instance : IsTrans CandidateRank CandidateRank.Before := ⟨fun _ _ _ hab hbc => le_trans hbc hab⟩

instance : Std.Total CandidateRank.Before := ⟨fun a b => le_total b.key a.key⟩

lemma tied_of_eq {first second : CandidateRank}
    (hcoverage : first.coverageHint = second.coverageHint)
    (hconfidence : first.confidence = second.confidence) : tied first second = true := by
  have hpositive : (0 : ℚ) < epsilon := by norm_num [epsilon]
  simp [tied, hcoverage, hconfidence, hpositive]

lemma eq_of_key_eq {a b : CandidateRank} (h : a.key = b.key) :
    a.coverageHint = b.coverageHint ∧ a.confidence = b.confidence := by
  rw [CandidateRank.key, CandidateRank.key, toLex_inj, Prod.mk.injEq, toLex_inj, Prod.mk.injEq] at h
  exact ⟨h.1, h.2.1⟩

/-- What a plan does, without the names that it passes over. -/
def outcome (plan : ExperiencePlan) : List String × List String × List String × String :=
  (plan.selected, plan.coveredSegments, plan.remainingSegments, plan.reason)

/-- Only the keys decide between the candidates, and the best of them is one that no other ties. -/
lemma outcome_planOf {left right : List CandidateRank} (segs : List TaskSegment)
    (hleft : left.Pairwise CandidateRank.Before) (hright : right.Pairwise CandidateRank.Before)
    (hperm : left.Perm right) :
    outcome (planOf segs left) = outcome (planOf segs right) := by
  have hkeys : left.map CandidateRank.key = right.map CandidateRank.key :=
    (hperm.map _).eq_of_pairwise (fun _ _ _ _ h h' => le_antisymm h' h)
      (pairwise_map.mpr hleft) (pairwise_map.mpr hright)
  match left, right, hperm.length_eq with
  | [], [], _ => rfl
  | [best], [best'], _ => rw [singleton_perm_singleton.mp hperm]
  | first :: second :: rest, first' :: second' :: rest', _ =>
    simp only [map_cons, List.cons.injEq] at hkeys
    obtain ⟨hfst, hsnd, -⟩ := hkeys
    have htied : tied first second = tied first' second' := by
      rw [tied, tied, (eq_of_key_eq hfst).1, (eq_of_key_eq hfst).2, (eq_of_key_eq hsnd).1,
        (eq_of_key_eq hsnd).2]
    rw [planOf, planOf, ← htied]
    split_ifs with hconflict
    · rfl
    · have hsame : first' = first := by
        have hmem := hperm.symm.subset (mem_cons_self (a := first') (l := second' :: rest'))
        rcases mem_cons.mp hmem with hsame | hmem
        · exact hsame
        · -- Otherwise the first of one order stands behind the second of the other.
          have hbehind : first'.key ≤ second.key := by
            rcases mem_cons.mp hmem with rfl | hmem
            · exact le_rfl
            · exact rel_of_pairwise_cons (List.Pairwise.of_cons hleft) hmem
          have hahead : second.key ≤ first.key :=
            rel_of_pairwise_cons hleft mem_cons_self
          have hequal := eq_of_key_eq (le_antisymm hahead (hfst ▸ hbehind)).symm
          exact absurd (tied_of_eq hequal.1 hequal.2) hconflict
      rw [hsame]
      rfl

theorem selectPlan_spec (segments : List TaskSegment) (candidates : List CandidateRank)
    (preconditionsPass : String → Bool) :
    (selectPlan segments candidates preconditionsPass).coveredSegments ++
        (selectPlan segments candidates preconditionsPass).remainingSegments =
          segments.map TaskSegment.id ∧
      (∀ first second rest,
        (first :: second :: rest).Perm
            (candidates.filter fun candidate => preconditionsPass candidate.name) →
          (first :: second :: rest).Pairwise CandidateRank.Before →
          first.coverageHint = second.coverageHint → first.confidence = second.confidence →
          (selectPlan segments candidates preconditionsPass).selected = []) ∧
      ∀ others : List CandidateRank, others.Perm candidates →
        outcome (selectPlan segments others preconditionsPass) =
          outcome (selectPlan segments candidates preconditionsPass) := by
  have hbest (best : CandidateRank) (skipped : List String) (reason : String) :
      (planFor segments best skipped reason).coveredSegments ++
        (planFor segments best skipped reason).remainingSegments =
          segments.map TaskSegment.id := by
    rw [planFor, ← map_append, take_append_drop]
  refine ⟨?_, ?_, ?_⟩
  · unfold selectPlan planOf
    split
    · rfl
    · exact hbest _ _ _
    · split_ifs
      · rfl
      · exact hbest _ _ _
  · intro first second rest hperm hsorted hcoverage hconfidence
    have hplan := outcome_planOf segments (pairwise_insertionSort CandidateRank.Before _) hsorted
      ((perm_insertionSort _ _).trans hperm.symm)
    rw [planOf, if_pos (tied_of_eq hcoverage hconfidence)] at hplan
    exact congrArg Prod.fst hplan
  · intro others hperm
    apply outcome_planOf segments (pairwise_insertionSort _ _)
      (pairwise_insertionSort _ _)
    exact (perm_insertionSort _ _).trans
      ((hperm.filter _).trans (perm_insertionSort _ _).symm)

end ExperienceCodex.Delegation
