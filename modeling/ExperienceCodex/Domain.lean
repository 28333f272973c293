import ExperienceCodex.Json

/-!
# The domain of experiences

Action proposals and the trigger patterns that match them, predicates with their three-valued
probe, and the experience itself: a compiled transition with preconditions, workflow steps,
postconditions and verification steps, in one of six lifecycle states.
-/

namespace ExperienceCodex

open Text

structure ActionProposal where
  tool : String
  args : Json

/-- The text in which a command pattern is searched. -/
def ActionProposal.argsText (floatText : F64 → String) (proposal : ActionProposal) : String :=
  proposal.args.text floatText

structure ActionPattern where
  tool : String
  commandPattern : Option String
deriving DecidableEq

/-- The trigger names the exact tool and, unless its pattern is empty, a text that the
proposal's arguments contain up to case. -/
def ActionPattern.matches (floatText : F64 → String) (pattern : ActionPattern)
    (proposal : ActionProposal) : Bool :=
  if pattern.tool ≠ proposal.tool then false
  else
    match pattern.commandPattern with
    | none => true
    | some text =>
      if text.isEmpty then true
      else contains (toLowercase (proposal.argsText floatText)) (toLowercase text)

inductive TruthValue where
  | true
  | false
  | unknown
deriving DecidableEq

structure Predicate where
  key : String
  expected : Json

/-- An unobserved predicate is unknown, never false. -/
def Predicate.probe (predicate : Predicate) (observed : Option Json) : TruthValue :=
  match observed with
  | none => .unknown
  | some actual => if actual.jsonEq predicate.expected then .true else .false

theorem Predicate.probe_eq_true_iff (predicate : Predicate) (observed : Option Json) :
    predicate.probe observed = .true ↔
      ∃ actual, observed = some actual ∧ actual.jsonEq predicate.expected = true := by
  cases observed with
  | none => simp [probe]
  | some actual => by_cases h : actual.jsonEq predicate.expected = true <;> simp [probe, h]

structure StateFact where
  key : String
  value : Json
  evidence : String
  verifiedAt : UInt64
  ttl : Option UInt64

def StateFact.new (key : String) (value : Json) (evidence : String) (verifiedAt : UInt64) :
    StateFact :=
  { key, value, evidence, verifiedAt, ttl := none }

/-- The value of the first fact with the given key. -/
def factValue (facts : List StateFact) (key : String) : Option Json :=
  (facts.find? fun fact => fact.key == key).map StateFact.value

structure WorkflowStep where
  action : String
  args : Json

inductive VerificationStep where
  | readFile (path : String) (expectContent : Option String)
  | probe (predicate : Predicate)

inductive FailurePolicy where
  | stopAndReport
deriving DecidableEq

inductive UndoPolicy where
  | unsupported
deriving DecidableEq

inductive ExperienceStatus where
  | draft
  | candidate
  | validated
  | active
  | decaying
  | disabled
deriving DecidableEq

inductive QualificationAction where
  | validate
  | activate
  | forceActivate
  | invalidate
  | disable
  | revalidate
  | decay
deriving DecidableEq

namespace ExperienceStatus

/-- The name that the `Debug` format prints. -/
def debugName : ExperienceStatus → String
  | draft => "Draft"
  | candidate => "Candidate"
  | validated => "Validated"
  | active => "Active"
  | decaying => "Decaying"
  | disabled => "Disabled"

/-- The table of status transitions. -/
def transition (status : ExperienceStatus) :
    QualificationAction → Except String ExperienceStatus
  | .validate =>
    match status with
    | candidate => .ok validated
    | _ => .error ("validate requires CANDIDATE, was " ++ status.debugName)
  | .activate | .forceActivate =>
    if status = validated then .ok active
    else
      .error ("activation requires VALIDATED, was " ++ status.debugName ++
        " (override cannot skip qualification)")
  | .invalidate =>
    match status with
    | candidate => .ok disabled
    | _ => .error ("invalidate requires CANDIDATE, was " ++ status.debugName)
  | .disable => .ok disabled
  | .revalidate =>
    match status with
    | disabled | decaying => .ok validated
    | _ => .error ("revalidate requires DISABLED/DECAYING, was " ++ status.debugName)
  | .decay =>
    match status with
    | active => .ok decaying
    | _ => .error ("decay requires ACTIVE, was " ++ status.debugName)

end ExperienceStatus

/-- A known transition: a trigger and preconditions, a workflow, and the state it leads to. -/
structure Experience where
  name : String
  trigger : ActionPattern
  preconditions : List Predicate
  workflow : List WorkflowStep
  postconditions : List Predicate
  verification : List VerificationStep
  failurePolicy : FailurePolicy
  undo : UndoPolicy
  status : ExperienceStatus

inductive SchemaIssue where
  | emptyName
  | emptyTriggerTool
  | emptyWorkflow
  | emptyStepAction (index : ℕ)
  | emptyPostconditions
deriving DecidableEq

/-- The steps with a blank action, from the given index on. -/
def blankActionIssues (index : ℕ) : List WorkflowStep → List SchemaIssue
  | [] => []
  | step :: rest =>
    (if isBlank step.action then [.emptyStepAction index] else []) ++
      blankActionIssues (index + 1) rest

namespace Experience

/-- Every structural defect; a valid experience has none. -/
def schemaIssues (experience : Experience) : List SchemaIssue :=
  (if isBlank experience.name then [.emptyName] else []) ++
    (if isBlank experience.trigger.tool then [.emptyTriggerTool] else []) ++
    (if experience.workflow.isEmpty then [.emptyWorkflow]
      else blankActionIssues 0 experience.workflow) ++
    (if experience.postconditions.isEmpty then [.emptyPostconditions] else [])

def isSchemaValid (experience : Experience) : Bool :=
  experience.schemaIssues.isEmpty

/-- Completion may be claimed only when every postcondition is backed by a fact. -/
def postconditionsSatisfiedBy (experience : Experience) (stateAfter : List StateFact) : Bool :=
  experience.postconditions.all fun condition =>
    condition.probe (factValue stateAfter condition.key) = .true

end Experience

end ExperienceCodex
