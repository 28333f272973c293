import ExperienceCodex.Safety
import ExperienceCodex.Store

/-!
# The gate runtime

The synchronous gate decides whether a stored experience or a bound template takes a proposal
over and, if so, runs its workflow, verifies its postconditions and returns a closed result.

The world is a state of an arbitrary type.  Only a runner step changes it.  The cancellation flag
may be set at any time from outside, so the loads of it are given by an arbitrary sequence.
-/

namespace ExperienceCodex

open Text

structure GateContext where
  cwd : String

structure ExecutedSideEffect where
  description : String
  evidence : Option String
deriving DecidableEq

/-- What a successful step reports. -/
structure StepOutcome where
  evidence : String
  sideEffects : List ExecutedSideEffect
  exitCode : Option Int32
  stdout : String
  stderr : String
deriving DecidableEq

/-- What the gate asks of its surroundings, over worlds of type `W`. -/
structure GateEnv (W : Type) where
  probe : W → GateContext → String → Option Json
  run : W → GateContext → WorkflowStep → Except String StepOutcome × W
  readToString : W → String → Except String String
  clock : W → UInt64
  floatText : F64 → String

inductive GateTier where
  | a
  | b
  | c
  | d
deriving DecidableEq

inductive GateDecision where
  | miss
  | hit (experience : String) (tier : GateTier)
  | satisfied (experience : String) (tier : GateTier) (stateAfter : List StateFact)
  | templateHit (experience : String) (tier : GateTier) (bindings : Bindings)
      (fingerprint : String) (instantiated : Experience)

inductive CompletionStatus where
  | completed
  | partlyDone
  | failed
deriving DecidableEq

inductive VerificationStatus where
  | verified
  | unverified
  | failed
deriving DecidableEq

structure ExecutedStep where
  action : String
  args : Json
  evidence : Option String

structure TemplateBindingAudit where
  template : String
  bindings : Bindings
  fingerprint : String

/-- The closed result that is handed back to the agent. -/
structure GateHitResult where
  proposedAction : ActionProposal
  stateBefore : List StateFact
  executed : List ExecutedStep
  stateAfter : List StateFact
  executionEvidence : List String
  executedSideEffects : List ExecutedSideEffect
  completionStatus : CompletionStatus
  verificationStatus : VerificationStatus
  templateAudit : Option TemplateBindingAudit := none

/-- A takeover counts as successful only when it is completed and verified. -/
def GateHitResult.isSuccess (result : GateHitResult) : Bool :=
  decide (result.completionStatus = .completed ∧ result.verificationStatus = .verified)

inductive GateOutcome where
  | miss
  | hit (result : GateHitResult)

/-- The branches of `execute` that do not return. -/
inductive GatePanic where
  | leftTheStore (name : String)
  | calledOnMiss
deriving DecidableEq

/-- A number as sixteen hexadecimal digits. -/
def hex16 (n : UInt64) : String :=
  let digits := Nat.toDigits 16 n.toNat
  String.ofList (List.replicate (16 - digits.length) '0' ++ digits)

/-- The FNV-1a fingerprint of the bytes of a text. -/
def stableFingerprint (material : String) : String :=
  hex16 (material.toUTF8.toList.foldl (fun hash byte => (hash ^^^ byte.toUInt64) * 0x100000001b3)
    0xcbf29ce484222325)

/-- What `binding_fingerprint` hashes. -/
def ExperienceTemplate.bindingMaterial (template : ExperienceTemplate) (bindings : Bindings) :
    String :=
  template.name ++
    String.join (bindings.toList.map fun (name, value) => "\x1f" ++ name ++ "=" ++ value)

def ExperienceTemplate.bindingFingerprint (template : ExperienceTemplate) (bindings : Bindings) :
    String :=
  stableFingerprint (template.bindingMaterial bindings)

/-- One step replaces a tool call, more of them a chain. -/
def tierFor (experience : Experience) : GateTier :=
  match experience.workflow.length with
  | 0 => .b
  | 1 => .b
  | _ => .c

/-- The exit code that a process step must produce, truncated to 32 bits. -/
def expectedExitCode (step : WorkflowStep) : Option Int32 :=
  if step.action ≠ "exec" ∧ step.action ≠ "exec_command" then none
  else
    let declared := (step.args.get "expect_exit").bind Json.asI64
    some ((declared.map Int64.toInt32).getD 0)

section
variable {W : Type} (env : GateEnv W) (context : GateContext)

def probePredicate (world : W) (predicate : Predicate) : TruthValue :=
  predicate.probe (env.probe world context predicate.key)

def preconditionsHold (world : W) (experience : Experience) : Bool :=
  experience.preconditions.all fun predicate => probePredicate env context world predicate = .true

/-- The facts of the postconditions, when all of them are observed and hold. -/
def factsOf (world : W) : List Predicate → Option (List StateFact)
  | [] => some []
  | predicate :: rest =>
    match env.probe world context predicate.key with
    | none => none
    | some observed =>
      if predicate.probe (some observed) ≠ .true then none
      else
        (factsOf world rest).map fun facts =>
          .new predicate.key observed "probe" (env.clock world) :: facts

def postconditionFacts (world : W) (experience : Experience) : Option (List StateFact) :=
  if experience.postconditions.isEmpty then none
  else factsOf env context world experience.postconditions

/-- The first candidate that is applicable, or that has nothing left to do. -/
def decideExperiences (world : W) : List Experience → Option GateDecision
  | [] => none
  | candidate :: rest =>
    if preconditionsHold env context world candidate then
      some (.hit candidate.name (tierFor candidate))
    else
      match postconditionFacts env context world candidate with
      | some stateAfter => some (.satisfied candidate.name (tierFor candidate) stateAfter)
      | none => decideExperiences world rest

/-- The same over the templates that bind. -/
def decideTemplates (proposal : ActionProposal) (world : W) :
    List ExperienceTemplate → Option GateDecision
  | [] => none
  | template :: rest =>
    match template.bind env.floatText proposal context.cwd with
    | .error _ => decideTemplates proposal world rest
    | .ok (instantiated, bindings) =>
      if preconditionsHold env context world instantiated then
        some (.templateHit instantiated.name (tierFor instantiated) bindings
          (template.bindingFingerprint bindings) instantiated)
      else
        match postconditionFacts env context world instantiated with
        | some stateAfter =>
          some (.satisfied instantiated.name (tierFor instantiated) stateAfter)
        | none => decideTemplates proposal world rest

def decideGate (store : ExperienceStore) (proposal : ActionProposal) (world : W) :
    GateDecision :=
  match decideExperiences env context world (store.candidatesFor env.floatText proposal) with
  | some decision => decision
  | none =>
    (decideTemplates env context proposal world
      (store.templatesFor env.floatText proposal)).getD .miss

/-- What the step loop has accumulated. -/
structure Progress where
  executed : List ExecutedStep := []
  evidence : List String := []
  sideEffects : List ExecutedSideEffect := []

def Progress.note (progress : Progress) (line : String) : Progress :=
  { progress with evidence := progress.evidence ++ [line] }

def Progress.push (progress : Progress) (step : WorkflowStep) (outcome : StepOutcome) :
    Progress where
  executed := progress.executed ++
    [{ action := step.action, args := step.args, evidence := some outcome.evidence }]
  evidence := progress.evidence ++ [outcome.evidence]
  sideEffects := progress.sideEffects ++ outcome.sideEffects

/-- The `Debug` form of an exit code. -/
def exitCodeText : Option Int32 → String
  | none => "None"
  | some code => "Some(" ++ toString code.toInt ++ ")"

/-- Whether the exit code of a step is the one the step expects. -/
def exitCodeExpected (step : WorkflowStep) (outcome : StepOutcome) : Bool :=
  match expectedExitCode step with
  | none => true
  | some expected => decide (outcome.exitCode = some expected)

def exitMismatchLine (step : WorkflowStep) (outcome : StepOutcome) : String :=
  "step '" ++ step.action ++ "' exited " ++ exitCodeText outcome.exitCode ++ ", expected " ++
    toString ((expectedExitCode step).getD 0).toInt ++ ": " ++ outcome.evidence

/-- The step loop from the load number `index` of the cancellation flag on.  The first component
says whether every step was run. -/
def runSteps (cancel : ℕ → Bool) :
    ℕ → List WorkflowStep → Progress → W → Bool × Progress × W
  | _, [], progress, world => (true, progress, world)
  | index, step :: rest, progress, world =>
    if cancel index then (false, progress.note "workflow interrupted by cancellation", world)
    else
      match env.run world context step with
      | (.ok outcome, world) =>
        if exitCodeExpected step outcome then
          runSteps cancel (index + 1) rest (progress.push step outcome) world
        else (false, progress.note (exitMismatchLine step outcome), world)
      | (.error error, world) =>
        (false, progress.note ("step '" ++ step.action ++ "' failed: " ++ error), world)

/-- The facts about the observable ones of some predicates. -/
def observedFacts (world : W) (evidence : String) (predicates : List Predicate) :
    List StateFact :=
  predicates.filterMap fun predicate =>
    (env.probe world context predicate.key).map fun observed =>
      .new predicate.key observed evidence (env.clock world)

/-- The facts and the evidence of one verification step. -/
def verifyStep (world : W) : VerificationStep → List StateFact × List String
  | .readFile path expectContent =>
    match env.readToString world (pathJoin context.cwd path) with
    | .error error => ([], ["verification: failed to read " ++ path ++ ": " ++ error])
    | .ok content =>
      let seen : StateFact :=
        .new ("file:" ++ path ++ ".exists") (.bool true) ("read " ++ path) (env.clock world)
      match expectContent with
      | none => ([seen], [])
      | some expected =>
        if content = expected then
          ([seen, .new ("file:" ++ path ++ ".content") (.string content) ("read " ++ path)
              (env.clock world)],
            ["verification: " ++ path ++ " content matches"])
        else ([seen], ["verification: " ++ path ++ " content mismatch"])
  | .probe predicate =>
    let observed := env.probe world context predicate.key
    match predicate.probe observed with
    | .true =>
      ((observed.map fun value =>
          StateFact.new predicate.key value "probe" (env.clock world)).toList,
        ["verification: " ++ predicate.key ++ " holds"])
    | .false => ([], ["verification: " ++ predicate.key ++ " does not hold"])
    | .unknown => ([], ["verification: " ++ predicate.key ++ " not observable"])

def verifyPostconditions (world : W) (experience : Experience) :
    List StateFact × List String :=
  let outcomes := experience.verification.map (verifyStep env context world)
  (outcomes.flatMap Prod.fst, outcomes.flatMap Prod.snd)

def executeExperience (cancel : ℕ → Bool) (proposal : ActionProposal) (experience : Experience)
    (world : W) : GateHitResult × W :=
  let stateBefore := observedFacts env context world "probe" experience.preconditions
  match runSteps env context cancel 0 experience.workflow {} world with
  | (false, progress, world) =>
    ({ proposedAction := proposal
       stateBefore
       executed := progress.executed
       stateAfter :=
         observedFacts env context world "probe after failure" experience.postconditions
       executionEvidence := progress.evidence
       executedSideEffects := progress.sideEffects
       completionStatus := .failed
       verificationStatus := .failed }, world)
  | (true, progress, world) =>
    let (stateAfter, verificationEvidence) := verifyPostconditions env context world experience
    let satisfied := experience.postconditionsSatisfiedBy stateAfter
    ({ proposedAction := proposal
       stateBefore
       executed := progress.executed
       stateAfter
       executionEvidence := progress.evidence ++ verificationEvidence
       executedSideEffects := progress.sideEffects
       completionStatus := if satisfied then .completed else .partlyDone
       verificationStatus := if satisfied then .verified else .unverified }, world)

def executeAlreadySatisfied (proposal : ActionProposal) (stateAfter : List StateFact) :
    GateHitResult where
  proposedAction := proposal
  stateBefore := []
  executed := []
  stateAfter := stateAfter
  executionEvidence := "experience already satisfied; no workflow step was executed" ::
    stateAfter.map fun fact => "verification: " ++ fact.key ++ " holds"
  executedSideEffects := []
  completionStatus := .completed
  verificationStatus := .verified

/-- Attach the audit of a template binding. -/
def auditResult (result : GateHitResult) (audit : TemplateBindingAudit) : GateHitResult :=
  { result with
    executionEvidence := result.executionEvidence ++ ["template '" ++ audit.template ++
      "' bound " ++ toString audit.bindings.size ++ " parameter(s); fingerprint " ++
      audit.fingerprint]
    templateAudit := some audit }

/-- Resolve a decision and run it.  The name of a hit, and also that of a satisfied decision, is
looked up among the stored experiences. -/
def executeDecision (cancel : ℕ → Bool) (store : ExperienceStore) (proposal : ActionProposal)
    (decision : GateDecision) (world : W) : Except GatePanic GateHitResult × W :=
  match decision with
  | .templateHit name _ bindings fingerprint instantiated =>
    let (result, world) := executeExperience env context cancel proposal instantiated world
    (.ok (auditResult result { template := name, bindings, fingerprint }), world)
  | .hit name _ =>
    match store.get name with
    | none => (.error (.leftTheStore name), world)
    | some experience =>
      let (result, world) := executeExperience env context cancel proposal experience world
      (.ok result, world)
  | .satisfied name _ stateAfter =>
    match store.get name with
    | none => (.error (.leftTheStore name), world)
    | some _ => (.ok (executeAlreadySatisfied proposal stateAfter), world)
  | .miss => (.error .calledOnMiss, world)

/-- The full synchronous gate. -/
def gate (cancel : ℕ → Bool) (store : ExperienceStore) (proposal : ActionProposal) (world : W) :
    Except GatePanic GateOutcome × W :=
  match decideGate env context store proposal world with
  | .miss => (.ok .miss, world)
  | decision =>
    let (result, world) := executeDecision env context cancel store proposal decision world
    (result.map .hit, world)

end

end ExperienceCodex
