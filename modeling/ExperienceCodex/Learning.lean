import ExperienceCodex.Induce

/-!
# The learning sink

A finished round of a session may become a stored experience.  The necessity gate rejects rounds
that did not succeed, that called no tool or that repeat a known task; what is left is distilled
into a draft, and the writer stores the draft as a candidate whatever status it claims.
-/

namespace ExperienceCodex

open Text

/-- A semantic milestone of a session. -/
inductive TraceEvent where
  | submitted
  | accepted
  | agentStarted
  | alreadyStarted
  | reasoning
  | turnCompleted
  | toolCall (name : String) (callId argsSummary : Option String)
  | toolResult (name : String) (callId : Option String)
  | failed (phase message : String)
  | delegate (agent taskSummary : String) (plan : List String)
  | legacy (label : String)
deriving DecidableEq

structure RoundTrace where
  task : String
  events : List TraceEvent

def TraceEvent.isToolCall : TraceEvent → Bool
  | toolCall .. => true
  | _ => false

/-- A tool call whose argument summary holds a long hexadecimal token. -/
def TraceEvent.hasEphemeralIdentifier : TraceEvent → Bool
  | toolCall _ _ (some summary) => likelyEphemeralIdentifier summary
  | _ => false

def RoundTrace.hasEphemeralIdentifier (round : RoundTrace) : Bool :=
  round.events.any TraceEvent.hasEphemeralIdentifier

inductive RejectReason where
  | terminalNotSuccess
  | noActionEvidence
  | repeatNoImprovement
  | distillUnavailable
  | toolBoundaryInvalid
  | unstableShape
deriving DecidableEq

def RejectReason.label : RejectReason → String
  | terminalNotSuccess => "terminal_not_success"
  | noActionEvidence => "no_action_evidence"
  | repeatNoImprovement => "repeat_no_improvement"
  | distillUnavailable => "distill_unavailable"
  | toolBoundaryInvalid => "tool_boundary_invalid"
  | unstableShape => "unstable_shape"

inductive Necessity where
  | reject (reason : RejectReason)
  | cleanShort
  | dirty
deriving DecidableEq

def maxCleanToolSteps : ℕ := 3

def decideNecessity (round : RoundTrace) (terminalSuccess existingSameSignature : Bool) :
    Necessity :=
  let toolCalls := round.events.countP TraceEvent.isToolCall
  if !terminalSuccess then .reject .terminalNotSuccess
  else if toolCalls = 0 then .reject .noActionEvidence
  else if existingSameSignature then .reject .repeatNoImprovement
  else if toolCalls ≤ maxCleanToolSteps then .cleanShort
  else .dirty

/-- What turns a round into a draft. -/
structure L1Distiller where
  distill : RoundTrace → Option Experience
  acceptsDirty : Bool := false

/-- The canonical name of a tool that a producer names. -/
def canonicalTool (name : String) : Option String :=
  if name = "commandExecution" ∨ name = "exec_command" then some "exec_command"
  else if name = "write_file" then some "write_file"
  else if name = "read_file" then some "read_file"
  else none

/-- The words of a task, in lower case. -/
def taskSignature (task : String) : String :=
  toLowercase (String.intercalate " "
    ((splitAtChars isWhitespace task).filter fun word => !word.isEmpty))

/-- The name under which the deterministic distiller stores a round. -/
def distilledName (task : String) : String :=
  "cand_" ++ String.ofList ((taskSignature task).toList.map fun c => if c = ' ' then '_' else c)

/-- The steps of a round.  Only process calls carry the arguments that a step needs. -/
def distillSteps : List TraceEvent → Option (List WorkflowStep)
  | [] => some []
  | .toolCall name _ argsSummary :: rest => do
    let tool ← canonicalTool name
    if tool ≠ "exec_command" then none
    else
      let summary ← argsSummary
      let steps ← distillSteps rest
      return { action := tool, args := .object [("cmd", .string summary)] } :: steps
  | _ :: rest => distillSteps rest

/-- The fallback without a language model. -/
def deterministicDistiller : L1Distiller where
  distill round := do
    let workflow ← distillSteps round.events
    let first ← workflow.head?
    return {
      name := distilledName round.task
      trigger := { tool := first.action, commandPattern := none }
      preconditions := [{ key := "cwd.exists", expected := .bool true }]
      workflow
      -- A hypothesis for the qualification, not a claim of completion.
      postconditions := [{ key := "candidate.pending_validation", expected := .bool true }]
      verification := []
      failurePolicy := .stopAndReport
      undo := .unsupported
      status := .draft }

/-- The writer forces the status of a draft. -/
def writeCandidate (store : ExperienceStore) (draft : Experience) :
    Except String Unit × ExperienceStore :=
  match store.insert { draft with status := .candidate } with
  | (.ok (), store) => (.ok (), store)
  | (.error error, store) => (.error error.display, store)

/-- One pass of the sink: the label of the rejection, or nothing when a candidate was written. -/
def sinkOnce (round : RoundTrace) (terminalSuccess existingSameSignature : Bool)
    (store : ExperienceStore) (distiller : L1Distiller) :
    Except String (Option String) × ExperienceStore :=
  let rejected (reason : RejectReason) : Except String (Option String) × ExperienceStore :=
    (.ok (some reason.label), store)
  let distilled : Except String (Option String) × ExperienceStore :=
    if round.hasEphemeralIdentifier then rejected .unstableShape
    else
      match distiller.distill round with
      | none => rejected .distillUnavailable
      | some draft =>
        match validateToolBoundary draft with
        | .error _ => rejected .toolBoundaryInvalid
        | .ok () =>
          match writeCandidate store draft with
          | (.ok (), store) => (.ok none, store)
          | (.error error, store) => (.error error, store)
  match decideNecessity round terminalSuccess existingSameSignature with
  | .reject reason => rejected reason
  | .dirty => if !distiller.acceptsDirty then rejected .distillUnavailable else distilled
  | .cleanShort => distilled

inductive LearnOp where
  | sinkOnce (round : RoundTrace) (terminalSuccess existingSameSignature : Bool)
      (distiller : L1Distiller)
  | induceIntoStore (a b : ObservedTask) (distiller : String) (sessionId : Option String)
      (recordedAt : UInt64)

namespace LearnOp

/-- The store that a call leaves behind. -/
def next (isAlphanumeric : Char → Bool) (store : ExperienceStore) : LearnOp → ExperienceStore
  | sinkOnce round terminalSuccess existingSameSignature distiller =>
    (ExperienceCodex.sinkOnce round terminalSuccess existingSameSignature store distiller).2
  | induceIntoStore a b distiller sessionId recordedAt =>
    (ExperienceCodex.induceIntoStore isAlphanumeric store a b distiller sessionId recordedAt).2

end LearnOp

end ExperienceCodex
