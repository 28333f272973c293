import ExperienceCodex.Domain
import ExperienceCodex.Fallible

/-!
# Parameterized experience templates

A template is not executable.  It becomes an experience when every required parameter is
captured from the proposal and every placeholder is rendered.  Binding is a deterministic
function of the proposal and of the working directory, and it either gives a whole experience or
refuses.
-/

namespace ExperienceCodex

open Text

structure TemplateParameter where
  name : String
  source : String
  kind : String
  before : Option String
  after : Option String
  required : Bool
deriving DecidableEq

def paramKindText : String := "text"
def paramKindPath : String := "path"
def paramKindToken : String := "token"

inductive TemplateBindError where
  | missingParameter (name : String)
  | malformedCapture (text : String)
  | unknownPlaceholder (name : String)
  | emptyParameter (name : String)
  | invalidParameter (name reason : String)
deriving DecidableEq

structure ExperienceTemplate where
  name : String
  trigger : ActionPattern
  parameters : List TemplateParameter
  workflow : List WorkflowStep
  preconditions : List Predicate
  postconditions : List Predicate
  verification : List VerificationStep
  failurePolicy : FailurePolicy
  undo : UndoPolicy
  status : ExperienceStatus

/-- Unlike for an experience, the actions of the steps are not checked. -/
def ExperienceTemplate.schemaIssues (template : ExperienceTemplate) : List SchemaIssue :=
  (if isBlank template.name then [.emptyName] else []) ++
    (if isBlank template.trigger.tool then [.emptyTriggerTool] else []) ++
    (if template.workflow.isEmpty then [.emptyWorkflow] else []) ++
    (if template.postconditions.isEmpty then [.emptyPostconditions] else [])

/-- The captured values by parameter name. -/
abbrev Bindings := Std.ExtTreeMap String String

/-- Whether a value of the kind `path` is refused, and why. -/
def pathValueError (value : String) : Option String :=
  let normalized := String.ofList (value.toList.map fun c => if c = '\\' then '/' else c)
  let drive : Bool :=
    match normalized.toList with
    | letter :: ':' :: _ => letter.isAlpha
    | _ => false
  if startsWith normalized "/" then some "path must be workspace-relative, not absolute"
  else if drive then some "path must not name a drive"
  else if (splitAtChars (· == '/') normalized).any (· == "..") then
    some "path must not contain a '..' component"
  else none

/-- Whether a value of the kind `token` is refused, and why. -/
def tokenValueError (value : String) : Option String :=
  if value.toList.any isWhitespace then some "token must not contain whitespace"
  else if value.toList.any fun c => ";&|<>$`\"'\n\r".toList.contains c then
    some "token must not contain shell metacharacters"
  else none

/-- The constraint of a parameter's kind; unknown kinds are permissive. -/
def validateValue (parameter : TemplateParameter) (value : String) :
    Except TemplateBindError Unit :=
  let reason :=
    if parameter.kind = paramKindPath then pathValueError value
    else if parameter.kind = paramKindToken then tokenValueError value
    else none
  match reason with
  | some reason => .error (.invalidParameter parameter.name reason)
  | none => .ok ()

/-- The text from which a parameter is captured. -/
def sourceText (floatText : F64 → String) (source : String) (proposal : ActionProposal)
    (cwd : String) : String :=
  if source = "task" then
    let member := (proposal.args.get "task").orElse fun _ => proposal.args.get "text"
    (member.bind Json.asStr).getD (proposal.argsText floatText)
  else if source = "action" then proposal.argsText floatText
  else if source = "cwd" then cwd
  else proposal.argsText floatText

/-- The one capture rule: the trimmed text between the first occurrence of the text before the
value and the next occurrence of the text after it. -/
def captureParameter (source : String) (before after : Option String) : Option String := do
  let tail ←
    match before with
    | some pattern => (splitOnce pattern.toList source.toList).map Prod.snd
    | none => some source.toList
  let value ←
    match after with
    | some pattern => (splitOnce pattern.toList tail).map Prod.fst
    | none => some tail
  return trim (String.ofList value)

/-- Capture the parameters in their order; a later parameter of the same name wins. -/
def captureParameters (floatText : F64 → String) (proposal : ActionProposal) (cwd : String) :
    List TemplateParameter → Bindings → Except TemplateBindError Bindings
  | [], bindings => .ok bindings
  | parameter :: rest, bindings =>
    let source := sourceText floatText parameter.source proposal cwd
    match captureParameter source parameter.before parameter.after with
    | some value =>
      if !value.isEmpty then
        match validateValue parameter value with
        | .error error => .error error
        | .ok () =>
          captureParameters floatText proposal cwd rest (bindings.insert parameter.name value)
      else if parameter.required then .error (.emptyParameter parameter.name)
      else captureParameters floatText proposal cwd rest bindings
    | none =>
      if parameter.required then .error (.missingParameter parameter.name)
      else captureParameters floatText proposal cwd rest bindings

/-- The loop of `renderString` over the rest of the input.  Each round consumes a placeholder,
so the length of the rest bounds the rounds. -/
def renderRest (input : String) (bindings : Bindings) :
    ℕ → List Char → Except TemplateBindError (List Char)
  | 0, rest => .ok rest
  | fuel + 1, rest =>
    match splitOnce ['$', '\x7b'] rest with
    | none => .ok rest
    | some (literal, opened) =>
      match splitOnce ['\x7d'] opened with
      | none => .error (.malformedCapture input)
      | some (name, closed) =>
        match bindings[String.ofList name]? with
        | none => .error (.unknownPlaceholder (String.ofList name))
        | some value => do
          let tail ← renderRest input bindings fuel closed
          return literal ++ value.toList ++ tail

def renderString (input : String) (bindings : Bindings) : Except TemplateBindError String := do
  let output ← renderRest input bindings input.toList.length input.toList
  return String.ofList output

mutual
/-- Render every text of a value; keys of objects are left alone. -/
def renderValue (bindings : Bindings) : Json → Except TemplateBindError Json
  | .string text => do return .string (← renderString text bindings)
  | .array values => do return .array (← renderValues bindings values)
  | .object members => do return .object (← renderMembers bindings members)
  | .null => .ok .null
  | .bool b => .ok (.bool b)
  | .number n => .ok (.number n)
def renderValues (bindings : Bindings) : List Json → Except TemplateBindError (List Json)
  | [] => .ok []
  | value :: rest => do return (← renderValue bindings value) :: (← renderValues bindings rest)
def renderMembers (bindings : Bindings) :
    List (String × Json) → Except TemplateBindError (List (String × Json))
  | [] => .ok []
  | (key, value) :: rest => do
    return (key, ← renderValue bindings value) :: (← renderMembers bindings rest)
end

def renderSteps (bindings : Bindings) (steps : List WorkflowStep) :
    Except TemplateBindError (List WorkflowStep) :=
  steps.mapM fun step => do
    return { action := step.action, args := ← renderValue bindings step.args }

def renderPredicate (bindings : Bindings) (predicate : Predicate) :
    Except TemplateBindError Predicate := do
  let key ← renderString predicate.key bindings
  let expected ← renderValue bindings predicate.expected
  return { key, expected }

def renderVerification (bindings : Bindings) :
    VerificationStep → Except TemplateBindError VerificationStep
  | .readFile path expectContent => do
    let path ← renderString path bindings
    let expectContent ←
      match expectContent with
      | none => pure none
      | some content => do pure (some (← renderString content bindings))
    return .readFile path expectContent
  | .probe predicate => do return .probe (← renderPredicate bindings predicate)

/-- Capture the parameters and render the template into a concrete experience. -/
def ExperienceTemplate.bind (floatText : F64 → String) (template : ExperienceTemplate)
    (proposal : ActionProposal) (cwd : String) :
    Except TemplateBindError (Experience × Bindings) := do
  let bindings ← captureParameters floatText proposal cwd template.parameters ∅
  let preconditions ← template.preconditions.mapM (renderPredicate bindings)
  let workflow ← renderSteps bindings template.workflow
  let postconditions ← template.postconditions.mapM (renderPredicate bindings)
  let verification ← template.verification.mapM (renderVerification bindings)
  let experience : Experience :=
    { name := template.name
      trigger := template.trigger
      preconditions
      workflow
      postconditions
      verification
      failurePolicy := template.failurePolicy
      undo := template.undo
      status := template.status }
  return (experience, bindings)

end ExperienceCodex
