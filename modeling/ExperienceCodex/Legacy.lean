import ExperienceCodex.StoreJson

/-!
# The legacy store

The embedded subsystem that came before the versioned envelope: experiences by id with their own
lifecycle, and a snapshot of two members, `experiences` and `pinned`.  A single-precision number is
the double of the same value.  Its text is printed by a library; what the model needs of it are the
text itself and the double that this text reads as, both parameters.
-/

namespace ExperienceCodex

open Text

/-- How single-precision numbers are printed: for messages, and in JSON, where the text is given
by the double it reads as. -/
structure SingleText where
  display : F64 → String
  reread : F64 → FiniteF64

namespace F64

/-- The single nearest to a nonnegative rational, with ties to even. -/
def singleOfRat (q : ℚ) : F64 :=
  let place := max (Int.log 2 q - 23) (-149)
  let value := (roundHalfEven (q / 2 ^ place) : ℚ) * 2 ^ place
  if value < 2 ^ 128 then ofRat value else ⟨0x7ff0000000000000⟩

/-- The same with the sign bit set. -/
def negated (x : F64) : F64 := ⟨x.bits ||| 0x8000000000000000⟩

end F64

def readSingle : Json → Except String F64
  | .number (.posInt n) => .ok (.singleOfRat n.toNat)
  | .number (.negInt n) => .ok (F64.singleOfRat (-n.toInt)).negated
  | .number (.float x) =>
    let nearest := F64.singleOfRat x.1.magnitude
    .ok (if x.1.isNegative then nearest.negated else nearest)
  | _ => .error "expected f32"

/-- A number that is not finite is written as `null`. -/
def writeSingle (single : SingleText) (x : F64) : Json :=
  if x.isFinite then .number (.float (single.reread x)) else .null

inductive LegacyKind where
  | reflex
  | process
  | result
  | reference
deriving DecidableEq

inductive LegacyStatus where
  | new
  | candidate
  | validated
  | active
  | decaying
  | disabled
deriving DecidableEq

inductive RiskLevel where
  | low
  | medium
  | high
deriving DecidableEq

inductive InputScope where
  | single
  | batch
  | any
  | unknown
deriving DecidableEq

structure LegacyTrigger where
  object : Option String
  location : Option String
  goal : Option String
  keywords : List String
  context : NameMap Json

structure LegacyStep where
  name : String
  args : Json

/-- A condition over a state element has the shape of a predicate. -/
abbrev LegacyCondition := Predicate

structure Applicability where
  inputScope : InputScope := .unknown
  applicableObjects : List String := []
  parameterized : Bool := false
deriving DecidableEq

structure LegacyExperience where
  id : String
  name : String
  kind : LegacyKind
  trigger : LegacyTrigger
  conditions : List LegacyCondition
  workflow : List LegacyStep
  completionCriteria : Option String
  failureModes : List String
  assets : NameMap String
  applicability : Applicability
  title : Option String
  note : Option String
  createdAt : Option UInt64
  confidence : F64
  risk : RiskLevel
  status : LegacyStatus
  version : UInt32

inductive LegacyValidationError where
  | emptyName
  | emptyTrigger
  | emptyWorkflow
  | emptyStepName (index : ℕ)
  | confidenceOutOfRange (score : F64)
  | invalidVersion (version : UInt32)
deriving DecidableEq

def LegacyValidationError.display (single : SingleText) : LegacyValidationError → String
  | emptyName => "experience name is empty"
  | emptyTrigger => "trigger has no keywords/object/location/goal"
  | emptyWorkflow => "workflow has no executable steps"
  | emptyStepName index => "workflow step " ++ toString index ++ " has an empty name"
  | confidenceOutOfRange score => "confidence " ++ single.display score ++ " is outside [0, 1]"
  | invalidVersion version => "version " ++ toString version ++ " must be >= 1"

/-- The matcher can hit the trigger. -/
def LegacyTrigger.hasSignal (trigger : LegacyTrigger) : Bool :=
  let given (value : Option String) : Bool := (value.map fun text => !text.isEmpty).getD false
  !trigger.keywords.isEmpty || given trigger.object || given trigger.location || given trigger.goal

def LegacyExperience.validate (experience : LegacyExperience) :
    Except LegacyValidationError Unit :=
  if isBlank experience.name then .error .emptyName
  else if !experience.trigger.hasSignal then .error .emptyTrigger
  else if experience.workflow.isEmpty then .error .emptyWorkflow
  else
    match experience.workflow.findIdx? fun step => isBlank step.name with
    | some index => .error (.emptyStepName index)
    | none =>
      if !experience.confidence.inUnitInterval then
        .error (.confidenceOutOfRange experience.confidence)
      else if experience.version = 0 then .error (.invalidVersion experience.version)
      else .ok ()

inductive LifecycleAction where
  | validate
  | activate
  | disable
  | revalidate
deriving DecidableEq

inductive LifecycleError where
  | illegalTransition (start : LegacyStatus) (action : LifecycleAction)
  | notFound
deriving DecidableEq

def LegacyStatus.debugName : LegacyStatus → String
  | new => "New"
  | candidate => "Candidate"
  | validated => "Validated"
  | active => "Active"
  | decaying => "Decaying"
  | disabled => "Disabled"

def LifecycleAction.debugName : LifecycleAction → String
  | validate => "Validate"
  | activate => "Activate"
  | disable => "Disable"
  | revalidate => "Revalidate"

def LifecycleError.display : LifecycleError → String
  | illegalTransition start action =>
    "illegal transition from " ++ start.debugName ++ " via " ++ action.debugName
  | notFound => "experience not found"

def LegacyStatus.transition : LegacyStatus → LifecycleAction → Except LifecycleError LegacyStatus
  | .new, .validate => .ok .validated
  | .candidate, .validate => .ok .validated
  | .validated, .activate => .ok .active
  | .decaying, .activate => .ok .active
  | .decaying, .validate => .ok .validated
  | _, .disable => .ok .disabled
  | .disabled, .revalidate => .ok .validated
  | current, action => .error (.illegalTransition current action)

namespace Codec

def legacyKind : Codec LegacyKind :=
  variant (fun
    | .reflex => "Reflex"
    | .process => "Process"
    | .result => "Result"
    | .reference => "Reference")
    [.reflex, .process, .result, .reference] fun kind => by cases kind <;> decide

def legacyStatus : Codec LegacyStatus :=
  variant LegacyStatus.debugName
    [.new, .candidate, .validated, .active, .decaying, .disabled]
    fun status => by cases status <;> decide

def riskLevel : Codec RiskLevel :=
  variant (fun
    | .low => "Low"
    | .medium => "Medium"
    | .high => "High")
    [.low, .medium, .high] fun risk => by cases risk <;> decide

def inputScope : Codec InputScope :=
  variant (fun
    | .single => "single"
    | .batch => "batch"
    | .any => "any"
    | .unknown => "unknown")
    [.single, .batch, .any, .unknown] fun scope => by cases scope <;> decide

def legacyTrigger : Codec LegacyTrigger where
  encode trigger := .object [
    ("object", optionString.encode trigger.object),
    ("location", optionString.encode trigger.location),
    ("goal", optionString.encode trigger.goal),
    ("keywords", (list string).encode trigger.keywords),
    ("context", (map json).encode trigger.context)]
  decode value := do
    let record ← members value
    let object ← fieldD optionString record "object" none
    let location ← fieldD optionString record "location" none
    let goal ← fieldD optionString record "goal" none
    let keywords ← field (list string) record "keywords"
    let context ← field (map json) record "context"
    return { object, location, goal, keywords, context }
  decode_encode trigger := by simp [members, field, fieldD, List.lookup]

def legacyStep : Codec LegacyStep where
  encode step := .object [("name", .string step.name), ("args", step.args)]
  decode value := do
    let record ← members value
    let name ← field string record "name"
    let args ← field json record "args"
    return { name, args }
  decode_encode step := by simp [members, field, List.lookup]

/-- The steps stand in a record of their own. -/
def legacyWorkflow : Codec (List LegacyStep) where
  encode steps := .object [("steps", (list legacyStep).encode steps)]
  decode value := do
    let record ← members value
    field (list legacyStep) record "steps"
  decode_encode steps := by simp [members, field, List.lookup]

def legacyApplicability : Codec Applicability where
  encode applicability := .object [
    ("input_scope", inputScope.encode applicability.inputScope),
    ("applicable_objects", (list string).encode applicability.applicableObjects),
    ("parameterized", .bool applicability.parameterized)]
  decode value := do
    let record ← members value
    let inputScope ← field inputScope record "input_scope"
    let applicableObjects ← field (list string) record "applicable_objects"
    let parameterized ← field bool record "parameterized"
    return { inputScope, applicableObjects, parameterized }
  decode_encode applicability := by simp [members, field, List.lookup]

end Codec

open Codec in
def LegacyExperience.ofJson (value : Json) : Except String LegacyExperience := do
  let record ← members value
  let id ← field string record "id"
  let name ← field string record "name"
  let kind ← field legacyKind record "kind"
  let trigger ← field legacyTrigger record "trigger"
  let conditions ← field (list predicate) record "conditions"
  let workflow ← field legacyWorkflow record "workflow"
  let completionCriteria ← fieldD optionString record "completion_criteria" none
  let failureModes ← fieldD (list string) record "failure_modes" []
  let assets ← fieldD (map string) record "assets" ∅
  let applicability ← fieldD legacyApplicability record "applicability" {}
  let title ← fieldD optionString record "title" none
  let note ← fieldD optionString record "note" none
  let createdAt ← fieldD optionU64 record "created_at" none
  let confidence ←
    match record.lookup "confidence" with
    | some value => readSingle value
    | none => .error "missing field confidence"
  let risk ← field riskLevel record "risk"
  let status ← field legacyStatus record "status"
  let version ← field u32 record "version"
  return { id, name, kind, trigger, conditions, workflow, completionCriteria, failureModes, assets,
           applicability, title, note, createdAt, confidence, risk, status, version }

open Codec in
/-- Members at their default are left out. -/
def LegacyExperience.toJson (single : SingleText) (experience : LegacyExperience) : Json :=
  .object ([
    ("id", .string experience.id),
    ("name", .string experience.name),
    ("kind", legacyKind.encode experience.kind),
    ("trigger", legacyTrigger.encode experience.trigger),
    ("conditions", (list predicate).encode experience.conditions),
    ("workflow", legacyWorkflow.encode experience.workflow)] ++
    optionalMember "completion_criteria" experience.completionCriteria ++
    (if experience.failureModes.isEmpty then []
      else [("failure_modes", (list string).encode experience.failureModes)]) ++
    (if experience.assets.isEmpty then []
      else [("assets", (map string).encode experience.assets)]) ++
    (if experience.applicability = {} then []
      else [("applicability", legacyApplicability.encode experience.applicability)]) ++
    optionalMember "title" experience.title ++
    optionalMember "note" experience.note ++
    ((experience.createdAt.map fun at_ => ("created_at", u64.encode at_)).toList) ++ [
    ("confidence", writeSingle single experience.confidence),
    ("risk", riskLevel.encode experience.risk),
    ("status", legacyStatus.encode experience.status),
    ("version", u32.encode experience.version)])

/-- Experiences by id, and the pinned ids. -/
structure LegacyStore where
  experiences : NameMap LegacyExperience := ∅
  pinned : List String := []

namespace LegacyStore

def upsert (store : LegacyStore) (experience : LegacyExperience) : LegacyStore :=
  { store with experiences := store.experiences.insert experience.id experience }

def upsertValidated (store : LegacyStore) (experience : LegacyExperience) :
    Except LegacyValidationError LegacyStore :=
  match experience.validate with
  | .error error => .error error
  | .ok () => .ok (store.upsert experience)

def get (store : LegacyStore) (id : String) : Option LegacyExperience := store.experiences[id]?

def remove (store : LegacyStore) (id : String) : LegacyStore :=
  { store with experiences := store.experiences.erase id }

def transition (store : LegacyStore) (id : String) (action : LifecycleAction) :
    Except LifecycleError (LegacyStatus × LegacyStore) :=
  match store.get id with
  | none => .error .notFound
  | some experience =>
    match experience.status.transition action with
    | .error error => .error error
    | .ok next =>
      .ok (next, { store with
        experiences := store.experiences.insert id { experience with status := next } })

/-- Add to the set of pinned ids. -/
def addPinned (pinned : List String) (id : String) : List String :=
  if id ∈ pinned then pinned else pinned ++ [id]

/-- Pinning needs the experience. -/
def pin (store : LegacyStore) (id : String) : Option LegacyStore :=
  if store.experiences.contains id then some { store with pinned := addPinned store.pinned id }
  else none

/-- Unpinning needs the pin. -/
def unpin (store : LegacyStore) (id : String) : Option LegacyStore :=
  if id ∈ store.pinned then some { store with pinned := store.pinned.filter (· ≠ id) } else none

/-- The snapshot has no version. -/
def toJson (single : SingleText) (store : LegacyStore) : Json :=
  .object [
    ("experiences", .array (store.experiences.toList.map fun entry => entry.2.toJson single)),
    ("pinned", (Codec.list Codec.string).encode store.pinned)]

def ofJson (value : Json) : Except String LegacyStore := do
  let record ← Codec.members value
  let experiences ←
    match record.lookup "experiences" with
    | some (.array values) => values.mapM LegacyExperience.ofJson
    | some _ => .error "expected a sequence"
    | none => .error "missing field experiences"
  let pinned ← Codec.field (Codec.list Codec.string) record "pinned"
  return { experiences.foldl upsert {} with pinned := pinned.foldl addPinned [] }

end LegacyStore

end ExperienceCodex
