import ExperienceCodex.Catalog
import ExperienceCodex.Policy
import ExperienceCodex.Template

/-!
# The experience store

The store keeps experiences and templates in insertion order, each with a position index by name
and an index of the active names by trigger tool, and metadata that is addressed by bare name.
An operation takes the store to a result and a store: the second component is the state that the
operation leaves behind, also when it fails.
-/

namespace ExperienceCodex

open Text

structure ReferenceEntry where
  id : String
  title : String
  scope : Option String
  tags : List String
  body : String
  steps : List String
  toolsUsed : List String
  pluginsUsed : List String
  sourceAgent : Option String
  declared : Bool
  trustLevel : String
  evidenceSummary : Option String
  createdAt : UInt64
deriving DecidableEq

/-- Where an automatically learned experience came from. -/
structure CandidateOrigin where
  taskSignature : String
  sessionId : Option String
  distiller : String
  recordedAt : UInt64
deriving DecidableEq

inductive StoreError where
  | io (error : String)
  | invalidSchemaVersion (found current : UInt32)
  | schemaInvalid (name : String) (issues : List SchemaIssue)
  | duplicateName (name : String)
  | notFound (name : String)
  | transition (message : String)
  | serialization (error : String)
deriving DecidableEq

/-- The text that the `Debug` format prints. -/
def SchemaIssue.debugName : SchemaIssue → String
  | emptyName => "EmptyName"
  | emptyTriggerTool => "EmptyTriggerTool"
  | emptyWorkflow => "EmptyWorkflow"
  | emptyStepAction index => "EmptyStepAction(" ++ toString index ++ ")"
  | emptyPostconditions => "EmptyPostconditions"

def StoreError.display : StoreError → String
  | io error => "io error: " ++ error
  | invalidSchemaVersion found current =>
    "unsupported store schema version " ++ toString found ++ " (current: " ++
      toString current ++ ")"
  | schemaInvalid name issues =>
    "experience '" ++ name ++ "' failed schema validation: [" ++
      String.intercalate ", " (issues.map SchemaIssue.debugName) ++ "]"
  | duplicateName name => "experience '" ++ name ++ "' already exists"
  | notFound name => "experience '" ++ name ++ "' not found"
  | transition message => "illegal transition: " ++ message
  | serialization error => "serialization error: " ++ error

/-- A map with text keys. -/
abbrev NameMap (V : Type) := Std.ExtTreeMap String V

/-- Set or clear the entry of a name. -/
def NameMap.put {V : Type} (entries : NameMap V) (name : String) : Option V → NameMap V
  | some value => entries.insert name value
  | none => entries.erase name

/-- The tool under which an experience is indexed for matching. -/
def Experience.activeTool (experience : Experience) : Option String :=
  if experience.status = .active then some experience.trigger.tool else none

def ExperienceTemplate.activeTool (template : ExperienceTemplate) : Option String :=
  if template.status = .active then some template.trigger.tool else none

structure ExperienceStore where
  path : Option String := none
  experiences : Catalog Experience String String := .empty
  templates : Catalog ExperienceTemplate String String := .empty
  pinned : List String := []
  scopes : NameMap String := ∅
  displayNames : NameMap String := ∅
  userUsage : NameMap String := ∅
  userConfidence : NameMap FiniteF64 := ∅
  references : NameMap ReferenceEntry := ∅
  scopePolicies : NameMap CapabilityPolicy := ∅
  candidateOrigins : NameMap CandidateOrigin := ∅

namespace ExperienceStore

def all (store : ExperienceStore) : List Experience := store.experiences.items

def get (store : ExperienceStore) (name : String) : Option Experience :=
  store.experiences.lookup name

def template (store : ExperienceStore) (name : String) : Option ExperienceTemplate :=
  store.templates.lookup name

/-- Whether a name addresses an experience or a template. -/
def contains (store : ExperienceStore) (name : String) : Bool :=
  store.experiences.byKey.contains name || store.templates.byKey.contains name

/-- The active experiences whose trigger matches a proposal, through the tool index. -/
def candidatesFor (floatText : F64 → String) (store : ExperienceStore)
    (proposal : ActionProposal) : List Experience :=
  store.experiences.select proposal.tool fun experience =>
    experience.trigger.matches floatText proposal

def templatesFor (floatText : F64 → String) (store : ExperienceStore)
    (proposal : ActionProposal) : List ExperienceTemplate :=
  store.templates.select proposal.tool fun template => template.trigger.matches floatText proposal

def isPinned (store : ExperienceStore) (name : String) : Bool :=
  store.pinned.any fun pinned => pinned == name

/-- An artifact without a scene is visible in every scene. -/
def isInScope (store : ExperienceStore) (name : String) (scope : Option String) : Bool :=
  match scope with
  | none => true
  | some scope => (store.scopes[name]?.map fun assigned => assigned == scope).getD true

def isUsageAllowed (store : ExperienceStore) (name : String) : Bool :=
  (store.userUsage[name]?.map fun usage => usage != "deny").getD true

def globalPolicy (store : ExperienceStore) : CapabilityPolicy :=
  store.scopePolicies[globalScopeKey]?.getD {}

def policyForScope (store : ExperienceStore) (scope : Option String) : CapabilityPolicy :=
  match scope with
  | some scope => store.scopePolicies[scope]?.getD store.globalPolicy
  | none => store.globalPolicy

/-- Rebuild the four indexes. -/
def reindex (store : ExperienceStore) : ExperienceStore :=
  { store with
    experiences := .ofItems Experience.name Experience.activeTool store.experiences.items
    templates :=
      .ofItems ExperienceTemplate.name ExperienceTemplate.activeTool store.templates.items }

def setExperiences (store : ExperienceStore) (items : List Experience) : ExperienceStore :=
  { store with experiences := { store.experiences with items } }

def setTemplates (store : ExperienceStore) (items : List ExperienceTemplate) : ExperienceStore :=
  { store with templates := { store.templates with items } }

variable (store : ExperienceStore)

@[simp] theorem setExperiences_items (items : List Experience) :
    (store.setExperiences items).experiences.items = items := rfl

@[simp] theorem setTemplates_items (items : List ExperienceTemplate) :
    (store.setTemplates items).templates.items = items := rfl

/-- Drop everything that is recorded under a name. -/
def clearMetadata (store : ExperienceStore) (name : String) : ExperienceStore :=
  { store with
    pinned := store.pinned.filter fun pinned => pinned ≠ name
    scopes := store.scopes.erase name
    displayNames := store.displayNames.erase name
    userUsage := store.userUsage.erase name
    userConfidence := store.userConfidence.erase name
    candidateOrigins := store.candidateOrigins.erase name }

def insert (store : ExperienceStore) (experience : Experience) :
    Except StoreError Unit × ExperienceStore :=
  let issues := experience.schemaIssues
  if !issues.isEmpty then (.error (.schemaInvalid experience.name issues), store)
  else if store.experiences.byKey.contains experience.name then
    (.error (.duplicateName experience.name), store)
  else
    (.ok (), { store with
      experiences :=
        store.experiences.push Experience.name Experience.activeTool experience })

def insertTemplate (store : ExperienceStore) (template : ExperienceTemplate) :
    Except StoreError Unit × ExperienceStore :=
  let issues := template.schemaIssues
  if !issues.isEmpty then (.error (.schemaInvalid template.name issues), store)
  else if store.templates.byKey.contains template.name then
    (.error (.duplicateName template.name), store)
  else
    (.ok (), { store with
      templates :=
        store.templates.push ExperienceTemplate.name ExperienceTemplate.activeTool template })

/-- The indexed position of a name and the item at it. -/
def positioned {α : Type} (c : Catalog α String String) (name : String) : Option (ℕ × α) :=
  c.byKey[name]?.bind fun position => c.items[position]?.map fun item => (position, item)

def transitionStatus (store : ExperienceStore) (name : String) (action : QualificationAction) :
    Except StoreError ExperienceStatus × ExperienceStore :=
  match positioned store.experiences name with
  | none => (.error (.notFound name), store)
  | some (position, experience) =>
    match experience.status.transition action with
    | .error message => (.error (.transition message), store)
    | .ok next =>
      (.ok next, (store.setExperiences
        (store.experiences.items.set position { experience with status := next })).reindex)

/-- The body is replaced; the name and the lifecycle status are kept. -/
def replaceExisting (store : ExperienceStore) (name : String) (replacement : Experience) :
    Except StoreError Unit × ExperienceStore :=
  match positioned store.experiences name with
  | none => (.error (.notFound name), store)
  | some (position, experience) =>
    let issues := replacement.schemaIssues
    if !issues.isEmpty then (.error (.schemaInvalid name issues), store)
    else
      (.ok (), (store.setExperiences (store.experiences.items.set position
        { replacement with name, status := experience.status })).reindex)

def transitionTemplateStatus (store : ExperienceStore) (name : String)
    (action : QualificationAction) : Except StoreError ExperienceStatus × ExperienceStore :=
  match positioned store.templates name with
  | none => (.error (.notFound name), store)
  | some (position, template) =>
    match template.status.transition action with
    | .error message => (.error (.transition message), store)
    | .ok next =>
      (.ok next, (store.setTemplates
        (store.templates.items.set position { template with status := next })).reindex)

def removeTemplate (store : ExperienceStore) (name : String) :
    Except StoreError Unit × ExperienceStore :=
  match store.templates.byKey[name]? with
  | none => (.error (.notFound name), store)
  | some position =>
    let store := store.clearMetadata name
    (.ok (), (store.setTemplates (store.templates.items.eraseIdx position)).reindex)

def remove (store : ExperienceStore) (name : String) :
    Except StoreError Unit × ExperienceStore :=
  match store.experiences.byKey[name]? with
  | none => (.error (.notFound name), store)
  | some position =>
    let store := store.clearMetadata name
    (.ok (), (store.setExperiences (store.experiences.items.eraseIdx position)).reindex)

/-- Run a change that needs the name to address an artifact. -/
def whenContained (store : ExperienceStore) (name : String) (changed : ExperienceStore) :
    Except StoreError Unit × ExperienceStore :=
  if !store.contains name then (.error (.notFound name), store) else (.ok (), changed)

def pin (store : ExperienceStore) (name : String) : Except StoreError Unit × ExperienceStore :=
  store.whenContained name
    (if store.isPinned name then store else { store with pinned := store.pinned ++ [name] })

def unpin (store : ExperienceStore) (name : String) : Except StoreError Unit × ExperienceStore :=
  (.ok (), { store with pinned := store.pinned.filter fun pinned => pinned ≠ name })

def setScope (store : ExperienceStore) (name : String) (scope : Option String) :
    Except StoreError Unit × ExperienceStore :=
  store.whenContained name { store with scopes := store.scopes.put name scope }

def setDisplayName (store : ExperienceStore) (name : String) (displayName : Option String) :
    Except StoreError Unit × ExperienceStore :=
  store.whenContained name { store with displayNames := store.displayNames.put name displayName }

/-- Usage decisions exist for experiences only. -/
def setUserUsage (store : ExperienceStore) (name : String) (usage : Option String) :
    Except StoreError Unit × ExperienceStore :=
  if !store.experiences.byKey.contains name then (.error (.notFound name), store)
  else
    match usage with
    | some value =>
      if value = "auto" ∨ value = "allow" ∨ value = "deny" then
        (.ok (), { store with userUsage := store.userUsage.insert name value })
      else
        (.error (.transition ("invalid user usage '" ++ value ++ "' (auto|allow|deny)")), store)
    | none => (.ok (), { store with userUsage := store.userUsage.erase name })

def setUserConfidence (store : ExperienceStore) (name : String) (value : Option F64) :
    Except StoreError Unit × ExperienceStore :=
  if !store.contains name then (.error (.notFound name), store)
  else
    match value with
    | some value =>
      if h : value.inUnitInterval = true then
        (.ok (), { store with
          userConfidence := store.userConfidence.insert name (value.confidence h) })
      else (.error (.transition "user confidence must be within 0.0..=1.0"), store)
    | none => (.ok (), { store with userConfidence := store.userConfidence.erase name })

/-- Provenance may be attached to any name. -/
def setCandidateOrigin (store : ExperienceStore) (name : String) (origin : CandidateOrigin) :
    ExperienceStore :=
  { store with candidateOrigins := store.candidateOrigins.insert name origin }

def setScopePolicy (store : ExperienceStore) (scope : String)
    (policy : Option CapabilityPolicy) : Except StoreError Unit × ExperienceStore :=
  if isBlank scope then (.error (.serialization "empty policy scope"), store)
  else (.ok (), { store with scopePolicies := store.scopePolicies.put scope policy })

def insertReference (store : ExperienceStore) (entry : ReferenceEntry) :
    Except StoreError Unit × ExperienceStore :=
  if isBlank entry.id || isBlank entry.title then
    (.error (.schemaInvalid entry.id [.emptyName]), store)
  else if store.references.contains entry.id then (.error (.duplicateName entry.id), store)
  else (.ok (), { store with references := store.references.insert entry.id entry })

def removeReference (store : ExperienceStore) (id : String) :
    Except StoreError Unit × ExperienceStore :=
  if store.references.contains id then
    (.ok (), { store with references := store.references.erase id })
  else (.error (.notFound id), store)

end ExperienceStore

def currentSchemaVersion : UInt32 := 1

/-- The versioned envelope. -/
structure StoreFile where
  schemaVersion : UInt32
  experiences : List Experience
  templates : List ExperienceTemplate
  pinned : List String
  scopes : NameMap String
  displayNames : NameMap String
  userUsage : NameMap String
  userConfidence : NameMap FiniteF64
  references : NameMap ReferenceEntry
  scopePolicies : NameMap CapabilityPolicy
  candidateOrigins : NameMap CandidateOrigin

namespace ExperienceStore

def insertAll (store : ExperienceStore) : List Experience → Except StoreError ExperienceStore
  | [] => .ok store
  | experience :: rest =>
    match store.insert experience with
    | (.error error, _) => .error error
    | (.ok (), store) => insertAll store rest

def insertAllTemplates (store : ExperienceStore) :
    List ExperienceTemplate → Except StoreError ExperienceStore
  | [] => .ok store
  | template :: rest =>
    match store.insertTemplate template with
    | (.error error, _) => .error error
    | (.ok (), store) => insertAllTemplates store rest

/-- Load an envelope: every artifact is validated and indexed again. -/
def fromFile (file : StoreFile) : Except StoreError ExperienceStore := do
  if file.schemaVersion ≠ currentSchemaVersion then
    throw (.invalidSchemaVersion file.schemaVersion currentSchemaVersion)
  let store : ExperienceStore :=
    { pinned := file.pinned
      scopes := file.scopes
      displayNames := file.displayNames
      userUsage := file.userUsage
      userConfidence := file.userConfidence
      references := file.references
      scopePolicies := file.scopePolicies
      candidateOrigins := file.candidateOrigins }
  let store ← store.insertAll file.experiences
  store.insertAllTemplates file.templates

/-- The envelope that a save writes. -/
def toFile (store : ExperienceStore) : StoreFile where
  schemaVersion := currentSchemaVersion
  experiences := store.experiences.items
  templates := store.templates.items
  pinned := store.pinned
  scopes := store.scopes
  displayNames := store.displayNames
  userUsage := store.userUsage
  userConfidence := store.userConfidence
  references := store.references
  scopePolicies := store.scopePolicies
  candidateOrigins := store.candidateOrigins

end ExperienceStore

end ExperienceCodex
