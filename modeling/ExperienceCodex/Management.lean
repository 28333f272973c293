import ExperienceCodex.Legacy
import ExperienceCodex.StoreRuns

/-!
# The management service

One file, two formats.  The service looks at the format when it is opened and decides then which
backend serves all its calls: the canonical one when the file carries a `schema_version` and loads,
the legacy one otherwise.  Every call reloads the file first and writes it back as a whole.

A write may fail, and then the file stays as it is.  The usage statistics and the audit trail live
in files of their own and are left out, as is the trash file of the legacy backend.
-/

namespace ExperienceCodex

open Text ExperienceStore

inductive StoreFormat where
  | missing
  | canonical
  | legacy
  | unknown
deriving DecidableEq

def detectFormat : FileContent → StoreFormat
  | .missing => .missing
  | .unreadable _ => .unknown
  | .notJson _ => .unknown
  | .document value =>
    if (value.get "schema_version").isSome then .canonical
    else if (value.get "experiences").isSome || (value.get "pinned").isSome then .legacy
    else .unknown

/-- What cannot be loaded counts as an empty store. -/
def loadLegacy : FileContent → LegacyStore
  | .document value =>
    match LegacyStore.ofJson value with
    | .ok store => store
    | .error _ => {}
  | _ => {}

structure Service where
  path : String
  canonical : Option ExperienceStore
  store : LegacyStore
  format : StoreFormat

namespace Service

/-- `ExperienceManagementService::open`. -/
def opened (path : String) (file : FileContent) : Service :=
  let format := detectFormat file
  let canonical :=
    if format = .canonical then (openFile path file).toOption else none
  { path
    canonical
    store := if canonical.isSome then {} else loadLegacy file
    format }

/-- A canonical backend that cannot load the file keeps the store it has. -/
def reload (service : Service) (file : FileContent) : Service :=
  match service.canonical with
  | some _ =>
    match openFile service.path file with
    | .ok store => { service with canonical := some store }
    | .error _ => service
  | none => { service with store := loadLegacy file }

end Service

/-- What a call returns. -/
inductive ManageAnswer where
  | done
  | id (id : String)
  | status (status : LegacyStatus)
deriving DecidableEq

section
variable (store : ExperienceStore)

/-- The answer to one store operation. -/
def answered (describe : StoreError → String) (answer : ManageAnswer) :
    Except StoreError Unit × ExperienceStore → Except String ManageAnswer × ExperienceStore
  | (.ok (), store) => (.ok answer, store)
  | (.error error, store) => (.error (describe error), store)

def canonicalPin (id : String) : Except String ManageAnswer × ExperienceStore :=
  answered (fun error => "experience not found: " ++ id ++ " (" ++ error.display ++ ")") .done
    (store.pin id)

def canonicalUnpin (id : String) : Except String ManageAnswer × ExperienceStore :=
  if !store.isPinned id then (.error ("experience not pinned: " ++ id), store)
  else answered StoreError.display .done (store.unpin id)

def currentCanonicalStatus (id : String) : Except String ExperienceStatus :=
  match store.get id with
  | some experience => .ok experience.status
  | none =>
    match store.template id with
    | some template => .ok template.status
    | none => .error ("experience not found: " ++ id)

def transitionAny (id : String) (action : QualificationAction) :
    Except StoreError ExperienceStatus × ExperienceStore :=
  if (store.get id).isSome then store.transitionStatus id action
  else store.transitionTemplateStatus id action

/-- Several changes of status; the first that fails ends them. -/
def transitionAll (id : String) (next : ExperienceStatus) :
    List QualificationAction → ExperienceStore → Except String ExperienceStatus × ExperienceStore
  | [], store => (.ok next, store)
  | action :: rest, store =>
    match transitionAny store id action with
    | (.error error, store) => (.error error.display, store)
    | (.ok next, store) => transitionAll id next rest store

def legacyStatus : ExperienceStatus → LegacyStatus
  | .draft => .new
  | .candidate => .candidate
  | .validated => .validated
  | .active => .active
  | .decaying => .decaying
  | .disabled => .disabled

/-- The changes of status that a lifecycle action stands for. -/
def canonicalSteps (id : String) (current : ExperienceStatus) :
    LifecycleAction → Except String (List QualificationAction)
  | .validate => .ok [.validate]
  | .activate =>
    match current with
    | .candidate => .ok [.validate, .activate]
    | .validated => .ok [.activate]
    | .draft =>
      .error ("activate requires a validated candidate; '" ++ id ++ "' is still a draft")
    | .active => .ok []
    | _ => .ok [.activate]
  | .revalidate => .ok [.revalidate]
  | .disable => .ok [.disable]

def canonicalTransition (id : String) (action : LifecycleAction) :
    Except String ManageAnswer × ExperienceStore :=
  match currentCanonicalStatus store id with
  | .error error => (.error error, store)
  | .ok current =>
    match canonicalSteps id current action with
    | .error error => (.error error, store)
    | .ok steps =>
      match transitionAll id current steps store with
      | (.error error, store) => (.error error, store)
      | (.ok next, store) => (.ok (.status (legacyStatus next)), store)

def canonicalDelete (id : String) : Except String ManageAnswer × ExperienceStore :=
  answered StoreError.display .done
    (if (store.get id).isSome then store.remove id else store.removeTemplate id)

/-- A new artifact arrives as a candidate; an overwritten one keeps its status. -/
def canonicalImport (body : Except String Json) (overwrite : Bool) :
    Except String ManageAnswer × ExperienceStore :=
  match body.bind Codec.experience.decode with
  | .error error => (.error error, store)
  | .ok experience =>
    let name := experience.name
    if !overwrite && (store.get name).isSome then
      (.error ("experience " ++ name ++ " already exists; pass overwrite=true to replace"), store)
    else
      answered StoreError.display (.id name)
        (if (store.get name).isSome then store.replaceExisting name experience
          else store.insert { experience with status := .candidate })

/-- A blank text clears a field. -/
def unlessBlank (text : String) : Option String := if isBlank text then none else some text

/-- The new title, if one is given. -/
def canonicalRetitle (id : String) (title : Option String) :
    Except StoreError Unit × ExperienceStore :=
  match title with
  | some title => store.setDisplayName id (unlessBlank title)
  | none => (.ok (), store)

def canonicalUpdateMeta (id : String) (title : Option String) (confidence : Option F64) :
    Except String ManageAnswer × ExperienceStore :=
  if (confidence.map fun value => !value.inUnitInterval).getD false then
    (.error "confidence must be within [0, 1]", store)
  else
    match canonicalRetitle store id title with
    | (.error error, store) => (.error error.display, store)
    | (.ok (), store) =>
      match confidence with
      | some value => answered StoreError.display .done (store.setUserConfidence id (some value))
      | none => (.ok .done, store)

def canonicalUpdateControl (id : String) (applicability : Option Json)
    (conditions : Option (List Json)) : Except String ManageAnswer × ExperienceStore :=
  let scope := (applicability.bind (Json.get · "scope")).bind Json.asStr
  if conditions.isSome then
    (.error "conditions are legacy-only; a canonical experience carries its own preconditions",
      store)
  else if applicability.isSome && scope.isNone then
    (.error "canonical applicability accepts \x7b\"scope\": \"...\"\x7d only", store)
  else answered StoreError.display .done (store.setScope id scope)

end

section
variable (single : SingleText) (store : LegacyStore)

def legacyFind (id : String) : Except String LegacyExperience :=
  match store.get id with
  | some experience => .ok experience
  | none => .error ("experience not found: " ++ id)

/-- Validate and store, then answer. -/
def legacyUpsert (experience : LegacyExperience) (answer : ManageAnswer) :
    Except String (ManageAnswer × LegacyStore) :=
  match store.upsertValidated experience with
  | .error error => .error (error.display single)
  | .ok store => .ok (answer, store)

def legacyTransition (id : String) (action : LifecycleAction) :
    Except String (LegacyStatus × LegacyStore) :=
  match store.transition id action with
  | .error error => .error error.display
  | .ok changed => .ok changed

def legacyPin (id : String) : Except String (ManageAnswer × LegacyStore) :=
  match store.pin id with
  | some store => .ok (.done, store)
  | none => .error ("experience not found: " ++ id)

def legacyUnpin (id : String) : Except String (ManageAnswer × LegacyStore) :=
  match store.unpin id with
  | some store => .ok (.done, store)
  | none => .error ("experience not pinned: " ++ id)

/-- The experience goes to the trash file first. -/
def legacyDelete (id : String) (trash : Except String Unit) :
    Except String (ManageAnswer × LegacyStore) := do
  let experience ← legacyFind store id
  trash
  return (.done, store.remove experience.id)

def legacyImport (body : Except String Json) (overwrite : Bool) :
    Except String (ManageAnswer × LegacyStore) := do
  let value ← body
  let experience ← LegacyExperience.ofJson value
  if !overwrite && (store.get experience.id).isSome then
    throw ("experience " ++ experience.id ++ " already exists; pass overwrite=true to replace")
  legacyUpsert single store experience (.id experience.id)

/-- `u32::saturating_add(1)`. -/
def nextVersion (version : UInt32) : UInt32 :=
  if version = 0xffffffff then version else version + 1

def legacyEditAsDraft (id : String) (now : UInt64) :
    Except String (ManageAnswer × LegacyStore) := do
  let experience ← legacyFind store id
  let draftId := "edit-" ++ experience.id ++ "-" ++ toString now
  legacyUpsert single store
    { experience with
      id := draftId, version := nextVersion experience.version, status := .candidate }
    (.id draftId)

def legacyAdoptDraft (draftId replaceId : String) :
    Except String (ManageAnswer × LegacyStore) := do
  let (_, store) ← legacyTransition store draftId .validate
  let (_, store) ← legacyTransition store draftId .activate
  let store ←
    if replaceId ≠ draftId then do
      let (_, store) ← legacyTransition store replaceId .disable
      pure store
    else pure store
  let status := ((store.get draftId).map LegacyExperience.status).getD .candidate
  return (.status status, store)

def legacyUpdateMeta (id : String) (title note : Option String) (confidence : Option F64) :
    Except String (ManageAnswer × LegacyStore) := do
  let experience ← legacyFind store id
  if (confidence.map fun value => !value.inUnitInterval).getD false then
    throw "confidence must be within [0, 1]"
  legacyUpsert single store
    { experience with
      title := (title.map unlessBlank).getD experience.title
      note := (note.map unlessBlank).getD experience.note
      confidence := confidence.getD experience.confidence
      version := nextVersion experience.version }
    .done

def legacyUpdateControl (id : String) (applicability : Option Json)
    (conditions : Option (List Json)) : Except String (ManageAnswer × LegacyStore) := do
  let experience ← legacyFind store id
  let applicability ←
    match applicability with
    | some value => Codec.legacyApplicability.decode value
    | none => pure experience.applicability
  let conditions ←
    match conditions with
    | some values => values.mapM Codec.predicate.decode
    | none => pure experience.conditions
  legacyUpsert single store
    { experience with applicability, conditions, version := nextVersion experience.version } .done

end

inductive ManageOp where
  | view
  | pin (id : String)
  | unpin (id : String)
  | activate (id : String)
  | revalidate (id : String)
  | disable (id : String)
  | delete (id : String) (trash : Except String Unit)
  | importJson (body : Except String Json) (overwrite : Bool)
  | editAsDraft (id : String) (now : UInt64)
  | adoptDraft (draftId replaceId : String)
  | updateMeta (id : String) (title note : Option String) (confidence : Option F64)
  | updateControl (id : String) (applicability : Option Json) (conditions : Option (List Json))

namespace ManageOp

/-- The artifacts that an operation names. -/
def targets : ManageOp → List String
  | view => []
  | pin id | unpin id | activate id | revalidate id | disable id | delete id _ => [id]
  | importJson body _ => ((body.toOption.bind (Json.get · "name")).bind Json.asStr).toList
  | editAsDraft id _ => [id]
  | adoptDraft draftId replaceId => [draftId, replaceId]
  | updateMeta id _ _ _ => [id]
  | updateControl id _ _ => [id]

/-- The call on the canonical backend; `none` when it does not write. -/
def onCanonical (store : ExperienceStore) :
    ManageOp → Option (Except String ManageAnswer × ExperienceStore)
  | view => none
  | pin id => some (canonicalPin store id)
  | unpin id => some (canonicalUnpin store id)
  | activate id => some (canonicalTransition store id .activate)
  | revalidate id => some (canonicalTransition store id .revalidate)
  | disable id => some (canonicalTransition store id .disable)
  | delete id _ => some (canonicalDelete store id)
  | importJson body overwrite => some (canonicalImport store body overwrite)
  | editAsDraft id _ => some (.error
      ("edit_as_draft is a legacy-store operation; on a canonical store, " ++
        "import an edited copy as a Candidate instead (" ++ id ++ ")"), store)
  | adoptDraft draftId replaceId => some (.error
      ("adopt_draft is a legacy-store operation; on a canonical store, " ++
        "activate the imported Candidate instead (" ++ draftId ++ " -> " ++ replaceId ++ ")"),
      store)
  | updateMeta id title _ confidence => some (canonicalUpdateMeta store id title confidence)
  | updateControl id applicability conditions =>
    some (canonicalUpdateControl store id applicability conditions)

/-- The call on the legacy backend; `none` when it does not write. -/
def onLegacy (single : SingleText) (store : LegacyStore) :
    ManageOp → Option (Except String (ManageAnswer × LegacyStore))
  | view => none
  | pin id => some (legacyPin store id)
  | unpin id => some (legacyUnpin store id)
  | activate id => some (transitioned (legacyTransition store id .activate))
  | revalidate id => some (transitioned (legacyTransition store id .revalidate))
  | disable id => some (transitioned (legacyTransition store id .disable))
  | delete id trash => some (legacyDelete store id trash)
  | importJson body overwrite => some (legacyImport single store body overwrite)
  | editAsDraft id now => some (legacyEditAsDraft single store id now)
  | adoptDraft draftId replaceId => some (legacyAdoptDraft store draftId replaceId)
  | updateMeta id title note confidence =>
    some (legacyUpdateMeta single store id title note confidence)
  | updateControl id applicability conditions =>
    some (legacyUpdateControl single store id applicability conditions)
where
  transitioned (outcome : Except String (LegacyStatus × LegacyStore)) :
      Except String (ManageAnswer × LegacyStore) :=
    outcome.map fun (status, store) => (.status status, store)

end ManageOp

/-- The service and the file it manages. -/
structure Managed where
  service : Service
  file : FileContent

/-- One call: reload, serve, and write back after a success.  `saved` says whether the write
succeeds. -/
def Managed.call (single : SingleText) (managed : Managed) (op : ManageOp) (saved : Bool) :
    Except String ManageAnswer × Managed :=
  let service := managed.service.reload managed.file
  match service.canonical with
  | some store =>
    match op.onCanonical store with
    | none => (.ok .done, { managed with service })
    | some (.error error, store) =>
      (.error error, { managed with service := { service with canonical := some store } })
    | some (.ok answer, store) =>
      (.ok answer,
        { service := { service with canonical := some store }
          file := if saved then .document store.savedJson else managed.file })
  | none =>
    match op.onLegacy single service.store with
    | none => (.ok .done, { managed with service })
    | some (.error error) => (.error error, { managed with service })
    | some (.ok (answer, store)) =>
      (.ok answer,
        { service := { service with store }
          file := if saved then .document (store.toJson single) else managed.file })

/-- What happens to a managed file: a call, a change from outside, or a new service on it. -/
inductive ManageEvent where
  | call (op : ManageOp) (saved : Bool)
  | changed (content : FileContent)
  | reopened

def ManageEvent.next (single : SingleText) (managed : Managed) : ManageEvent → Managed
  | call op saved => (managed.call single op saved).2
  | changed content => { managed with file := content }
  | reopened => { managed with service := .opened managed.service.path managed.file }

/-- The service is opened on a file, and then the events happen. -/
def ManageEvent.run (single : SingleText) (path : String) (file : FileContent)
    (events : List ManageEvent) : Managed :=
  Runs.run (ManageEvent.next single) { service := .opened path file, file } events

end ExperienceCodex
