import ExperienceCodex.Codec
import ExperienceCodex.Store

/-!
# The store envelope as JSON

The codecs of the envelope and of everything in it, field by field as the derived serializers
write and read them: which members are required, which have a default, and which are left out
when they are absent.  A JSON document is taken as its value.
-/

namespace ExperienceCodex

namespace Codec

def optionString : Codec (Option String) := option string fun _ => nofun

@[simp] theorem decode_optionString (s : String) :
    optionString.decode (.string s) = .ok (some s) := rfl

def optionU64 : Codec (Option UInt64) := option u64 fun _ => nofun

/-- A member that is left out when it is absent. -/
def optionalMember (name : String) : Option String → List (String × Json)
  | none => []
  | some value => [(name, .string value)]

def actionPattern : Codec ActionPattern where
  encode pattern := .object [
    ("tool", .string pattern.tool),
    ("command_pattern", optionString.encode pattern.commandPattern)]
  decode value := do
    let record ← members value
    let tool ← field string record "tool"
    let commandPattern ← fieldD optionString record "command_pattern" none
    return { tool, commandPattern }
  decode_encode pattern := by
    simp [members, field, fieldD, List.lookup]

def predicate : Codec Predicate where
  encode predicate := .object [("key", .string predicate.key), ("expected", predicate.expected)]
  decode value := do
    let record ← members value
    let key ← field string record "key"
    let expected ← field json record "expected"
    return { key, expected }
  decode_encode predicate := by
    simp [members, field, List.lookup]

def workflowStep : Codec WorkflowStep where
  encode step := .object [("action", .string step.action), ("args", step.args)]
  decode value := do
    let record ← members value
    let action ← field string record "action"
    let args ← field json record "args"
    return { action, args }
  decode_encode step := by
    simp [members, field, List.lookup]

/-- The variant is named by the member `kind`. -/
def verificationStep : Codec VerificationStep where
  encode
    | .readFile path expectContent => .object ([
        ("kind", .string "read_file"), ("path", .string path)] ++
        optionalMember "expect_content" expectContent)
    | .probe condition => .object [
        ("kind", .string "probe"), ("predicate", predicate.encode condition)]
  decode value := do
    let record ← members value
    let kind ← field string record "kind"
    if kind = "read_file" then
      let path ← field string record "path"
      let expectContent ← fieldD optionString record "expect_content" none
      return .readFile path expectContent
    else if kind = "probe" then
      let condition ← field predicate record "predicate"
      return .probe condition
    else throw "unknown variant"
  decode_encode
    | .readFile path expectContent => by
      cases expectContent with
      | none => simp [members, field, fieldD, List.lookup, optionalMember]
      | some content =>
        simp [members, field, fieldD, List.lookup, optionalMember]
    | .probe condition => by
      simp [members, field, List.lookup]

def failurePolicy : Codec FailurePolicy :=
  variant (fun _ => "stop_and_report") [.stopAndReport] fun _ => rfl

def undoPolicy : Codec UndoPolicy :=
  variant (fun _ => "unsupported") [.unsupported] fun _ => rfl

def experienceStatus : Codec ExperienceStatus :=
  variant (fun
    | .draft => "draft"
    | .candidate => "candidate"
    | .validated => "validated"
    | .active => "active"
    | .decaying => "decaying"
    | .disabled => "disabled")
    [.draft, .candidate, .validated, .active, .decaying, .disabled]
    fun status => by cases status <;> decide

def experience : Codec Experience where
  encode experience := .object [
    ("name", .string experience.name),
    ("trigger", actionPattern.encode experience.trigger),
    ("preconditions", (list predicate).encode experience.preconditions),
    ("workflow", (list workflowStep).encode experience.workflow),
    ("postconditions", (list predicate).encode experience.postconditions),
    ("verification", (list verificationStep).encode experience.verification),
    ("failure_policy", failurePolicy.encode experience.failurePolicy),
    ("undo", undoPolicy.encode experience.undo),
    ("status", experienceStatus.encode experience.status)]
  decode value := do
    let record ← members value
    let name ← field string record "name"
    let trigger ← field actionPattern record "trigger"
    let preconditions ← field (list predicate) record "preconditions"
    let workflow ← field (list workflowStep) record "workflow"
    let postconditions ← field (list predicate) record "postconditions"
    let verification ← field (list verificationStep) record "verification"
    let failurePolicy ← field failurePolicy record "failure_policy"
    let undo ← field undoPolicy record "undo"
    let status ← field experienceStatus record "status"
    return { name, trigger, preconditions, workflow, postconditions, verification,
             failurePolicy, undo, status }
  decode_encode experience := by simp [members, field, List.lookup]

def templateParameter : Codec TemplateParameter where
  encode parameter := .object ([
    ("name", .string parameter.name),
    ("source", .string parameter.source),
    ("kind", .string parameter.kind)] ++
    optionalMember "prefix" parameter.before ++
    optionalMember "suffix" parameter.after ++ [
    ("required", .bool parameter.required)])
  decode value := do
    let record ← members value
    let name ← field string record "name"
    let source ← field string record "source"
    let kind ← fieldD string record "kind" paramKindText
    let before ← fieldD optionString record "prefix" none
    let after ← fieldD optionString record "suffix" none
    let required ← fieldD bool record "required" true
    return { name, source, kind, before, after, required }
  decode_encode parameter := by
    obtain ⟨name, source, kind, before, after, required⟩ := parameter
    cases before <;> cases after <;>
      simp [members, field, fieldD, List.lookup, optionalMember]

def experienceTemplate : Codec ExperienceTemplate where
  encode template := .object [
    ("name", .string template.name),
    ("trigger", actionPattern.encode template.trigger),
    ("parameters", (list templateParameter).encode template.parameters),
    ("workflow", (list workflowStep).encode template.workflow),
    ("preconditions", (list predicate).encode template.preconditions),
    ("postconditions", (list predicate).encode template.postconditions),
    ("verification", (list verificationStep).encode template.verification),
    ("failure_policy", failurePolicy.encode template.failurePolicy),
    ("undo", undoPolicy.encode template.undo),
    ("status", experienceStatus.encode template.status)]
  decode value := do
    let record ← members value
    let name ← field string record "name"
    let trigger ← field actionPattern record "trigger"
    let parameters ← field (list templateParameter) record "parameters"
    let workflow ← field (list workflowStep) record "workflow"
    let preconditions ← field (list predicate) record "preconditions"
    let postconditions ← field (list predicate) record "postconditions"
    let verification ← field (list verificationStep) record "verification"
    let failurePolicy ← field failurePolicy record "failure_policy"
    let undo ← field undoPolicy record "undo"
    let status ← field experienceStatus record "status"
    return { name, trigger, parameters, workflow, preconditions, postconditions, verification,
             failurePolicy, undo, status }
  decode_encode template := by simp [members, field, List.lookup]

def referenceEntry : Codec ReferenceEntry where
  encode entry := .object [
    ("id", .string entry.id),
    ("title", .string entry.title),
    ("scope", optionString.encode entry.scope),
    ("tags", (list string).encode entry.tags),
    ("body", .string entry.body),
    ("steps", (list string).encode entry.steps),
    ("tools_used", (list string).encode entry.toolsUsed),
    ("plugins_used", (list string).encode entry.pluginsUsed),
    ("source_agent", optionString.encode entry.sourceAgent),
    ("declared", .bool entry.declared),
    ("trust_level", .string entry.trustLevel),
    ("evidence_summary", optionString.encode entry.evidenceSummary),
    ("created_at", u64.encode entry.createdAt)]
  decode value := do
    let record ← members value
    let id ← field string record "id"
    let title ← field string record "title"
    let scope ← fieldD optionString record "scope" none
    let tags ← fieldD (list string) record "tags" []
    let body ← fieldD string record "body" ""
    let steps ← fieldD (list string) record "steps" []
    let toolsUsed ← fieldD (list string) record "tools_used" []
    let pluginsUsed ← fieldD (list string) record "plugins_used" []
    let sourceAgent ← fieldD optionString record "source_agent" none
    let declared ← fieldD bool record "declared" false
    let trustLevel ← fieldD string record "trust_level" ""
    let evidenceSummary ← fieldD optionString record "evidence_summary" none
    let createdAt ← field u64 record "created_at"
    return { id, title, scope, tags, body, steps, toolsUsed, pluginsUsed, sourceAgent, declared,
             trustLevel, evidenceSummary, createdAt }
  decode_encode entry := by simp [members, field, fieldD, List.lookup]

def candidateOrigin : Codec CandidateOrigin where
  encode origin := .object ([
    ("task_signature", .string origin.taskSignature)] ++
    optionalMember "session_id" origin.sessionId ++ [
    ("distiller", .string origin.distiller),
    ("recorded_at", u64.encode origin.recordedAt)])
  decode value := do
    let record ← members value
    let taskSignature ← field string record "task_signature"
    let sessionId ← fieldD optionString record "session_id" none
    let distiller ← field string record "distiller"
    let recordedAt ← field u64 record "recorded_at"
    return { taskSignature, sessionId, distiller, recordedAt }
  decode_encode origin := by
    obtain ⟨taskSignature, sessionId, distiller, recordedAt⟩ := origin
    cases sessionId <;> simp [members, field, fieldD, List.lookup, optionalMember]

def fsReadPolicy : Codec FsReadPolicy where
  encode policy := .object [
    ("enabled", .bool policy.enabled),
    ("workspace_only", .bool policy.workspaceOnly),
    ("max_bytes", u64.encode policy.maxBytes),
    ("special_grant_bytes", optionU64.encode policy.specialGrantBytes)]
  decode value := do
    let record ← members value
    let enabled ← fieldD bool record "enabled" true
    let workspaceOnly ← fieldD bool record "workspace_only" true
    let maxBytes ← fieldD u64 record "max_bytes" defaultReadMaxBytes
    let specialGrantBytes ← fieldD optionU64 record "special_grant_bytes" none
    return { enabled, workspaceOnly, maxBytes, specialGrantBytes }
  decode_encode policy := by simp [members, fieldD, List.lookup]

def execPolicy : Codec ExecPolicy where
  encode policy := .object [
    ("mode", .string policy.mode),
    ("allow", (list string).encode policy.allow),
    ("timeout_secs", u64.encode policy.timeoutSecs),
    ("output_cap", u64.encode policy.outputCap),
    ("allow_legacy_shell", .bool policy.allowLegacyShell)]
  decode value := do
    let record ← members value
    let mode ← fieldD string record "mode" execOff
    let allow ← fieldD (list string) record "allow" []
    let timeoutSecs ← fieldD u64 record "timeout_secs" 60
    let outputCap ← fieldD u64 record "output_cap" 20000
    let allowLegacyShell ← fieldD bool record "allow_legacy_shell" false
    return { mode, allow, timeoutSecs, outputCap, allowLegacyShell }
  decode_encode policy := by simp [members, fieldD, List.lookup]

def networkPolicy : Codec NetworkPolicy where
  encode policy := .object [
    ("mode", .string policy.mode),
    ("allow", (list string).encode policy.allow)]
  decode value := do
    let record ← members value
    let mode ← fieldD string record "mode" networkOff
    let allow ← fieldD (list string) record "allow" []
    return { mode, allow }
  decode_encode policy := by simp [members, fieldD, List.lookup]

def capabilityPolicy : Codec CapabilityPolicy where
  encode policy := .object [
    ("fs_read", fsReadPolicy.encode policy.fsRead),
    ("fs_write", .string policy.fsWrite),
    ("fs_delete", .string policy.fsDelete),
    ("exec", execPolicy.encode policy.exec),
    ("network", networkPolicy.encode policy.network)]
  decode value := do
    let record ← members value
    let fsRead ← fieldD fsReadPolicy record "fs_read" {}
    let fsWrite ← fieldD string record "fs_write" fsWriteWorkspaceOnly
    let fsDelete ← fieldD string record "fs_delete" fsWriteDeny
    let exec ← fieldD execPolicy record "exec" {}
    let network ← fieldD networkPolicy record "network" {}
    return { fsRead, fsWrite, fsDelete, exec, network }
  decode_encode policy := by simp [members, fieldD, List.lookup]

def storeFile : Codec StoreFile where
  encode file := .object [
    ("schema_version", u32.encode file.schemaVersion),
    ("experiences", (list experience).encode file.experiences),
    ("templates", (list experienceTemplate).encode file.templates),
    ("pinned", (list string).encode file.pinned),
    ("scopes", (map string).encode file.scopes),
    ("display_names", (map string).encode file.displayNames),
    ("user_usage", (map string).encode file.userUsage),
    ("user_confidence", (map f64).encode file.userConfidence),
    ("references", (map referenceEntry).encode file.references),
    ("scope_policies", (map capabilityPolicy).encode file.scopePolicies),
    ("candidate_origins", (map candidateOrigin).encode file.candidateOrigins)]
  decode value := do
    let record ← members value
    let schemaVersion ← field u32 record "schema_version"
    let experiences ← fieldD (list experience) record "experiences" []
    let templates ← fieldD (list experienceTemplate) record "templates" []
    let pinned ← fieldD (list string) record "pinned" []
    let scopes ← fieldD (map string) record "scopes" ∅
    let displayNames ← fieldD (map string) record "display_names" ∅
    let userUsage ← fieldD (map string) record "user_usage" ∅
    let userConfidence ← fieldD (map f64) record "user_confidence" ∅
    let references ← fieldD (map referenceEntry) record "references" ∅
    let scopePolicies ← fieldD (map capabilityPolicy) record "scope_policies" ∅
    let candidateOrigins ← fieldD (map candidateOrigin) record "candidate_origins" ∅
    return { schemaVersion, experiences, templates, pinned, scopes, displayNames, userUsage,
             userConfidence, references, scopePolicies, candidateOrigins }
  decode_encode file := by simp [members, field, fieldD, List.lookup]

end Codec

namespace ExperienceStore

/-- Load a store from a document. -/
def fromJson (document : Json) : Except StoreError ExperienceStore :=
  match Codec.storeFile.decode document with
  | .error error => .error (.serialization error)
  | .ok file => fromFile file

/-- The document that `save_to_path` writes. -/
def savedJson (store : ExperienceStore) : Json := Codec.storeFile.encode store.toFile

theorem fromJson_savedJson (store : ExperienceStore) :
    fromJson store.savedJson = fromFile store.toFile := by
  simp only [fromJson, savedJson, Codec.decode_encode]

end ExperienceStore

end ExperienceCodex
