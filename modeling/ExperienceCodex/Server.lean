import ExperienceCodex.Qualification
import ExperienceCodex.StoreRuns

/-!
# The management routes of the experience server

Every route takes the lock of the store, works on the store in memory and answers.  A request that
is refused midway keeps the changes that it has made so far.  A panic under the lock poisons it,
and no later request gets the store again.
-/

namespace ExperienceCodex

open Text ExperienceStore

/-- What a route answers. -/
inductive RouteAnswer where
  | done (code : ℕ)
  | refused (code : ℕ) (error : String) (issues : List String)
  | panicked
deriving DecidableEq

/-- The server: its store, whether the lock of the store is poisoned, and, for the proofs only,
the names and bodies that have passed the qualification, in order. -/
structure Server where
  store : ExperienceStore
  poisoned : Bool := false
  passed : List (String × Body) := []

def Server.withStore (server : Server) (store : ExperienceStore) : Server := { server with store }

/-- A request that fails in a route is answered with the code 400. -/
def badRequest (error : String) : RouteAnswer := .refused 400 error []

def validateEditableBody (experience : Experience) : Except String Unit :=
  if !experience.isSchemaValid then
    .error "schema invalid (name/workflow/postconditions 不可为空)"
  else
    match validateToolBoundary experience with
    | .error issue => .error ("tool boundary: " ++ issue)
    | .ok () => .ok ()

/-- The body of a request: a JSON document, or the error of its parser. -/
abbrev RequestBody := Except String Json

/-- The answer to a change of the store and the state it leaves. -/
def Server.finish (server : Server) (code : ℕ) :
    Except StoreError Unit × ExperienceStore → RouteAnswer × Server
  | (.ok (), store) => (.done code, server.withStore store)
  | (.error error, store) => (badRequest error.display, server.withStore store)

/-- An experience given as the body of a request. -/
def readExperience (body : RequestBody) : Except String Experience :=
  match body.bind Codec.experience.decode with
  | .error error => .error ("invalid experience body: " ++ error)
  | .ok experience => .ok experience

/-- `POST /api/experiences`: the status is the one of the payload. -/
def Server.create (server : Server) (body : RequestBody) : RouteAnswer × Server :=
  match readExperience body with
  | .error error => (badRequest error, server)
  | .ok experience => server.finish 201 (server.store.insert experience)

def Server.delete (server : Server) (name : String) : RouteAnswer × Server :=
  server.finish 200 (server.store.remove name)

/-- `POST /api/experiences/{name}/draft`. -/
def Server.draft (server : Server) (name : String) : RouteAnswer × Server :=
  if endsWith name "__draft" then (.refused 400 "draft 不能再 draft" [], server)
  else
    match server.store.get name with
    | none => (badRequest ("experience '" ++ name ++ "' not found"), server)
    | some original =>
      let draftName := name ++ "__draft"
      if (server.store.get draftName).isSome then (.refused 400 "draft 已存在" [], server)
      else
        server.finish 201
          (server.store.insert { original with name := draftName, status := .draft })

/-- `PUT /api/experiences/{name}/body`. -/
def Server.editBody (server : Server) (name : String) (body : RequestBody) : RouteAnswer × Server :=
  match readExperience body with
  | .error error => (badRequest error, server)
  | .ok edited =>
    match validateEditableBody edited with
    | .error error => (badRequest error, server)
    | .ok () =>
      match server.store.get name with
      | none => (badRequest ("experience '" ++ name ++ "' not found"), server)
      | some experience =>
        if experience.status ≠ .draft then
          (.refused 400 "仅 draft 可编辑；请先 POST /draft" [], server)
        else
          server.finish 200 (server.store.replaceExisting name { edited with name := name })

/-- `POST /api/experiences/{name}/adopt`: the draft takes the place of the original, which keeps
its status. -/
def Server.adopt (server : Server) (name : String) : RouteAnswer × Server :=
  match stripEnd name "__draft" with
  | none => (.refused 400 "adopt 目标必须是 __draft" [], server)
  | some originalName =>
    match server.store.get name with
    | none => (badRequest ("draft '" ++ name ++ "' not found"), server)
    | some draft =>
      if draft.status ≠ .draft then (.refused 400 "仅 Draft 状态可 adopt" [], server)
      else if (server.store.get originalName).isNone then
        (.refused 404 ("原经验 '" ++ originalName ++ "' 不存在") [], server)
      else
        match validateEditableBody draft with
        | .error error => (badRequest error, server)
        | .ok () =>
          match server.store.replaceExisting originalName { draft with name := originalName } with
          | (.error error, store) => (badRequest error.display, server.withStore store)
          | (.ok (), store) => server.finish 200 (store.remove name)

/-- The scope that an export recorded for a name. -/
def payloadScope (payload : Json) (name : String) : Option String :=
  ((payload.get "scopes").bind (Json.get · name)).bind Json.asStr

/-- The items of an import, inserted one by one with the status they carry. -/
def importItems (payload : Json) (scope : Option String) :
    ℕ → List Json → ExperienceStore → Except String Unit × ExperienceStore
  | _, [], store => (.ok (), store)
  | index, item :: rest, store =>
    match Codec.experience.decode item with
    | .error error => (.error ("第 " ++ toString (index + 1) ++ " 条解析失败: " ++ error), store)
    | .ok experience =>
      match validateEditableBody experience with
      | .error error => (.error error, store)
      | .ok () =>
        match store.insert experience with
        | (.error error, store) =>
          (.error ("第 " ++ toString (index + 1) ++ " 条: " ++ error.display), store)
        | (.ok (), store) =>
          let assigned := scope.orElse fun _ => payloadScope payload experience.name
          match store.setScope experience.name assigned with
          | (.error error, store) => (.error error.display, store)
          | (.ok (), store) => importItems payload scope (index + 1) rest store

/-- The items of a payload: a store envelope or a plain array. -/
def payloadItems (payload : Json) : Option (List Json) :=
  ((payload.get "experiences").bind Json.asArray).orElse fun _ => payload.asArray

/-- `POST /api/experiences/import`. -/
def Server.importExperiences (server : Server) (body : RequestBody) : RouteAnswer × Server :=
  match body with
  | .error error => (badRequest error, server)
  | .ok value =>
    if (value.get "scope").isNone then (.refused 400 "import 需要 'scope'（可为 null）" [], server)
    else
      let scope := (value.get "scope").bind Json.asStr
      match value.get "payload" with
      | none => (badRequest "缺少 'payload'", server)
      | some payload =>
        match payloadItems payload with
        | none => (badRequest "payload 缺少 experiences 数组", server)
        | some items =>
          match importItems payload scope 0 items server.store with
          | (.error error, store) => (badRequest error, server.withStore store)
          | (.ok (), store) => (.done 201, server.withStore store)

/-- The action that a status request names. -/
def statusAction (verb : String) : Option QualificationAction :=
  if verb = "active" ∨ verb = "activate" then some .activate
  else if verb = "force_activate" then some .forceActivate
  else if verb = "invalidate" then some .invalidate
  else if verb = "disable" ∨ verb = "disabled" ∨ verb = "draft" then some .disable
  else if verb = "revalidate" then some .revalidate
  else if verb = "validate" then some .validate
  else none

/-- The change of status after the qualification, with the two idempotent cases. -/
def Server.applyStatus (server : Server) (name : String) (current : ExperienceStatus)
    (action : QualificationAction) : RouteAnswer × Server :=
  if (action = .activate ∨ action = .forceActivate) ∧ current = .active then (.done 200, server)
  else if action = .disable ∧ current = .disabled then (.done 200, server)
  else server.finish 200 (StoreOp.discard (server.store.transitionStatus name action))

/-- `PATCH /api/experiences/{name}/status`.  Only `validate` and `revalidate` qualify. -/
def Server.changeStatus (server : Server) (name : String) (body : RequestBody) (scratch : Scratch) :
    RouteAnswer × Server :=
  match body with
  | .error error => (badRequest error, server)
  | .ok value =>
    match ((value.get "status").orElse fun _ => value.get "action").bind Json.asStr with
    | none => (badRequest "missing 'status'/'action' string", server)
    | some verb =>
      match statusAction verb with
      | none => (.refused 400 ("unknown status action '" ++ verb ++ "'") [], server)
      | some action =>
        let reason := (value.get "reason").bind Json.asStr
        if action = .forceActivate ∧ isBlank (reason.getD "") then
          (.refused 400 "force_activate requires a 'reason'" [], server)
        else
          match server.store.get name with
          | none => (badRequest ("experience '" ++ name ++ "' not found"), server)
          | some experience =>
            if action = .validate ∨ action = .revalidate then
              match qualify scratch resolveDefaultSource experience with
              | .error (.unreachableTool _) => (.panicked, { server with poisoned := true })
              | .error (.issues problems) =>
                (.refused 400 "qualification failed" problems, server)
              | .ok () =>
                let server := { server with passed := server.passed ++ [(name, experience.body)] }
                server.applyStatus name experience.status action
            else server.applyStatus name experience.status action

/-- `maybe_auto_decay`, once the score of the experience is at or under the floor. -/
def Server.autoDecay (server : Server) (name : String) : RouteAnswer × Server :=
  if server.store.isPinned name then (.done 200, server)
  else
    match server.store.get name with
    | none => (.done 200, server)
    | some experience =>
      if experience.status ≠ .active then (.done 200, server)
      else server.finish 200 (StoreOp.discard (server.store.transitionStatus name .decay))

inductive ServerOp where
  | create (body : RequestBody)
  | delete (name : String)
  | draft (name : String)
  | editBody (name : String) (body : RequestBody)
  | adopt (name : String)
  | importExperiences (body : RequestBody)
  | changeStatus (name : String) (body : RequestBody) (scratch : Scratch)
  | autoDecay (name : String)

namespace ServerOp

def perform (server : Server) (op : ServerOp) : RouteAnswer × Server :=
  if server.poisoned then (.panicked, server)
  else
    match op with
    | create body => server.create body
    | delete name => server.delete name
    | draft name => server.draft name
    | editBody name body => server.editBody name body
    | adopt name => server.adopt name
    | importExperiences body => server.importExperiences body
    | changeStatus name body scratch => server.changeStatus name body scratch
    | autoDecay name => server.autoDecay name

/-- The state that an operation leaves behind. -/
def next (server : Server) (op : ServerOp) : Server := (op.perform server).2

/-- The state after a run that starts with a store. -/
def run (store : ExperienceStore) (ops : List ServerOp) : Server := Runs.run next { store } ops

end ServerOp

end ExperienceCodex
