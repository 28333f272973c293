import ExperienceCodex.Exec
import ExperienceCodex.Disk
import ExperienceCodex.Programs

/-!
# The file actions of the step executor

What a workflow step does to the files of the workspace once it has passed the policy.  Before a
path is changed it is copied under the backup root, if the context has one, and recorded; a path
that is already recorded is not copied again.  A step that fails keeps what it has done so far.
-/

namespace ExperienceCodex

open Text FileTree

/-- One backed-up path. -/
structure BackupEntry where
  relPath : String
  backupPath : Option String := none
  existed : Bool
  directory : Bool := false
deriving DecidableEq

/-- What the file actions read of a step context, beyond what the process actions do. -/
structure FileContext extends StepContext where
  /-- The directory that the process works in. -/
  cwd : Place
  /-- The root under which backups are made. -/
  backup : Option String := none
  /-- The text that is shown of the bytes of a file. -/
  shownText : ByteArray → String

/-- The files, and the entries recorded so far. -/
structure FileState where
  tree : Tree FileName ByteArray
  backups : List BackupEntry := []

abbrev FileAction := EStateM StepError FileState

namespace Host

variable (host : Host)

/-- An operation on a path; the empty text is no path. -/
def onPath {β : Type} (path : String) (operation : Route FileName → Except IoError β) :
    Except IoError β :=
  match parsePath path with
  | none => .error .notFound
  | some route => operation route

def pathExists (path : String) : Bool :=
  match parsePath path with
  | none => false
  | some route => host.tree.pathExists host.cwd route

def pathIsDir (path : String) : Bool :=
  match parsePath path with
  | none => false
  | some route => host.tree.pathIsDir host.cwd route

def readFile (path : String) : Except IoError ByteArray :=
  onPath path (host.tree.readFile host.cwd)

def writeFile (path : String) (update : Option ByteArray → ByteArray) :
    Except IoError (Tree FileName ByteArray) :=
  onPath path fun route => host.tree.writeFile host.cwd route update

def copy (source target : String) : Except IoError (Tree FileName ByteArray) :=
  onPath source fun source => onPath target fun target => host.tree.copy host.cwd source target

def rename (source target : String) : Except IoError (Tree FileName ByteArray) :=
  onPath source fun source => onPath target fun target => host.tree.rename host.cwd source target

def removeFile (path : String) : Except IoError (Tree FileName ByteArray) :=
  onPath path (host.tree.removeFile host.cwd)

def removeDirAll (path : String) : Except IoError (Tree FileName ByteArray) :=
  onPath path (host.tree.removeDirAll host.cwd)

/-- `create_dir_all` accepts the empty path. -/
def createDirAll (path : String) : Except IoError Unit × Tree FileName ByteArray :=
  match parsePath path with
  | none => (.ok (), host.tree)
  | some route => host.tree.createDirAll host.cwd route

end Host

/-- `Path::strip_prefix`, for a path in which the components are written out. -/
def relativeTo (base path : String) : Option String :=
  if pathComponents base <+: pathComponents path then
    some (String.intercalate "/" ((pathComponents path).drop (pathComponents base).length))
  else none

def withSlashes (text : String) : String :=
  String.ofList (text.toList.map fun c => if c = '\\' then '/' else c)

section
variable (context : FileContext) (step : WorkflowStep)

def FileContext.host (state : FileState) : Host := { tree := state.tree, cwd := context.cwd }

/-- The base of the file actions, which is a scratch directory in a dry run. -/
def FileContext.fsBase : String := context.scratch.getD context.canonicalWorkspace

def orThrow {β : Type} : Except StepError β → FileAction β
  | .ok value => pure value
  | .error error => throw error

/-- Change the tree or fail without a change. -/
def changeTree (message : String) (change : Host → Except IoError (Tree FileName ByteArray)) :
    FileAction Unit := do
  let state ← get
  match change (context.host state) with
  | .ok tree => set { state with tree }
  | .error error => throw (.execution step.action (message ++ error.display))

/-- Make a directory and those above it; what was made before a failure stays. -/
def makeDirs (message path : String) : FileAction Unit := do
  let state ← get
  match (context.host state).createDirAll path with
  | (.ok (), tree) => set { state with tree }
  | (.error error, tree) =>
    set { state with tree }
    throw (.execution step.action (message ++ error.display))

def resolvePath (key : String) : FileAction String := do
  let raw ← orThrow (requiredStr step key)
  let state ← get
  match safeJoin (context.host state).view context.fsBase raw with
  | .ok path => pure path
  | .error error =>
    throw (.execution step.action ("path guard rejected: " ++ error.display))

/-- The copy of a path that exists, or nothing for one that does not. -/
def copyToBackup (root rel target : String) (existed : Bool) : FileAction (Option String) :=
  if existed then do
    let copy := pathJoin root rel
    match pathParent copy with
    | some parent => makeDirs context step "cannot create backup dir: " parent
    | none => pure ()
    changeTree context step "backup failed: " fun host => host.copy target copy
    pure (some copy)
  else pure none

/-- Back up the target unless it is recorded already. -/
def ensureBackup (target : String) : FileAction Bool :=
  match context.backup, relativeTo context.canonicalWorkspace target with
  | none, _ => pure false
  | some _, none => pure false
  | some root, some stripped => do
    let rel := withSlashes stripped
    let state ← get
    if state.backups.any fun entry => entry.relPath == rel then pure true
    else do
      let existed := (context.host state).pathExists target
      let backupPath ← copyToBackup context step root rel target existed
      modify fun state =>
        let directory := (context.host state).pathIsDir target
        { state with
          backups := state.backups ++ [{ relPath := rel, backupPath, existed, directory }] }
      pure true

/-- Record a directory that the run will create. -/
def recordCreatedDir (target : String) : FileAction Unit := do
  let state ← get
  if (context.host state).pathExists target then pure ()
  else
    match context.backup, relativeTo context.canonicalWorkspace target with
    | some _, some stripped =>
      let rel := withSlashes stripped
      if state.backups.any fun entry => entry.relPath == rel then pure ()
      else
        let entry : BackupEntry := { relPath := rel, existed := false, directory := true }
        set { state with backups := state.backups ++ [entry] }
    | _, _ => pure ()

def createParents (target : String) : FileAction Unit :=
  match pathParent target with
  | some parent =>
    if parent.isEmpty then pure ()
    else makeDirs context step "cannot create parent dir: " parent
  | none => pure ()

/-- The path shown in the evidence of a write. -/
def shownPath (target : String) : String :=
  match relativeTo context.canonicalWorkspace target with
  | some stripped => withSlashes stripped
  | none => target

def writeFile (append : Bool) : FileAction StepExecution := do
  let target ← resolvePath context step "path"
  let content ← orThrow (requiredStr step "content")
  let backedUp ← ensureBackup context step target
  createParents context step target
  let verb := if append then "appended" else "wrote"
  let message := if append then "failed to open " else "failed to write "
  let update (old : Option ByteArray) : ByteArray :=
    if append then old.getD ∅ ++ content.toUTF8 else content.toUTF8
  changeTree context step (message ++ target ++ ": ") fun host => host.writeFile target update
  let rel := shownPath context target
  return {
    evidence := verb ++ " " ++ rel ++ " (" ++ toString content.utf8ByteSize ++ " bytes)"
    sideEffects := [verb ++ " " ++ rel]
    backedUp }

def mkdir : FileAction StepExecution := do
  let target ← resolvePath context step "path"
  recordCreatedDir context target
  makeDirs context step "failed to create dir: " target
  return { evidence := "created dir " ++ target, sideEffects := ["mkdir " ++ target] }

/-- The source of a copy or a move must exist. -/
def requireSource (source : String) : FileAction Unit := do
  let state ← get
  if (context.host state).pathExists source then pure ()
  else throw (.invalid step.action ("source not found: " ++ source))

def copyFile : FileAction StepExecution := do
  let source ← resolvePath context step "source"
  let target ← resolvePath context step "target"
  requireSource context step source
  let _ ← ensureBackup context step target
  createParents context step target
  changeTree context step "copy failed: " fun host => host.copy source target
  return {
    evidence := "copied " ++ source ++ " -> " ++ target
    sideEffects := ["copy " ++ source ++ " -> " ++ target]
    backedUp := true }

def moveFile : FileAction StepExecution := do
  let source ← resolvePath context step "source"
  let target ← resolvePath context step "target"
  requireSource context step source
  let _ ← ensureBackup context step source
  let _ ← ensureBackup context step target
  createParents context step target
  changeTree context step "move failed: " fun host => host.rename source target
  return {
    evidence := "moved " ++ source ++ " -> " ++ target
    sideEffects := ["move " ++ source ++ " -> " ++ target]
    backedUp := true }

/-- Remove the target if it exists. -/
def removeTarget (target : String) : FileAction Unit := do
  let state ← get
  if (context.host state).pathExists target then
    changeTree context step "delete failed: " fun host => host.removeFile target
  else pure ()

def deleteFile : FileAction StepExecution := do
  let target ← resolvePath context step "path"
  let _ ← ensureBackup context step target
  removeTarget context step target
  return {
    evidence := "deleted " ++ target
    sideEffects := ["delete " ++ target]
    backedUp := true }

def readFile : FileAction StepExecution := do
  let target ← resolvePath context step "path"
  let max := context.policy.readMaxBytes
  let state ← get
  let host := context.host state
  match host.canonicalize target with
  | .error error =>
    throw (.execution step.action ("cannot stat " ++ target ++ ": " ++ error.display))
  | .ok place =>
    let size := ((host.tree.content place).map ByteArray.size).getD 0
    if size > max.toNat then
      throw (.invalid step.action ("file is " ++ toString size ++ " bytes, above the read cap " ++
        toString max ++ " (raise fs_read.max_bytes or grant a special_grant_bytes)"))
    else
      match host.readFile target with
      | .error error =>
        throw (.execution step.action ("cannot read " ++ target ++ ": " ++ error.display))
      | .ok bytes =>
        return {
          evidence := "read " ++ target ++ " (" ++ toString size ++ " bytes, cap " ++
            toString max ++ ")"
          content := context.shownText bytes }

/-- The file action of a step that has passed the policy. -/
def fileAction : FileAction StepExecution :=
  if step.action = "write_file" then writeFile context step false
  else if step.action = "append_file" then writeFile context step true
  else if step.action = "mkdir" then mkdir context step
  else if step.action = "copy_file" then copyFile context step
  else if step.action = "move_file" then moveFile context step
  else if step.action = "delete_file" then deleteFile context step
  else readFile context step

end

/-- What the executor does with a process, which the operating system decides. -/
abbrev Spawner := SpawnRequest → FileAction StepExecution

/-- No processes. -/
def noSpawner : Spawner := fun _ => throw (.execution "exec" "no processes")

/-- One step: the checks, and then the effect. -/
def performStep (spawner : Spawner) (context : FileContext) (step : WorkflowStep) :
    FileAction StepExecution := do
  let state ← get
  match executeStep (context.host state).view context.toStepContext step with
  | .error error => throw error
  | .ok (.fileAction _) => fileAction context step
  | .ok (.dryRun execution) => pure execution
  | .ok (.spawn request) => spawner request

end ExperienceCodex
