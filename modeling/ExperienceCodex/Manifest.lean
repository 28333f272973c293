import ExperienceCodex.FileSteps
import ExperienceCodex.StoreJson

/-!
# Backup manifests

After a run its backup entries are written to a manifest under the backup root.  Restoring reads the
manifest and goes through the entries from the last to the first: a path that existed is copied back
from its backup, and anything that stands at another path is removed.
-/

namespace ExperienceCodex

open Text FileTree

/-- What is written once a run is over. -/
structure BackupManifest where
  schemaVersion : UInt32
  workspace : String
  sessionId : Option String
  createdAt : UInt64
  entries : List BackupEntry
deriving DecidableEq

def backupSchemaVersion : UInt32 := 1

def backupManifestFile : String := "manifest.json"

namespace Codec

def backupEntry : Codec BackupEntry where
  encode entry := .object ([
    ("rel_path", .string entry.relPath)] ++
    optionalMember "backup_path" entry.backupPath ++ [
    ("existed", .bool entry.existed),
    ("directory", .bool entry.directory)])
  decode value := do
    let record ← members value
    let relPath ← field string record "rel_path"
    let backupPath ← fieldD optionString record "backup_path" none
    let existed ← field bool record "existed"
    let directory ← fieldD bool record "directory" false
    return { relPath, backupPath, existed, directory }
  decode_encode entry := by
    obtain ⟨relPath, backupPath, existed, directory⟩ := entry
    cases backupPath <;> simp [members, field, fieldD, List.lookup, optionalMember]

def backupManifest : Codec BackupManifest where
  encode manifest := .object ([
    ("schema_version", u32.encode manifest.schemaVersion),
    ("workspace", .string manifest.workspace)] ++
    optionalMember "session_id" manifest.sessionId ++ [
    ("created_at", u64.encode manifest.createdAt),
    ("entries", (list backupEntry).encode manifest.entries)])
  decode value := do
    let record ← members value
    let schemaVersion ← field u32 record "schema_version"
    let workspace ← field string record "workspace"
    let sessionId ← fieldD optionString record "session_id" none
    let createdAt ← field u64 record "created_at"
    let entries ← field (list backupEntry) record "entries"
    return { schemaVersion, workspace, sessionId, createdAt, entries }
  decode_encode manifest := by
    obtain ⟨schemaVersion, workspace, sessionId, createdAt, entries⟩ := manifest
    cases sessionId <;> simp [members, field, fieldD, List.lookup, optionalMember]

end Codec

/-- The texts of JSON values: a manifest that has been printed is read back. -/
structure ManifestText where
  print : Json → String
  parse : String → Except String Json
  parse_print : ∀ manifest, parse (print (Codec.backupManifest.encode manifest)) =
    .ok (Codec.backupManifest.encode manifest)

/-- Programs on the files that fail with a message. -/
abbrev TreeAction := EStateM String (Tree FileName ByteArray)

structure RestoreReport where
  restored : List String := []
  deleted : List String := []
deriving DecidableEq

section
variable (text : ManifestText) (cwd : Place)

/-- Change the files or fail with the text of the error. -/
def applyChange (change : Host → Except IoError (Tree FileName ByteArray)) : TreeAction Unit := do
  let tree ← get
  match change { tree, cwd } with
  | .ok tree => set tree
  | .error error => throw error.display

def createDirs (path : String) : TreeAction Unit := do
  let tree ← get
  match Host.createDirAll { tree, cwd } path with
  | (.ok (), tree) => set tree
  | (.error error, tree) =>
    set tree
    throw error.display

/-- Make the directory that a path is in. -/
def createParentOf (path : String) : TreeAction Unit :=
  match pathParent path with
  | some parent => createDirs cwd parent
  | none => pure ()

def writeBackupManifest (now : UInt64) (root workspace : String) (sessionId : Option String)
    (entries : List BackupEntry) : TreeAction String := do
  let manifest : BackupManifest :=
    { schemaVersion := backupSchemaVersion, workspace, sessionId, createdAt := now, entries }
  let path := pathJoin root backupManifestFile
  createParentOf cwd path
  let json := text.print (Codec.backupManifest.encode manifest)
  applyChange cwd fun host => host.writeFile path fun _ => json.toUTF8
  return path

/-- Copy the backup of an entry back to its path. -/
def copyBack (entry : BackupEntry) (backup target : String) : TreeAction Unit := do
  let tree ← get
  if Host.pathExists { tree, cwd } backup then
    createParentOf cwd target
    applyChange cwd fun host => host.copy backup target
  else throw ("backup copy missing for " ++ entry.relPath)

/-- Remove what stands at a path. -/
def clearPath (target : String) : TreeAction Unit := do
  let tree ← get
  let host : Host := { tree, cwd }
  if host.pathExists target then
    if host.pathIsDir target then applyChange cwd fun host => host.removeDirAll target
    else applyChange cwd fun host => host.removeFile target
  else pure ()

/-- Undo one entry and note it in the report. -/
def restoreEntry (workspace : String) (entry : BackupEntry) (report : RestoreReport) :
    TreeAction RestoreReport := do
  let tree ← get
  match safeJoin (Host.view { tree, cwd }) workspace entry.relPath with
  | .error error =>
    throw ("restore path guard rejected " ++ entry.relPath ++ ": " ++ error.display)
  | .ok target =>
    match entry.backupPath, entry.existed with
    | some backup, true => do
      copyBack cwd entry backup target
      return { report with restored := report.restored ++ [entry.relPath] }
    | _, _ => do
      clearPath cwd target
      return { report with deleted := report.deleted ++ [entry.relPath] }

def restoreEntries (workspace : String) :
    List BackupEntry → RestoreReport → TreeAction RestoreReport
  | [], report => pure report
  | entry :: rest, report => do
    let report ← restoreEntry cwd workspace entry report
    restoreEntries workspace rest report

/-- The text in a file. -/
def readText (path : String) : TreeAction String := do
  let tree ← get
  match Host.readFile { tree, cwd } path with
  | .error error => throw error.display
  | .ok bytes =>
    match String.fromUTF8? bytes with
    | some json => pure json
    | none => throw "stream did not contain valid UTF-8"

def restoreFromManifest (manifestPath : String) : TreeAction RestoreReport := do
  let json ← readText cwd manifestPath
  match text.parse json >>= Codec.backupManifest.decode with
  | .error error => throw ("invalid manifest: " ++ error)
  | .ok manifest =>
    if manifest.schemaVersion ≠ backupSchemaVersion then
      throw ("unsupported backup schema " ++ toString manifest.schemaVersion ++ " (current " ++
        toString backupSchemaVersion ++ ")")
    else if pathParent manifestPath = none then throw "manifest has no parent directory"
    else restoreEntries cwd manifest.workspace manifest.entries.reverse {}

end

end ExperienceCodex
