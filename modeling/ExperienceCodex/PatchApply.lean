import ExperienceCodex.PatchUpdate
import ExperienceCodex.PathUri
import ExperienceCodex.Programs

/-!
# Verifying and applying a patch

A patch is verified before it is applied: every hunk is tried against the files as they are, and
what it would do is entered in a map.  The application then works on the files hunk by hunk and
records what it has done.

The file system is a parameter.  Its operations may fail at any time; what is known of them is what
they promise about the files: a read that succeeds gives the text of the file, a write or a removal
that succeeds has done its work, and each of them, failing or not, leaves the other files alone.  A
write that fails may leave anything in the file; a removal that fails has removed the file or not.
-/

namespace ExperienceCodex.ApplyPatch

/-- What a file holds: a text, or bytes that are not the encoding of a text. -/
inductive Content where
  | text (text : Line)
  | binary (bytes : Bytes)
deriving DecidableEq

inductive IoErrorKind where
  | notFound
  | invalidInput
  | other
deriving DecidableEq, Repr

structure IoError where
  kind : IoErrorKind
  message : String
deriving DecidableEq, Repr

structure FileMetadata where
  isDirectory : Bool
  isFile : Bool
  isSymlink : Bool
deriving DecidableEq, Repr

/-- The files of a file system by their paths. -/
abbrev FileMap := PathUri → Option Content

/-- The file system that a patch is applied to, under one sandbox. -/
structure ExecutorFileSystem (σ : Type) where
  files : σ → FileMap
  getMetadata : σ → PathUri → Bool → Except IoError FileMetadata
  readFileText : σ → PathUri → Bool → Except IoError Line
  writeFile : σ → PathUri → Line → Bool → Except IoError Unit × σ
  createDirectory : σ → PathUri → Bool → Except IoError Unit × σ
  remove : σ → PathUri → Bool → Except IoError Unit × σ
  read_ok : ∀ s path follow text, readFileText s path follow = .ok text →
    files s path = some (.text text)
  read_notFound : ∀ s path follow error, readFileText s path follow = .error error →
    error.kind = .notFound → files s path = none
  write_ok : ∀ s path text follow, (writeFile s path text follow).1 = .ok () →
    files (writeFile s path text follow).2 path = some (.text text)
  write_other : ∀ s path text follow other, other ≠ path →
    files (writeFile s path text follow).2 other = files s other
  createDirectory_files : ∀ s path follow, files (createDirectory s path follow).2 = files s
  remove_ok : ∀ s path follow, (remove s path follow).1 = .ok () →
    files (remove s path follow).2 path = none
  remove_error : ∀ s path follow error, (remove s path follow).1 = .error error →
    files (remove s path follow).2 path = files s path ∨
      files (remove s path follow).2 path = none
  remove_other : ∀ s path follow other, other ≠ path →
    files (remove s path follow).2 other = files s other

/-- How paths are read and shown. -/
structure PathRules where
  /-- `PathUri::join`. -/
  join : PathUri → Line → Except String PathUri
  /-- `inferred_native_path_string`. -/
  nativeText : PathUri → String

inductive ApplyPatchError where
  | parseError (error : ParseError)
  | ioError (context : String) (source : IoError)
  | computeReplacements (message : String)
  | pathUri (message : String)
  | noFilesModified
deriving DecidableEq, Repr

/-- Names what was being done when an operation failed. -/
def withContext {α : Type} (context : String) :
    Except IoError α → Except ApplyPatchError α :=
  Except.mapError (.ioError context)

inductive ApplyPatchFileChange where
  | add (content : Line)
  | delete (content : Line)
  | update (unifiedDiff : Line) (movePath : Option PathUri) (newContent : Line)
deriving DecidableEq

structure ApplyPatchAction where
  /-- What each of the paths is to become; no path occurs twice. -/
  changes : List (PathUri × ApplyPatchFileChange)
  updateFileMode : ApplyPatchFileUpdateMode
  patch : Line
  cwd : PathUri
deriving DecidableEq

section
variable {σ : Type} (fs : ExecutorFileSystem σ) (rules : PathRules)
  /- the diff that is shown for an update -/
  (unifiedDiff : Line → Line → Line)

/-- What a hunk would do to the file at a path, as the files are. -/
def verifyHunk (s : σ) (cwd : PathUri) (mode : ApplyPatchFileUpdateMode) (path : PathUri) :
    Hunk → Except ApplyPatchError ApplyPatchFileChange
  | .addFile _ contents => .ok (.add contents)
  | .deleteFile _ => do
    let content ← withContext ("Failed to read " ++ rules.nativeText path)
      (fs.readFileText s path true)
    return .delete content
  | .updateFile _ movePath chunks => do
    let original ← withContext ("Failed to read file to update " ++ rules.nativeText path)
      (fs.readFileText s path true)
    let new ← (newContents mode (rules.nativeText path) chunks original).mapError
      .computeReplacements
    let destination ← movePath.mapM fun destination =>
      (rules.join cwd destination).mapError .pathUri
    return .update (unifiedDiff original new) destination new

def verifyHunks (s : σ) (cwd : PathUri) (mode : ApplyPatchFileUpdateMode) :
    List (PathUri × ApplyPatchFileChange) → List Hunk →
      Except ApplyPatchError (List (PathUri × ApplyPatchFileChange))
  | changes, [] => .ok changes
  | changes, hunk :: hunks => do
    let path ← (rules.join cwd hunk.source).mapError .pathUri
    if path ∈ changes.map Prod.fst then
      .error (.parseError (.invalidPatchError
        ("multiple operations target " ++ rules.nativeText path)))
    else
      let change ← verifyHunk fs rules unifiedDiff s cwd mode path hunk
      verifyHunks s cwd mode (changes ++ [(path, change)]) hunks

/-- The directory that the paths of a patch are relative to. -/
def effectiveCwd (cwd : PathUri) : Option Line → Except ApplyPatchError PathUri
  | some workdir => (rules.join cwd workdir).mapError .pathUri
  | none => .ok cwd

def tryVerifyApplyPatchArgs (s : σ) (args : ApplyPatchArgs) (cwd : PathUri)
    (mode : ApplyPatchFileUpdateMode) : Except ApplyPatchError ApplyPatchAction := do
  let cwd ← effectiveCwd rules cwd args.workdir
  let changes ← verifyHunks fs rules unifiedDiff s cwd mode [] args.hunks
  return { changes, updateFileMode := mode, patch := args.patch, cwd }

end

inductive AppliedPatchFileChange where
  | add (content : Line) (overwrittenContent : Option Line)
  | delete (content : Line)
  | update (movePath : Option PathUri) (oldContent : Line) (overwrittenMoveContent : Option Line)
    (newContent : Line)
deriving DecidableEq

structure AppliedPatchChange where
  path : PathUri
  change : AppliedPatchFileChange
deriving DecidableEq

structure AppliedPatchDelta where
  changes : List AppliedPatchChange := []
  exact : Bool := true
deriving DecidableEq

structure ApplyPatchOptions where
  updateFileMode : ApplyPatchFileUpdateMode
  followSymlinks : Bool
deriving DecidableEq, Repr

/-- The path that is shown for a hunk: the destination of a move. -/
def Hunk.path : Hunk → Line
  | addFile path _ | deleteFile path => path
  | updateFile path movePath _ => movePath.getD path

/-- The file system and the record of the changes. -/
structure ApplyState (σ : Type) where
  fs : σ
  delta : AppliedPatchDelta

/-- The spellings of the paths that were changed. -/
structure AffectedPaths where
  added : List Line := []
  modified : List Line := []
  deleted : List Line := []
deriving DecidableEq

section
variable {σ : Type} (fs : ExecutorFileSystem σ) (rules : PathRules) (options : ApplyPatchOptions)

/-- A program that changes files and the record. -/
abbrev Apply (σ : Type) := EStateM ApplyPatchError (ApplyState σ)

def metadataOf (path : PathUri) : Apply σ (Except IoError FileMetadata) := do
  return fs.getMetadata (← get).fs path options.followSymlinks

def readText (path : PathUri) : Apply σ (Except IoError Line) := do
  return fs.readFileText (← get).fs path options.followSymlinks

/-- Does an operation of the file system. -/
def perform (operation : σ → Except IoError Unit × σ) : Apply σ (Except IoError Unit) := do
  let state ← get
  set { state with fs := (operation state.fs).2 }
  return (operation state.fs).1

/-- The record is no longer exact. -/
def inexact : Apply σ Unit :=
  modify fun state => { state with delta := { state.delta with exact := false } }

def pushChange (change : AppliedPatchChange) : Apply σ Unit :=
  modify fun state =>
    { state with delta := { state.delta with changes := state.delta.changes ++ [change] } }

/-- Ends with an error, or goes on with the value. -/
def orThrow {α : Type} : Except ApplyPatchError α → Apply σ α
  | .ok value => pure value
  | .error error => throw error

def noteExistingPathDeltaSupport (path : PathUri) : Apply σ Unit := do
  match ← metadataOf fs options path with
  | .ok metadata => if metadata.isFile && !metadata.isSymlink then pure () else inexact
  | .error error => if error.kind = .notFound then pure () else inexact

def readOptionalFileTextForDelta (path : PathUri) : Apply σ (Option Line) := do
  noteExistingPathDeltaSupport fs options path
  match ← readText fs options path with
  | .ok content => return some content
  | .error error =>
    if error.kind = .notFound then return none
    else
      inexact
      return none

def ensureNotDirectory (path : PathUri) : Apply σ (Except IoError Unit) := do
  match ← metadataOf fs options path with
  | .error error => return .error error
  | .ok metadata =>
    if metadata.isDirectory then return .error ⟨.invalidInput, "path is a directory"⟩
    else return .ok ()

/-- Whether a removal that failed has left the text of the file. -/
def removeFailureWasSideEffectFree (path : PathUri) (expected : Option Line) : Apply σ Bool := do
  match expected with
  | none => return false
  | some expected =>
    match ← readText fs options path with
    | .ok content => return content = expected
    | .error _ => return false

/-- Writes a file, once more after its directory was created if it was missing. -/
def writeFileWithMissingParentRetry (path : PathUri) (contents : Line) :
    Apply σ (Except ApplyPatchError Unit) := do
  let failed := "Failed to write file " ++ rules.nativeText path
  match ← perform fun s => fs.writeFile s path contents options.followSymlinks with
  | .ok () => return .ok ()
  | .error error =>
    if error.kind = .notFound then
      match path.parent with
      | none =>
        return withContext failed
          (← perform fun s => fs.writeFile s path contents options.followSymlinks)
      | some parent =>
        match ← perform fun s => fs.createDirectory s parent options.followSymlinks with
        | .error error =>
          return .error (.ioError
            ("Failed to create parent directories for " ++ rules.nativeText path) error)
        | .ok () =>
          return withContext failed
            (← perform fun s => fs.writeFile s path contents options.followSymlinks)
    else return .error (.ioError failed error)

/-- A write that fails may have changed the file, so the record is not exact then. -/
def tryWrite (write : Apply σ (Except ApplyPatchError Unit)) : Apply σ Unit := do
  match ← write with
  | .ok () => pure ()
  | .error error =>
    inexact
    throw error

/-- Removes a file that is not a directory. -/
def removeFile (context : String) (path : PathUri) (expected : Option Line) : Apply σ Unit := do
  orThrow (withContext context (← ensureNotDirectory fs options path))
  match ← perform fun s => fs.remove s path options.followSymlinks with
  | .ok () => pure ()
  | .error error =>
    if !(← removeFailureWasSideEffectFree fs options path expected) then inexact
    throw (.ioError context error)

/-- The text of a file and its text after an update. -/
def deriveNewContentsFromChunks (path : PathUri) (chunks : List UpdateFileChunk) :
    Apply σ (Line × Line) := do
  let context := "Failed to read file to update " ++ rules.nativeText path
  let original ← orThrow (withContext context (← readText fs options path))
  let new ← orThrow ((newContents options.updateFileMode (rules.nativeText path) chunks
    original).mapError .computeReplacements)
  return (original, new)

def applyAdd (path : PathUri) (contents : Line) : Apply σ Unit := do
  let overwritten ← readOptionalFileTextForDelta fs options path
  tryWrite (writeFileWithMissingParentRetry fs rules options path contents)
  pushChange ⟨path, .add contents overwritten⟩

def applyDelete (path : PathUri) : Apply σ Unit := do
  noteExistingPathDeltaSupport fs options path
  let deleted := (← readText fs options path).toOption
  if deleted.isNone then inexact
  removeFile fs options ("Failed to delete file " ++ rules.nativeText path) path deleted
  match deleted with
  | some content => pushChange ⟨path, .delete content⟩
  | none => pure ()

def applyMove (path destination : PathUri) (original new : Line) : Apply σ Unit := do
  let overwritten ← readOptionalFileTextForDelta fs options destination
  tryWrite (writeFileWithMissingParentRetry fs rules options destination new)
  let index := (← get).delta.changes.length
  pushChange ⟨destination, .add new overwritten⟩
  removeFile fs options ("Failed to remove original " ++ rules.nativeText path) path (some original)
  modify fun state => { state with
    delta := { state.delta with
      changes := state.delta.changes.set index
        ⟨path, .update (some destination) original overwritten new⟩ } }

def applyUpdate (path : PathUri) (original new : Line) : Apply σ Unit := do
  tryWrite do
    return withContext ("Failed to write file " ++ rules.nativeText path)
      (← perform fun s => fs.writeFile s path new options.followSymlinks)
  pushChange ⟨path, .update none original none new⟩

/-- One hunk, with the paths that are shown for it. -/
def applyHunk (cwd : PathUri) (affected : AffectedPaths) (hunk : Hunk) :
    Apply σ AffectedPaths := do
  let path ← orThrow ((rules.join cwd hunk.source).mapError .pathUri)
  match hunk with
  | .addFile _ contents =>
    applyAdd fs rules options path contents
    return { affected with added := affected.added ++ [hunk.path] }
  | .deleteFile _ =>
    applyDelete fs rules options path
    return { affected with deleted := affected.deleted ++ [hunk.path] }
  | .updateFile _ movePath chunks =>
    noteExistingPathDeltaSupport fs options path
    let (original, new) ← deriveNewContentsFromChunks fs rules options path chunks
    match movePath with
    | some destination =>
      let destination ← orThrow ((rules.join cwd destination).mapError .pathUri)
      applyMove fs rules options path destination original new
    | none => applyUpdate fs rules options path original new
    return { affected with modified := affected.modified ++ [hunk.path] }

def applyHunksToFiles (cwd : PathUri) (hunks : List Hunk) : Apply σ AffectedPaths :=
  if hunks.isEmpty then throw .noFilesModified
  else hunks.foldlM (applyHunk fs rules options cwd) {}

end

/-- A file system that is its files. -/
def memoryFileSystem : ExecutorFileSystem FileMap where
  files := id
  getMetadata files path _ :=
    match files path with
    | some _ => .ok { isDirectory := false, isFile := true, isSymlink := false }
    | none => .error ⟨.notFound, "no such file"⟩
  readFileText files path _ :=
    match files path with
    | some (.text text) => .ok text
    | some (.binary _) => .error ⟨.other, "not a text"⟩
    | none => .error ⟨.notFound, "no such file"⟩
  writeFile files path text _ := (.ok (), Function.update files path (some (.text text)))
  createDirectory files _ _ := (.ok (), files)
  remove files path _ :=
    match files path with
    | some _ => (.ok (), Function.update files path none)
    | none => (.error ⟨.notFound, "no such file"⟩, files)
  read_ok files path _ text h := by
    cases hfile : files path with
    | none => simp [hfile] at h
    | some content => cases content <;> simp_all
  read_notFound files path _ error h hkind := by
    cases hfile : files path with
    | none => exact hfile
    | some content =>
      cases content with
      | text text => simp [hfile] at h
      | binary bytes =>
        simp only [hfile, Except.error.injEq] at h
        rw [← h] at hkind
        cases hkind
  write_ok files path text _ _ := Function.update_self ..
  write_other files path text _ other hother := Function.update_of_ne hother ..
  createDirectory_files _ _ _ := rfl
  remove_ok files path _ h := by
    cases hfile : files path <;> simp_all
  remove_error files path _ error h := by
    cases hfile : files path <;> simp_all
  remove_other files path _ other hother := by
    cases hfile : files path <;> simp [hother]

/-- Paths of ASCII characters below a POSIX directory. -/
def asciiRules : PathRules where
  join cwd path :=
    match plainUrl.joinPosix cwd (path.map fun c => UInt8.ofNat c.toNat) with
    | some uri => .ok uri
    | none => .error "invalid path"
  nativeText _ := "file"

/-- The directory at the root. -/
def rootUri : PathUri :=
  .file none [[]] (by decide)

end ExperienceCodex.ApplyPatch
