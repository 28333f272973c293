import ExperienceCodex.Layers
import ExperienceCodex.PathUri

/-!
# File-system sandbox policies

A restricted policy is a list of entries, each of which gives an access to everything at or below a
path.  The most specific entry decides, and below a writable root some names stay protected.
-/

namespace ExperienceCodex

/-- Accesses, the later ones before the earlier ones in a conflict. -/
inductive FileSystemAccessMode where
  | read
  | write
  | deny
deriving DecidableEq, Repr

namespace FileSystemAccessMode

def precedence : FileSystemAccessMode → ℕ
  | read => 0
  | write => 1
  | deny => 2

lemma precedence_injective : Function.Injective precedence := by
  intro a b h
  cases a <;> cases b <;> simp_all [precedence]

instance : LinearOrder FileSystemAccessMode := LinearOrder.lift' precedence precedence_injective

def canWrite (access : FileSystemAccessMode) : Bool := access == write

end FileSystemAccessMode

inductive FileSystemSpecialPath where
  | root
  | minimal
  | projectRoots (subpath : Option Bytes)
  | tmpdir
  | slashTmp
  | unknown (path : Bytes) (subpath : Option Bytes)
deriving DecidableEq

inductive FileSystemPath where
  | path (path : PathUri)
  | globPattern (pattern : Bytes)
  | special (value : FileSystemSpecialPath)
deriving DecidableEq

structure FileSystemSandboxEntry where
  path : FileSystemPath
  access : FileSystemAccessMode
deriving DecidableEq

inductive FileSystemSandboxKind where
  | restricted
  | unrestricted
  | externalSandbox
deriving DecidableEq, Repr

structure FileSystemSandboxPolicy where
  kind : FileSystemSandboxKind
  entries : List FileSystemSandboxEntry

def protectedMetadataPathNames : List Bytes := [ascii ".git", ascii ".agents", ascii ".codex"]

/-- The paths of an executor that entries refer to. -/
structure FileSystemSandboxPolicyContext where
  cwd : PathUri
  workspaceRoots : List PathUri
  temporaryDirectories : Option (List PathUri)

section
variable (url : UrlLibrary) (host : LocalHost)

def specialPathMatchesAbsolutePath (value : FileSystemSpecialPath) (path : AbsolutePath) : Bool :=
  match value with
  | .root => path.isEmpty
  | .slashTmp => path.map Subtype.val == [ascii "tmp"]
  | _ => false

/-- Two paths of a policy name the same place. -/
def fileSystemPathsShareTarget : FileSystemPath → FileSystemPath → Bool
  | .path left, .path right => left.same right
  | .special left, .special right => left == right
  | .path path, .special value | .special value, .path path =>
    match url.toAbsPath host path with
    | some path => specialPathMatchesAbsolutePath value path
    | none => false
  | .globPattern left, .globPattern right => left == right
  | .globPattern _, _ | _, .globPattern _ => false

namespace FileSystemSandboxPolicy

variable (policy : FileSystemSandboxPolicy)

def hasRootAccess (predicate : FileSystemAccessMode → Bool) : Bool :=
  policy.kind == .restricted &&
    policy.entries.any fun entry => entry.path == .special .root && predicate entry.access

/-- A write entry for the same place goes before an entry. -/
def hasSameTargetWriteOverride (entry : FileSystemSandboxEntry) : Bool :=
  policy.entries.any fun candidate =>
    candidate.access.canWrite && decide (entry.access < candidate.access) &&
      fileSystemPathsShareTarget url host candidate.path entry.path

/-- Some entry takes away from write access to everything. -/
def hasWriteNarrowingEntries : Bool :=
  policy.kind == .restricted &&
    policy.entries.any fun entry =>
      if entry.access.canWrite then false
      else
        match entry.path with
        | .path _ => !policy.hasSameTargetWriteOverride url host entry
        | .globPattern _ => true
        | .special .root => entry.access == .deny
        | .special .minimal | .special (.unknown _ _) => false
        | .special _ => !policy.hasSameTargetWriteOverride url host entry

def hasFullDiskWriteAccess : Bool :=
  match policy.kind with
  | .unrestricted | .externalSandbox => true
  | .restricted =>
    policy.hasRootAccess FileSystemAccessMode.canWrite && !policy.hasWriteNarrowingEntries url host

end FileSystemSandboxPolicy

def fileSystemRoot (context : FileSystemSandboxPolicyContext) : Option PathUri :=
  if context.cwd.lexicalDepth.isSome then some context.cwd.ancestorsLast else none

/-- The URIs that the path of an entry stands for. -/
def resolvedPaths (context : FileSystemSandboxPolicyContext) : FileSystemPath → List PathUri
  | .path path => [path]
  | .globPattern _ => []
  | .special .root => (fileSystemRoot context).toList
  | .special (.projectRoots (some subpath)) =>
    context.workspaceRoots.filterMap fun root => url.joinPosix root subpath
  | .special (.projectRoots none) => context.workspaceRoots
  | .special .tmpdir => context.temporaryDirectories.getD []
  | .special .slashTmp =>
    if context.cwd.inferPathConvention = some .posix then
      (url.joinPosix context.cwd (ascii "/tmp")).toList
    else []
  | .special .minimal | .special (.unknown _ _) => []

namespace FileSystemSandboxPolicy

variable (policy : FileSystemSandboxPolicy)

def resolvedEntries (context : FileSystemSandboxPolicyContext) :
    List (PathUri × FileSystemAccessMode) :=
  policy.entries.flatMap fun entry =>
    ((resolvedPaths url context entry.path).filter fun path =>
      path.inferPathConvention == context.cwd.inferPathConvention).map fun path =>
        (path, entry.access)

/-- The entries with their depths, unless one of them does not show its names. -/
def entriesWithDepth :
    List (PathUri × FileSystemAccessMode) → Option (List (PathUri × FileSystemAccessMode × ℕ))
  | [] => some []
  | (root, access) :: rest =>
    match root.lexicalDepth with
    | some depth => (entriesWithDepth rest).map fun entries => (root, access, depth) :: entries
    | none => if root.isOpaque then entriesWithDepth rest else none

def resolveAccess (path : PathUri) (context : FileSystemSandboxPolicyContext) :
    FileSystemAccessMode :=
  if policy.kind ≠ .restricted then .write
  else
    match context.cwd.inferPathConvention with
    | none => .deny
    | some convention =>
      if path.inferPathConvention ≠ some convention ∨ path.lexicalDepth.isNone ∨
          context.cwd.lexicalDepth.isNone then .deny
      else
        match entriesWithDepth (policy.resolvedEntries url context) with
        | none => .deny
        | some entries =>
          ((Layers.maxByKey (fun entry => toLex (entry.2.2, entry.2.1))
            (entries.filter fun entry => path.startsWith entry.1)).map fun entry =>
              entry.2.1).getD .deny

/-- The protected name that keeps a path from being written. -/
def metadataWriteDenial (path : PathUri) (context : FileSystemSandboxPolicyContext) :
    Option Bytes :=
  if policy.kind ≠ .restricted then none
  else
    let entries := policy.resolvedEntries url context
    let found := (entries.filter fun entry => entry.2.canWrite).findSome? fun entry =>
      protectedMetadataPathNames.findSome? fun name =>
        match url.joinDescendant entry.1 name with
        | some hidden => if path.startsWith hidden then some (hidden, name) else none
        | none => none
    match found with
    | none => none
    | some (hidden, name) =>
      if entries.any fun entry =>
          entry.2.canWrite && path.startsWith entry.1 && entry.1.startsWith hidden then none
      else some name

def canWritePath (path : PathUri) (context : FileSystemSandboxPolicyContext) : Bool :=
  if (policy.resolveAccess url path context).canWrite then
    policy.hasFullDiskWriteAccess url host || (policy.metadataWriteDenial url path context).isNone
  else false

end FileSystemSandboxPolicy

def resolveCandidatePath (path : Bytes) (cwd : AbsolutePath) : Option AbsolutePath :=
  if isAbsolute path then host.fromAbsolutePath path
  else some (host.resolvePathAgainstBase path cwd)

def localTemporaryDirectories : List PathUri :=
  match host.tmpdir with
  | none => []
  | some tmpdir =>
    if tmpdir.isEmpty then []
    else ((host.fromAbsolutePath tmpdir).map url.fromAbsPath).toList

/-- The context of a working directory of this host. -/
def localContext (cwd : AbsolutePath) : FileSystemSandboxPolicyContext where
  cwd := url.fromAbsPath cwd
  workspaceRoots := [url.fromAbsPath cwd]
  temporaryDirectories := some (localTemporaryDirectories url host)

/-- The URI of a path and the context of a working directory. -/
def withLocalPolicyContext (path cwd : Bytes) :
    Option (PathUri × FileSystemSandboxPolicyContext) := do
  let cwd ← host.fromAbsolutePath cwd
  let path ← resolveCandidatePath host path cwd
  return (url.fromAbsPath path, localContext url host cwd)

def FileSystemSandboxPolicy.canWritePathWithCwd (policy : FileSystemSandboxPolicy)
    (path cwd : Bytes) : Bool :=
  match withLocalPolicyContext url host path cwd with
  | some (path, context) => policy.canWritePath url host path context
  | none => false

end

end ExperienceCodex
