import ExperienceCodex.SandboxWrites
import ExperienceCodex.Text

/-!
# Writable roots

A sandbox that knows only roots with read-only subpaths gets a projection of the policy.
-/

namespace ExperienceCodex

open List

/-- What the file system answers about local paths. -/
structure LocalDisk where
  isFile : AbsolutePath → Bool
  isDir : AbsolutePath → Bool
  /-- Something is there, be it a link. -/
  symlinkMetadata : AbsolutePath → Bool
  isSymlink : AbsolutePath → Bool
  pathExists : AbsolutePath → Bool
  canonicalize : AbsolutePath → Option AbsolutePath
  readToString : AbsolutePath → Option String

namespace LocalDisk

variable (disk : LocalDisk)

/-- The path and what lies above it, up to the root. -/
def ancestors (path : AbsolutePath) : List AbsolutePath := path.inits.reverse

def shouldPreserveLogicalPath (path : AbsolutePath) : Bool :=
  (ancestors path).any fun ancestor =>
    disk.symlinkMetadata ancestor && disk.isSymlink ancestor && decide (2 ≤ ancestor.length)

def canonicalizePreservingSymlinks (path : AbsolutePath) : AbsolutePath :=
  match disk.canonicalize path with
  | some canonical =>
    if disk.shouldPreserveLogicalPath path && canonical != path then path else canonical
  | none => path

def normalizeEffectiveAbsolutePath (path : AbsolutePath) : AbsolutePath :=
  match (ancestors path).find? disk.symlinkMetadata with
  | some ancestor =>
    disk.canonicalizePreservingSymlinks ancestor ++ path.drop ancestor.length
  | none => path

/-- There are no symbolic links. -/
def NoLinks : Prop := ∀ path canonical, disk.canonicalize path = some canonical → canonical = path

lemma normalizeEffectiveAbsolutePath_eq (h : disk.NoLinks) (path : AbsolutePath) :
    disk.normalizeEffectiveAbsolutePath path = path := by
  have hcanon (path : AbsolutePath) : disk.canonicalizePreservingSymlinks path = path := by
    unfold canonicalizePreservingSymlinks
    cases hfound : disk.canonicalize path with
    | none => rfl
    | some canonical => simp [h path canonical hfound]
  unfold normalizeEffectiveAbsolutePath
  cases hfound : (ancestors path).find? disk.symlinkMetadata with
  | none => rfl
  | some ancestor =>
    have hmem := mem_of_find?_eq_some hfound
    rw [ancestors, mem_reverse, mem_inits] at hmem
    obtain ⟨rest, rfl⟩ := hmem
    simp only [hcanon, drop_left]

end LocalDisk

/-- A root with the subpaths and names below it that stay read-only. -/
structure WritableRoot where
  root : AbsolutePath
  readOnlySubpaths : List AbsolutePath
  protectedMetadataNames : List Bytes
deriving DecidableEq

/-- The names of a local path. -/
def pathNames (path : AbsolutePath) : List Bytes := path.map Subtype.val

/-- The components of a path below the root of the file system; `..` is one of them. -/
def pathPieces (path : Bytes) : List Bytes :=
  (path.splitOn slashByte).filter fun part => isName part || part == ascii ".."

/-- `Path::starts_with`, which compares the components. -/
def startsWithPath (path : Bytes) (above : AbsolutePath) : Bool :=
  isAbsolute path && decide (pathNames above <+: pathPieces path)

namespace WritableRoot

variable (writable : WritableRoot)

def pathContainsProtectedMetadataName (path : Bytes) : Bool :=
  if startsWithPath path writable.root then
    match ((pathPieces path).drop writable.root.length).head? with
    | some first => writable.protectedMetadataNames.contains first
    | none => false
  else false

def isPathWritable (path : Bytes) : Bool :=
  if ¬ startsWithPath path writable.root then false
  else if writable.readOnlySubpaths.any fun subpath => startsWithPath path subpath then false
  else if writable.pathContainsProtectedMetadataName path then false
  else true

end WritableRoot

section
variable (url : UrlLibrary) (host : LocalHost) (disk : LocalDisk)

def utf8 (s : String) : Bytes := s.toUTF8.data.toList

def resolveGitdirFromFile (dotGit : AbsolutePath) : Option AbsolutePath := do
  let contents ← disk.readToString dotGit
  let (start, gitdirRaw) ← Text.splitOnce [':'] (Text.trim contents).toList
  if Text.trim (String.ofList start) ≠ "gitdir" then none
  else
    let gitdirRaw := Text.trim (String.ofList gitdirRaw)
    if gitdirRaw = "" then none
    else
      let gitdirPath := host.resolvePathAgainstBase (utf8 gitdirRaw) dotGit.dropLast
      if disk.pathExists gitdirPath then some gitdirPath else none

def defaultReadOnlySubpathsForWritableRoot (root : AbsolutePath) (protectMissingDotCodex : Bool) :
    List AbsolutePath :=
  let topLevel (name : String) := host.resolvePathAgainstBase (ascii name) root
  let git := topLevel ".git"
  let gitSubpaths :=
    if disk.isDir git || disk.isFile git then
      (if disk.isFile git then (resolveGitdirFromFile host disk git).toList else []) ++ [git]
    else []
  let agents := topLevel ".agents"
  let codex := topLevel ".codex"
  (gitSubpaths ++ (if disk.isDir agents then [agents] else []) ++
    if protectMissingDotCodex || disk.isDir codex then [codex] else []).eraseDups

def resolveFileSystemSpecialPath (cwd : Option AbsolutePath) :
    FileSystemSpecialPath → Option AbsolutePath
  | .root | .minimal | .unknown _ _ => none
  | .projectRoots (some subpath) => cwd.map fun cwd => host.resolvePathAgainstBase subpath cwd
  | .projectRoots none => cwd
  | .tmpdir =>
    match host.tmpdir with
    | none => none
    | some tmpdir => if tmpdir.isEmpty then none else host.fromAbsolutePath tmpdir
  | .slashTmp =>
    let slashTmp := walkPath [] (ascii "/tmp")
    if disk.isDir slashTmp then some slashTmp else none

def resolveEntryPath (cwd : Option AbsolutePath) : FileSystemPath → Option AbsolutePath
  | .special .root => cwd.map fun _ => []
  | .path path => url.toAbsPath host path
  | .globPattern _ => none
  | .special value => resolveFileSystemSpecialPath host disk cwd value

namespace FileSystemSandboxPolicy

variable (policy : FileSystemSandboxPolicy)

def resolvedEntriesWithCwd (cwd : Bytes) : List (AbsolutePath × FileSystemAccessMode) :=
  policy.entries.filterMap fun entry =>
    (resolveEntryPath url host disk (host.fromAbsolutePath cwd) entry.path).map fun path =>
      (path, entry.access)

def protectedMetadataNamesForWritableRoot (root : AbsolutePath)
    (rawWritableRoots : List AbsolutePath) (cwd : Bytes) : List Bytes :=
  protectedMetadataPathNames.filter fun name =>
    (root :: rawWritableRoots).all fun root =>
      !policy.canWritePathWithCwd url host (host.resolvePathAgainstBase name root).text cwd

/-- The path below a root that an entry without write access closes. -/
def carveout (root : AbsolutePath) (rawWritableRoots : List AbsolutePath) (path : AbsolutePath) :
    Option AbsolutePath :=
  let effectivePath := disk.normalizeEffectiveAbsolutePath path
  let rawCarveoutPath :=
    -- Below the root of the file system the effective path is kept.
    if root = [] then none
    else if path = root then none
    else if root <+: path then some path
    else rawWritableRoots.findSome? fun rawRoot =>
      if rawRoot <+: path ∧ path ≠ rawRoot then some (root ++ path.drop rawRoot.length) else none
  match rawCarveoutPath with
  | some path => some path
  | none => if effectivePath = root ∨ ¬ root <+: effectivePath then none else some effectivePath

def getWritableRootsWithCwd (cwd : Bytes) : List WritableRoot :=
  if policy.hasFullDiskWriteAccess url host then []
  else
    let resolvedEntries := policy.resolvedEntriesWithCwd url host disk cwd
    let writableEntries := (resolvedEntries.filter fun entry => entry.2.canWrite &&
      policy.canWritePathWithCwd url host entry.1.text cwd).map Prod.fst
    (writableEntries.map disk.normalizeEffectiveAbsolutePath).eraseDups.map fun root =>
      let rawWritableRoots := writableEntries.filter fun path =>
        disk.normalizeEffectiveAbsolutePath path == root
      let protectMissingDotCodex :=
        match host.fromAbsolutePath cwd with
        | some cwd => disk.normalizeEffectiveAbsolutePath cwd == root
        | none => false
      let defaults := (defaultReadOnlySubpathsForWritableRoot host disk root
        protectMissingDotCodex).filter fun path =>
          !resolvedEntries.any fun entry => entry.1 == path
      let carveouts := (resolvedEntries.filter fun entry => !entry.2.canWrite &&
        !policy.canWritePathWithCwd url host entry.1.text cwd).filterMap fun entry =>
          carveout disk root rawWritableRoots entry.1
      { root
        readOnlySubpaths := (defaults ++ carveouts).eraseDups
        protectedMetadataNames :=
          policy.protectedMetadataNamesForWritableRoot url host root rawWritableRoots cwd }

end FileSystemSandboxPolicy

end

section
variable {url : UrlLibrary} {host : LocalHost}

lemma walkPath_names (start path : AbsolutePath) :
    (path.map Subtype.val).foldl walkPart start = start ++ path := by
  induction path generalizing start with
  | nil => simp
  | cons name path ih =>
    have hstep : walkPart start name.val = start ++ [name] := by simp [walkPart, name.property]
    rw [map_cons, foldl_cons, hstep, ih, append_assoc, singleton_append]

lemma slash_notMem_name (name : PathName) : slashByte ∉ name.val := by
  have hname := name.property
  simp only [isName, Bool.and_eq_true, Bool.not_eq_true', contains_eq_mem,
    decide_eq_false_iff_not] at hname
  exact hname.1.1.2

lemma intercalate_cons_eq (part : Bytes) (parts : List Bytes) :
    [slashByte].intercalate (part :: parts) =
      part ++ parts.flatMap fun name => slashByte :: name := by
  induction parts generalizing part with
  | nil => simp
  | cons next parts ih =>
    rw [intercalate_cons_cons, ih next]
    simp

lemma splitOn_text {path : AbsolutePath} (h : path ≠ []) :
    path.text.splitOn slashByte = [] :: path.map Subtype.val := by
  have htext : path.text = [slashByte].intercalate ([] :: path.map Subtype.val) := by
    obtain ⟨name, rest, rfl⟩ := exists_cons_of_ne_nil h
    rw [intercalate_cons_eq, nil_append, flatMap_map]
    rfl
  rw [htext]
  refine splitOn_intercalate slashByte ?_ (by simp)
  intro part hpart
  rcases mem_cons.mp hpart with rfl | hpart
  · simp
  · obtain ⟨name, -, rfl⟩ := mem_map.mp hpart
    exact slash_notMem_name name

lemma walkPath_text (path : AbsolutePath) : walkPath [] path.text = path := by
  cases path with
  | nil => rfl
  | cons name rest =>
    rw [walkPath, splitOn_text (by simp), foldl_cons]
    exact walkPath_names [] (name :: rest)

/-- An absolute path is the path that its components lead to. -/
lemma fromAbsolutePath_of_isAbsolute {path : Bytes} (h : isAbsolute path = true) :
    host.fromAbsolutePath path = some (walkPath [] path) := by
  have hkept : host.maybeExpandHomeDirectory path = path := by
    unfold LocalHost.maybeExpandHomeDirectory
    split
    next => simp [isAbsolute, slashByte] at h
    next => rfl
  simp [LocalHost.fromAbsolutePath, hkept, h]

/-- Joining a plain name to a local path. -/
lemma resolvePathAgainstBase_plain {name : Bytes} (hname : isPlainName name = true)
    (root : AbsolutePath) :
    host.resolvePathAgainstBase name root = root ++ [⟨name, (plain_bytes hname).1⟩] := by
  obtain ⟨hisName, hbytes⟩ := plain_bytes hname
  obtain ⟨-, -, hrel⟩ := plain_relative hname
  have hhome : host.maybeExpandHomeDirectory name = name := by
    unfold LocalHost.maybeExpandHomeDirectory
    split
    next rest home _ =>
      rw [isPlainName, Bool.and_eq_true, all_eq_true] at hname
      exact absurd (hname.2 126 (by simp)) (by decide)
    next => rfl
  have hsplit : name.splitOn slashByte = [name] :=
    splitOn_eq_singleton fun hmem => (hbytes slashByte hmem).2.2.2 rfl
  simp [LocalHost.resolvePathAgainstBase, hhome, absolutizeFrom, hrel, walkPath, hsplit,
    walkPart, hisName]

lemma withLocalPolicyContext_of_isAbsolute {path cwd : Bytes} {base : AbsolutePath}
    (h : isAbsolute path = true) (hcwd : host.fromAbsolutePath cwd = some base) :
    withLocalPolicyContext url host path cwd =
      some (url.fromAbsPath (walkPath [] path), localContext url host base) := by
  simp [withLocalPolicyContext, hcwd, resolveCandidatePath, h, fromAbsolutePath_of_isAbsolute h]

lemma withLocalPolicyContext_text (path : AbsolutePath) {cwd : Bytes} {base : AbsolutePath}
    (hcwd : host.fromAbsolutePath cwd = some base) :
    withLocalPolicyContext url host path.text cwd =
      some (url.fromAbsPath path, localContext url host base) := by
  rw [withLocalPolicyContext_of_isAbsolute path.isAbsolute_text hcwd, walkPath_text]

end

end ExperienceCodex
