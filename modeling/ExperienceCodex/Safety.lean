import ExperienceCodex.Domain

/-!
# Workspace containment

Every path that a workflow step names goes through `safeJoin`, which refuses whatever could
leave the workspace.  Paths are Unix paths.  The file system is seen through a record of the
three questions the code asks it.
-/

namespace ExperienceCodex

open Text

/-- What the code asks of the file system. -/
structure FsView where
  canonicalize : String → Except String String
  pathExists : String → Bool
  isFile : String → Bool

inductive FsGuardError where
  | empty
  | absolute
  | driveRelative
  | unc
  | escapes
  | ads
  | reserved
  | symlinkEscape
  | workspaceMissing
  | io (error : String)
deriving DecidableEq

def FsGuardError.display : FsGuardError → String
  | empty => "empty path"
  | absolute => "absolute path rejected"
  | driveRelative => "drive-relative path rejected"
  | unc => "UNC path rejected"
  | escapes => "path escapes the workspace"
  | ads => "alternate data stream rejected"
  | reserved => "reserved device name rejected"
  | symlinkEscape => "symlink escapes the workspace"
  | workspaceMissing => "workspace does not exist"
  | io error => "io error: " ++ error

def toAsciiLowercase (text : String) : String := String.ofList (text.toList.map Char.toLower)

def toAsciiUppercase (text : String) : String := String.ofList (text.toList.map Char.toUpper)

/-- `Path::join` and `PathBuf::push`: an absolute path replaces the base. -/
def pathJoin (base path : String) : String :=
  if startsWith path "/" then path
  else if base.isEmpty || endsWith base "/" then base ++ path
  else base ++ "/" ++ path

/-- The components of a path; repeated separators and inner `.` components are skipped. -/
def pathComponents (path : String) : List String :=
  let segments := splitAtChars (· == '/') path
  let kept (segment : String) : Bool := segment ≠ "" && segment ≠ "."
  match segments with
  | "" :: rest => if path.isEmpty then [] else "/" :: rest.filter kept
  | "." :: rest => "." :: rest.filter kept
  | segments => segments.filter kept

/-- `Path::starts_with`: a prefix by whole components. -/
def pathStartsWith (path base : String) : Bool :=
  decide (pathComponents base <+: pathComponents path)

/-- `Path::parent`, on the components of a path. -/
def componentsParent (components : List String) : Option (List String) :=
  match components.getLast? with
  | none => none
  | some last => if last = "/" then none else some components.dropLast

/-- The path with the given components. -/
def ofComponents : List String → String
  | [] => ""
  | "/" :: rest => "/" ++ String.intercalate "/" rest
  | components => String.intercalate "/" components

/-- Whether a path component is a reserved device name. -/
def isReservedComponent (component : String) : Bool :=
  let stem := toAsciiUppercase (trim (String.ofList (component.toList.takeWhile (· ≠ '.'))))
  stem = "CON" || stem = "PRN" || stem = "AUX" || stem = "NUL" ||
    match stem.toList with
    | ['C', 'O', 'M', digit] | ['L', 'P', 'T', digit] => digit.isDigit
    | _ => false

/-- The checks on the text of a relative path, before the file system is asked. -/
def relativeTextError (text : String) : Option FsGuardError :=
  if text.isEmpty then some .empty
  else if startsWith text "\\\\" || startsWith text "//" then some .unc
  else
    let drive : Option FsGuardError :=
      match text.toList with
      | letter :: ':' :: rest =>
        if letter.isAlpha then
          match rest with
          | [] => some .driveRelative
          | c :: _ => if c ≠ '\\' && c ≠ '/' then some .driveRelative else some .absolute
        else none
      | _ => none
    match drive with
    | some error => some error
    | none => if startsWith text "/" || startsWith text "\\" then some .absolute else none

/-- Push the components of a relative path one by one. -/
def pushComponents (candidate : String) : List String → Except FsGuardError String
  | [] => .ok candidate
  | raw :: rest =>
    let component := trim raw
    if component.isEmpty || component = "." then pushComponents candidate rest
    else if component.toList.contains ':' then .error .ads
    else if component = ".." then .error .escapes
    else if isReservedComponent component then .error .reserved
    else pushComponents (pathJoin candidate component) rest

/-- Whether a lowercased path text lies under the lowercased root text. -/
def underRoot (rootText pathText : String) : Bool :=
  pathText = rootText || startsWith pathText (rootText ++ "\\") ||
    startsWith pathText (rootText ++ "/")

/-- The symlink check on the nearest existing ancestor of a path. -/
def ancestorCheck (fs : FsView) (rootText : String) : ℕ → String → Except FsGuardError Unit
  | 0, _ => .ok ()
  | fuel + 1, ancestor =>
    if fs.pathExists ancestor then
      match fs.canonicalize ancestor with
      | .error error => .error (.io error)
      | .ok canonical =>
        if underRoot rootText (toAsciiLowercase canonical) then .ok ()
        else .error .symlinkEscape
    else
      match componentsParent (pathComponents ancestor) with
      | none => .ok ()
      | some parent => ancestorCheck fs rootText fuel (ofComponents parent)

/-- Join a relative path under the workspace, refusing escape vectors. -/
def safeJoin (fs : FsView) (workspace relative : String) : Except FsGuardError String := do
  let text := trim relative
  match relativeTextError text with
  | some error => throw error
  | none =>
    let canonicalRoot ←
      match fs.canonicalize workspace with
      | .error _ => throw FsGuardError.workspaceMissing
      | .ok root => pure root
    let rootText := toAsciiLowercase
      (String.ofList (canonicalRoot.toList.rdropWhile fun c => c == '\\' || c == '/'))
    let raws := splitAtChars (fun c => c == '/' || c == '\\') text
    let candidate ← pushComponents canonicalRoot raws
    if !underRoot rootText (toAsciiLowercase candidate) then throw FsGuardError.escapes
    -- Each round drops a component, so their number bounds the rounds.
    ancestorCheck fs rootText ((pathComponents candidate).length + 1) candidate
    return candidate

end ExperienceCodex
