import ExperienceCodex.FileTree

/-!
# File operations

The operations of a Unix file system on a file tree.  A path is walked component by component, and
symbolic links are followed up to a bound on their number.  Opening a file follows a link in the
last component too, also when it leads to a place where there is nothing yet; making a directory,
renaming and unlinking act on the entry that the last component names.

No operation fails for want of space or permission.
-/

namespace ExperienceCodex.FileTree

/-- What an operation may fail with. -/
inductive IoError where
  | notFound
  | alreadyExists
  | notADirectory
  | isADirectory
  | invalidInput
  | directoryNotEmpty
  | tooManyLinks
  | notARegularFile
deriving DecidableEq

def IoError.display : IoError → String
  | notFound => "No such file or directory (os error 2)"
  | alreadyExists => "File exists (os error 17)"
  | notADirectory => "Not a directory (os error 20)"
  | isADirectory => "Is a directory (os error 21)"
  | invalidInput => "Invalid argument (os error 22)"
  | directoryNotEmpty => "Directory not empty (os error 39)"
  | tooManyLinks => "Too many levels of symbolic links (os error 40)"
  | notARegularFile =>
    "the source path is neither a regular file nor a symlink to a regular file"

/-- Where a path leads: to something, to a name in a directory that has no such entry, or
nowhere. -/
inductive Outcome (N : Type) where
  | found (l : Loc N)
  | missing (l : Loc N)
  | failed (error : IoError)
deriving DecidableEq

/-- How many links are followed for one path. -/
def maxLinks : ℕ := 40

namespace Tree

variable {N α : Type} [DecidableEq N] (t : Tree N α)

/-- Walk from a directory; at a link, go on with `follow`. -/
def walk (follow : Loc N → List (PathStep N) → Outcome N) :
    Loc N → List (PathStep N) → Outcome N
  | current, [] => .found current
  | current, .here :: rest => walk follow current rest
  | current, .up :: rest => walk follow current.dropLast rest
  | current, .down name :: rest =>
    match t.node (current ++ [name]) with
    | some .dir => walk follow (current ++ [name]) rest
    | some (.file _) =>
      if rest.isEmpty then .found (current ++ [name]) else .failed .notADirectory
    | some (.link target) =>
      follow (if target.absolute then [] else current) (target.steps ++ rest)
    | none => if rest.isEmpty then .missing (current ++ [name]) else .failed .notFound

/-- Walk a path and follow at most the given number of links. -/
def resolve : ℕ → Loc N → List (PathStep N) → Outcome N
  | 0 => t.walk fun _ _ => .failed .tooManyLinks
  | links + 1 => t.walk (resolve links)

section
variable (start : Loc N)

/-- Where a path leads when all its links are followed; `start` is the current directory, which
may be gone. -/
def locate (route : Route N) : Outcome N :=
  if route.absolute then t.resolve maxLinks [] route.steps
  else if t.isDir start then t.resolve maxLinks start route.steps
  else .failed .notFound

/-- `canonicalize`: the place of something that exists. -/
def canonicalize (route : Route N) : Except IoError (Loc N) :=
  match t.locate start route with
  | .found l => .ok l
  | .missing _ => .error .notFound
  | .failed error => .error error

def pathExists (route : Route N) : Bool :=
  match t.locate start route with
  | .found _ => true
  | _ => false

def pathIsDir (route : Route N) : Bool :=
  match t.locate start route with
  | .found l => t.isDir l
  | _ => false

/-- The entry that the last component of a path names, which may be a link or missing. -/
def entry (route : Route N) : Except IoError (Loc N) :=
  match route.steps.getLast? with
  | some (.down name) =>
    match t.locate start { route with steps := route.steps.dropLast } with
    | .found parent => if t.isDir parent then .ok (parent ++ [name]) else .error .notADirectory
    | .missing _ => .error .notFound
    | .failed error => .error error
  | _ => t.canonicalize start route

/-- The place that is written when a path is opened for writing and created if it is missing. -/
def writePlace (route : Route N) : Except IoError (Loc N) :=
  match t.locate start route with
  | .found l => if t.isDir l then .error .isADirectory else .ok l
  | .missing l => .ok l
  | .failed error => .error error

/-- `fs::read`. -/
def readFile (route : Route N) : Except IoError α :=
  match t.canonicalize start route with
  | .error error => .error error
  | .ok l =>
    match t.content l with
    | some content => .ok content
    | none => .error .isADirectory

/-- Write a file, given what it holds and what it is to hold. -/
def writeFile (route : Route N) (update : Option α → α) : Except IoError (Tree N α) :=
  (t.writePlace start route).map fun l => t.putFile l (update (t.content l))

/-- `fs::copy`.  Opening the target truncates it, so a file copied onto itself is emptied. -/
def copy [EmptyCollection α] (source target : Route N) : Except IoError (Tree N α) :=
  match t.canonicalize start source with
  | .error error => .error error
  | .ok s =>
    match t.content s with
    | none => .error .notARegularFile
    | some content =>
      (t.writePlace start target).map fun l => t.putFile l (if l = s then ∅ else content)

/-- `fs::create_dir`. -/
def mkdir (route : Route N) : Except IoError (Tree N α) :=
  match t.entry start route with
  | .error error => .error error
  | .ok l => if (t.node l).isNone then .ok (t.makeDir l) else .error .alreadyExists

/-- `fs::create_dir_all`, on the reversed components.  The second part of the result is the tree
that is left behind. -/
def createDirAllRev (absolute : Bool) :
    List (PathStep N) → Except IoError Unit × Tree N α
  | [] => (.ok (), t)
  | step :: rest =>
    let route : Route N := { absolute, steps := (step :: rest).reverse }
    match t.mkdir start route with
    | .ok made => (.ok (), made)
    | .error .notFound =>
      match createDirAllRev absolute rest with
      | (.error error, above) => (.error error, above)
      | (.ok (), above) =>
        match above.mkdir start route with
        | .ok made => (.ok (), made)
        | .error error =>
          if above.pathIsDir start route then (.ok (), above) else (.error error, above)
    | .error error => if t.pathIsDir start route then (.ok (), t) else (.error error, t)

def createDirAll (route : Route N) : Except IoError Unit × Tree N α :=
  t.createDirAllRev start route.absolute route.steps.reverse

/-- Whether there is nothing below a place. -/
def isEmptyDir (l : Loc N) : Bool :=
  t.entries.all fun entry => !decide (l <+: entry.1) || decide (entry.1 = l)

/-- `fs::rename`. -/
def rename (source target : Route N) : Except IoError (Tree N α) :=
  match t.entry start source, t.entry start target with
  | .error error, _ => .error error
  | .ok _, .error error => .error error
  | .ok s, .ok d =>
    match t.node s, t.node d with
    | none, _ => .error .notFound
    | some _, none =>
      if s <+: d then .error .invalidInput else .ok (t.move s d)
    | some .dir, some .dir =>
      if s = d then .ok t
      else if s <+: d then .error .invalidInput
      else if t.isEmptyDir d then .ok (t.move s d)
      else .error .directoryNotEmpty
    | some .dir, some _ => .error .notADirectory
    | some _, some .dir => .error .isADirectory
    | some _, some _ => if s = d then .ok t else .ok (t.move s d)

/-- `fs::remove_file`. -/
def removeFile (route : Route N) : Except IoError (Tree N α) :=
  match t.entry start route with
  | .error error => .error error
  | .ok l =>
    if (t.node l).isNone then .error .notFound
    else if t.isDir l then .error .isADirectory
    else .ok (t.removeNode l)

/-- `fs::remove_dir_all`.  A link is removed, not followed. -/
def removeDirAll (route : Route N) : Except IoError (Tree N α) :=
  match t.entry start route with
  | .error error => .error error
  | .ok l =>
    match t.node l with
    | none => .error .notFound
    | some .dir => .ok (t.removeTree l)
    | some (.link _) => .ok (t.removeNode l)
    | some (.file _) => .error .notADirectory

end

end Tree

end ExperienceCodex.FileTree
