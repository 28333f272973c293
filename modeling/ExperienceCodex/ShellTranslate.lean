import ExperienceCodex.Induce
import ExperienceCodex.PatchParser

/-!
# Translating observed tool calls

An observed tool call is kept for learning if it says the same as a list of canonical steps.  A
patch that only adds files becomes one `write_file` step for each of them.  A shell command becomes
one step for each of its segments.
-/

namespace ExperienceCodex.ShellTranslate

open ApplyPatch Lines

inductive TranslateReject where
  | unsupportedTool (tool : String)
  | unsupportedCommand (tool command reason : String)
deriving DecidableEq, Repr

/-- The step that writes a file. -/
def writeFile (path content : Line) : ObservedStep where
  action := "write_file"
  args := .object [("content", .string (String.ofList content)),
    ("path", .string (String.ofList path))]
  unique := rfl

/-- The loop over the lines of a patch. -/
structure PatchScan where
  translated : List ObservedStep := []
  currentPath : Option Line := none
  content : List Line := []

namespace PatchScan

def flush (scan : PatchScan) : PatchScan where
  translated := scan.translated ++
    scan.currentPath.toList.map fun path => writeFile path (['\n'].intercalate scan.content)
  currentPath := scan.currentPath
  content := []

def line (scan : PatchScan) (line : Line) : Except String PatchScan :=
  match strip "*** Add File:" line with
  | some rest => .ok { scan.flush with currentPath := some (trim rest) }
  | none =>
    if "*** Update File:".toList <+: line ∨ "*** Delete File:".toList <+: line then
      .error "only 'Add File' hunks are translatable"
    else if "*** ".toList <+: line then .ok scan
    else if scan.currentPath.isNone then .ok scan
    else
      match line with
      | '+' :: text => .ok { scan with content := scan.content ++ [text] }
      | _ => .ok scan

end PatchScan

/-- The steps for the lines of a patch, or the reason why there are none. -/
def translatePatchText (patch : Line) : Except String (List ObservedStep) := do
  let scan ← (lines patch).foldlM PatchScan.line {}
  if scan.flush.translated.isEmpty then .error "no added file"
  else return scan.flush.translated

def patchBody (step : ObservedStep) : Option String :=
  ((step.args.get "input").or (step.args.get "patch")).bind Json.asStr

def translatePatch (floatText : F64 → String) (step : ObservedStep) :
    Except TranslateReject (List ObservedStep) :=
  match patchBody step with
  | none =>
    .error (.unsupportedCommand "apply_patch" (step.args.text floatText) "no patch body")
  | some patch =>
    (translatePatchText patch.toList).mapError (.unsupportedCommand "apply_patch" patch)

/-- `str::contains`. -/
def contains (text : Line) (pattern : String) : Bool :=
  decide (pattern.toList <:+: text)

/-- `str::trim_matches` with a character. -/
def trimMatches (c : Char) (text : Line) : Line :=
  (text.dropWhile (· == c)).rdropWhile (· == c)

def lowercase (text : Line) : Line :=
  Text.lowerFrom [] text

def startsWithDash (token : Line) : Bool :=
  token.head? == some '-'

/-- The loop of `split_redirect`. -/
def splitRedirectFrom : Bool → Bool → Line → Option (Line × Line)
  | _, _, [] => none
  | inSingle, inDouble, c :: rest =>
    let keep (parts : Line × Line) : Line × Line := (c :: parts.1, parts.2)
    if c == '\'' && !inDouble then (splitRedirectFrom (!inSingle) inDouble rest).map keep
    else if c == '"' && !inSingle then (splitRedirectFrom inSingle (!inDouble) rest).map keep
    else if c == '>' && !inSingle && !inDouble then some ([], rest)
    else (splitRedirectFrom inSingle inDouble rest).map keep

def splitRedirect (segment : Line) : Option (Line × Line) :=
  splitRedirectFrom false false segment

/-- The tokens read so far and the one being read. -/
def endToken (tokens : List Line) (current : Line) : List Line :=
  if current.isEmpty then tokens else tokens ++ [current]

/-- The loop of `tokenize`. -/
def tokenizeFrom : List Line → Line → Option Char → Line → Except String (List Line)
  | tokens, current, none, [] => .ok (endToken tokens current)
  | _, _, some _, [] => .error "unbalanced quote"
  | tokens, current, some active, c :: rest =>
    if c = active then tokenizeFrom tokens current none rest
    else tokenizeFrom tokens (current ++ [c]) (some active) rest
  | tokens, current, none, c :: rest =>
    if c = '"' ∨ c = '\'' then tokenizeFrom tokens current (some c) rest
    else if Text.isWhitespace c then tokenizeFrom (endToken tokens current) [] none rest
    else tokenizeFrom tokens (current ++ [c]) none rest

def tokenize (segment : Line) : Except String (List Line) :=
  tokenizeFrom [] [] none segment

def twoPaths (rest : List Line) : Except String (Line × Line) :=
  match rest.filter fun token => !startsWithDash token with
  | source :: target :: _ => .ok (source, target)
  | _ => .error "expected exactly two paths"

/-- `str::split_once` at an equals sign: the text behind it. -/
def behindEquals (token : Line) : Option Line :=
  match token.dropWhile (· != '=') with
  | [] => none
  | _ :: raw => some raw

/-- What one token says of the wanted flags: their value, given the tokens behind it. -/
def flagHere (flags : List String) (token : Line) (rest : List Line) :
    Option (Except String Line) :=
  let lowered := lowercase token
  if flags.any fun flag => flag.toList == lowered then
    match rest with
    | value :: _ => some (.ok value)
    | [] => some (.error (String.ofList lowered ++ " without a value"))
  else if flags.any fun flag => (flag ++ "=").toList.isPrefixOf lowered then
    (behindEquals token).map .ok
  else none

def flagList : List String → String
  | [] => "[]"
  | flag :: flags =>
    "[\"" ++ flag ++ "\"" ++ String.join (flags.map fun more => ", \"" ++ more ++ "\"") ++ "]"

def flagValueFrom (flags : List String) : List Line → Except String Line
  | [] => .error ("missing one of " ++ flagList flags)
  | token :: rest =>
    match flagHere flags token rest with
    | some result => result
    | none => flagValueFrom flags rest

def flagValue (rest : List Line) (flags : List String) : Except String Line :=
  flagValueFrom flags rest

lemma uniqueKeysArray_strings (tokens : List Line) :
    Json.uniqueKeysArray (tokens.map fun token => .string (String.ofList token)) = true := by
  induction tokens with
  | nil => rfl
  | cons token tokens ih =>
    rw [List.map_cons, Json.uniqueKeysArray, ih]
    rfl

/-- The step that runs a program. -/
def execStep (program : Line) (args : List Line) : ObservedStep where
  action := "exec"
  args := .object [("args", .array (args.map fun token => .string (String.ofList token))),
    ("program", .string (String.ofList program))]
  unique := by
    rw [Json.uniqueKeys, Json.uniqueKeysMembers, Json.uniqueKeys, uniqueKeysArray_strings]
    rfl

/-- The step that moves or copies a file. -/
def transferFile (action : String) (source target : Line) : ObservedStep where
  action := action
  args := .object [("source", .string (String.ofList source)),
    ("target", .string (String.ofList target))]
  unique := rfl

/-- The step that makes a directory or deletes a file. -/
def pathStep (action : String) (path : Line) : ObservedStep where
  action := action
  args := .object [("path", .string (String.ofList path))]
  unique := rfl

/-- The last token that is no flag. -/
def lastPath (rest : List Line) (reason : String) : Except String Line :=
  match rest.reverse.find? fun token => !startsWithDash token with
  | some path => .ok path
  | none => .error reason

def pathFlags : List String := ["-path", "-literalpath"]

/-- A segment whose output goes to a file. -/
def translateRedirect (left right : Line) : Except String ObservedStep := do
  let tokens ← tokenize left
  let program := lowercase (tokens.headD [])
  let target := trimMatches '\'' (trimMatches '"' (trim right))
  if target.isEmpty then .error "redirect without a path"
  else if ["echo", "write-output", "printf"].any fun name => name.toList == program then
    return writeFile target ([' '].intercalate tokens.tail)
  else .error ("'" ++ String.ofList program ++ "' with redirect is not translatable")

/-- A segment that is a program and its operands. -/
def translateCommand (segment program : Line) (rest : List Line) : Except String ObservedStep :=
  let isOne (names : List String) : Bool := names.any fun name => name.toList == program
  if isOne ["git", "python", "python3", "py", "node", "cargo", "go", "npm", "npx"] then
    .ok (execStep program rest)
  else if isOne ["mv", "move"] then do
    let (source, target) ← twoPaths rest
    return transferFile "move_file" source target
  else if isOne ["move-item"] then do
    let source ← flagValue rest pathFlags
    let target ← flagValue rest ["-destination"]
    return transferFile "move_file" source target
  else if isOne ["cp", "copy"] then do
    let (source, target) ← twoPaths rest
    return transferFile "copy_file" source target
  else if isOne ["copy-item"] then do
    let source ← flagValue rest pathFlags
    let target ← flagValue rest ["-destination"]
    return transferFile "copy_file" source target
  else if isOne ["mkdir", "md"] then do
    let path ← lastPath rest "mkdir without a path"
    return pathStep "mkdir" path
  else if isOne ["new-item"] then
    if !contains (lowercase segment) "directory" then
      .error "new-item is only translatable for -ItemType Directory"
    else do
      let path ← flagValue rest pathFlags
      return pathStep "mkdir" path
  else if isOne ["rm", "del", "erase"] then do
    let path ← lastPath rest "rm without a path"
    return pathStep "delete_file" path
  else if isOne ["remove-item"] then do
    let path ← flagValue rest pathFlags
    return pathStep "delete_file" path
  else if isOne ["set-content"] then do
    let path ← flagValue rest pathFlags
    let content := ((flagValue rest ["-value"]).toOption).getD []
    return writeFile path content
  else .error ("'" ++ String.ofList program ++ "' is not in the translatable vocabulary")

def translateSegment (segment : Line) : Except String ObservedStep :=
  match splitRedirect segment with
  | some (left, right) => translateRedirect left right
  | none => do
    match ← tokenize segment with
    | [] => .error "empty segment"
    | first :: rest => translateCommand segment (lowercase first) rest

/-- `str::split` at two ampersands. -/
def splitAnd : Line → List Line
  | [] => [[]]
  | '&' :: '&' :: rest => [] :: splitAnd rest
  | c :: rest => (splitAnd rest).modifyHead (c :: ·)

/-- The segments of a command, as the code cuts it. -/
def segments (command : Line) : List Line :=
  (splitAnd command).flatMap fun part => part.splitOn ';'

def isCompound (command : Line) : Bool :=
  contains command "|" || contains command "$(" || contains command "`" || contains command "*" ||
    contains command "&" && !contains command "&&"

def translateSegments : List Line → Except String (List ObservedStep)
  | [] => .ok []
  | segment :: rest =>
    let segment := trim segment
    if segment.isEmpty then translateSegments rest
    else if "cd ".toList.isPrefixOf segment then
      .error "cd is not part of a canonical workflow"
    else do
      let step ← translateSegment segment
      let steps ← translateSegments rest
      return step :: steps

def translateCommandText (command : Line) : Except String (List ObservedStep) :=
  if isCompound command then .error "pipe, substitution, glob or background job"
  else do
    let translated ← translateSegments (segments command)
    if translated.isEmpty then .error "empty command" else return translated

def commandText (step : ObservedStep) : Option String :=
  ((step.args.get "command").bind Json.asStr).or ((step.args.get "cmd").bind Json.asStr)

def translateShell (floatText : F64 → String) (step : ObservedStep) :
    Except TranslateReject (List ObservedStep) :=
  match commandText step with
  | none =>
    .error (.unsupportedCommand step.action (step.args.text floatText) "no command string")
  | some command =>
    (translateCommandText command.toList).mapError (.unsupportedCommand step.action command)

end ExperienceCodex.ShellTranslate
