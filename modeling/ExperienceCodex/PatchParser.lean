import ExperienceCodex.Fallible
import ExperienceCodex.Lines
import ExperienceCodex.Text

/-!
# The parser of apply_patch

A patch is read line by line.  A header line, with white space around it ignored, begins a hunk
that adds, deletes or updates a file; the lines after it belong to the hunk.  The text may stand in
a here-document, whose first and last lines are dropped.
-/

namespace ExperienceCodex.ApplyPatch

open Lines

/-- A text or a line of it. -/
abbrev Line := List Char

def trimEnd (text : Line) : Line :=
  text.rdropWhile Text.isWhitespace

def trim (text : Line) : Line :=
  trimEnd (text.dropWhile Text.isWhitespace)

/-- `str::strip_prefix`. -/
def strip (marker : String) (text : Line) : Option Line :=
  if marker.toList <+: text then some (text.drop marker.toList.length) else none

def beginPatchMarker := "*** Begin Patch"
def endPatchMarker := "*** End Patch"
def addFileMarker := "*** Add File: "
def deleteFileMarker := "*** Delete File: "
def updateFileMarker := "*** Update File: "
def moveToMarker := "*** Move to: "
def eofMarker := "*** End of File"
def changeContextMarker := "@@ "
def emptyChangeContextMarker := "@@"
def environmentIdMarker := "*** Environment ID:"

inductive ParseError where
  | invalidPatchError (message : String)
  | invalidHunkError (message : String) (lineNumber : ℕ)
deriving DecidableEq, Repr

structure UpdateFileChunk where
  /-- A line that narrows down the position of the chunk. -/
  changeContext : Option Line := none
  oldLines : List Line := []
  newLines : List Line := []
  /-- The positions of the context lines among the old and the new lines. -/
  contextLineIndices : List (ℕ × ℕ) := []
  isEndOfFile : Bool := false
deriving DecidableEq, Repr

namespace UpdateFileChunk

def isEmpty (chunk : UpdateFileChunk) : Bool :=
  chunk.oldLines.isEmpty && chunk.newLines.isEmpty

def pushContextLine (line : Line) (chunk : UpdateFileChunk) : UpdateFileChunk :=
  { chunk with
    contextLineIndices :=
      chunk.contextLineIndices ++ [(chunk.oldLines.length, chunk.newLines.length)]
    oldLines := chunk.oldLines ++ [line]
    newLines := chunk.newLines ++ [line] }

def pushNewLine (line : Line) (chunk : UpdateFileChunk) : UpdateFileChunk :=
  { chunk with newLines := chunk.newLines ++ [line] }

def pushOldLine (line : Line) (chunk : UpdateFileChunk) : UpdateFileChunk :=
  { chunk with oldLines := chunk.oldLines ++ [line] }

end UpdateFileChunk

inductive Hunk where
  | addFile (path contents : Line)
  | deleteFile (path : Line)
  | updateFile (path : Line) (movePath : Option Line) (chunks : List UpdateFileChunk)
deriving DecidableEq, Repr

/-- The path of the file that a hunk is about. -/
def Hunk.source : Hunk → Line
  | addFile path _ | deleteFile path | updateFile path _ _ => path

inductive StreamingParserMode where
  | notStarted
  | startedPatch
  | addFile
  | deleteFile
  | updateFile (hunkLineNumber : ℕ)
  | endedPatch
deriving DecidableEq, Repr

structure StreamingPatchParser where
  lineBuffer : Line := []
  mode : StreamingParserMode := .notStarted
  hunks : List Hunk := []
  environmentId : Option Line := none
  lineNumber : ℕ := 0
deriving DecidableEq, Repr

/-- `chunks.last().is_some_and(test)`. -/
def lastChunk (chunks : List UpdateFileChunk) (test : UpdateFileChunk → Bool) : Bool :=
  chunks.getLast?.any test

/-- Changes the last element of a list. -/
def modifyLast {α : Type} (change : α → α) (items : List α) : List α :=
  match items.getLast? with
  | none => items
  | some last => items.dropLast ++ [change last]

/-- Changes the last chunk, after adding a first one where there is none. -/
def editLastChunk (edit : UpdateFileChunk → UpdateFileChunk) (chunks : List UpdateFileChunk) :
    List UpdateFileChunk :=
  modifyLast edit (if chunks.isEmpty then [{}] else chunks)

def unexpectedLine (line : Line) : String :=
  "Unexpected line found in update hunk: '" ++ String.ofList line ++
    "'. Every line should start with ' ' (context line), '+' (added line), or '-' (removed line)"

def missingContextMarker (line : Line) : String :=
  "Expected update hunk to start with a @@ context marker, got: '" ++ String.ofList line ++ "'"

def invalidHeader (trimmed : Line) : String :=
  "'" ++ String.ofList trimmed ++ "' is not a valid hunk header. Valid hunk headers: " ++
    "'*** Add File: \x7bpath\x7d', '*** Delete File: \x7bpath\x7d', '*** Update File: \x7bpath\x7d'"

def firstLineMessage := "The first line of the patch must be '*** Begin Patch'"
def lastLineMessage := "The last line of the patch must be '*** End Patch'"

namespace StreamingPatchParser

def ensureUpdateHunkIsNotEmpty (parser : StreamingPatchParser) (line : Line) :
    Except ParseError Unit :=
  match parser.hunks.getLast? with
  | some (.updateFile path _ chunks) =>
    match chunks.isEmpty, parser.mode with
    | true, .updateFile hunkLineNumber =>
      .error (.invalidHunkError
        ("Update file hunk for path '" ++ String.ofList path ++ "' is empty") hunkLineNumber)
    | _, _ =>
      if lastChunk chunks UpdateFileChunk.isEmpty then
        if line = endPatchMarker.toList then
          .error (.invalidHunkError "Update hunk does not contain any lines" parser.lineNumber)
        else .error (.invalidHunkError (unexpectedLine line) parser.lineNumber)
      else .ok ()
  | _ => .ok ()

/-- Begins a hunk, once the hunk before it is complete. -/
def beginHunk (parser : StreamingPatchParser) (trimmed : Line) (hunk : Hunk)
    (mode : StreamingParserMode) : Except ParseError (Option StreamingPatchParser) := do
  parser.ensureUpdateHunkIsNotEmpty trimmed
  return some { parser with hunks := parser.hunks ++ [hunk], mode := mode }

/-- The parser after a header or the end of the patch, or nothing if the line is neither. -/
def handleHunkHeadersAndEndPatch (parser : StreamingPatchParser) (trimmed : Line) :
    Except ParseError (Option StreamingPatchParser) :=
  match if parser.mode = .startedPatch then strip environmentIdMarker trimmed else none with
  | some environmentId =>
    if parser.environmentId.isSome then
      .error (.invalidPatchError "apply_patch environment_id cannot be specified more than once")
    else if (trim environmentId).isEmpty then
      .error (.invalidPatchError "apply_patch environment_id cannot be empty")
    else .ok (some { parser with environmentId := some (trim environmentId) })
  | none =>
    if trimmed = endPatchMarker.toList then do
      parser.ensureUpdateHunkIsNotEmpty trimmed
      return some { parser with mode := .endedPatch }
    else
      match strip addFileMarker trimmed, strip deleteFileMarker trimmed,
        strip updateFileMarker trimmed with
      | some path, _, _ => parser.beginHunk trimmed (.addFile path []) .addFile
      | none, some path, _ => parser.beginHunk trimmed (.deleteFile path) .deleteFile
      | none, none, some path =>
        parser.beginHunk trimmed (.updateFile path none []) (.updateFile parser.lineNumber)
      | none, none, none => .ok none

/-- A line of an update hunk that is not a header. -/
def updateLine (lineNumber : ℕ) (line : Line) (movePath : Option Line)
    (chunks : List UpdateFileChunk) :
    Except ParseError (Option Line × List UpdateFileChunk) :=
  let updated := trimEnd line
  let isContext := updated = emptyChangeContextMarker.toList ∨
    changeContextMarker.toList <+: updated
  if lastChunk chunks UpdateFileChunk.isEndOfFile && updated.isEmpty then .ok (movePath, chunks)
  else if lastChunk chunks UpdateFileChunk.isEndOfFile && !decide isContext then
    .error (.invalidHunkError (missingContextMarker line) lineNumber)
  else
    match if chunks.isEmpty && movePath.isNone then strip moveToMarker updated else none with
    | some destination => .ok (some destination, chunks)
    | none =>
      if isContext ∧ lastChunk chunks UpdateFileChunk.isEmpty then
        .error (.invalidHunkError (unexpectedLine line) lineNumber)
      else if updated = emptyChangeContextMarker.toList then .ok (movePath, chunks ++ [{}])
      else
        match strip changeContextMarker updated with
        | some context => .ok (movePath, chunks ++ [{ changeContext := some context }])
        | none =>
          if updated = eofMarker.toList then
            if lastChunk chunks UpdateFileChunk.isEmpty then
              .error (.invalidHunkError "Update hunk does not contain any lines" lineNumber)
            else .ok (movePath, modifyLast (fun chunk => { chunk with isEndOfFile := true }) chunks)
          else
            match line with
            | [] => .ok (movePath, editLastChunk (.pushContextLine []) chunks)
            | ' ' :: text => .ok (movePath, editLastChunk (.pushContextLine text) chunks)
            | '+' :: text => .ok (movePath, editLastChunk (.pushNewLine text) chunks)
            | '-' :: text => .ok (movePath, editLastChunk (.pushOldLine text) chunks)
            | _ =>
              if lastChunk chunks fun chunk => !chunk.isEmpty then
                .error (.invalidHunkError (missingContextMarker line) lineNumber)
              else .error (.invalidHunkError (unexpectedLine line) lineNumber)

/-- A line after the headers have been tried on it. -/
def processHunkLine (parser : StreamingPatchParser) (line : Line) :
    Except ParseError StreamingPatchParser :=
  match parser.mode, parser.hunks.getLast? with
  | .addFile, some (.addFile path contents) =>
    match line with
    | '+' :: text =>
      .ok { parser with
        hunks := parser.hunks.dropLast ++ [.addFile path (contents ++ text ++ ['\n'])] }
    | _ => .error (.invalidHunkError (invalidHeader (trim line)) parser.lineNumber)
  | .updateFile _, some (.updateFile path movePath chunks) => do
    let (movePath, chunks) ← updateLine parser.lineNumber line movePath chunks
    return { parser with hunks := parser.hunks.dropLast ++ [.updateFile path movePath chunks] }
  | .updateFile _, _ => .error (.invalidHunkError (unexpectedLine line) parser.lineNumber)
  | _, _ => .error (.invalidHunkError (invalidHeader (trim line)) parser.lineNumber)

def processLine (parser : StreamingPatchParser) (line : Line) :
    Except ParseError StreamingPatchParser :=
  match parser.mode with
  | .notStarted =>
    if trim line = beginPatchMarker.toList then .ok { parser with mode := .startedPatch }
    else .error (.invalidPatchError firstLineMessage)
  | .endedPatch =>
    if (trim line).isEmpty then .ok parser else .error (.invalidPatchError lastLineMessage)
  | mode => do
    -- an update hunk has lines of its own that begin with white space
    let header := match mode with
      | .updateFile _ => trimEnd line
      | _ => trim line
    match ← parser.handleHunkHeadersAndEndPatch header with
    | some parser => return parser
    | none => parser.processHunkLine line

def pushChar (parser : StreamingPatchParser) (c : Char) : Except ParseError StreamingPatchParser :=
  if c = '\n' then
    { parser with lineBuffer := [], lineNumber := parser.lineNumber + 1 }.processLine
      (stripCarriageReturn parser.lineBuffer)
  else .ok { parser with lineBuffer := parser.lineBuffer ++ [c] }

def pushDelta (parser : StreamingPatchParser) (delta : Line) :
    Except ParseError StreamingPatchParser :=
  delta.foldlM pushChar parser

/-- The line that no line feed ends. -/
def finishLine (parser : StreamingPatchParser) : Except ParseError StreamingPatchParser :=
  if parser.lineBuffer.isEmpty then .ok parser
  else
    let line := parser.lineBuffer
    let parser := { parser with lineBuffer := [], lineNumber := parser.lineNumber + 1 }
    if trim line = endPatchMarker.toList then do
      parser.ensureUpdateHunkIsNotEmpty (trim line)
      return { parser with mode := .endedPatch }
    else parser.processLine line

def finish (parser : StreamingPatchParser) : Except ParseError StreamingPatchParser := do
  let parser ← parser.finishLine
  if parser.mode = .endedPatch then return parser
  else .error (.invalidPatchError lastLineMessage)

end StreamingPatchParser

/-- The first and the last of the lines are the markers of a patch. -/
def checkPatchBoundariesStrict (lines : List Line) : Except ParseError (List Line) :=
  match lines.head?.map trim, lines.getLast?.map trim with
  | some first, some last =>
    if first ≠ beginPatchMarker.toList then .error (.invalidPatchError firstLineMessage)
    else if last ≠ endPatchMarker.toList then .error (.invalidPatchError lastLineMessage)
    else .ok lines
  | _, _ => .error (.invalidPatchError lastLineMessage)

def heredocMarkers : List Line :=
  ["<<EOF".toList, "<<'EOF'".toList, "<<\"EOF\"".toList]

def checkPatchBoundariesLenient (lines : List Line) : Except ParseError (List Line) :=
  match checkPatchBoundariesStrict lines with
  | .ok lines => .ok lines
  | .error error =>
    match lines.head?, lines.getLast? with
    | some first, some last =>
      if first ∈ heredocMarkers ∧ "EOF".toList <:+ last ∧ 4 ≤ lines.length then
        checkPatchBoundariesStrict lines.tail.dropLast
      else .error error
    | _, _ => .error error

structure ApplyPatchArgs where
  patch : Line
  hunks : List Hunk
  /-- The directory that a shell script around the patch changes to. -/
  workdir : Option Line := none
  environmentId : Option Line
deriving DecidableEq, Repr

def parsePatch (patch : Line) : Except ParseError ApplyPatchArgs := do
  let patchLines ← checkPatchBoundariesLenient (lines (trim patch))
  let patch := ['\n'].intercalate patchLines
  let parser ← StreamingPatchParser.pushDelta {} patch
  let parser ← parser.finish
  return { patch := patch, hunks := parser.hunks, environmentId := parser.environmentId }

end ExperienceCodex.ApplyPatch
