import ExperienceCodex.PatchParser

/-!
# Updating the text of a file

The chunks of an update are looked for in the lines of the file, in the order of the chunks, each
search a little more lenient than the one before.  What they find is replaced from the end of the
file to its beginning; with line endings preserved, the lines that a chunk only mentions keep
theirs.
-/

namespace ExperienceCodex.ApplyPatch

inductive ApplyPatchFileUpdateMode where
  | normalizeToLf
  | preserveLineEndings
deriving DecidableEq, Repr

/-- Common punctuation in its ASCII spelling. -/
def normaliseChar (c : Char) : Char :=
  if c.toNat ∈ [0x2010, 0x2011, 0x2012, 0x2013, 0x2014, 0x2015, 0x2212] then '-'
  else if c.toNat ∈ [0x2018, 0x2019, 0x201A, 0x201B] then '\''
  else if c.toNat ∈ [0x201C, 0x201D, 0x201E, 0x201F] then '"'
  else if c.toNat ∈ [0x00A0, 0x2002, 0x2003, 0x2004, 0x2005, 0x2006, 0x2007, 0x2008, 0x2009,
      0x200A, 0x202F, 0x205F, 0x3000] then ' '
  else c

def normalise (line : Line) : Line :=
  (trim line).map normaliseChar

/-- The first position at which the lines are those of the pattern, up to what `key` forgets. -/
def seekBy (key : Line → Line) (lines pattern : List Line) (start : ℕ) : Option ℕ :=
  (List.range' start (lines.length - pattern.length + 1 - start)).find? fun i =>
    ((lines.drop i).take pattern.length).map key = pattern.map key

def seekSequence (lines pattern : List Line) (start : ℕ) (eof : Bool)
    (mode : ApplyPatchFileUpdateMode) : Option ℕ :=
  if pattern.isEmpty then some start
  else if lines.length < pattern.length then none
  else
    let eofStart := lines.length - pattern.length
    let searchStart := match eof, mode with
      | false, _ => start
      | true, .normalizeToLf => eofStart
      | true, .preserveLineEndings => max eofStart start
    (seekBy id lines pattern searchStart).or <|
      (seekBy trimEnd lines pattern searchStart).or <|
        (seekBy trim lines pattern searchStart).or <|
          seekBy normalise lines pattern searchStart

/-- Where lines are replaced, how many, and by which. -/
structure Replacement where
  start : ℕ
  oldLength : ℕ
  newLines : List Line
deriving DecidableEq, Repr

def endsWithEmpty (lines : List Line) : Bool :=
  lines.getLast?.any List.isEmpty

/-- The replacements of one chunk that leave its context lines in place. -/
def splitAtContext (start : ℕ) (pattern new : List Line) :
    List (ℕ × ℕ) → ℕ → ℕ → List Replacement
  | [], oldStart, newStart =>
    if oldStart ≠ pattern.length ∨ newStart ≠ new.length then
      [⟨start + oldStart, pattern.length - oldStart, new.drop newStart⟩]
    else []
  | (oldContext, newContext) :: indices, oldStart, newStart =>
    if pattern.length ≤ oldContext ∨ new.length ≤ newContext then
      splitAtContext start pattern new [] oldStart newStart
    else
      (if oldStart ≠ oldContext ∨ newStart ≠ newContext then
        [⟨start + oldStart, oldContext - oldStart, (new.take newContext).drop newStart⟩]
      else []) ++ splitAtContext start pattern new indices (oldContext + 1) (newContext + 1)

section
variable (mode : ApplyPatchFileUpdateMode) (path : String) (original : List Line)

/-- The line behind the context of a chunk. -/
def afterContext (lineIndex : ℕ) : Option Line → Except String ℕ
  | none => .ok lineIndex
  | some context =>
    match seekSequence original [context] lineIndex false mode with
    | some index => .ok (index + 1)
    | none =>
      .error ("Failed to find context '" ++ String.ofList context ++ "' in " ++ path)

/-- Lines that replace nothing go to the end of the file. -/
def insertionIndex : ℕ :=
  match mode with
  | .normalizeToLf => if endsWithEmpty original then original.length - 1 else original.length
  | .preserveLineEndings => original.length

/-- The replacements of a chunk and the line to go on from. -/
def chunkReplacements (lineIndex : ℕ) (chunk : UpdateFileChunk) :
    Except String (List Replacement × ℕ) := do
  let lineIndex ← afterContext mode path original lineIndex chunk.changeContext
  if chunk.oldLines.isEmpty then
    return ([⟨insertionIndex mode original, 0, chunk.newLines⟩], lineIndex)
  let seek := fun pattern => seekSequence original pattern lineIndex chunk.isEndOfFile mode
  -- the last line of the pattern may stand for the line feed at the end of the file
  let retry := (seek chunk.oldLines).isNone && endsWithEmpty chunk.oldLines
  let pattern := if retry then chunk.oldLines.dropLast else chunk.oldLines
  let new := if retry && endsWithEmpty chunk.newLines then chunk.newLines.dropLast
    else chunk.newLines
  match seek pattern with
  | some start =>
    let replacements := match mode with
      | .normalizeToLf => [⟨start, pattern.length, new⟩]
      | .preserveLineEndings => splitAtContext start pattern new chunk.contextLineIndices 0 0
    return (replacements, start + pattern.length)
  | none =>
    .error ("Failed to find expected lines in " ++ path ++ ":\n" ++
      String.ofList (['\n'].intercalate chunk.oldLines))

def computeReplacementsFrom : List UpdateFileChunk → ℕ → Except String (List Replacement)
  | [], _ => .ok []
  | chunk :: chunks, lineIndex => do
    let (replacements, lineIndex) ← chunkReplacements mode path original lineIndex chunk
    let rest ← computeReplacementsFrom chunks lineIndex
    return replacements ++ rest

/-- The replacements in the order of their places. -/
def computeReplacements (chunks : List UpdateFileChunk) : Except String (List Replacement) := do
  let replacements ← computeReplacementsFrom mode path original chunks 0
  return replacements.insertionSort fun a b => a.start ≤ b.start

end

/-- Replaces from the last place to the first, so that no place moves. -/
def applyReplacements (lines : List Line) (replacements : List Replacement) : List Line :=
  replacements.reverse.foldl
    (fun lines r => lines.take r.start ++ r.newLines ++ lines.drop (r.start + r.oldLength)) lines

inductive LineEnding where
  | lf
  | crLf
  | cr
deriving DecidableEq, Repr

def LineEnding.text : LineEnding → Line
  | lf => ['\n']
  | crLf => ['\r', '\n']
  | cr => ['\r']

structure SourceLine where
  text : Line
  ending : Option LineEnding
deriving DecidableEq, Repr

structure SourceFile where
  lines : List SourceLine
  preferredEnding : LineEnding
deriving DecidableEq, Repr

namespace SourceFile

/-- The lines of a text behind the beginning of a line. -/
def parseLines (line : Line) : Line → List SourceLine
  | [] => if line.isEmpty then [] else [⟨line, none⟩]
  | '\r' :: '\n' :: rest => ⟨line, some .crLf⟩ :: parseLines [] rest
  | '\r' :: rest => ⟨line, some .cr⟩ :: parseLines [] rest
  | '\n' :: rest => ⟨line, some .lf⟩ :: parseLines [] rest
  | c :: rest => parseLines (line ++ [c]) rest

/-- The first ending of a text is preferred in new lines. -/
def parse (contents : Line) : SourceFile where
  lines := parseLines [] contents
  preferredEnding := ((parseLines [] contents).findSome? SourceLine.ending).getD .lf

def replaceFrom (ending : LineEnding) :
    List Replacement → List SourceLine → ℕ → List SourceLine
  | [], lines, _ => lines
  | r :: replacements, lines, index =>
    let ahead := r.start - index
    lines.take ahead ++ r.newLines.map (⟨·, some ending⟩) ++
      replaceFrom ending replacements (lines.drop (ahead + r.oldLength)) (r.start + r.oldLength)

/-- Every line of the result has an ending. -/
def applyReplacements (file : SourceFile) (replacements : List Replacement) : SourceFile :=
  { file with
    lines := (replaceFrom file.preferredEnding replacements file.lines 0).map fun line =>
      { line with ending := some (line.ending.getD file.preferredEnding) } }

def intoContents (file : SourceFile) : Line :=
  file.lines.flatMap fun line => line.text ++ (line.ending.map LineEnding.text).getD []

end SourceFile

/-- The text of a file after the chunks of an update. -/
def newContents (mode : ApplyPatchFileUpdateMode) (path : String) (chunks : List UpdateFileChunk)
    (original : Line) : Except String Line := do
  match mode with
  | .normalizeToLf =>
    let pieces := original.splitOn '\n'
    -- the piece behind the last line feed is no line
    let lines := if endsWithEmpty pieces then pieces.dropLast else pieces
    let replacements ← computeReplacements mode path lines chunks
    let new := applyReplacements lines replacements
    return ['\n'].intercalate (if endsWithEmpty new then new else new ++ [[]])
  | .preserveLineEndings =>
    let source := SourceFile.parse original
    let replacements ← computeReplacements mode path (source.lines.map SourceLine.text) chunks
    return (source.applyReplacements replacements).intoContents

end ExperienceCodex.ApplyPatch
