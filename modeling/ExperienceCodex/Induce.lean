import ExperienceCodex.Numbering
import ExperienceCodex.Qualification
import ExperienceCodex.Store

/-!
# Inducing templates from two observations

Two successful runs of one family of tasks agree in their actions and in the shape of the
arguments.  A text that differs between the runs becomes a parameter if some text before and after
it captures the value that was observed in each of the two requests; every other difference is
refused.  The result is a candidate.

Which characters are alphanumeric beyond ASCII is a parameter.  A position in a text is the pair of
the texts around it.
-/

namespace ExperienceCodex

open Text

/-- An observed tool call. -/
structure ObservedStep where
  action : String
  args : Json
  unique : args.uniqueKeys = true

/-- A completed observation of a task. -/
structure ObservedTask where
  task : String
  steps : List ObservedStep
  succeeded : Bool

inductive InduceReject where
  | taskNotSuccessful (arm : String)
  | noActionEvidence
  | stepCountMismatch (a b : ℕ)
  | actionMismatch (index : ℕ) (a b : String)
  | unknownCapability (name : String)
  | unstableShape (index : ℕ) (reason : String)
  | ephemeralIdentifier (value : String)
  | notCapturable (value : String)
  | noParameterDifference
  | noVerifiableEffect
  | tooManyParameters (count : ℕ)
  | weakTaskSignature (shared : ℕ)
  | store (reason : String)
deriving DecidableEq

def maxInducedParameters : ℕ := 8
def maxParameterValueLen : ℕ := 128
def minTaskSignatureLen : ℕ := 8

/-- A long token of hexadecimal digits and hyphens, such as a commit hash. -/
def likelyEphemeralIdentifier (text : String) : Bool :=
  (splitAtChars (fun c => !(c.isAlphanum || c == '-' || c == '_')) text).any fun token =>
    decide (16 ≤ token.utf8ByteSize) &&
      token.toList.all fun c => c.isDigit || ('a' ≤ c && c ≤ 'f') || ('A' ≤ c && c ≤ 'F') ||
        c == '-'

/-- The texts around the first occurrences of a value, at most as many as given.  The occurrences
do not overlap. -/
def occurrencesFrom (value : List Char) : ℕ → List Char → List Char → List (List Char × List Char)
  | 0, _, _ => []
  | count + 1, before, rest =>
    match splitOnce value rest with
    | none => []
    | some (skipped, after) =>
      (before ++ skipped, after) :: occurrencesFrom value count (before ++ skipped ++ value) after

def occurrences (text value : String) : List (List Char × List Char) :=
  if value.isEmpty then [] else occurrencesFrom value.toList 4 [] text.toList

section
variable (isAlphanumeric : Char → Bool)

/-- The nonblank proposals for an anchor, the most specific first, and then no anchor. -/
def anchorProposals (window : List Char) (word : Option String) : List (Option String) :=
  let text := String.ofList window
  if isBlank text then [none]
  else
    some text ::
      ((word.bind fun word => if word = text then none else some (some word)).toList ++ [none])

/-- Anchors before a value; a word that is cut off by the window is dropped. -/
def anchorBefore (before : List Char) : List (Option String) :=
  let window := (before.rtake 24).dropWhile fun c => isAlphanumeric c || c == '_'
  anchorProposals window
    ((splitAtChars isWhitespace (String.ofList window)).reverse.find? fun piece => !isBlank piece)

/-- Anchors after a value. -/
def anchorAfter (after : List Char) : List (Option String) :=
  let window := (after.take 24).rdropWhile fun c => isAlphanumeric c || c == '_'
  anchorProposals window
    ((splitAtChars isWhitespace (String.ofList window)).find? fun piece => !isBlank piece)

/-- The rule gives back the value that was observed. -/
def bindsTo (before after : Option String) (source expected : String) : Bool :=
  captureParameter source before after == some expected

/-- The first proposed rule that captures the observed value in both requests.  The anchors are
read off the first request only. -/
def captureRule (taskA taskB valueA valueB : String) : Option (Option String × Option String) :=
  let proposals :=
    (occurrences taskA valueA).flatMap fun (beforeA, afterA) =>
      (occurrences taskB valueB).flatMap fun _ =>
        (anchorBefore isAlphanumeric beforeA).flatMap fun before =>
          (anchorAfter isAlphanumeric afterA).map fun after => (before, after)
  proposals.find? fun (before, after) =>
    (before.isSome || after.isSome) && bindsTo before after taskA valueA &&
      bindsTo before after taskB valueB

end

/-- Lowercase letters and digits are kept; a run of other characters becomes an underscore. -/
def pushSanitized (output : List Char) (c : Char) : List Char :=
  if c.isAlphanum then output ++ [c.toLower]
  else if output.getLast? = some '_' then output
  else output ++ ['_']

def sanitize (input : String) : String :=
  let output := input.toList.foldl pushSanitized []
  String.ofList ((output.dropWhile (· == '_')).rdropWhile (· == '_'))

def lastAlnumRun (input : String) : String :=
  (((splitAtChars (fun c => !c.isAlphanum) input).reverse.find? fun run => !run.isEmpty).map
    sanitize).getD ""

/-- The name that a parameter gets unless it is taken: the key of the value, or else a word of its
anchors. -/
def baseName (hint : Option String) (before after : String) : String :=
  let fromHint := (hint.map sanitize).getD ""
  if !fromHint.isEmpty then fromHint
  else if !(lastAlnumRun before).isEmpty then lastAlnumRun before
  else if !(lastAlnumRun after).isEmpty then lastAlnumRun after
  else "value"

/-- A relative path in one of the runs; a URL is not a path. -/
def looksLikePath (a b : String) : Bool :=
  [a, b].any fun value =>
    (contains value "/" || contains value "\\") && !contains value "://" &&
      !startsWith value "/" && !startsWith value "\\"

/-- The parameters so far, the names of their rules, and how often each base name was used. -/
structure Inducer where
  parameters : List TemplateParameter := []
  rules : List ((String × String) × String) := []
  names : NameMap ℕ := ∅

namespace Inducer

def uniqueName (inducer : Inducer) (hint : Option String) (before after : String) :
    String × Inducer :=
  let base := baseName hint before after
  let counter := inducer.names[base]?.getD 0 + 1
  (Numbering.numbered base counter,
    { inducer with names := inducer.names.insert base counter })

/-- A rule that is known keeps its parameter. -/
def recordParameter (inducer : Inducer) (hint before after : Option String)
    (valueA valueB : String) : String × Inducer :=
  let key := (before.getD "", after.getD "")
  match inducer.rules.lookup key with
  | some existing => (existing, inducer)
  | none =>
    let (name, inducer) := inducer.uniqueName hint key.1 key.2
    let parameter : TemplateParameter :=
      { name
        source := "task"
        kind := if looksLikePath valueA valueB then paramKindPath else paramKindText
        before
        after
        required := true }
    (name, { inducer with
      rules := inducer.rules ++ [(key, name)]
      parameters := inducer.parameters ++ [parameter] })

section
variable (isAlphanumeric : Char → Bool) (taskA taskB : String)

def induceParameter (inducer : Inducer) (valueA valueB : String) (hint : Option String) :
    Except InduceReject (String × Inducer) :=
  if maxParameterValueLen < valueA.utf8ByteSize ∨ maxParameterValueLen < valueB.utf8ByteSize then
    .error (.notCapturable valueA)
  else if likelyEphemeralIdentifier valueA || likelyEphemeralIdentifier valueB then
    .error (.ephemeralIdentifier valueA)
  else if isBlank valueA || isBlank valueB then .error (.notCapturable valueA)
  else
    match captureRule isAlphanumeric taskA taskB valueA valueB with
    | none => .error (.notCapturable valueA)
    | some (before, after) => .ok (inducer.recordParameter hint before after valueA valueB)

/-- The placeholder of a parameter. -/
def placeholder (name : String) : String := "$\x7b" ++ name ++ "\x7d"

mutual
/-- Put placeholders for the texts that differ.  The values agree in everything else. -/
def parameterize (index : ℕ) (inducer : Inducer) (hint : Option String) :
    Json → Json → Except InduceReject (Json × Inducer)
  | .string textA, .string textB =>
    if textA = textB then .ok (.string textA, inducer)
    else do
      let (name, inducer) ←
        inducer.induceParameter isAlphanumeric taskA taskB textA textB hint
      return (.string (placeholder name), inducer)
  | .array itemsA, .array itemsB =>
    if itemsA.length ≠ itemsB.length then
      .error (.unstableShape index ("array length " ++ toString itemsA.length ++ " vs " ++
        toString itemsB.length))
    else do
      let (items, inducer) ← parameterizeItems index inducer itemsA itemsB
      return (.array items, inducer)
  | .object membersA, .object membersB =>
    if membersA.length ≠ membersB.length then
      .error (.unstableShape index ("object arity " ++ toString membersA.length ++ " vs " ++
        toString membersB.length))
    else do
      let (members, inducer) ← parameterizeMembers index inducer membersB membersA
      return (.object members, inducer)
  | left, right =>
    if left.jsonEq right then .ok (left, inducer)
    else .error (.unstableShape index "non-string value differs between runs")
def parameterizeItems (index : ℕ) (inducer : Inducer) :
    List Json → List Json → Except InduceReject (List Json × Inducer)
  | itemA :: restA, itemB :: restB => do
    let (item, inducer) ← parameterize index inducer none itemA itemB
    let (rest, inducer) ← parameterizeItems index inducer restA restB
    return (item :: rest, inducer)
  | _, _ => .ok ([], inducer)
def parameterizeMembers (index : ℕ) (inducer : Inducer) (membersB : List (String × Json)) :
    List (String × Json) → Except InduceReject (List (String × Json) × Inducer)
  | [] => .ok ([], inducer)
  | (key, itemA) :: restA =>
    match membersB.lookup key with
    | none => .error (.unstableShape index ("key '" ++ key ++ "' missing from the second run"))
    | some itemB => do
      let (item, inducer) ← parameterize index inducer (some key) itemA itemB
      let (rest, inducer) ← parameterizeMembers index inducer membersB restA
      return ((key, item) :: rest, inducer)
end

/-- The workflow of the first run with placeholders. -/
def parameterizeSteps (index : ℕ) (inducer : Inducer) :
    List ObservedStep → List ObservedStep → Except InduceReject (List WorkflowStep × Inducer)
  | stepA :: restA, stepB :: restB => do
    let (args, inducer) ←
      parameterize isAlphanumeric taskA taskB index inducer none stepA.args stepB.args
    let (rest, inducer) ← parameterizeSteps (index + 1) inducer restA restB
    return ({ action := stepA.action, args } :: rest, inducer)
  | _, _ => .ok ([], inducer)

end

end Inducer

def fileExists (path : String) (expected : Bool) : Predicate :=
  { key := "file:" ++ path ++ ".exists", expected := .bool expected }

def fileContent (path content : String) : Predicate :=
  { key := "file:" ++ path ++ ".content", expected := .string content }

def pushUnique (predicates : List Predicate) (predicate : Predicate) : List Predicate :=
  if predicates.any fun existing =>
      existing.key == predicate.key && existing.expected.jsonEq predicate.expected then predicates
  else predicates ++ [predicate]

/-- The table of effects: what a step expects of the files before it, and what holds after it. -/
def stepEffects (step : WorkflowStep) : List Predicate × List Predicate :=
  let path (key : String) : Option String := (step.args.get key).bind Json.asStr
  let needs (key : String) := ((path key).map fun file => fileExists file true).toList
  let removes (key : String) := ((path key).map fun file => fileExists file false).toList
  if step.action = "move_file" then (needs "source", removes "source" ++ needs "target")
  else if step.action = "copy_file" then (needs "source", needs "target")
  else if step.action = "delete_file" then (needs "path", removes "path")
  else if step.action = "mkdir" ∨ step.action = "append_file" then ([], needs "path")
  else if step.action = "write_file" then
    match path "path", path "content" with
    | none, _ => ([], [])
    | some file, none => ([], [fileExists file true])
    | some file, some content =>
      -- Only literal content of moderate size is asserted.
      if contains content "$\x7b" || decide (256 < content.utf8ByteSize) then
        ([], [fileExists file true])
      else ([], [fileExists file true, fileContent file content])
  else if step.action = "read_file" then (needs "path", [])
  else ([], [])

/-- The preconditions, the postconditions and a probe for each postcondition. -/
def effectsFor (workflow : List WorkflowStep) :
    List Predicate × List Predicate × List VerificationStep :=
  let preconditions := (workflow.flatMap fun step => (stepEffects step).1).foldl pushUnique []
  let postconditions := (workflow.flatMap fun step => (stepEffects step).2).foldl pushUnique []
  (preconditions, postconditions, postconditions.map .probe)

def commonPrefix : List Char → List Char → List Char
  | left :: restA, right :: restB => if left = right then left :: commonPrefix restA restB else []
  | _, _ => []

/-- The start that the two requests share, up to its last whole word. -/
def taskSignaturePrefix (a b : String) : Except InduceReject String :=
  let common := commonPrefix (toLowercase a).toList (toLowercase b).toList
  -- The common text ends in a piece without whitespace.
  let upToSpace := common.rdropWhile fun c => !isWhitespace c
  let words := String.ofList upToSpace.dropLast
  let trimmed :=
    trim (if !upToSpace.isEmpty && decide (minTaskSignatureLen ≤ words.utf8ByteSize) then words
      else String.ofList common)
  if trimmed.length < minTaskSignatureLen then .error (.weakTaskSignature trimmed.length)
  else .ok trimmed

/-- One pass of `replace("__", "_")`. -/
def halveUnderscores : List Char → List Char
  | '_' :: '_' :: rest => '_' :: halveUnderscores rest
  | c :: rest => c :: halveUnderscores rest
  | [] => []

/-- Passes until no two underscores are adjacent.  Each shortens the text. -/
def collapseUnderscores : ℕ → List Char → List Char
  | 0, text => text
  | rounds + 1, text =>
    if ['_', '_'] <:+: text then collapseUnderscores rounds (halveUnderscores text) else text

def candidateName (task : String) (parameters : List TemplateParameter) : String :=
  let letters := (toLowercase task).toList.map fun c => if c.isAlphanum then c else '_'
  let collapsed := collapseUnderscores letters.length letters
  let signature := ((collapsed.dropWhile (· == '_')).rdropWhile (· == '_')).take 40
  let shapes := (parameters.map fun parameter => sanitize parameter.name).insertionSort (· ≤ ·)
  "tcand_" ++ String.ofList signature ++ "__" ++ String.intercalate "_" (shapes.destutter (· ≠ ·))

/-- The steps have the same actions, all of them known. -/
def checkActions (index : ℕ) : List ObservedStep → List ObservedStep → Except InduceReject Unit
  | stepA :: restA, stepB :: restB =>
    if stepA.action ≠ stepB.action then
      .error (.actionMismatch index stepA.action stepB.action)
    else if stepA.action ∉ canonicalTools then .error (.unknownCapability stepA.action)
    else checkActions (index + 1) restA restB
  | _, _ => .ok ()

/-- The template of a parameterized workflow. -/
def inducedTemplate (a b : ObservedTask) (workflow : List WorkflowStep)
    (parameters : List TemplateParameter) : Except InduceReject ExperienceTemplate :=
  let effects := effectsFor workflow
  if parameters.isEmpty then .error .noParameterDifference
  else if maxInducedParameters < parameters.length then
    .error (.tooManyParameters parameters.length)
  else if effects.2.1.isEmpty then .error .noVerifiableEffect
  else do
    let commandPattern ← taskSignaturePrefix a.task b.task
    let template : ExperienceTemplate :=
      { name := candidateName a.task parameters
        trigger := { tool := "task", commandPattern := some commandPattern }
        parameters
        workflow
        preconditions := effects.1
        postconditions := effects.2.1
        verification := effects.2.2
        failurePolicy := .stopAndReport
        undo := .unsupported
        status := .candidate }
    if template.schemaIssues.isEmpty then .ok template
    else
      .error (.unstableShape 0 ("induced template failed schema: [" ++
        String.intercalate ", " (template.schemaIssues.map SchemaIssue.debugName) ++ "]"))

def induce (isAlphanumeric : Char → Bool) (a b : ObservedTask) :
    Except InduceReject ExperienceTemplate :=
  if !a.succeeded then .error (.taskNotSuccessful "a")
  else if !b.succeeded then .error (.taskNotSuccessful "b")
  else if a.steps.isEmpty || b.steps.isEmpty then .error .noActionEvidence
  else if a.steps.length ≠ b.steps.length then
    .error (.stepCountMismatch a.steps.length b.steps.length)
  else do
    checkActions 0 a.steps b.steps
    let (workflow, inducer) ←
      Inducer.parameterizeSteps isAlphanumeric a.task b.task 0 {} a.steps b.steps
    inducedTemplate a b workflow inducer.parameters

/-- Store the induced candidate, and where it came from. -/
def induceIntoStore (isAlphanumeric : Char → Bool) (store : ExperienceStore) (a b : ObservedTask)
    (distiller : String) (sessionId : Option String) (recordedAt : UInt64) :
    Except InduceReject String × ExperienceStore :=
  match induce isAlphanumeric a b with
  | .error reject => (.error reject, store)
  | .ok template =>
    match store.insertTemplate template with
    | (.error error, store) => (.error (.store error.display), store)
    | (.ok (), store) =>
      (.ok template.name, store.setCandidateOrigin template.name
        { taskSignature := a.task, sessionId, distiller, recordedAt })

end ExperienceCodex
