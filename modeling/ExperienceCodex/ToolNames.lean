import ExperienceCodex.DistinctNames
import ExperienceCodex.Slices

/-!
# Names of tools that the model sees

A tool of a server is called by its raw names; the model sees a namespace and a name that are made
of letters, digits and underscores.  Where that makes two tools alike a hash of the raw identity is
put behind the namespace or the name, and a last pass in the order of the raw identities gives each
tool a name that is short enough and not used before it.

The digest is a parameter.
-/

namespace ExperienceCodex.ToolNames

open Slices DistinctNames

/-- A tool; the fields that play no part are in `rest`. -/
structure ToolInfo (ρ : Type) where
  serverName : List Char
  callableName : List Char
  callableNamespace : List Char
  connectorId : Option (List Char)
  toolName : List Char
  rest : ρ
deriving DecidableEq

variable {ρ : Type}

def ToolInfo.rawNamespaceIdentity (tool : ToolInfo ρ) : List Char :=
  tool.serverName ++ '\x00' :: tool.callableNamespace ++ '\x00' :: tool.connectorId.getD []

def ToolInfo.rawToolIdentity (tool : ToolInfo ρ) : List Char :=
  tool.rawNamespaceIdentity ++ '\x00' :: tool.callableName ++ '\x00' :: tool.toolName

/-- What the model sees. -/
def ToolInfo.modelName (tool : ToolInfo ρ) : List Char :=
  tool.callableNamespace ++ tool.callableName

def isToolChar (c : Char) : Bool :=
  c.isAlphanum || c == '_'

def sanitizeResponsesApiToolName (name : List Char) : List Char :=
  let sanitized := name.map fun c => if isToolChar c then c else '_'
  if sanitized.isEmpty then ['_'] else sanitized

def legacyMcpToolNamePrefix : List Char := "mcp__".toList

def callableNamespaceWithPrefix (namespaceName : List Char) (prefixMcpToolNames : Bool) :
    List Char :=
  if !prefixMcpToolNames || legacyMcpToolNamePrefix.isPrefixOf namespaceName then namespaceName
  else legacyMcpToolNamePrefix ++ namespaceName

/-- The twenty bytes of the digest of a text. -/
abbrev Sha1 := List Char → Fin 20 → Fin 256

def mcpToolNameDelimiter : List Char := "__".toList

def maxToolNameLength : ℕ := 128

def callableNameHashLen : ℕ := 12

def hexByte (byte : Fin 256) : List Char :=
  [Nat.digitChar (byte / 16), Nat.digitChar (byte % 16)]

def sha1Hex (sha1 : Sha1) (text : List Char) : List Char :=
  (List.ofFn (sha1 text)).flatMap hexByte

def callableNameHashSuffix (sha1 : Sha1) (rawIdentity : List Char) : List Char :=
  '_' :: (sha1Hex sha1 rawIdentity).take callableNameHashLen

def appendHashSuffix (sha1 : Sha1) (value rawIdentity : List Char) : List Char :=
  value ++ callableNameHashSuffix sha1 rawIdentity

def appendNamespaceHashSuffix (sha1 : Sha1) (namespaceName rawIdentity : List Char) : List Char :=
  if mcpToolNameDelimiter <:+ namespaceName then
    namespaceName.take (namespaceName.length - mcpToolNameDelimiter.length) ++
      callableNameHashSuffix sha1 rawIdentity ++ mcpToolNameDelimiter
  else appendHashSuffix sha1 namespaceName rawIdentity

structure CallableToolCandidate (ρ : Type) where
  tool : ToolInfo ρ
  rawNamespaceIdentity : List Char
  rawToolIdentity : List Char
  callableNamespace : List Char
  callableName : List Char

def candidate (prefixMcpToolNames : Bool) (nonPrefixedMcpToolServers : List (List Char))
    (tool : ToolInfo ρ) : CallableToolCandidate ρ where
  tool := tool
  rawNamespaceIdentity := tool.rawNamespaceIdentity
  rawToolIdentity := tool.rawToolIdentity
  callableNamespace :=
    callableNamespaceWithPrefix (sanitizeResponsesApiToolName tool.callableNamespace)
      (prefixMcpToolNames && !nonPrefixedMcpToolServers.contains tool.serverName)
  callableName := sanitizeResponsesApiToolName tool.callableName

/-- A namespace that stands for two raw namespaces gets a hash. -/
def hashNamespaces (sha1 : Sha1) (candidates : List (CallableToolCandidate ρ)) :
    List (CallableToolCandidate ρ) :=
  let collides := isShared CallableToolCandidate.callableNamespace
    CallableToolCandidate.rawNamespaceIdentity candidates
  candidates.map fun candidate =>
    if collides candidate.callableNamespace then
      { candidate with
        callableNamespace := appendNamespaceHashSuffix sha1 candidate.callableNamespace
          candidate.rawNamespaceIdentity }
    else candidate

/-- A name that stands for two raw tools of one namespace gets a hash. -/
def hashNames (sha1 : Sha1) (candidates : List (CallableToolCandidate ρ)) :
    List (CallableToolCandidate ρ) :=
  let collides := isShared
    (fun candidate : CallableToolCandidate ρ =>
      (candidate.callableNamespace, candidate.callableName))
    CallableToolCandidate.rawToolIdentity candidates
  candidates.map fun candidate =>
    if collides (candidate.callableNamespace, candidate.callableName) then
      { candidate with
        callableName := appendHashSuffix sha1 candidate.callableName candidate.rawToolIdentity }
    else candidate

/-- The candidates in the order in which they are named. -/
def sortedCandidates (sha1 : Sha1) (prefixMcpToolNames : Bool)
    (nonPrefixedMcpToolServers : List (List Char)) (tools : List (ToolInfo ρ)) :
    List (CallableToolCandidate ρ) :=
  let candidates := (firsts ToolInfo.rawToolIdentity tools).map
    (candidate prefixMcpToolNames nonPrefixedMcpToolServers)
  sortBy CallableToolCandidate.rawToolIdentity (hashNames sha1 (hashNamespaces sha1 candidates))

def truncateName (value : List Char) (maxLen : ℕ) : List Char :=
  value.take maxLen

def fitCallablePartsWithHash (sha1 : Sha1) (namespaceName toolName rawIdentity : List Char)
    (reservedLen : ℕ) : List Char × List Char :=
  let suffix := callableNameHashSuffix sha1 rawIdentity
  let maxToolLen := maxToolNameLength - (byteLen namespaceName + reservedLen)
  if byteLen suffix ≤ maxToolLen then
    (namespaceName, truncateName toolName (maxToolLen - byteLen suffix) ++ suffix)
  else
    (truncateName namespaceName (maxToolNameLength - (byteLen suffix + reservedLen)), suffix)

def hashInput (rawIdentity : List Char) (attempt : ℕ) : List Char :=
  if attempt = 0 then rawIdentity else rawIdentity ++ '\x00' :: Nat.toDigits 10 attempt

/-- The name of an attempt. -/
def attemptParts (sha1 : Sha1) (namespaceName toolName rawIdentity : List Char) (reservedLen : ℕ)
    (attempt : ℕ) : List Char × List Char :=
  fitCallablePartsWithHash sha1 namespaceName toolName (hashInput rawIdentity attempt) reservedLen

lemma lawfulBEq_name : LawfulBEq (List Char) := inferInstance

/-- Whether a name is used is decided by comparing it with each used name, in every module. -/
instance decidableMemUsed (name : List Char) (used : List (List Char)) : Decidable (name ∈ used) :=
  @List.instDecidableMemOfLawfulBEq _ _ lawfulBEq_name name used

/-- The first of the attempts whose name is not used. -/
def retry (attempts : ℕ → List Char × List Char) (used : List (List Char)) :
    ℕ → ℕ → Option (List Char × List Char)
  | 0, _ => none
  | fuel + 1, attempt =>
    let parts := attempts attempt
    if parts.1 ++ parts.2 ∈ used then retry attempts used fuel (attempt + 1) else some parts

/-- The attempts are counted in 32 bits, and the last one is repeated for ever. -/
def attemptCount : ℕ := 2 ^ 32

/-- `none` if all attempts are used, where the loop does not end. -/
def uniqueCallableParts (sha1 : Sha1) (namespaceName toolName rawIdentity : List Char)
    (used : List (List Char)) (reservedLen : ℕ) : Option (List Char × List Char) :=
  let modelName := namespaceName ++ toolName
  if byteLen modelName + reservedLen ≤ maxToolNameLength ∧ modelName ∉ used then
    some (namespaceName, toolName)
  else
    retry (attemptParts sha1 namespaceName toolName rawIdentity reservedLen) used attemptCount 0

def nameTool (sha1 : Sha1) (used : List (List Char)) (candidate : CallableToolCandidate ρ) :
    Option (ToolInfo ρ) :=
  (uniqueCallableParts sha1 candidate.callableNamespace candidate.callableName
    candidate.rawToolIdentity used mcpToolNameDelimiter.length).map fun parts =>
      { candidate.tool with callableNamespace := parts.1, callableName := parts.2 }

/-- The names are in use from the tool on that got them. -/
def normalizeToolsForModelWithPrefix (sha1 : Sha1) (tools : List (ToolInfo ρ))
    (prefixMcpToolNames : Bool) (nonPrefixedMcpToolServers : List (List Char)) :
    Option (List (ToolInfo ρ)) :=
  assign (nameTool sha1) ToolInfo.modelName []
    (sortedCandidates sha1 prefixMcpToolNames nonPrefixedMcpToolServers tools)

end ExperienceCodex.ToolNames
