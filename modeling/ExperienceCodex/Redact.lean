import ExperienceCodex.Json
import ExperienceCodex.Lines
import ExperienceCodex.Slices

/-!
# Redaction

What is recorded of a run is redacted first.  A text is redacted line by line, by patterns; the
texts in a JSON value are redacted by the key they are stored under.

A text that a slice cuts badly is a panic, which is none here.  The digests are parameters, and so
is the table of the alphanumeric characters beyond ASCII.
-/

namespace ExperienceCodex.Redact

open Text Slices Lines

inductive Disclosure where
  | metadataOnly
  | «structure»
  | content
deriving DecidableEq, Repr

inductive RedactMode where
  | off
  | standard
  | strict
deriving DecidableEq, Repr

/-- `char::is_alphanumeric`. -/
structure CharTable where
  isAlphanumeric : Char → Bool
  ascii : ∀ c, c.toNat < 128 → isAlphanumeric c = c.isAlphanum

def secretKeys : List String :=
  ["key", "token", "secret", "password", "passwd", "credential", "authorization", "auth", "apikey"]

def payloadKeys : List String :=
  ["content", "stdin", "cmd", "command", "script", "code", "body"]

def urlKeys : List String :=
  ["url", "endpoint", "base_url", "uri"]

def holds (haystack : List Char) (needle : String) : Bool :=
  decide (needle.toList <:+: haystack)

def containsAny (haystack : List Char) (needles : List String) : Bool :=
  needles.any fun needle => holds haystack needle && !holds haystack "<masked:"

section
variable {α : Type} [Shown α]

def markers : List String :=
  ["<masked:", "<payload:", "<id:", "<path:", "<host:"]

def isSeparator (c : Char) : Bool :=
  c == ':' || c == '='

def trimEnd (text : List α) : List α :=
  text.rdropWhile fun c => isWhitespace (Shown.char c)

/-- Masks the value of a line whose key is secret.  The position of the separator is that in the
lowercase text. -/
def maskSecretValue (line : List α) : Option (List α) :=
  let lower := lowerFrom [] (chars line)
  let left := lower.takeWhile fun c => !isSeparator c
  if left.length < lower.length && containsAny left secretKeys then
    (splitAtByte (byteLen left) line).map fun parts =>
      trimEnd parts.1 ++ written " <masked:secret>"
  else some line

/-- Where a credential ends. -/
def isDelimiter (c : Char) : Bool :=
  isWhitespace c || c == ',' || c == ';' || c == '"' || c == '\''

/-- The length of the credential at the front of a text, or zero where no delimiter ends it. -/
def tokenEnd (tail : List Char) : ℕ :=
  let token := tail.takeWhile fun c => !isDelimiter c
  if token.length < tail.length then byteLen token else 0

/-- The loop of `replace_case_insensitive`, from a byte position on. -/
def replaceFrom (needle marker : String) (lower : List Char) (text : List α) :
    ℕ → ℕ → List α → Option (List α)
  | 0, _, _ => none
  | fuel + 1, start, out => do
    let lowerParts ← splitAtByte start lower
    match cutAt needle.toList lowerParts.2 with
    | none =>
      let parts ← splitAtByte start text
      return out ++ parts.2
    | some (before, _) =>
      let parts ← splitAtByte start text
      let piece ← splitAtByte (byteLen before) parts.2
      let absolute := start + byteLen before
      let behind := absolute + byteLen needle.toList
      let tail ← splitAtByte behind text
      replaceFrom needle marker lower text fuel (behind + tokenEnd (chars tail.2))
        (out ++ piece.1 ++ written marker)

/-- Each turn of the loop moves on by at least the needle. -/
def replaceCaseInsensitive (text : List α) (needle marker : String) (mode : RedactMode) :
    Option (List α) :=
  if mode = .off then some text
  else
    let lower := lowerFrom [] (chars text)
    replaceFrom needle marker lower text (byteLen lower + 1) 0 []

def maskUrlUserinfo (text : List α) : List α :=
  match cutAt "://".toList text with
  | none => text
  | some (scheme, rest) =>
    match cutAt "@".toList rest with
    | none => text
    | some (userinfo, host) =>
      if !holds (chars userinfo) ":" || holds (chars userinfo) "<masked:" then text
      else scheme ++ written "://<masked:userinfo>@" ++ host

variable (table : CharTable)

def isTokenChar (c : Char) : Bool :=
  table.isAlphanumeric c || c == '-' || c == '_' || c == '.'

def isMaskedToken (token : List Char) (mode : RedactMode) : Bool :=
  let lower := lowerFrom [] token
  let prefixed := ["sk-", "ghp_", "gho_", "akia", "xoxb-"].any fun front =>
    front.toList.isPrefixOf lower
  let isOpaque := mode == .strict && decide (24 ≤ byteLen token) && token.any Char.isDigit &&
    token.any Char.isAlpha
  prefixed || isOpaque

/-- What a token is written as. -/
def flush (mode : RedactMode) (token : List α) : List α :=
  if token.isEmpty then []
  else if isMaskedToken (chars token) mode then written "<masked:key>" else token

/-- The loop of `mask_prefixed_tokens`, with the token that is being read. -/
def maskTokensFrom (mode : RedactMode) : List α → List α → List α
  | token, [] => flush mode token
  | token, c :: text =>
    if isTokenChar table (Shown.char c) then maskTokensFrom mode (token ++ [c]) text
    else flush mode token ++ c :: maskTokensFrom mode [] text

def maskPrefixedTokens (text : List α) (mode : RedactMode) : List α :=
  if mode = .off then text else maskTokensFrom table mode [] text

def carriesMarker (line : List Char) : Bool :=
  markers.any fun marker => holds line marker

def redactLine (mode : RedactMode) (line : List α) : Option (List α) :=
  if carriesMarker (chars line) then some line
  else do
    let result ← maskSecretValue line
    let result ← replaceCaseInsensitive result "bearer " "<masked:bearer>" mode
    return maskPrefixedTokens table (maskUrlUserinfo result) mode

end

section
variable (table : CharTable) (mode : RedactMode)

/-- The loop of `redact_text`, within a private key or not. -/
def redactLines : Bool → List (List Char) → Option (List (List Char))
  | _, [] => some []
  | inPrivateKey, line :: lines =>
    if holds line "PRIVATE KEY-----" then
      (redactLines (!holds line "END PRIVATE KEY") lines).map
        ("<masked:private_key>".toList :: ·)
    else if inPrivateKey then redactLines (!holds line "END PRIVATE KEY") lines
    else do
      let first ← redactLine table mode line
      let rest ← redactLines false lines
      return first :: rest

def redactText (text : List Char) : Option (List Char) :=
  if mode = .off then some text
  else
    (redactLines table mode false (lines text)).map fun out =>
      ['\n'].intercalate out ++ if text.getLast? = some '\n' then ['\n'] else []

end

def startsWithAny (text : List Char) (fronts : List String) : Bool :=
  fronts.any fun front => front.toList.isPrefixOf text

def isAbsoluteLike (value : List Char) : Bool :=
  (match value with
    | drive :: ':' :: _ => drive.isAlpha
    | _ => false) ||
    startsWithAny value ["\\\\", "/", "\\"]

def isHexDigit (c : Char) : Bool :=
  c.isDigit || ('a' ≤ c && c ≤ 'f') || ('A' ≤ c && c ≤ 'F')

def looksIdLike (value : List Char) : Bool :=
  let compact := value.filter Char.isAlphanum
  decide (16 ≤ compact.length) && compact.all fun c => isHexDigit c || c == '-'

def isRedactionMarker (text : List Char) : Bool :=
  text == "<id>".toList || startsWithAny text markers

/-- A redactor; its digests are the first eight bytes in hexadecimal digits. -/
structure Redactor where
  disclosure : Disclosure
  mode : RedactMode
  table : CharTable
  /-- HMAC-SHA256 under the key of the store. -/
  hmac : List Char → List Char
  sha256 : List Char → List Char

namespace Redactor

variable (self : Redactor)

def hmacToken (kind : String) (value : List Char) : List Char :=
  '<' :: kind.toList ++ ":hmac:".toList ++ self.hmac value ++ ['>']

def payloadToken (value : List Char) : List Char :=
  if self.disclosure = .content then value
  else
    let len := (toString value.length).toList
    match self.disclosure with
    | .metadataOnly => "<payload:hmac:".toList ++ self.hmac value ++ " len=".toList ++ len ++ ['>']
    | _ => "<payload:sha256:".toList ++ self.sha256 value ++ " len=".toList ++ len ++ ['>']

def pathValue (value : List Char) : List Char :=
  if isAbsoluteLike value then "<path:external>".toList
  else
    match self.disclosure with
    | .metadataOnly => self.hmacToken "path" value
    | _ => value

/-- A URL without the password in it. -/
def maskedUserinfo (value : List Char) : List Char :=
  match cutAt "://".toList value with
  | none => value
  | some (scheme, rest) =>
    match cutAt "@".toList rest with
    | none => value
    | some (userinfo, hostAndPath) =>
      if holds userinfo ":" then scheme ++ "://<masked:userinfo>@".toList ++ hostAndPath else value

def urlValue (value : List Char) : List Char :=
  if self.disclosure = .content then value
  else
    let masked := maskedUserinfo value
    match cutAt "://".toList masked with
    | none => masked
    | some (scheme, rest) =>
      let (host, path) :=
        match cutAt "/".toList rest with
        | some (host, path) => (host, '/' :: path)
        | none => (rest, [])
      if "<masked".toList.isPrefixOf host then masked
      else scheme ++ "://".toList ++ self.hmacToken "host" host ++ path

def idValue (value : List Char) : List Char :=
  if self.disclosure = .content then value
  else
    match self.disclosure with
    | .metadataOnly => "<id>".toList
    | _ => self.hmacToken "id" value

/-- A text that is stored under a key. -/
def redactString (keyHint : Option String) (text : List Char) : Option (List Char) :=
  if isRedactionMarker text then some text
  else
    let key := lowerFrom [] (keyHint.getD "").toList
    if containsAny key secretKeys then some "<masked:secret>".toList
    else if containsAny key payloadKeys then some (self.payloadToken text)
    else if isAbsoluteLike text then some (self.pathValue text)
    else if containsAny key urlKeys || startsWithAny text ["http://", "https://"] then
      some (self.urlValue text)
    else if looksIdLike text then some (self.idValue text)
    else redactText self.table self.mode text

mutual

/-- Redacts the texts in a value, once redaction is on. -/
def redactValue (keyHint : Option String) : Json → Option Json
  | .object members => (redactMembers members).map .object
  | .array values => (redactValues keyHint values).map .array
  | .string text => (self.redactString keyHint text.toList).map fun out => .string (.ofList out)
  | other => some other

def redactValues (keyHint : Option String) : List Json → Option (List Json)
  | [] => some []
  | value :: values => do
    let first ← redactValue keyHint value
    let rest ← redactValues keyHint values
    return first :: rest

def redactMembers : List (String × Json) → Option (List (String × Json))
  | [] => some []
  | (key, item) :: members => do
    let first ← redactValue (some key) item
    let rest ← redactMembers members
    return (key, first) :: rest

end

def redactJson (value : Json) (keyHint : Option String) : Option Json :=
  if self.mode = .off then some value else self.redactValue keyHint value

end Redactor

end ExperienceCodex.Redact
