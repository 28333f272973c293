import ExperienceCodex.LocalGate
import ExperienceCodex.Qualification

/-!
# The registry of state sources

A predicate key is observed by the source of its family: the files under a base directory, the
repository, a local service or a local port.  An observation has a value and says where it comes
from; without a value the key is unknown.
-/

namespace ExperienceCodex

open Text

structure ProbeResult where
  value : Option Json
  source : String
  observedAt : UInt64
  ttl : Option UInt64

/-- What the probes may use. -/
structure ProbePolicy where
  allowNetwork : Bool := false
  allowGit : Bool := true
  httpTimeoutMs : UInt64 := 2000
  portTimeoutMs : UInt64 := 500

structure HttpFetch where
  status : UInt16
  body : String

/-- What a probe meets outside of the program: the clock, the `git` program in the base directory,
services and ports, the size that the file system gives to directories, and the digest of bytes in
hexadecimal digits. -/
structure Outside where
  nowSecs : UInt64
  runGit : List String → Option String
  fetchHttp : String → UInt64 → Option HttpFetch
  connectsV4 : UInt16 → UInt64 → Bool
  connectsV6 : UInt16 → UInt64 → Bool
  dirLen : UInt64
  sha256Hex : ByteArray → String

/-- The key is produced by a registered source. -/
def observable (key : String) : Bool := (familyOf key).isSome

/-- `str::parse::<u16>`: digits, perhaps after a plus sign, of a number that fits. -/
def parseU16 (text : String) : Option UInt16 :=
  let digits := match text.toList with
    | '+' :: rest => rest
    | chars => chars
  if digits.isEmpty || !digits.all Char.isDigit then none
  else
    let value := digits.foldl (fun value digit => 10 * value + (digit.toNat - '0'.toNat)) 0
    if value < 2 ^ 16 then some (UInt16.ofNat value) else none

namespace Outside

variable (outside : Outside)

def observed (value : Json) (source : String) (ttl : Option UInt64) : ProbeResult :=
  { value := some value, source, observedAt := outside.nowSecs, ttl }

def unknown (source : String) : ProbeResult :=
  { value := none, source, observedAt := outside.nowSecs, ttl := none }

/-- The length in the metadata of a path. -/
def metadataLen (host : Host) (path : String) : Except String UInt64 :=
  match host.readFile path with
  | .ok bytes => .ok bytes.size.toUInt64
  | .error error => if host.pathIsDir path then .ok outside.dirLen else .error error.display

def probeFile (host : Host) (rest baseDir : String) : ProbeResult :=
  match stripEnd rest ".content" with
  | some path =>
    let full := pathJoin baseDir path
    match host.readToString full with
    | .ok text => outside.observed (.string text) "fs.read" none
    | .error error =>
      if host.pathExists full then outside.unknown ("fs.read:error:" ++ error)
      else outside.observed (.bool false) "fs.read:missing" none
  | none =>
    match stripEnd rest ".exists" with
    | some path => outside.observed (.bool (host.pathExists (pathJoin baseDir path))) "fs.stat" none
    | none =>
      match stripEnd rest ".size" with
      | some path =>
        match outside.metadataLen host (pathJoin baseDir path) with
        | .ok len => outside.observed (.number (.posInt len)) "fs.stat" none
        | .error _ => outside.observed (.bool false) "fs.stat:missing" none
      | none =>
        match stripEnd rest ".sha256" with
        | some path =>
          match host.readFile (pathJoin baseDir path) with
          | .ok bytes => outside.observed (.string (outside.sha256Hex bytes)) "fs.sha256" none
          | .error _ => outside.observed (.bool false) "fs.sha256:missing" none
        | none => outside.unknown ("fs:unsupported-suffix:" ++ rest)

/-- The branch of a repository without commits, from its head. -/
def probeHead (host : Host) (baseDir : String) : ProbeResult :=
  let head := (host.readToString (pathJoin baseDir ".git/HEAD")).toOption.getD ""
  match stripStart (trim head) "ref: refs/heads/" with
  | some branch => outside.observed (.string branch) "git.head" (some 30)
  | none => outside.unknown "git:unavailable"

def probeGit (host : Host) (rest baseDir : String) (policy : ProbePolicy) : ProbeResult :=
  if !policy.allowGit then outside.unknown "git:policy-off"
  else if rest = "branch" then
    match outside.runGit ["rev-parse", "--abbrev-ref", "HEAD"] with
    | some output =>
      if trim output ≠ "HEAD" && !(trim output).isEmpty then
        outside.observed (.string (trim output)) "git" (some 30)
      else outside.probeHead host baseDir
    | none => outside.probeHead host baseDir
  else if rest = "dirty" then
    match outside.runGit ["status", "--porcelain"] with
    | some output => outside.observed (.bool (!(trim output).isEmpty)) "git" (some 30)
    | none => outside.unknown "git:unavailable"
  else if rest = "last_commit" then
    match outside.runGit ["rev-parse", "HEAD"] with
    | some output => outside.observed (.string (trim output)) "git" (some 30)
    | none => outside.unknown "git:unavailable"
  else outside.unknown ("git:unsupported:" ++ rest)

def probeHttp (rest : String) (policy : ProbePolicy) : ProbeResult :=
  if !policy.allowNetwork then outside.unknown "http:policy-off"
  else
    match splitOnce [':'] rest.toList with
    | none => outside.unknown ("http:unsupported:" ++ rest)
    | some (kind, url) =>
      match outside.fetchHttp (String.ofList url) policy.httpTimeoutMs with
      | none => outside.unknown "http:unreachable"
      | some fetch =>
        if String.ofList kind = "status" then
          outside.observed (.number (.posInt fetch.status.toUInt64)) "http" (some 15)
        else if String.ofList kind = "body_sha256" then
          outside.observed (.string (outside.sha256Hex fetch.body.toUTF8)) "http" (some 15)
        else outside.unknown ("http:unsupported:" ++ String.ofList kind)

/-- A port is tried on the two loopback addresses, whatever the policy says about the network. -/
def probePort (rest : String) (policy : ProbePolicy) : ProbeResult :=
  match parseU16 rest with
  | none => outside.unknown ("port:invalid:" ++ rest)
  | some port =>
    let timeout := max policy.portTimeoutMs 1
    outside.observed (.bool (outside.connectsV4 port timeout || outside.connectsV6 port timeout))
      "net.port" (some 10)

/-- Probe a key against a base directory. -/
def probe (host : Host) (key baseDir : String) (policy : ProbePolicy) : ProbeResult :=
  if key = "cwd.exists" then outside.observed (.bool (host.pathIsDir baseDir)) "cwd" none
  else
    match stripStart key "file:" with
    | some rest => outside.probeFile host rest baseDir
    | none =>
      match stripStart key "dir:" with
      | some rest =>
        match stripEnd rest ".exists" with
        | some path =>
          outside.observed (.bool (host.pathIsDir (pathJoin baseDir path))) "fs.dir" none
        | none => outside.unknown "fs.dir:unsupported-suffix"
      | none =>
        match stripStart key "git." with
        | some rest => outside.probeGit host rest baseDir policy
        | none =>
          match stripStart key "http." with
          | some rest => outside.probeHttp rest policy
          | none =>
            match stripStart key "port." with
            | some rest => outside.probePort ((stripStart rest "open:").getD rest) policy
            | none =>
              match stripStart key "port:" with
              | some rest => outside.probePort rest policy
              | none => outside.unknown ("unregistered:" ++ key)

end Outside

end ExperienceCodex
