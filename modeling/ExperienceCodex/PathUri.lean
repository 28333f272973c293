import Mathlib

/-!
# Paths and their URIs

A local path is absolute and normalised: a list of names.  Policies keep paths as `file:` URIs,
which may come from another host.  The operations on URIs are lexical and look at the segments of
the path as they are spelled, percent-encoded, and compare what they decode to.  A path that has no
faithful URI is kept as its bytes.

The process runs on a POSIX host.  What the URL library does to a segment that is pushed is a
parameter with its documented behaviour.
-/

namespace ExperienceCodex

open List

abbrev Bytes := List UInt8

def ascii (s : String) : Bytes := s.toList.map fun c => UInt8.ofNat c.toNat

def slashByte : UInt8 := 47

def hexValue (c : UInt8) : Option UInt8 :=
  if 48 ≤ c ∧ c ≤ 57 then some (c - 48)
  else if 65 ≤ c ∧ c ≤ 70 then some (c - 55)
  else if 97 ≤ c ∧ c ≤ 102 then some (c - 87)
  else none

def percentDecode : Bytes → Bytes
  | [] => []
  | [c] => [c]
  | [c, d] => [c, d]
  | c :: high :: low :: rest =>
    if c = 37 then
      match hexValue high, hexValue low with
      | some a, some b => (a * 16 + b) :: percentDecode rest
      | _, _ => c :: percentDecode (high :: low :: rest)
    else c :: percentDecode (high :: low :: rest)

def isUtf8 (bytes : Bytes) : Bool := (ByteArray.mk bytes.toArray).validateUTF8

/-- Decodes a segment for display, or keeps its spelling when it is not UTF-8. -/
def decodeUriPath (segment : Bytes) : Bytes :=
  if isUtf8 (percentDecode segment) then percentDecode segment else segment

def isAsciiAlphabetic (c : UInt8) : Bool := (65 ≤ c && c ≤ 90) || (97 ≤ c && c ≤ 122)

def byteToAsciiLowercase (c : UInt8) : UInt8 := if 65 ≤ c ∧ c ≤ 90 then c + 32 else c

def byteToAsciiUppercase (c : UInt8) : UInt8 := if 97 ≤ c ∧ c ≤ 122 then c - 32 else c

def eqIgnoreAsciiCase (a b : Bytes) : Bool :=
  a.map byteToAsciiLowercase == b.map byteToAsciiLowercase

/-- A component of a normalised path. -/
def isName (bytes : Bytes) : Bool :=
  !bytes.isEmpty && !bytes.contains slashByte && bytes != ascii "." && bytes != ascii ".."

abbrev PathName := { bytes : Bytes // isName bytes = true }

/-- An absolute and normalised path, by its names from the root down. -/
abbrev AbsolutePath := List PathName

def isAbsolute (path : Bytes) : Bool := path.head? == some slashByte

/-- Goes along the components of a path. -/
def walkPart (at_ : AbsolutePath) (part : Bytes) : AbsolutePath :=
  if h : isName part = true then at_ ++ [⟨part, h⟩]
  else if part = ascii ".." then at_.dropLast
  else at_

def walkPath (start : AbsolutePath) (path : Bytes) : AbsolutePath :=
  (path.splitOn slashByte).foldl walkPart start

def absolutizeFrom (path : Bytes) (base : AbsolutePath) : AbsolutePath :=
  if isAbsolute path then walkPath [] path else walkPath base path

/-- The path as it is written. -/
def AbsolutePath.text : AbsolutePath → Bytes
  | [] => [slashByte]
  | names => names.flatMap fun name => slashByte :: name.val

/-- Joins a relative path to a native one. -/
def nativeJoin (base path : Bytes) : Bytes :=
  if base.isEmpty then path
  else if base.getLast? = some slashByte then base ++ path
  else base ++ slashByte :: path

/-- What a process knows of its host. -/
structure LocalHost where
  home : Option Bytes
  currentDir : Option AbsolutePath
  /-- The variable `TMPDIR`. -/
  tmpdir : Option Bytes

namespace LocalHost

variable (host : LocalHost)

def maybeExpandHomeDirectory (path : Bytes) : Bytes :=
  match path, host.home with
  | 126 :: rest, some home =>
    if !isUtf8 path then path
    else if rest.isEmpty then home
    else if isAbsolute rest then nativeJoin home (rest.dropWhile (· == slashByte))
    else path
  | _, _ => path

def resolvePathAgainstBase (path : Bytes) (base : AbsolutePath) : AbsolutePath :=
  absolutizeFrom (host.maybeExpandHomeDirectory path) base

def fromAbsolutePath (path : Bytes) : Option AbsolutePath :=
  let expanded := host.maybeExpandHomeDirectory path
  if isAbsolute expanded then some (walkPath [] expanded)
  else host.currentDir.map fun base => absolutizeFrom expanded base

def fromAbsolutePathChecked (path : Bytes) : Option AbsolutePath :=
  let expanded := host.maybeExpandHomeDirectory path
  if isAbsolute expanded then some (absolutizeFrom expanded []) else none

end LocalHost

inductive PathConvention where
  | posix
  | windows
deriving DecidableEq, Repr

/-- No segment has an encoded null byte. -/
def NoNul (segments : List Bytes) : Prop := ∀ segment ∈ segments, 0 ∉ percentDecode segment

instance (segments : List Bytes) : Decidable (NoNul segments) :=
  inferInstanceAs (Decidable (∀ segment ∈ segments, 0 ∉ percentDecode segment))

/-- A `file:` URI. -/
inductive PathUri where
  /-- The fallback that keeps the bytes of a native path. -/
  | fallback (path : Bytes)
  /-- The host and the segments of the path, as they are spelled. -/
  | file (host : Option String) (segments : List Bytes) (noNul : NoNul segments)
deriving DecidableEq

def isWindowsDriveUriSegment : Bytes → Bool
  | [drive, 58] => isAsciiAlphabetic drive
  | [drive, 37, 51, last] => isAsciiAlphabetic drive && (last == 65 || last == 97)
  | _ => false

def inferOpaquePathConvention (path : Bytes) : Option PathConvention :=
  if isAbsolute path then some .posix
  else if path.length % 2 = 1 then none
  else
    match path with
    | a :: b :: c :: d :: _ =>
      let hasDrive := b == 0 && isAsciiAlphabetic a && c == 58 && d == 0
      let hasUncStart := a == 92 && b == 0 && c == 92 && d == 0
      if hasDrive || hasUncStart then some .windows else none
    | _ => none

/-- The segments that lexical containment looks at, unless one of them hides a separator. -/
def containmentPathSegments (convention : PathConvention) (segments : List Bytes) :
    Option (List Bytes) :=
  let segments := segments.filter fun segment => !segment.isEmpty
  if segments.any fun segment => (percentDecode segment).any fun byte =>
      byte == slashByte || (convention == .windows && byte == 92) then none
  else some segments

def nativePathSegmentsStartWith (path base : List Bytes) : PathConvention → Bool
  | .posix => base.length ≤ path.length &&
    (path.zip base).all fun pair => percentDecode pair.1 == percentDecode pair.2
  | .windows => base.length ≤ path.length &&
    (path.zip base).all fun pair => eqIgnoreAsciiCase pair.1 pair.2 ||
      eqIgnoreAsciiCase (decodeUriPath pair.1) (decodeUriPath pair.2)

namespace PathUri

def inferPathConvention : PathUri → Option PathConvention
  | .fallback path => inferOpaquePathConvention path
  | .file (some _) _ _ => some .windows
  | .file none segments _ =>
    match segments.find? fun segment => !segment.isEmpty with
    | some segment => if isWindowsDriveUriSegment segment then some .windows else some .posix
    | none => some .posix

def isOpaque : PathUri → Bool
  | .fallback _ => true
  | .file _ _ _ => false

/-- The number of names, when the URI shows them. -/
def lexicalDepth : PathUri → Option ℕ
  | .fallback _ => none
  | .file host segments h => do
    let convention ← inferPathConvention (.file host segments h)
    let found ← containmentPathSegments convention segments
    return found.length

/-- What identifies a path whose convention ignores case. -/
def windowsIdentityPathBytes (uri : PathUri) : Option Bytes :=
  match uri with
  | .fallback _ => none
  | .file _ segments _ =>
    if uri.inferPathConvention ≠ some .windows then none
    else if segments.any fun segment => (percentDecode segment).any fun byte =>
        byte == slashByte || byte == 92 then none
    else some (percentDecode (segments.flatMap fun segment => slashByte :: segment))

def uriHost : PathUri → Option String
  | .fallback _ => none
  | .file host _ _ => host

/-- Equality of URIs, which ignores case on Windows. -/
def same (left right : PathUri) : Bool :=
  left == right ||
    match left.windowsIdentityPathBytes, right.windowsIdentityPathBytes with
    | some path, some other => left.uriHost == right.uriHost && eqIgnoreAsciiCase path other
    | _, _ => false

/-- The URI is lexically at or below another. -/
def startsWith (uri base : PathUri) : Bool :=
  uri.same base ||
    match uri, base with
    | .file host segments _, .file baseHost baseSegments _ =>
      host == baseHost && uri.inferPathConvention == base.inferPathConvention &&
        let convention := uri.inferPathConvention.getD .posix
        match containmentPathSegments convention segments,
            containmentPathSegments convention baseSegments with
        | some path, some above => nativePathSegmentsStartWith path above convention
        | _, _ => false
    | _, _ => false

/-- Removes the last segment of a path that has more than the root. -/
def popIfEmpty (segments : List Bytes) : List Bytes :=
  if segments.getLast? = some [] ∧ segments ≠ [[]] then segments.dropLast else segments

def pop (segments : List Bytes) : List Bytes :=
  if segments.length ≤ 1 then [[]] else segments.dropLast

def append (segments : List Bytes) (name : Bytes) : List Bytes :=
  if segments = [[]] then [name] else segments ++ [name]

def depth (segments : List Bytes) : ℕ := (segments.filter fun segment => !segment.isEmpty).length

variable {segments : List Bytes}

lemma noNul_popped (h : NoNul segments) : NoNul (pop (popIfEmpty segments)) := by
  intro segment hmem
  suffices hsub : segment ∈ segments ∨ segment = [] by
    rcases hsub with hmem | rfl
    · exact h segment hmem
    · simp [percentDecode]
  unfold pop popIfEmpty at hmem
  split_ifs at hmem with hempty hone hone
  · simp_all
  · exact .inl (mem_of_mem_dropLast (mem_of_mem_dropLast hmem))
  · simp_all
  · exact .inl (mem_of_mem_dropLast hmem)

/-- The parent, but not above the root of the convention. -/
def parent : PathUri → Option PathUri
  | .fallback _ => none
  | .file host segments h => do
    let convention ← inferPathConvention (.file host segments h)
    let anchorDepth := if convention = .windows then 1 else 0
    if depth segments ≤ anchorDepth then none
    else some (.file host (pop (popIfEmpty segments)) (noNul_popped h))

/-- The last of the URI and its parents.  No path has more parents than segments. -/
def lastAncestor (uri : PathUri) : ℕ → PathUri
  | 0 => uri
  | fuel + 1 =>
    match uri.parent with
    | none => uri
    | some above => lastAncestor above fuel

def ancestorsLast : PathUri → PathUri
  | .fallback path => .fallback path
  | .file host segments h => lastAncestor (.file host segments h) (segments.length + 1)

end PathUri

/-- A byte that is written as it is in a URL. -/
def isPlainByte (c : UInt8) : Bool :=
  isAsciiAlphabetic c || (48 ≤ c && c ≤ 57) || c == 45 || c == 46 || c == 95

def isPlainName (name : Bytes) : Bool := isName name && name.all isPlainByte

structure UrlLibrary where
  /-- Percent-encodes a name. -/
  encode : Bytes → Bytes
  /-- Appends a segment to a path. -/
  push : List Bytes → Bytes → List Bytes
  decode_encode : ∀ name, percentDecode (encode name) = name
  push_plain : ∀ segments name, isPlainName name = true →
    push segments name = PathUri.append segments name

namespace UrlLibrary

variable (url : UrlLibrary)

lemma zero_notMem_drive {segment : Bytes} (h : isWindowsDriveUriSegment segment = true) :
    0 ∉ percentDecode (segment.modifyHead byteToAsciiUppercase) := by
  have hletter (drive : UInt8) (hdrive : isAsciiAlphabetic drive = true) :
      byteToAsciiUppercase drive ≠ 0 ∧ byteToAsciiUppercase drive ≠ 37 := by
    revert drive
    decide +kernel
  unfold isWindowsDriveUriSegment at h
  split at h
  next drive =>
    have := hletter drive h
    simp [modifyHead, percentDecode, this.1.symm]
  next drive last =>
    rw [Bool.and_eq_true, Bool.or_eq_true, beq_iff_eq, beq_iff_eq] at h
    have := hletter drive h.1
    rcases h.2 with rfl | rfl
    · simp [modifyHead, percentDecode, hexValue, this.1.symm, this.2]
    · simp [modifyHead, percentDecode, hexValue, this.1.symm, this.2]
  next => cases h

lemma drive_toAsciiUppercase {segment : Bytes} (h : isWindowsDriveUriSegment segment = true) :
    isWindowsDriveUriSegment (segment.modifyHead byteToAsciiUppercase) = true := by
  have hletter (drive : UInt8) (hdrive : isAsciiAlphabetic drive = true) :
      isAsciiAlphabetic (byteToAsciiUppercase drive) = true := by
    revert drive
    decide +kernel
  unfold isWindowsDriveUriSegment at h
  split at h
  next drive => exact hletter drive h
  next drive last =>
    rw [Bool.and_eq_true] at h
    simp only [modifyHead_cons, isWindowsDriveUriSegment, hletter drive h.1, h.2, Bool.and_self]
  next => cases h

/-- Drive letters are kept in upper case. -/
def withNormalizedWindowsDriveLetter : List Bytes → List Bytes
  | [] => []
  | segment :: rest =>
    if segment.isEmpty then segment :: withNormalizedWindowsDriveLetter rest
    else if isWindowsDriveUriSegment segment then
      (segment.modifyHead byteToAsciiUppercase) :: rest
    else segment :: rest

lemma noNul_withNormalizedWindowsDriveLetter (h : NoNul segments) :
    NoNul (withNormalizedWindowsDriveLetter segments) := by
  induction segments with
  | nil => exact h
  | cons segment rest ih =>
    have hrest : NoNul rest := forall_mem_of_forall_mem_cons h
    unfold withNormalizedWindowsDriveLetter
    split_ifs with hempty hdrive
    · intro other hother
      rcases mem_cons.mp hother with heq | hother
      · exact heq ▸ h segment mem_cons_self
      · exact ih hrest other hother
    · intro other hother
      rcases mem_cons.mp hother with heq | hother
      · rw [heq]
        exact zero_notMem_drive hdrive
      · exact hrest other hother
    · exact h

/-- A URI from what the URL library has built. -/
def tryFrom (host : Option String) (segments : List Bytes) : Option PathUri :=
  if h : NoNul segments then
    if host.isSome then some (.file host segments h)
    else some (.file host (withNormalizedWindowsDriveLetter segments)
      (noNul_withNormalizedWindowsDriveLetter h))
  else none

/-- The URI of a local path. -/
def fromAbsPath (path : AbsolutePath) : PathUri :=
  let segments := if path.isEmpty then [[]] else path.map fun name => url.encode name.val
  match tryFrom none segments with
  | some uri => if uri.inferPathConvention = some .posix then uri else .fallback path.text
  | none => .fallback path.text

/-- The normalised components of an absolute path, and whether it ends in a separator. -/
def normalizeSegment (state : List Bytes × Bool) (segment : Bytes) : List Bytes × Bool :=
  if segment.isEmpty then (state.1, true)
  else if segment = ascii "." then (state.1, false)
  else if segment = ascii ".." then (state.1.dropLast, false)
  else (state.1 ++ [segment], false)

/-- The URI of an absolute POSIX path that is given as text. -/
def fromAbsolutePosixPath (path : Bytes) : Option PathUri :=
  if isAbsolute path then
    let (normalized, trailing) := (path.tail.splitOn slashByte).foldl normalizeSegment ([], false)
    let normalized := if trailing then normalized ++ [[]] else normalized
    match tryFrom none (normalized.foldl url.push [[]]) with
    | some uri => some (if uri.inferPathConvention = some .posix then uri else .fallback path)
    | none => none
  else none

/-- Appends a component of a relative path. -/
def joinComponent (state : List Bytes × ℕ) (component : Bytes) : List Bytes × ℕ :=
  if component.isEmpty || component == ascii "." then state
  else if component = ascii ".." then
    if 0 < state.2 then (PathUri.pop state.1, state.2 - 1) else state
  else (url.push state.1 component, state.2 + 1)

/-- Resolves path text against a POSIX URI. -/
def joinPosix (uri : PathUri) (path : Bytes) : Option PathUri :=
  if path.contains 0 then none
  else if path.isEmpty then some uri
  else
    match url.fromAbsolutePosixPath path, uri with
    | some absolute, _ => some absolute
    | none, .fallback _ => none
    | none, .file host segments _ =>
      let start := (PathUri.popIfEmpty segments, PathUri.depth segments)
      tryFrom host ((path.splitOn slashByte).foldl url.joinComponent start).1

/-- Resolves a relative path that stays at or below a POSIX URI. -/
def joinDescendant (uri : PathUri) (path : Bytes) : Option PathUri := do
  let descendant ← url.joinPosix uri path
  if isAbsolute path || !descendant.startsWith uri then none else some descendant

/-- The local path that a URI names. -/
def toAbsPath (host : LocalHost) (uri : PathUri) : Option AbsolutePath :=
  if uri.inferPathConvention ≠ some .posix then none
  else
    match uri with
    | .fallback bytes =>
      match host.fromAbsolutePathChecked bytes with
      | some path => if (url.fromAbsPath path).same uri then some path else none
      | none => none
    | .file _ segments _ =>
      host.fromAbsolutePathChecked
        (segments.flatMap fun segment => slashByte :: percentDecode segment)

end UrlLibrary

namespace PathUri

/-- The segments that are not empty. -/
def shown (segments : List Bytes) : List Bytes := segments.filter fun segment => !segment.isEmpty

/-- The names of the path. -/
def names : PathUri → List Bytes
  | .fallback _ => []
  | .file _ segments _ => (shown segments).map percentDecode

/-- A POSIX URI that shows its names. -/
def Lexical (uri : PathUri) : Prop :=
  uri.inferPathConvention = some .posix ∧ uri.lexicalDepth.isSome = true

instance (uri : PathUri) : Decidable uri.Lexical := inferInstanceAs (Decidable (_ ∧ _))

lemma containmentPathSegments_posix {found : List Bytes} :
    containmentPathSegments .posix segments = some found ↔
      found = shown segments ∧ ∀ segment ∈ shown segments, slashByte ∉ percentDecode segment := by
  unfold containmentPathSegments
  dsimp only
  split_ifs with h
  · simp only [any_eq_true, beq_iff_eq, reduceCtorEq, Bool.or_eq_true, Bool.and_eq_true,
      false_and, or_false] at h
    obtain ⟨segment, hmem, byte, hbyte, rfl⟩ := h
    simp only [false_iff, not_and, not_forall]
    intro _
    exact ⟨segment, hmem, not_not_intro hbyte⟩
  · simp only [any_eq_true, beq_iff_eq, reduceCtorEq, Bool.or_eq_true, Bool.and_eq_true,
      false_and, or_false] at h
    rw [Option.some.injEq]
    constructor
    · intro heq
      refine ⟨heq.symm, ?_⟩
      intro segment hmem hslash
      exact h ⟨segment, hmem, slashByte, hslash, rfl⟩
    · intro hboth
      exact hboth.1.symm

variable {uri : PathUri}

/-- What such a URI is made of. -/
lemma Lexical.cases (h : uri.Lexical) :
    ∃ segments noNul, uri = .file none segments noNul ∧
      containmentPathSegments .posix segments = some (shown segments) := by
  obtain ⟨hconv, hdepth⟩ := h
  match uri with
  | .fallback path => simp [lexicalDepth] at hdepth
  | .file (some host) segments noNul => simp [inferPathConvention] at hconv
  | .file none segments noNul =>
    refine ⟨segments, noNul, rfl, ?_⟩
    simp only [lexicalDepth, hconv] at hdepth
    cases hfound : containmentPathSegments .posix segments with
    | none => simp [hfound] at hdepth
    | some found => rw [(containmentPathSegments_posix.mp hfound).1]

lemma Lexical.lexicalDepth_eq (h : uri.Lexical) :
    uri.lexicalDepth = some uri.names.length := by
  obtain ⟨segments, noNul, rfl, hfound⟩ := h.cases
  simp [lexicalDepth, h.1, hfound, names]

/-- On POSIX a path starts with another when its names do. -/
lemma nativePathSegmentsStartWith_posix (path base : List Bytes) :
    nativePathSegmentsStartWith path base .posix = true ↔
      base.map percentDecode <+: path.map percentDecode := by
  induction base generalizing path with
  | nil => simp [nativePathSegmentsStartWith]
  | cons first base ih =>
    cases path with
    | nil => simp [nativePathSegmentsStartWith]
    | cons name path =>
      have hrest := ih path
      simp only [nativePathSegmentsStartWith, Bool.and_eq_true, decide_eq_true_eq] at hrest
      simp only [nativePathSegmentsStartWith, length_cons, Nat.add_le_add_iff_right,
        zip_cons_cons, all_cons, Bool.and_eq_true, decide_eq_true_eq, beq_iff_eq,
        map_cons, cons_prefix_cons, ← hrest]
      constructor
      · intro h
        exact ⟨h.2.1.symm, h.1, h.2.2⟩
      · intro h
        exact ⟨h.2.1, h.1.symm, h.2.2⟩

lemma same_posix {other : PathUri} (h : uri.inferPathConvention = some .posix) :
    uri.same other = true ↔ uri = other := by
  have hnone : uri.windowsIdentityPathBytes = none := by
    unfold windowsIdentityPathBytes
    split
    · rfl
    · simp [h]
  simp [same, hnone]

/-- Containment of such URIs is containment of their names. -/
theorem startsWith_iff {base : PathUri} (huri : uri.Lexical) (hbase : base.Lexical) :
    uri.startsWith base = true ↔ base.names <+: uri.names := by
  obtain ⟨segments, noNul, heq, hfound⟩ := huri.cases
  obtain ⟨baseSegments, baseNoNul, hbaseEq, hbaseFound⟩ := hbase.cases
  have hconv := huri.1
  have hbaseConvention := hbase.1
  have hlexical : uri.startsWith base = true ↔ uri = base ∨ base.names <+: uri.names := by
    subst heq hbaseEq
    rw [startsWith, Bool.or_eq_true, same_posix hconv]
    simp only [hconv, hbaseConvention, Option.getD_some, hfound, hbaseFound, beq_self_eq_true,
      Bool.true_and, nativePathSegmentsStartWith_posix, names]
  rw [hlexical]
  constructor
  · intro h
    rcases h with h | h
    · rw [h]
    · exact h
  · exact .inr

/-- A fallback contains nothing that shows its names. -/
lemma startsWith_fallback (huri : uri.Lexical) (path : Bytes) :
    uri.startsWith (.fallback path) = false := by
  obtain ⟨segments, noNul, rfl, -⟩ := huri.cases
  have hne : ¬ (file none segments noNul).same (.fallback path) = true := by
    rw [same_posix huri.1]
    simp
  simp [startsWith, hne]

lemma inferPathConvention_posix_iff {noNul : NoNul segments} :
    (PathUri.file none segments noNul).inferPathConvention = some .posix ↔
      ∀ segment ∈ (shown segments).head?, isWindowsDriveUriSegment segment = false := by
  rw [shown, head?_filter, inferPathConvention]
  cases segments.find? fun segment => !segment.isEmpty with
  | none => simp
  | some segment => simp

lemma shown_popIfEmpty (segments : List Bytes) : shown (popIfEmpty segments) = shown segments := by
  unfold popIfEmpty
  split_ifs with h
  · conv_rhs => rw [← dropLast_append_getLast? [] h.1, shown, filter_append]
    simp [shown]
  · rfl

end PathUri

section
variable {url : UrlLibrary} {segments : List Bytes} {name : Bytes}

open PathUri

lemma withNormalizedWindowsDriveLetter_eq
    (h : ∀ segment ∈ (shown segments).head?, isWindowsDriveUriSegment segment = false) :
    UrlLibrary.withNormalizedWindowsDriveLetter segments = segments := by
  induction segments with
  | nil => rfl
  | cons segment rest ih =>
    unfold UrlLibrary.withNormalizedWindowsDriveLetter
    by_cases hempty : segment.isEmpty = true
    · rw [if_pos hempty, ih (by simpa [shown, hempty] using h)]
    · have hdrive : isWindowsDriveUriSegment segment = false := by
        refine h segment ?_
        simp [shown, hempty]
      rw [if_neg hempty, hdrive, if_neg (by simp)]

lemma percentDecode_plain (h : 37 ∉ name) : percentDecode name = name := by
  induction name using percentDecode.induct with
  | case1 => rfl
  | case2 c => rfl
  | case3 c d => rfl
  | case4 => simp at h
  | case5 => simp at h
  | case6 c high low rest hc ih =>
    rw [percentDecode, if_neg hc, ih fun hmem => h (mem_cons_of_mem _ hmem)]

/-- What a plain name is not made of. -/
lemma plain_bytes (h : isPlainName name = true) :
    isName name = true ∧ ∀ c ∈ name, c ≠ 0 ∧ c ≠ 37 ∧ c ≠ 58 ∧ c ≠ slashByte := by
  rw [isPlainName, Bool.and_eq_true, all_eq_true] at h
  have hbyte : ∀ c : UInt8, isPlainByte c = true → c ≠ 0 ∧ c ≠ 37 ∧ c ≠ 58 ∧ c ≠ slashByte := by
    decide +kernel
  exact ⟨h.1, fun c hc => hbyte c (h.2 c hc)⟩

lemma plain_not_drive (h : isPlainName name = true) : isWindowsDriveUriSegment name = false := by
  have hbytes := (plain_bytes h).2
  unfold isWindowsDriveUriSegment
  split
  next drive => exact absurd rfl (hbytes 58 (by simp)).2.2.1
  next drive last => exact absurd rfl (hbytes 37 (by simp)).2.1
  next => rfl

lemma plain_relative (h : isPlainName name = true) :
    name ≠ [] ∧ name.contains 0 = false ∧ isAbsolute name = false := by
  obtain ⟨hisName, hbytes⟩ := plain_bytes h
  have hne : name ≠ [] := by
    intro hnil
    simp [hnil, isName] at hisName
  refine ⟨hne, ?_, ?_⟩
  · rw [← Bool.not_eq_true, contains_iff_mem]
    exact fun hmem => (hbytes 0 hmem).1 rfl
  · cases name with
    | nil => exact absurd rfl hne
    | cons first rest => simpa [isAbsolute] using (hbytes first (by simp)).2.2.2

variable (url) in
/-- Joining a plain name to a URI that shows its names. -/
theorem joinDescendant_plain (huri : uri.Lexical) (hname : isPlainName name = true) :
    ∃ below, url.joinDescendant uri name = some below ∧ below.Lexical ∧
      below.names = uri.names ++ [name] := by
  obtain ⟨segments, noNul, rfl, hfound⟩ := huri.cases
  obtain ⟨hisName, hbytes⟩ := plain_bytes hname
  obtain ⟨hne, hnul, hrelative⟩ := plain_relative hname
  simp only [isName, Bool.and_eq_true, bne_iff_ne] at hisName
  obtain ⟨⟨-, hdot⟩, hdots⟩ := hisName
  have hsplit : name.splitOn slashByte = [name] :=
    splitOn_eq_singleton fun hmem => (hbytes slashByte hmem).2.2.2 rfl
  have hdecode : percentDecode name = name :=
    percentDecode_plain fun hmem => (hbytes 37 hmem).2.1 rfl
  have hshown : shown (append (popIfEmpty segments) name) = shown segments ++ [name] := by
    rw [← shown_popIfEmpty segments, append]
    split_ifs with h <;> simp [h, shown, hne]
  have hnoNul : NoNul (append (popIfEmpty segments) name) := by
    intro segment hmem
    have hsegment : segment ∈ popIfEmpty segments ∨ segment = name := by
      unfold append at hmem
      split_ifs at hmem
      · exact .inr (mem_singleton.mp hmem)
      · simpa using hmem
    rcases hsegment with hsegment | heq
    · unfold popIfEmpty at hsegment
      split_ifs at hsegment
      · exact noNul segment (mem_of_mem_dropLast hsegment)
      · exact noNul segment hsegment
    · rw [heq, hdecode]
      exact fun hzero => (hbytes 0 hzero).1 rfl
  have hhead : ∀ segment ∈ (shown (append (popIfEmpty segments) name)).head?,
      isWindowsDriveUriSegment segment = false := by
    intro segment hsegment
    rw [hshown] at hsegment
    cases hfirst : (shown segments).head? with
    | none =>
      rw [head?_eq_none_iff] at hfirst
      rw [hfirst, nil_append, head?_cons, Option.mem_some_iff] at hsegment
      rw [← hsegment]
      exact plain_not_drive hname
    | some first =>
      rw [head?_append, hfirst, Option.some_or, Option.mem_some_iff] at hsegment
      rw [← hsegment]
      exact inferPathConvention_posix_iff.mp huri.1 first hfirst
  have hjoin : url.joinPosix (.file none segments noNul) name =
      some (.file none (append (popIfEmpty segments) name) hnoNul) := by
    have habsolute : url.fromAbsolutePosixPath name = none := by
      simp [UrlLibrary.fromAbsolutePosixPath, hrelative]
    have hcomponent : (url.joinComponent (popIfEmpty segments, depth segments) name).1 =
        append (popIfEmpty segments) name := by
      simp [UrlLibrary.joinComponent, hne, hdot, hdots, url.push_plain _ _ hname]
    simp only [UrlLibrary.joinPosix, hnul, Bool.false_eq_true, if_false, habsolute, hsplit,
      foldl_cons, foldl_nil, hcomponent]
    simp [UrlLibrary.tryFrom, hne, hnoNul, withNormalizedWindowsDriveLetter_eq hhead]
  have hlexical : (file none (append (popIfEmpty segments) name) hnoNul).Lexical := by
    have hcontained : containmentPathSegments .posix (append (popIfEmpty segments) name) =
        some (shown (append (popIfEmpty segments) name)) := by
      refine containmentPathSegments_posix.mpr ⟨rfl, ?_⟩
      intro segment hmem
      rw [hshown, mem_append, mem_singleton] at hmem
      rcases hmem with hmem | heq
      · exact (containmentPathSegments_posix.mp hfound).2 segment hmem
      · rw [heq, hdecode]
        exact fun hmem => (hbytes slashByte hmem).2.2.2 rfl
    refine ⟨inferPathConvention_posix_iff.mpr hhead, ?_⟩
    simp [lexicalDepth, inferPathConvention_posix_iff.mpr hhead, hcontained]
  have hnames : (file none (append (popIfEmpty segments) name) hnoNul).names =
      (file none segments noNul).names ++ [name] := by
    have hmap := congrArg (map percentDecode) hshown
    rw [map_append, map_singleton, hdecode] at hmap
    exact hmap
  refine ⟨_, ?_, hlexical, hnames⟩
  have hbelow : (file none (append (popIfEmpty segments) name) hnoNul).startsWith
      (.file none segments noNul) = true := by
    rw [startsWith_iff hlexical huri, hnames]
    exact prefix_append _ _
  simp [UrlLibrary.joinDescendant, hjoin, hrelative, hbelow]

/-- Nothing is joined to a fallback. -/
lemma joinDescendant_fallback (hname : isPlainName name = true) (path : Bytes) :
    url.joinDescendant (.fallback path) name = none := by
  obtain ⟨hne, hnul, hrelative⟩ := plain_relative hname
  simp [UrlLibrary.joinDescendant, UrlLibrary.joinPosix, UrlLibrary.fromAbsolutePosixPath, hne,
    hrelative]

variable (path : AbsolutePath)

lemma AbsolutePath.isAbsolute_text : isAbsolute path.text = true := by
  cases path with
  | nil => rfl
  | cons name path => simp [isAbsolute, text]

/-- A drive stays a drive. -/
lemma head_withNormalizedWindowsDriveLetter
    (h : ∀ segment ∈ (shown (UrlLibrary.withNormalizedWindowsDriveLetter segments)).head?,
      isWindowsDriveUriSegment segment = false) :
    UrlLibrary.withNormalizedWindowsDriveLetter segments = segments := by
  refine withNormalizedWindowsDriveLetter_eq ?_
  induction segments with
  | nil => simp [shown]
  | cons segment rest ih =>
    unfold UrlLibrary.withNormalizedWindowsDriveLetter at h
    by_cases hempty : segment.isEmpty = true
    · rw [if_pos hempty] at h
      simpa [shown, hempty] using ih (by simpa [shown, hempty] using h)
    · rw [if_neg hempty] at h
      split_ifs at h with hdrive
      · have hstill := UrlLibrary.drive_toAsciiUppercase hdrive
        have := h (segment.modifyHead byteToAsciiUppercase) (by
          cases segment <;> simp_all [shown])
        simp [this] at hstill
      · simpa [shown, hempty] using hdrive

variable (url)

/-- The segments of the URI of a local path. -/
def localSegments (path : AbsolutePath) : List Bytes :=
  if path.isEmpty then [[]] else path.map fun name => url.encode name.val

lemma encode_ne_nil (name : PathName) : url.encode name.val ≠ [] := by
  intro hnil
  have hdecode := url.decode_encode name.val
  rw [hnil, percentDecode] at hdecode
  have hname := name.property
  rw [← hdecode] at hname
  simp [isName] at hname

lemma map_shown_localSegments :
    (shown (localSegments url path)).map percentDecode = path.map Subtype.val := by
  unfold localSegments
  split_ifs with hempty
  · simp [shown, isEmpty_iff.mp hempty]
  · have hall : shown (path.map fun name => url.encode name.val) =
        path.map fun name => url.encode name.val := by
      refine filter_eq_self.mpr ?_
      intro segment hmem
      obtain ⟨name, -, rfl⟩ := mem_map.mp hmem
      simp [encode_ne_nil]
    rw [hall, map_map]
    refine map_congr_left ?_
    intro name _
    exact url.decode_encode name.val

/-- The URI of a local path shows its names, or keeps its bytes. -/
theorem fromAbsPath_cases :
    url.fromAbsPath path = .fallback path.text ∨
      (url.fromAbsPath path).Lexical ∧ (url.fromAbsPath path).names = path.map Subtype.val := by
  have hfrom : url.fromAbsPath path =
      match UrlLibrary.tryFrom none (localSegments url path) with
      | some uri => if uri.inferPathConvention = some .posix then uri else .fallback path.text
      | none => .fallback path.text := rfl
  rw [hfrom]
  by_cases hnoNul : NoNul (localSegments url path)
  swap
  · left
    simp [UrlLibrary.tryFrom, hnoNul]
  by_cases hposix : ∀ segment ∈ (shown (UrlLibrary.withNormalizedWindowsDriveLetter
      (localSegments url path))).head?, isWindowsDriveUriSegment segment = false
  swap
  · left
    have hwindows : ¬ (PathUri.file none _ (UrlLibrary.noNul_withNormalizedWindowsDriveLetter
        hnoNul)).inferPathConvention = some .posix :=
      fun h => hposix (inferPathConvention_posix_iff.mp h)
    simp [UrlLibrary.tryFrom, hnoNul, hwindows]
  right
  have hsegs := head_withNormalizedWindowsDriveLetter hposix
  rw [hsegs] at hposix
  have hconv : (file none (localSegments url path) hnoNul).inferPathConvention =
      some .posix := inferPathConvention_posix_iff.mpr hposix
  have huri : UrlLibrary.tryFrom none (localSegments url path) =
      some (.file none (localSegments url path) hnoNul) := by
    simp [UrlLibrary.tryFrom, hnoNul, hsegs]
  rw [huri]
  simp only [hconv, if_true]
  have hcontained : containmentPathSegments .posix (localSegments url path) =
      some (shown (localSegments url path)) := by
    refine containmentPathSegments_posix.mpr ⟨rfl, ?_⟩
    intro segment hmem
    have hname : percentDecode segment ∈ path.map Subtype.val := by
      rw [← map_shown_localSegments url]
      exact mem_map_of_mem hmem
    obtain ⟨name, -, heq⟩ := mem_map.mp hname
    rw [← heq]
    have := name.property
    simp only [isName, Bool.and_eq_true, Bool.not_eq_true', contains_eq_mem,
      decide_eq_false_iff_not] at this
    exact this.1.1.2
  refine ⟨⟨hconv, ?_⟩, map_shown_localSegments url path⟩
  simp [lexicalDepth, hconv, hcontained]

/-- The URI of a local path is a POSIX one. -/
lemma inferPathConvention_fromAbsPath :
    (url.fromAbsPath path).inferPathConvention = some .posix := by
  rcases fromAbsPath_cases url path with heq | ⟨hlexical, -⟩
  · rw [heq]
    simp [inferPathConvention, inferOpaquePathConvention, AbsolutePath.isAbsolute_text]
  · exact hlexical.1

end

def hexDigit (n : UInt8) : UInt8 := if n < 10 then 48 + n else 55 + n

def percentEncode (name : Bytes) : Bytes :=
  name.flatMap fun c => if isPlainByte c then [c] else [37, hexDigit (c / 16), hexDigit (c % 16)]

lemma percentDecode_cons {c : UInt8} (h : c ≠ 37) (rest : Bytes) :
    percentDecode (c :: rest) = c :: percentDecode rest := by
  match rest with
  | [] => rfl
  | [d] => rfl
  | high :: low :: rest => rw [percentDecode, if_neg h]

lemma percentDecode_percentEncode (name : Bytes) : percentDecode (percentEncode name) = name := by
  have hplain : ∀ c : UInt8, isPlainByte c = true → c ≠ 37 := by decide +kernel
  have hdigits : ∀ c : UInt8, hexValue (hexDigit (c / 16)) = some (c / 16) ∧
      hexValue (hexDigit (c % 16)) = some (c % 16) ∧ c / 16 * 16 + c % 16 = c := by decide +kernel
  induction name with
  | nil => rfl
  | cons c name ih =>
    have hcons : percentEncode (c :: name) = (if isPlainByte c then [c] else
        [37, hexDigit (c / 16), hexDigit (c % 16)]) ++ percentEncode name := rfl
    rw [hcons]
    split_ifs with h
    · rw [singleton_append, percentDecode_cons (hplain c h), ih]
    · obtain ⟨hhigh, hlow, hbyte⟩ := hdigits c
      simp only [cons_append, nil_append, percentDecode, if_true, hhigh, hlow, hbyte, ih]

/-- A library that writes all other bytes percent-encoded. -/
def plainUrl : UrlLibrary where
  encode := percentEncode
  push segments name := PathUri.append segments (percentEncode name)
  decode_encode := percentDecode_percentEncode
  push_plain segments name hname := by
    rw [isPlainName, Bool.and_eq_true, all_eq_true] at hname
    have hsame : percentEncode name = name := by
      unfold percentEncode
      rw [flatMap_congr fun c hc => if_pos (hname.2 c hc)]
      simp
    rw [hsame]

/-- A host without a home directory. -/
def bareHost : LocalHost where
  home := none
  currentDir := none
  tmpdir := none

end ExperienceCodex
