import ExperienceCodex.WritableRoots

/-!
# What the projection accepts

A path that a writable root accepts may be written, unless an entry that the projection does not
see closes it, or it lies in the metadata of another writable root below that one.
-/

namespace ExperienceCodex

open List Layers FileSystemSandboxPolicy

section
variable {url : UrlLibrary} {host : LocalHost} {disk : LocalDisk}
  {policy : FileSystemSandboxPolicy} {cwd : Bytes} {writable : WritableRoot} {path : AbsolutePath}

lemma pathNames_prefix_iff {path other : AbsolutePath} :
    pathNames path <+: pathNames other ↔ path <+: other := by
  constructor
  · intro h
    have htake := prefix_iff_eq_take.mp h
    rw [pathNames, pathNames, length_map, ← map_take] at htake
    rw [map_injective_iff.mpr Subtype.val_injective htake]
    exact take_prefix _ _
  · intro h
    exact h.map _

/-- What a writable root of a policy is. -/
structure Projected (url : UrlLibrary) (host : LocalHost) (disk : LocalDisk)
    (policy : FileSystemSandboxPolicy) (cwd : Bytes) (writable : WritableRoot) : Prop where
  restricted : policy.hasFullDiskWriteAccess url host = false
  root : policy.canWritePathWithCwd url host writable.root.text cwd = true
  carved : ∀ seen ∈ policy.resolvedEntriesWithCwd url host disk cwd, seen.2 ≠ .write →
    policy.canWritePathWithCwd url host seen.1.text cwd = false → writable.root <+: seen.1 →
    seen.1 ≠ writable.root → seen.1 ∈ writable.readOnlySubpaths
  names : ∀ name, ∀ hname : name ∈ protectedMetadataPathNames,
    policy.canWritePathWithCwd url host (writable.root ++ [⟨name,
      (plain_bytes (protectedMetadataPathNames_plain name hname)).1⟩] : AbsolutePath).text cwd =
        false → name ∈ writable.protectedMetadataNames

lemma projected_of_mem (hlinks : disk.NoLinks)
    (h : writable ∈ policy.getWritableRootsWithCwd url host disk cwd) :
    Projected url host disk policy cwd writable := by
  have hresv := disk.normalizeEffectiveAbsolutePath_eq hlinks
  unfold getWritableRootsWithCwd at h
  split_ifs at h with hfull
  · simp at h
  obtain ⟨root, hroot, rfl⟩ := mem_map.mp h
  simp only [mem_eraseDups, mem_map, mem_filter, Bool.and_eq_true, hresv] at hroot
  obtain ⟨-, ⟨entry, ⟨-, -, hcan⟩, rfl⟩, rfl⟩ := hroot
  refine ⟨by simpa using hfull, hcan, ?_, ?_⟩
  · intro seen hseen hwrite hclosed hbelow hne
    have hcarveout (raw : List AbsolutePath) :
        carveout disk entry.1 raw seen.1 = some seen.1 := by
      unfold carveout
      by_cases hnil : entry.1 = []
      · simp [hnil, hresv, hnil ▸ hne]
      · simp [hnil, hne, hbelow]
    simp only [mem_eraseDups, mem_append, mem_filterMap, mem_filter]
    right
    refine ⟨seen, ⟨hseen, ?_⟩, hcarveout _⟩
    simp [FileSystemAccessMode.canWrite, hwrite, hclosed]
  · intro name hname hclosed
    have hplain := protectedMetadataPathNames_plain name hname
    simp only [protectedMetadataNamesForWritableRoot, mem_filter,
      all_eq_true, Bool.not_eq_true']
    refine ⟨hname, ?_⟩
    intro raw hraw
    have hsame : raw = entry.1 := by
      rcases mem_cons.mp hraw with hraw | hraw
      · exact hraw
      · have := (mem_filter.mp hraw).2
        rwa [hresv, beq_iff_eq] at this
    rw [hsame, resolvePathAgainstBase_plain hplain]
    exact hclosed

/-- What a root that accepts a path says about its names. -/
structure Accepts (writable : WritableRoot) (path : AbsolutePath) : Prop where
  below : writable.root <+: path
  opened : ∀ subpath ∈ writable.readOnlySubpaths, ¬ subpath <+: path
  unprotected : ∀ name, writable.root ++ [name] <+: path →
    name.val ∉ writable.protectedMetadataNames

lemma pathNames_foldl_walkPart {parts : List Bytes} (h : ascii ".." ∉ parts)
    (start : AbsolutePath) :
    pathNames (parts.foldl walkPart start) =
      pathNames start ++ parts.filter fun part => isName part || part == ascii ".." := by
  induction parts generalizing start with
  | nil => simp
  | cons part parts ih =>
    obtain ⟨hpart, h⟩ := not_or.mp (mt mem_cons.mpr h)
    rw [foldl_cons, ih h, filter_cons]
    by_cases hname : isName part = true
    · simp [walkPart, hname, pathNames]
    · simp [walkPart, hname, Ne.symm hpart]

/-- Without `..` the components of a path are the names of the path that it is. -/
lemma pathNames_walkPath {path : Bytes} (h : ascii ".." ∉ pathPieces path) :
    pathNames (walkPath [] path) = pathPieces path := by
  have hparts : ascii ".." ∉ path.splitOn slashByte := fun hmem =>
    h (mem_filter.mpr ⟨hmem, by simp⟩)
  exact pathNames_foldl_walkPart hparts []

lemma accepts_of_isPathWritable {path : Bytes} (hparents : ascii ".." ∉ pathPieces path)
    (h : writable.isPathWritable path = true) :
    isAbsolute path = true ∧ Accepts writable (walkPath [] path) := by
  unfold WritableRoot.isPathWritable at h
  split_ifs at h with hroot hcarved hname
  obtain ⟨habs, hnames⟩ := Bool.and_eq_true_iff.mp hroot
  have hstarts (above : AbsolutePath) :
      startsWithPath path above = true ↔ above <+: walkPath [] path := by
    rw [startsWithPath, habs, Bool.true_and, decide_eq_true_iff, ← pathNames_walkPath hparents,
      pathNames_prefix_iff]
  have hbelow := (hstarts writable.root).mp hroot
  refine ⟨habs, hbelow, fun subpath hmem hsub => ?_, fun name hnamed hprotected => ?_⟩
  · exact hcarved (any_eq_true.mpr ⟨subpath, hmem, (hstarts subpath).mpr hsub⟩)
  · obtain ⟨rest, hrest⟩ := hnamed
    refine hname ?_
    rw [WritableRoot.pathContainsProtectedMetadataName, if_pos ((hstarts _).mpr hbelow),
      ← pathNames_walkPath hparents, ← hrest]
    simpa [pathNames] using hprotected

/-- The entry that decides a path below the root, if it does not allow writes, is one that the
projection sees. -/
def ClosedBySeen (url : UrlLibrary) (policy : FileSystemSandboxPolicy) (uri : PathUri)
    (context : FileSystemSandboxPolicyContext) (seen : List (AbsolutePath × FileSystemAccessMode))
    (root : AbsolutePath) : Prop :=
  ∀ rule, Decides (rulesOf (policy.resolvedEntries url context)) rule uri.names →
    rule.access ≠ .write → root.length < rule.root.length →
    ∃ entry ∈ seen, entry.2 ≠ .write ∧ pathNames entry.1 = rule.root

/-- The first protected directory over a path, if it belongs to a write entry below the root, is
opened again. -/
def NestedMetadataReopened (url : UrlLibrary) (policy : FileSystemSandboxPolicy) (uri : PathUri)
    (context : FileSystemSandboxPolicyContext) (root : AbsolutePath) : Prop :=
  let roots := rootsOf (rulesOf (policy.resolvedEntries url context)) .write
  ∀ hidden, firstHidden roots protectedMetadataPathNames uri.names = some hidden →
    root.length + 1 < hidden.length → Reopens roots hidden uri.names

lemma names_fromAbsPath (h : (url.fromAbsPath path).Lexical) :
    (url.fromAbsPath path).names = pathNames path := by
  rcases fromAbsPath_cases url path with heq | ⟨-, hnames⟩
  · obtain ⟨segments, noNul, hfile, -⟩ := h.cases
    rw [heq] at hfile
    cases hfile
  · exact hnames

section
variable {base : AbsolutePath}

/-- What is known of a local path that may be written. -/
structure Written (url : UrlLibrary) (policy : FileSystemSandboxPolicy)
    (context : FileSystemSandboxPolicyContext) (path : AbsolutePath) : Prop where
  readable : Readable url policy (url.fromAbsPath path) context
  decision : decision (rulesOf (policy.resolvedEntries url context)) (pathNames path) = some .write
  reopened : ∀ hidden, firstHidden (rootsOf (rulesOf (policy.resolvedEntries url context)) .write)
      protectedMetadataPathNames (pathNames path) = some hidden →
    Reopens (rootsOf (rulesOf (policy.resolvedEntries url context)) .write) hidden (pathNames path)

section
variable (hkind : policy.kind = .restricted)
include hkind

lemma written_iff (hfull : policy.hasFullDiskWriteAccess url host = false)
    (hcwd : host.fromAbsolutePath cwd = some base) (path : AbsolutePath) :
    policy.canWritePathWithCwd url host path.text cwd = true ↔
      Written url policy (localContext url host base) path := by
  have hposix : (localContext url host base).cwd.inferPathConvention = some .posix :=
    inferPathConvention_fromAbsPath url base
  rw [canWritePathWithCwd, withLocalPolicyContext_text path hcwd,
    canWritePath_iff hkind hposix, hfull]
  simp only [Bool.false_eq_true, false_or]
  constructor
  · intro h
    obtain ⟨hread, hdec, hreopened⟩ := h
    rw [names_fromAbsPath hread.path] at hdec hreopened
    exact ⟨hread, hdec, hreopened⟩
  · intro h
    rw [names_fromAbsPath h.readable.path]
    exact ⟨h.readable, h.decision, h.reopened⟩

/-- What an accepted path is decided by. -/
lemma decision_of_accepted (hproj : Projected url host disk policy cwd writable)
    (hcwd : host.fromAbsolutePath cwd = some base)
    (hroot : Written url policy (localContext url host base) writable.root)
    (hpath : Accepts writable path)
    (hseen : ClosedBySeen url policy (url.fromAbsPath path) (localContext url host base)
      (policy.resolvedEntriesWithCwd url host disk cwd) writable.root)
    (hlex : (url.fromAbsPath path).Lexical) :
    decision (rulesOf (policy.resolvedEntries url (localContext url host base))) (pathNames path) =
      some .write := by
  obtain ⟨hbelow, hopen, -⟩ := hpath
  have hnames := pathNames_prefix_iff.mpr hbelow
  obtain ⟨top, htop, htopAccess⟩ := decision_eq_some_iff.mp hroot.decision
  obtain ⟨rule, hrule⟩ := exists_decides htop.mem (htop.covers.trans hnames)
  refine decision_eq_some_iff.mpr ⟨rule, hrule, ?_⟩
  rcases hrule.access_eq_or_below htop hnames with hsame | ⟨hdeep, hne⟩
  · rw [hsame, htopAccess]
  by_contra hclosed
  have hlonger : writable.root.length < rule.root.length := by
    have hlen := hdeep.length_le
    rw [pathNames, length_map] at hlen
    refine lt_of_le_of_ne hlen fun heq => hne (hdeep.eq_of_length ?_)
    rw [pathNames, length_map]
    exact heq
  rw [← names_fromAbsPath hlex] at hrule
  obtain ⟨seen, hmem, hwrite, heq⟩ := hseen rule hrule hclosed hlonger
  rw [names_fromAbsPath hlex] at hrule
  -- The rule decides its own root as well, which is therefore carved out.
  have hnotWritten : policy.canWritePathWithCwd url host seen.1.text cwd = false := by
    rw [← Bool.not_eq_true, written_iff hkind hproj.restricted hcwd]
    intro hwritten
    have hself := decision_eq_some_iff.mpr ⟨rule, hrule.above hrule.covers le_rfl, rfl⟩
    rw [← heq, hwritten.decision, Option.some.injEq] at hself
    exact hclosed hself.symm
  rw [← heq] at hdeep hne
  have hcarved := hproj.carved seen hmem hwrite hnotWritten (pathNames_prefix_iff.mp hdeep)
    fun hsame => hne (by rw [hsame])
  refine hopen seen.1 hcarved (pathNames_prefix_iff.mp ?_)
  rw [heq]
  exact hrule.covers

/-- Protected directories over an accepted path are opened again. -/
lemma reopened_of_accepted (hproj : Projected url host disk policy cwd writable)
    (hcwd : host.fromAbsolutePath cwd = some base)
    (hroot : Written url policy (localContext url host base) writable.root)
    (hpath : Accepts writable path)
    (hnested : NestedMetadataReopened url policy (url.fromAbsPath path)
      (localContext url host base) writable.root)
    (hlex : (url.fromAbsPath path).Lexical) {hidden : List Bytes}
    (hfst : firstHidden (rootsOf (rulesOf (policy.resolvedEntries url
      (localContext url host base))) .write) protectedMetadataPathNames (pathNames path) =
        some hidden) :
    Reopens (rootsOf (rulesOf (policy.resolvedEntries url (localContext url host base))) .write)
      hidden (pathNames path) := by
  obtain ⟨hbelow, -, hnotProtected⟩ := hpath
  have hnames := pathNames_prefix_iff.mpr hbelow
  have hlen : (pathNames writable.root).length = writable.root.length := length_map ..
  obtain ⟨owner, howner, name, hname, heq, hhidden⟩ := mem_of_firstHidden hfst
  have howned : owner <+: hidden := heq ▸ prefix_append owner [name]
  have hhiddenLength : hidden.length = owner.length + 1 := by
    rw [heq, length_append, length_singleton]
  -- An entry that opens the directory again above the path opens it for the path.
  have hdown (above : AbsolutePath) (habove : above <+: path)
      (hwritten : Written url policy (localContext url host base) above)
      (hunder : hidden <+: pathNames above) :
      Reopens (rootsOf (rulesOf (policy.resolvedEntries url (localContext url host base))) .write)
        hidden (pathNames path) := by
    have hprefixes := pathNames_prefix_iff.mpr habove
    obtain ⟨root, hmem, hup, hcov⟩ :=
      hwritten.reopened hidden (firstHidden_above hfst hprefixes hunder)
    exact ⟨root, hmem, hup, hcov.trans hprefixes⟩
  rcases Nat.lt_trichotomy hidden.length (writable.root.length + 1) with hless | hequal | hmore
  · -- The root lies in the directory.
    refine hdown writable.root hbelow hroot ?_
    exact prefix_of_prefix_length_le hhidden hnames (by omega)
  · -- The directory is one of the root.
    have hsame : owner = pathNames writable.root :=
      (prefix_of_prefix_length_le (howned.trans hhidden) hnames (by omega)).eq_of_length
        (by omega)
    have hplain := protectedMetadataPathNames_plain name hname
    have hdir : pathNames (writable.root ++ [⟨name, (plain_bytes hplain).1⟩]) = hidden := by
      rw [heq, hsame, pathNames, pathNames, map_append, map_singleton]
    have hinside : writable.root ++ [⟨name, (plain_bytes hplain).1⟩] <+: path := by
      rw [← pathNames_prefix_iff, hdir]
      exact hhidden
    have hcan : policy.canWritePathWithCwd url host (writable.root ++ [⟨name,
        (plain_bytes hplain).1⟩] : AbsolutePath).text cwd = true := by
      by_contra hclosed
      exact hnotProtected _ hinside (hproj.names name hname (by simpa using hclosed))
    rw [written_iff hkind hproj.restricted hcwd] at hcan
    exact hdown _ hinside hcan (by rw [hdir])
  · have hreopens := hnested hidden
    rw [names_fromAbsPath hlex] at hreopens
    exact hreopens hfst hmore

end

end

/-- A path without `..` that a writable root accepts may be written exactly when its URI shows its
names, no entry that the projection does not see closes it, and it does not lie in the metadata of
a write entry below the root. -/
theorem accepted_can_write_iff {path : Bytes} (hlinks : disk.NoLinks)
    (hkind : policy.kind = .restricted)
    (hwritable : writable ∈ policy.getWritableRootsWithCwd url host disk cwd)
    (hpath : writable.isPathWritable path = true) (hparents : ascii ".." ∉ pathPieces path) :
    policy.canWritePathWithCwd url host path cwd = true ↔
      ∀ uri context, withLocalPolicyContext url host path cwd = some (uri, context) →
        uri.Lexical ∧
        ClosedBySeen url policy uri context (policy.resolvedEntriesWithCwd url host disk cwd)
          writable.root ∧
        NestedMetadataReopened url policy uri context writable.root := by
  have hproj := projected_of_mem hlinks hwritable
  obtain ⟨base, hcwd⟩ : ∃ base, host.fromAbsolutePath cwd = some base := by
    have hroot := hproj.root
    cases hcwd : host.fromAbsolutePath cwd with
    | none => simp [canWritePathWithCwd, withLocalPolicyContext, hcwd] at hroot
    | some base => exact ⟨base, rfl⟩
  have hroot := (written_iff hkind hproj.restricted hcwd writable.root).mp hproj.root
  obtain ⟨habs, haccepts⟩ := accepts_of_isPathWritable hparents hpath
  have hcontext := @withLocalPolicyContext_of_isAbsolute url host _ _ _ habs hcwd
  rw [canWritePathWithCwd, hcontext, ← withLocalPolicyContext_text _ hcwd, ← canWritePathWithCwd,
    written_iff hkind hproj.restricted hcwd, withLocalPolicyContext_text _ hcwd]
  constructor
  · intro h uri context hfound
    cases hfound
    have hnames := names_fromAbsPath h.readable.path
    refine ⟨h.readable.path, ?_, ?_⟩
    · intro rule hrule hclosed _
      rw [hnames] at hrule
      have hdecision := decision_eq_some_iff.mpr ⟨rule, hrule, rfl⟩
      rw [h.decision, Option.some.injEq] at hdecision
      exact absurd hdecision.symm hclosed
    · intro hidden hfirst _
      rw [hnames] at hfirst ⊢
      exact h.reopened hidden hfirst
  · intro h
    obtain ⟨hlexical, hseen, hnested⟩ := h _ _ rfl
    exact
      { readable := ⟨hroot.readable.cwd, hlexical, hroot.readable.entries⟩
        decision := decision_of_accepted hkind hproj hcwd hroot haccepts hseen hlexical
        reopened := fun hidden =>
          reopened_of_accepted hkind hproj hcwd hroot haccepts hnested hlexical }

end

/-- A disk on which nothing is found. -/
def emptyDisk : LocalDisk where
  isFile _ := false
  isDir _ := false
  symlinkMetadata _ := false
  isSymlink _ := false
  pathExists _ := false
  canonicalize _ := none
  readToString _ := none

lemma emptyDisk_noLinks : emptyDisk.NoLinks := by
  intro path canonical h
  cases h

/-- The outer root accepts the metadata of the inner one. -/
theorem nested_metadata_accepted :
    ((restrictedTo [pathEntry "/w" .write, pathEntry "/w/sub" .write]).getWritableRootsWithCwd
        plainUrl bareHost emptyDisk (ascii "/w")).any (fun writable =>
          writable.isPathWritable (ascii "/w/sub/.git/config")) = true ∧
      (restrictedTo [pathEntry "/w" .write, pathEntry "/w/sub" .write]).canWritePathWithCwd
        plainUrl bareHost (ascii "/w/sub/.git/config") (ascii "/w") = false := by
  decide +kernel

/-- The only root of a workspace. -/
def smallRoot : WritableRoot where
  root := walkPath [] (ascii "/w")
  readOnlySubpaths := [walkPath [] (ascii "/w/.codex")]
  protectedMetadataNames := protectedMetadataPathNames

/-- A path with doubled and dotted separators, written through the condition. -/
theorem accepted_can_write_small :
    smallRoot.isPathWritable (ascii "/w//./src") = true ∧
      (restrictedTo [pathEntry "/w" .write]).canWritePathWithCwd plainUrl bareHost
        (ascii "/w//./src") (ascii "/w") = true := by
  have hroot : smallRoot ∈ (restrictedTo [pathEntry "/w" .write]).getWritableRootsWithCwd
      plainUrl bareHost emptyDisk (ascii "/w") := by decide +kernel
  have haccepted : smallRoot.isPathWritable (ascii "/w//./src") = true := by decide +kernel
  refine ⟨haccepted, (accepted_can_write_iff emptyDisk_noLinks rfl hroot haccepted
    (by decide +kernel)).mpr fun uri context hfound => ?_⟩
  rw [withLocalPolicyContext_of_isAbsolute rfl rfl] at hfound
  cases hfound
  refine ⟨by decide +kernel, fun rule hrule hclosed _ => ?_, fun hidden hfirst _ => ?_⟩
  · have hwrite : ∀ rule ∈ rulesOf ((restrictedTo [pathEntry "/w" .write]).resolvedEntries plainUrl
        (localContext plainUrl bareHost (walkPath [] (ascii "/w")))), rule.access = .write := by
      decide +kernel
    exact absurd (hwrite rule hrule.mem) hclosed
  · have hnone :
        firstHidden (rootsOf (rulesOf ((restrictedTo [pathEntry "/w" .write]).resolvedEntries
        plainUrl (localContext plainUrl bareHost (walkPath [] (ascii "/w"))))) .write)
        protectedMetadataPathNames (plainUrl.fromAbsPath (walkPath [] (ascii "/w//./src"))).names =
          none := by
      decide +kernel
    exact absurd (hnone.symm.trans hfirst) (by simp)

end ExperienceCodex
