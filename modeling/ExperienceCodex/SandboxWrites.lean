import ExperienceCodex.SandboxPolicy

/-!
# Write decisions

A write decision is a decision of layered rules with hidden names.  It does not depend on the order
of the entries, and keeps the protected metadata of every writable root, exactly when nested
writable roots are covered.
-/

namespace ExperienceCodex

open List Layers FileSystemSandboxPolicy PathUri FileSystemAccessMode

abbrev ResolvedEntries := List (PathUri × FileSystemAccessMode)

/-- The rules of the entries that show their names. -/
def rulesOf (entries : ResolvedEntries) : List (Rule Bytes FileSystemAccessMode) :=
  entries.filterMap fun entry => if entry.1.Lexical then some ⟨entry.1.names, entry.2⟩ else none

/-- Every entry shows its names or is opaque. -/
def Clear (entries : ResolvedEntries) : Prop :=
  ∀ entry ∈ entries, entry.1.Lexical ∨ entry.1.isOpaque = true

instance (entries : ResolvedEntries) : Decidable (Clear entries) :=
  inferInstanceAs (Decidable (∀ entry ∈ entries, _))

section
variable {entries : ResolvedEntries} {path : PathUri} {url : UrlLibrary}

lemma mem_rulesOf {rule : Rule Bytes FileSystemAccessMode} :
    rule ∈ rulesOf entries ↔
      ∃ e ∈ entries, e.1.Lexical ∧ rule = ⟨e.1.names, e.2⟩ := by
  simp only [rulesOf, mem_filterMap, Option.ite_none_right_eq_some, Option.some.injEq]
  constructor
  · rintro ⟨e, hmem, hlexical, rfl⟩
    exact ⟨e, hmem, hlexical, rfl⟩
  · rintro ⟨e, hmem, hlexical, rfl⟩
    exact ⟨e, hmem, hlexical, rfl⟩

lemma mem_rootsOf_rulesOf {root : List Bytes} {access : FileSystemAccessMode} :
    root ∈ rootsOf (rulesOf entries) access ↔
      ∃ e ∈ entries, e.1.Lexical ∧ e.2 = access ∧ e.1.names = root := by
  rw [mem_rootsOf, mem_rulesOf]
  constructor
  · rintro ⟨e, hmem, hlexical, heq⟩
    cases heq
    exact ⟨e, hmem, hlexical, rfl, rfl⟩
  · rintro ⟨e, hmem, hlexical, rfl, rfl⟩
    exact ⟨e, hmem, hlexical, rfl⟩

lemma isOpaque_iff {uri : PathUri} : uri.isOpaque = true ↔ ∃ text, uri = .fallback text := by
  cases uri with
  | fallback text => simp [isOpaque]
  | file host segs noNul => simp [isOpaque]

variable {root : PathUri}

/-- What covers a path that shows its names shows its own, or is unclear. -/
lemma lexical_of_startsWith (hpath : path.Lexical)
    (hclear : root.Lexical ∨ root.isOpaque = true) (h : path.startsWith root = true) :
    root.Lexical := by
  rcases hclear with hroot | hroot
  · exact hroot
  · obtain ⟨text, rfl⟩ := isOpaque_iff.mp hroot
    rw [startsWith_fallback hpath] at h
    cases h

/-- All entries are POSIX paths. -/
def AllPosix (entries : ResolvedEntries) : Prop :=
  ∀ entry ∈ entries, entry.1.inferPathConvention = some .posix

/-- The entries that show their names, with their depths. -/
def lexicalEntries (entries : ResolvedEntries) : List (PathUri × FileSystemAccessMode × ℕ) :=
  (entries.filter fun entry => entry.1.Lexical).map fun entry =>
    (entry.1, entry.2, entry.1.names.length)

open FileSystemSandboxPolicy in
lemma entriesWithDepth_eq (hposix : AllPosix entries) :
    entriesWithDepth entries = if Clear entries then some (lexicalEntries entries) else none := by
  induction entries with
  | nil => simp [entriesWithDepth, Clear, lexicalEntries]
  | cons e rest ih =>
    obtain ⟨root, access⟩ := e
    have hroot : root.inferPathConvention = some .posix := hposix (root, access) mem_cons_self
    have hrest := ih (forall_mem_of_forall_mem_cons hposix)
    have hclear : Clear ((root, access) :: rest) ↔
        (root.Lexical ∨ root.isOpaque = true) ∧ Clear rest := forall_mem_cons
    rw [entriesWithDepth, hrest]
    by_cases hlexical : root.Lexical
    · by_cases hothers : Clear rest
      · simp [hlexical.lexicalDepth_eq, hclear, hlexical, hothers, lexicalEntries]
      · simp [hlexical.lexicalDepth_eq, hclear, hothers]
    · have hdepth : root.lexicalDepth = none := by
        cases hdepth : root.lexicalDepth with
        | none => rfl
        | some depth => exact absurd ⟨hroot, by simp [hdepth]⟩ hlexical
      by_cases hopaque : root.isOpaque = true
      · simp [hdepth, hclear, hlexical, hopaque, lexicalEntries]
      · simp [hdepth, hclear, hlexical, hopaque]

/-- The most specific entry decides as the most specific rule does. -/
lemma maxByKey_lexicalEntries (hpath : path.Lexical) :
    (maxByKey (fun e => toLex (e.2.2, e.2.1))
      ((lexicalEntries entries).filter fun e => path.startsWith e.1)).map
        (fun e => e.2.1) = decision (rulesOf entries) path.names := by
  have hrules : rulesOf entries = (lexicalEntries entries).map fun e =>
      ⟨e.1.names, e.2.1⟩ := by
    unfold rulesOf lexicalEntries
    rw [map_map]
    induction entries with
    | nil => rfl
    | cons e rest ih =>
      by_cases hlexical : e.1.Lexical
      · simp [hlexical, ih]
      · simp [hlexical, ih]
  have hmem : ∀ e ∈ lexicalEntries entries, e.1.Lexical ∧ e.2.2 = e.1.names.length := by
    intro e hentry
    obtain ⟨q, hresv, rfl⟩ := mem_map.mp hentry
    exact ⟨by simpa using (mem_filter.mp hresv).2, rfl⟩
  have hfilter : (lexicalEntries entries).filter (fun e => path.startsWith e.1) =
      (lexicalEntries entries).filter fun e => e.1.names <+: path.names := by
    refine filter_congr ?_
    intro e hentry
    rw [Bool.eq_iff_iff, startsWith_iff hpath (hmem e hentry).1, decide_eq_true_eq]
  have hkey : maxByKey (fun e => toLex (e.2.2, e.2.1))
      ((lexicalEntries entries).filter fun e => e.1.names <+: path.names) =
    maxByKey (fun e => rank (⟨e.1.names, e.2.1⟩ : Rule Bytes FileSystemAccessMode))
      ((lexicalEntries entries).filter fun e => e.1.names <+: path.names) := by
    refine maxByKey_congr ?_
    intro e hentry
    rw [(hmem e (mem_filter.mp hentry).1).2]
    rfl
  rw [decision, hrules, filter_map, maxByKey_map, Option.map_map, hfilter, hkey]
  rfl

lemma protectedMetadataPathNames_plain :
    ∀ name ∈ protectedMetadataPathNames, isPlainName name = true := by decide +kernel

/-- The protected directory of a root in which a path lies. -/
def hiddenBelow (url : UrlLibrary) (path root : PathUri) : Option (PathUri × Bytes) :=
  protectedMetadataPathNames.findSome? fun name =>
    match url.joinDescendant root name with
    | some hidden => if path.startsWith hidden then some (hidden, name) else none
    | none => none

/-- The protected name that keeps a path from being written, by the entries. -/
def denialOf (url : UrlLibrary) (path : PathUri) (entries : ResolvedEntries) : Option Bytes :=
  match (entries.filter fun e => e.2.canWrite).findSome? fun e => hiddenBelow url path e.1 with
  | none => none
  | some (hidden, name) =>
    if entries.any fun e => e.2.canWrite && path.startsWith e.1 && e.1.startsWith hidden then none
    else some name

lemma hiddenBelow_of_isOpaque (h : root.isOpaque = true) :
    hiddenBelow url path root = none := by
  obtain ⟨text, rfl⟩ := isOpaque_iff.mp h
  refine findSome?_eq_none_iff.mpr ?_
  intro name hname
  rw [joinDescendant_fallback (protectedMetadataPathNames_plain name hname)]

variable (url) in
lemma names_hiddenBelow (hpath : path.Lexical) (hroot : root.Lexical) :
    (hiddenBelow url path root).map (fun found => found.1.names) =
      hiddenOf protectedMetadataPathNames path.names root.names := by
  have hall := protectedMetadataPathNames_plain
  unfold hiddenBelow hiddenOf
  generalize protectedMetadataPathNames = names at hall
  induction names with
  | nil => rfl
  | cons name names ih =>
    obtain ⟨below, hbelow, hlexical, hnames⟩ :=
      joinDescendant_plain url hroot (hall name mem_cons_self)
    have hiff := startsWith_iff hpath hlexical
    rw [hnames] at hiff
    rw [findSome?_cons, findSome?_cons, hbelow,
      ← ih (forall_mem_of_forall_mem_cons hall)]
    by_cases hcovers : root.names ++ [name] <+: path.names
    · simp [hiff.mpr hcovers, hcovers, hnames]
    · have hnot : path.startsWith below = false := by
        rw [← Bool.not_eq_true, hiff]
        exact hcovers
      simp [hnot, hcovers]

/-- A write entry opens a path in a protected directory again. -/
lemma any_reopens_iff {hidden : PathUri} (hpath : path.Lexical) (hhidden : hidden.Lexical)
    (hclear : Clear entries) :
    (entries.any fun e =>
        e.2.canWrite && path.startsWith e.1 && e.1.startsWith hidden) = true ↔
      Reopens (rootsOf (rulesOf entries) .write) hidden.names path.names := by
  simp only [any_eq_true, Bool.and_eq_true, canWrite, beq_iff_eq]
  constructor
  · intro h
    obtain ⟨e, hmem, ⟨hwrite, hcovers⟩, hbelow⟩ := h
    have hlexical := lexical_of_startsWith hpath (hclear e hmem) hcovers
    exact ⟨e.1.names, mem_rootsOf_rulesOf.mpr ⟨e, hmem, hlexical, hwrite, rfl⟩,
      (startsWith_iff hlexical hhidden).mp hbelow,
      (startsWith_iff hpath hlexical).mp hcovers⟩
  · intro h
    obtain ⟨root, hroot, hbelow, hcovers⟩ := h
    obtain ⟨e, hmem, hlexical, hwrite, rfl⟩ := mem_rootsOf_rulesOf.mp hroot
    exact ⟨e, hmem, ⟨hwrite, (startsWith_iff hpath hlexical).mpr hcovers⟩,
      (startsWith_iff hlexical hhidden).mpr hbelow⟩

variable (url) in
/-- The first protected directory of the entries in which a path lies. -/
lemma names_findSome_hiddenBelow (hpath : path.Lexical) (hclear : Clear entries) :
    ((entries.filter fun e => e.2.canWrite).findSome? fun e =>
        hiddenBelow url path e.1).map (fun found => found.1.names) =
      firstHidden (rootsOf (rulesOf entries) .write) protectedMetadataPathNames path.names := by
  induction entries with
  | nil => rfl
  | cons e rest ih =>
    have hrest := ih (forall_mem_of_forall_mem_cons hclear)
    have hroots : rootsOf (rulesOf (e :: rest)) .write =
        (if e.1.Lexical ∧ e.2 = .write then [e.1.names] else []) ++
          rootsOf (rulesOf rest) .write := by
      by_cases hlexical : e.1.Lexical
      · by_cases hwrite : e.2 = .write
        · simp [rootsOf, rulesOf, hlexical, hwrite]
        · simp [rootsOf, rulesOf, hlexical, hwrite]
      · simp [rootsOf, rulesOf, hlexical]
    by_cases hwrite : e.2 = .write
    swap
    · have hnot : e.2.canWrite = false := by simp [canWrite, hwrite]
      rw [filter_cons_of_neg (by simp [hnot]), hrest, hroots, if_neg fun h => hwrite h.2,
        nil_append]
    have hcan : e.2.canWrite = true := by simp [canWrite, hwrite]
    rw [filter_cons_of_pos (by simp [hcan]), findSome?_cons]
    rcases hclear e mem_cons_self with hlexical | hopaque
    · rw [hroots, if_pos ⟨hlexical, hwrite⟩, singleton_append, firstHidden,
        findSome?_cons, ← names_hiddenBelow url hpath hlexical]
      cases hiddenBelow url path e.1 with
      | none => simpa [firstHidden] using hrest
      | some found => rfl
    · have hnot : ¬ e.1.Lexical := by
        intro hlexical
        obtain ⟨segs, noNul, heq, -⟩ := hlexical.cases
        simp [heq, isOpaque] at hopaque
      rw [hiddenBelow_of_isOpaque hopaque, hroots, if_neg fun h => hnot h.1, nil_append]
      exact hrest

end

section
variable {url : UrlLibrary} {host : LocalHost} {policy : FileSystemSandboxPolicy}
  {context : FileSystemSandboxPolicyContext} {path : PathUri}

lemma allPosix_resolvedEntries (hcwd : context.cwd.inferPathConvention = some .posix) :
    AllPosix (policy.resolvedEntries url context) := by
  intro e hentry
  simp only [resolvedEntries, mem_flatMap, mem_map,
    mem_filter, beq_iff_eq] at hentry
  obtain ⟨-, -, path, ⟨-, hconv⟩, rfl⟩ := hentry
  rw [← hcwd]
  exact hconv

/-- The entries and the paths show their names. -/
structure Readable (url : UrlLibrary) (policy : FileSystemSandboxPolicy) (path : PathUri)
    (context : FileSystemSandboxPolicyContext) : Prop where
  cwd : context.cwd.Lexical
  path : path.Lexical
  entries : Clear (policy.resolvedEntries url context)

section
variable (hkind : policy.kind = .restricted)
include hkind

lemma resolveAccess_eq (h : Readable url policy path context) :
    policy.resolveAccess url path context =
      (decision (rulesOf (policy.resolvedEntries url context)) path.names).getD .deny := by
  have hposix : AllPosix (policy.resolvedEntries url context) := allPosix_resolvedEntries h.cwd.1
  have hents := entriesWithDepth_eq hposix
  rw [if_pos h.entries] at hents
  rw [resolveAccess, hkind]
  simp only [h.cwd.1, h.path.1, h.path.lexicalDepth_eq, h.cwd.lexicalDepth_eq, hents]
  simp only [ne_eq, not_true_eq_false, if_false, Option.isNone_some, Bool.false_eq_true, or_self]
  rw [maxByKey_lexicalEntries h.path]

/-- Nothing may be written where a path does not show its names. -/
lemma resolveAccess_unreadable (hcwd : context.cwd.inferPathConvention = some .posix)
    (h : ¬ Readable url policy path context) : policy.resolveAccess url path context = .deny := by
  rw [resolveAccess, hkind]
  simp only [hcwd, ne_eq, not_true_eq_false, if_false]
  split_ifs with hnot
  · rfl
  push Not at hnot
  obtain ⟨hconv, hdepth, hcwdDepth⟩ := hnot
  have hcwdLexical : context.cwd.Lexical :=
    ⟨hcwd, by simpa [Option.isSome_iff_ne_none] using hcwdDepth⟩
  have hpath : path.Lexical := ⟨hconv, by simpa [Option.isSome_iff_ne_none] using hdepth⟩
  have hunclear : ¬ Clear (policy.resolvedEntries url context) :=
    fun hclear => h ⟨hcwdLexical, hpath, hclear⟩
  rw [entriesWithDepth_eq (allPosix_resolvedEntries hcwd), if_neg hunclear]

lemma metadataWriteDenial_isNone_iff (h : Readable url policy path context) :
    (policy.metadataWriteDenial url path context).isNone = true ↔
      ∀ hidden, firstHidden (rootsOf (rulesOf (policy.resolvedEntries url context)) .write)
          protectedMetadataPathNames path.names = some hidden →
        Reopens (rootsOf (rulesOf (policy.resolvedEntries url context)) .write) hidden
          path.names := by
  have hnames := names_findSome_hiddenBelow url h.path h.entries
  have hdenial : policy.metadataWriteDenial url path context =
      denialOf url path (policy.resolvedEntries url context) := by
    simp only [metadataWriteDenial, hkind, ne_eq, not_true_eq_false,
      if_false]
    rfl
  cases hfound : ((policy.resolvedEntries url context).filter fun e =>
      e.2.canWrite).findSome? fun e => hiddenBelow url path e.1 with
  | none =>
    rw [hfound, Option.map_none] at hnames
    simp [hdenial, denialOf, hfound, ← hnames]
  | some found =>
    obtain ⟨hidden, name⟩ := found
    obtain ⟨e, hentry, hbelow⟩ := exists_of_findSome?_eq_some hfound
    have hlexical : hidden.Lexical := by
      rcases h.entries e (mem_filter.mp hentry).1 with hroot | hroot
      · obtain ⟨name, hname, h⟩ := exists_of_findSome?_eq_some hbelow
        obtain ⟨below, hbelow, hlexical, -⟩ :=
          joinDescendant_plain url hroot (protectedMetadataPathNames_plain name hname)
        simp only [hbelow, Option.ite_none_right_eq_some, Option.some.injEq] at h
        cases h.2
        exact hlexical
      · rw [hiddenBelow_of_isOpaque hroot] at hbelow
        cases hbelow
    rw [hfound, Option.map_some] at hnames
    have hany := any_reopens_iff h.path hlexical h.entries
    simp only [hdenial, denialOf, hfound, ← hnames, Option.some.injEq, forall_eq']
    by_cases hopen : ((policy.resolvedEntries url context).any fun e =>
        e.2.canWrite && path.startsWith e.1 && e.1.startsWith hidden) = true
    · simp [hopen, hany.mp hopen]
    · simp [hopen, mt hany.mpr hopen]

/-- When a path may be written. -/
theorem canWritePath_iff (hcwd : context.cwd.inferPathConvention = some .posix) :
    policy.canWritePath url host path context = true ↔
      Readable url policy path context ∧
        decision (rulesOf (policy.resolvedEntries url context)) path.names = some .write ∧
        (policy.hasFullDiskWriteAccess url host = true ∨
          ∀ hidden, firstHidden (rootsOf (rulesOf (policy.resolvedEntries url context)) .write)
              protectedMetadataPathNames path.names = some hidden →
            Reopens (rootsOf (rulesOf (policy.resolvedEntries url context)) .write) hidden
              path.names) := by
  rw [canWritePath]
  by_cases hread : Readable url policy path context
  · have haccess : (policy.resolveAccess url path context).canWrite = true ↔
        decision (rulesOf (policy.resolvedEntries url context)) path.names = some .write := by
      rw [resolveAccess_eq hkind hread]
      cases decision (rulesOf (policy.resolvedEntries url context)) path.names with
      | none => simp [canWrite]
      | some access => simp [canWrite]
    rw [← metadataWriteDenial_isNone_iff hkind hread, ← haccess]
    simp [hread]
  · simp [hread, resolveAccess_unreadable hkind hcwd hread, canWrite]

end

/-- The policy with its entries in another order. -/
abbrev reordered (policy : FileSystemSandboxPolicy) (entries : List FileSystemSandboxEntry) :
    FileSystemSandboxPolicy := { policy with entries }

variable {entries : List FileSystemSandboxEntry}

section
variable (h : entries.Perm policy.entries)
include h

lemma hasFullDiskWriteAccess_perm :
    (reordered policy entries).hasFullDiskWriteAccess url host =
      policy.hasFullDiskWriteAccess url host := by
  have hoverride (entry : FileSystemSandboxEntry) :
      (reordered policy entries).hasSameTargetWriteOverride url host entry =
        policy.hasSameTargetWriteOverride url host entry := h.any_eq
  have hroot : (reordered policy entries).hasRootAccess canWrite =
      policy.hasRootAccess canWrite := by
    rw [hasRootAccess, hasRootAccess, h.any_eq]
  have hnarrowing : (reordered policy entries).hasWriteNarrowingEntries url host =
      policy.hasWriteNarrowingEntries url host := by
    rw [hasWriteNarrowingEntries,
      hasWriteNarrowingEntries]
    simp only [hoverride]
    rw [h.any_eq]
  rw [hasFullDiskWriteAccess,
    hasFullDiskWriteAccess, hroot, hnarrowing]

lemma resolvedEntries_perm :
    ((reordered policy entries).resolvedEntries url context).Perm
      (policy.resolvedEntries url context) :=
  h.flatMap_right _

lemma readable_perm_iff :
    Readable url (reordered policy entries) path context ↔ Readable url policy path context := by
  have hclear : Clear ((reordered policy entries).resolvedEntries url context) ↔
      Clear (policy.resolvedEntries url context) := by
    simp only [Clear, (resolvedEntries_perm h).mem_iff]
  constructor
  · intro hread
    exact ⟨hread.cwd, hread.path, hclear.mp hread.entries⟩
  · intro hread
    exact ⟨hread.cwd, hread.path, hclear.mpr hread.entries⟩

lemma mem_writeRoots_perm (root : List Bytes) :
    root ∈ rootsOf (rulesOf ((reordered policy entries).resolvedEntries url context)) .write ↔
      root ∈ rootsOf (rulesOf (policy.resolvedEntries url context)) .write := by
  simp only [mem_rootsOf_rulesOf, (resolvedEntries_perm h).mem_iff]

end

/-- As soon as one protected directory over a path is opened again, all are. -/
def ReopensAll (url : UrlLibrary) (policy : FileSystemSandboxPolicy) (path : PathUri)
    (context : FileSystemSandboxPolicyContext) : Prop :=
  let roots := rootsOf (rulesOf (policy.resolvedEntries url context)) .write
  decision (rulesOf (policy.resolvedEntries url context)) path.names = some .write →
    ∀ hidden other, Hides roots protectedMetadataPathNames hidden path.names →
      Hides roots protectedMetadataPathNames other path.names →
        Reopens roots hidden path.names → Reopens roots other path.names

/-- Then a path may be written when all protected directories over it are opened again. -/
lemma canWritePath_iff_all (hkind : policy.kind = .restricted)
    (hcwd : context.cwd.inferPathConvention = some .posix)
    (hall : policy.hasFullDiskWriteAccess url host = false → Readable url policy path context →
      ReopensAll url policy path context)
    (h : entries.Perm policy.entries) :
    (reordered policy entries).canWritePath url host path context = true ↔
      Readable url policy path context ∧
        decision (rulesOf (policy.resolvedEntries url context)) path.names = some .write ∧
        (policy.hasFullDiskWriteAccess url host = true ∨
          ∀ hidden, Hides (rootsOf (rulesOf (policy.resolvedEntries url context)) .write)
              protectedMetadataPathNames hidden path.names →
            Reopens (rootsOf (rulesOf (policy.resolvedEntries url context)) .write) hidden
              path.names) := by
  have hreordered : (reordered policy entries).kind = .restricted := hkind
  have hdec : decision (rulesOf ((reordered policy entries).resolvedEntries url context))
      path.names = decision (rulesOf (policy.resolvedEntries url context)) path.names :=
    decision_perm ((resolvedEntries_perm h).filterMap _)
  rw [canWritePath_iff hreordered hcwd, readable_perm_iff h, hasFullDiskWriteAccess_perm h,
    hdec]
  refine and_congr_right fun hread => and_congr_right fun hwrite => ?_
  by_cases hfull : policy.hasFullDiskWriteAccess url host = true
  · simp [hfull]
  simp only [hfull, Bool.false_eq_true, false_or]
  have hreopens := hall (by simpa using hfull) hread hwrite
  simp only [reopens_congr (mem_writeRoots_perm h)]
  constructor
  · intro hfst hidden hhidden
    -- Something is hidden, so there is a first one.
    cases hfound : firstHidden (rootsOf (rulesOf ((reordered policy entries).resolvedEntries url
        context)) .write) protectedMetadataPathNames path.names with
    | none =>
      have hnone := firstHidden_eq_none_iff.mp hfound hidden
      rw [hides_congr (mem_writeRoots_perm h)] at hnone
      exact absurd hhidden hnone
    | some first =>
      have hmem := mem_of_firstHidden hfound
      rw [hides_congr (mem_writeRoots_perm h)] at hmem
      exact hreopens first hidden hmem hhidden (hfst first hfound)
  · intro hevery hidden hfound
    have hmem := mem_of_firstHidden hfound
    rw [hides_congr (mem_writeRoots_perm h)] at hmem
    exact hevery hidden hmem

/-- On this host an entry stands for one path at most. -/
lemma length_resolvedPaths_le (cwd : AbsolutePath) (path : FileSystemPath) :
    (resolvedPaths url (localContext url host cwd) path).length ≤ 1 := by
  have hoption {α : Type} (value : Option α) : value.toList.length ≤ 1 := by
    cases value <;> simp
  unfold resolvedPaths
  split
  · simp
  · simp
  · exact hoption _
  · simp only [localContext, filterMap_cons, filterMap_nil]
    split <;> simp
  · simp [localContext]
  · simp only [localContext, Option.getD_some, localTemporaryDirectories]
    split
    · simp
    · split_ifs
      · simp
      · exact hoption _
  · split_ifs
    · exact hoption _
    · simp
  · simp
  · simp

/-- Any resolved entry can be the first one. -/
lemma exists_first {cwd : AbsolutePath} {e : PathUri × FileSystemAccessMode}
    (h : e ∈ policy.resolvedEntries url (localContext url host cwd)) :
    ∃ entries, entries.Perm policy.entries ∧ ∃ rest,
      (reordered policy entries).resolvedEntries url (localContext url host cwd) =
        e :: rest := by
  obtain ⟨src, hsrc, hentry⟩ := mem_flatMap.mp h
  refine ⟨src :: policy.entries.erase src, (perm_cons_erase hsrc).symm, ?_⟩
  rw [resolvedEntries, flatMap_cons]
  have hlen : (((resolvedPaths url (localContext url host cwd) src.path).filter fun path =>
      path.inferPathConvention == (localContext url host cwd).cwd.inferPathConvention).map
        fun path => (path, src.access)).length ≤ 1 := by
    rw [length_map]
    exact (length_filter_le _ _).trans (length_resolvedPaths_le cwd src.path)
  obtain ⟨first, hfst⟩ := length_eq_one_iff.mp
    (le_antisymm hlen (length_pos_of_mem hentry))
  rw [hfst] at hentry ⊢
  exact ⟨_, by rw [mem_singleton.mp hentry, singleton_append]⟩

/-- Where the order of the entries does not matter, all protected directories over a path are opened
again as soon as one is. -/
lemma reopensAll_of_orderless {cwd : AbsolutePath} (hkind : policy.kind = .restricted)
    (hfull : policy.hasFullDiskWriteAccess url host = false)
    (horder : ∀ entries, entries.Perm policy.entries →
      (reordered policy entries).canWritePath url host path (localContext url host cwd) =
        policy.canWritePath url host path (localContext url host cwd))
    (hread : Readable url policy path (localContext url host cwd)) :
    ReopensAll url policy path (localContext url host cwd) := by
  -- What a policy answers when a certain root comes first.
  have hanswer (hidden : List Bytes)
      (hhidden : Hides (rootsOf (rulesOf (policy.resolvedEntries url (localContext url host cwd)))
        .write) protectedMetadataPathNames hidden path.names)
      (hdec : decision (rulesOf (policy.resolvedEntries url (localContext url host cwd)))
        path.names = some .write) :
      policy.canWritePath url host path (localContext url host cwd) = true ↔
        Reopens (rootsOf (rulesOf (policy.resolvedEntries url (localContext url host cwd)))
          .write) hidden path.names := by
    obtain ⟨root, hroot, name, hname, rfl, hcovers⟩ := hhidden
    obtain ⟨e, hmem, hlexical, hwrite, rfl⟩ := mem_rootsOf_rulesOf.mp hroot
    obtain ⟨entries, hperm, rest, hfst⟩ := exists_first hmem
    have hroots : rootsOf (rulesOf (e :: rest)) .write =
        e.1.names :: rootsOf (rulesOf rest) .write := by
      simp [rootsOf, rulesOf, hlexical, hwrite]
    have hreordered : (reordered policy entries).kind = .restricted := hkind
    have hsame : decision (rulesOf ((reordered policy entries).resolvedEntries url
        (localContext url host cwd))) path.names = some .write := by
      rw [← hdec]
      exact decision_perm ((resolvedEntries_perm hperm).filterMap _)
    rw [← horder entries hperm, canWritePath_iff hreordered hread.cwd.1,
      readable_perm_iff hperm, hasFullDiskWriteAccess_perm hperm, hsame,
      ← reopens_congr (mem_writeRoots_perm hperm), hfst, hroots, firstHidden,
      List.findSome?_cons, hiddenOf_eq_some_iff.mpr ⟨name, hname, rfl, hcovers⟩]
    simp [hread, hfull]
  intro hdec hidden other hhidden hother hreopens
  rw [← hanswer other hother hdec, hanswer hidden hhidden hdec]
  exact hreopens

/-- Where a write entry lies in a protected directory of another, some entry covers the path in the
protected directories of the inner one, or the inner one is denied. -/
def NestedMetadataCovered (url : UrlLibrary) (entries : ResolvedEntries) (path : PathUri) : Prop :=
  ∀ outer ∈ entries, ∀ inner ∈ entries, outer.2 = .write → inner.2 = .write →
    ∀ m ∈ protectedMetadataPathNames, ∀ n ∈ protectedMetadataPathNames,
    ∀ outerHidden innerHidden, url.joinDescendant outer.1 m = some outerHidden →
      url.joinDescendant inner.1 n = some innerHidden →
      inner.1.startsWith outerHidden = true → path.startsWith innerHidden = true →
      (∃ entry ∈ entries, entry.1.startsWith innerHidden = true ∧
        path.startsWith entry.1 = true) ∨
      ∃ entry ∈ entries, entry.2 = .deny ∧ entry.1.startsWith inner.1 = true ∧
        inner.1.startsWith entry.1 = true

lemma write_lt_iff {access : FileSystemAccessMode} : .write < access ↔ access = .deny := by
  cases access <;> decide

/-- The protected directory of an entry. -/
lemma joinDescendant_iff {hidden : PathUri} {name : Bytes}
    (hclear : root.Lexical ∨ root.isOpaque = true) (hname : name ∈ protectedMetadataPathNames)
    (h : url.joinDescendant root name = some hidden) :
    root.Lexical ∧ hidden.Lexical ∧ hidden.names = root.names ++ [name] := by
  have hplain := protectedMetadataPathNames_plain name hname
  rcases hclear with hroot | hroot
  · obtain ⟨below, hbelow, hlexical, hnames⟩ := joinDescendant_plain url hroot hplain
    rw [h, Option.some.injEq] at hbelow
    rw [hbelow]
    exact ⟨hroot, hlexical, hnames⟩
  · obtain ⟨text, rfl⟩ := isOpaque_iff.mp hroot
    rw [joinDescendant_fallback hplain] at h
    cases h

lemma nestedMetadataCovered_iff (h : Readable url policy path context) :
    NestedMetadataCovered url (policy.resolvedEntries url context) path ↔
      NestedCovered (rulesOf (policy.resolvedEntries url context)) protectedMetadataPathNames .write
        path.names := by
  constructor
  · intro hcovered outer houter inner hinner m hm n hn hnested hp
    obtain ⟨outer, houterMem, houterLexical, houterWrite, rfl⟩ := mem_rootsOf_rulesOf.mp houter
    obtain ⟨inner, hinnerMem, hinnerLexical, hinnerWrite, rfl⟩ := mem_rootsOf_rulesOf.mp hinner
    obtain ⟨outerHidden, houterJoin, houterHidden, houterNames⟩ :=
      joinDescendant_plain url houterLexical (protectedMetadataPathNames_plain m hm)
    obtain ⟨innerHidden, hinnerJoin, hinnerHidden, hinnerNames⟩ :=
      joinDescendant_plain url hinnerLexical (protectedMetadataPathNames_plain n hn)
    have hfound := hcovered outer houterMem inner hinnerMem houterWrite hinnerWrite m hm n hn
      outerHidden innerHidden houterJoin hinnerJoin
      ((startsWith_iff hinnerLexical houterHidden).mpr (houterNames ▸ hnested))
      ((startsWith_iff h.path hinnerHidden).mpr (hinnerNames ▸ hp))
    rcases hfound with ⟨e, hmem, hbelow, habove⟩ | ⟨e, hmem, hdeny, hbelow, habove⟩
    · left
      have hlexical := lexical_of_startsWith h.path (h.entries e hmem) habove
      refine ⟨⟨e.1.names, e.2⟩, mem_rulesOf.mpr ⟨e, hmem, hlexical, rfl⟩, ?_, ?_⟩
      · rw [← hinnerNames]
        exact (startsWith_iff hlexical hinnerHidden).mp hbelow
      · exact (startsWith_iff h.path hlexical).mp habove
    · right
      have hlexical := lexical_of_startsWith hinnerLexical (h.entries e hmem) habove
      refine ⟨⟨e.1.names, e.2⟩, mem_rulesOf.mpr ⟨e, hmem, hlexical, rfl⟩, ?_,
        write_lt_iff.mpr hdeny⟩
      have hup := (startsWith_iff hlexical hinnerLexical).mp hbelow
      have hdown := (startsWith_iff hinnerLexical hlexical).mp habove
      exact hdown.eq_of_length (le_antisymm hdown.length_le hup.length_le)
  · intro hcovered outer houterMem inner hinnerMem houterWrite hinnerWrite m hm n hn outerHidden
      innerHidden houterJoin hinnerJoin hnested hp
    obtain ⟨houterLexical, houterHidden, houterNames⟩ :=
      joinDescendant_iff (h.entries outer houterMem) hm houterJoin
    obtain ⟨hinnerLexical, hinnerHidden, hinnerNames⟩ :=
      joinDescendant_iff (h.entries inner hinnerMem) hn hinnerJoin
    rw [startsWith_iff hinnerLexical houterHidden, houterNames] at hnested
    rw [startsWith_iff h.path hinnerHidden, hinnerNames] at hp
    have hfound := hcovered outer.1.names
      (mem_rootsOf_rulesOf.mpr ⟨outer, houterMem, houterLexical, houterWrite, rfl⟩) inner.1.names
      (mem_rootsOf_rulesOf.mpr ⟨inner, hinnerMem, hinnerLexical, hinnerWrite, rfl⟩) m hm n hn
      hnested hp
    rcases hfound with ⟨rule, hrule, hbelow, habove⟩ | ⟨rule, hrule, hroot, hdeny⟩
    · left
      obtain ⟨e, hmem, hlexical, rfl⟩ := mem_rulesOf.mp hrule
      refine ⟨e, hmem, ?_, (startsWith_iff h.path hlexical).mpr habove⟩
      rw [startsWith_iff hlexical hinnerHidden, hinnerNames]
      exact hbelow
    · right
      obtain ⟨e, hmem, hlexical, rfl⟩ := mem_rulesOf.mp hrule
      change e.1.names = inner.1.names at hroot
      refine ⟨e, hmem, write_lt_iff.mp hdeny, ?_, ?_⟩
      · rw [startsWith_iff hlexical hinnerLexical, hroot]
      · rw [startsWith_iff hinnerLexical hlexical, hroot]

/-- The answer does not depend on the order of the entries. -/
def Orderless (url : UrlLibrary) (host : LocalHost) (policy : FileSystemSandboxPolicy)
    (path cwd : Bytes) : Prop :=
  ∀ entries, entries.Perm policy.entries →
    (reordered policy entries).canWritePathWithCwd url host path cwd =
      policy.canWritePathWithCwd url host path cwd

/-- A path in a protected directory of a write entry may be written only when some write entry at
or below that directory covers it. -/
def ProtectsMetadata (url : UrlLibrary) (host : LocalHost) (policy : FileSystemSandboxPolicy)
    (path cwd : Bytes) : Prop :=
  policy.hasFullDiskWriteAccess url host = false →
    ∀ uri context, withLocalPolicyContext url host path cwd = some (uri, context) →
      ∀ entry ∈ policy.resolvedEntries url context, entry.2 = .write →
      ∀ name ∈ protectedMetadataPathNames, ∀ hidden,
        url.joinDescendant entry.1 name = some hidden → uri.startsWith hidden = true →
        policy.canWritePathWithCwd url host path cwd = true →
        ∃ other ∈ policy.resolvedEntries url context, other.2 = .write ∧
          uri.startsWith other.1 = true ∧ other.1.startsWith hidden = true

lemma withLocalPolicyContext_eq {path cwd : Bytes} {uri : PathUri}
    (h : withLocalPolicyContext url host path cwd = some (uri, context)) :
    ∃ base, context = localContext url host base := by
  simp only [withLocalPolicyContext, Option.bind_eq_bind, Option.bind_eq_some_iff,
    Option.pure_def, Option.some.injEq, Prod.mk.injEq] at h
  obtain ⟨base, -, -, -, -, hctx⟩ := h
  exact ⟨base, hctx.symm⟩

/-- Write decisions do not depend on the order of the entries and protect all metadata exactly when
nested writable roots are covered. -/
theorem write_decisions_iff (hkind : policy.kind = .restricted) (path cwd : Bytes) :
    Orderless url host policy path cwd ∧ ProtectsMetadata url host policy path cwd ↔
      (policy.hasFullDiskWriteAccess url host = false →
        ∀ uri context, withLocalPolicyContext url host path cwd = some (uri, context) →
          Readable url policy uri context →
            NestedMetadataCovered url (policy.resolvedEntries url context) uri) := by
  constructor
  · intro h hfull uri context hlocal hreadable
    obtain ⟨base, rfl⟩ := withLocalPolicyContext_eq hlocal
    have horder := h.1
    simp only [Orderless, canWritePathWithCwd, hlocal] at horder
    rw [nestedMetadataCovered_iff hreadable, ← reopens_all_iff]
    exact reopensAll_of_orderless hkind hfull horder hreadable
  · intro hcovered
    cases hlocal : withLocalPolicyContext url host path cwd with
    | none =>
      constructor
      · intro entries _
        simp [canWritePathWithCwd, hlocal]
      · intro _ uri context hsome
        rw [hlocal] at hsome
        cases hsome
    | some found =>
      obtain ⟨uri, context⟩ := found
      obtain ⟨base, rfl⟩ := withLocalPolicyContext_eq hlocal
      have hcwd : (localContext url host base).cwd.inferPathConvention = some .posix :=
        inferPathConvention_fromAbsPath url base
      have hall (hfull : policy.hasFullDiskWriteAccess url host = false)
          (hreadable : Readable url policy uri (localContext url host base)) :
          ReopensAll url policy uri (localContext url host base) := by
        have hnested := hcovered hfull uri _ hlocal hreadable
        rw [nestedMetadataCovered_iff hreadable, ← reopens_all_iff] at hnested
        exact hnested
      have hself := canWritePath_iff_all hkind hcwd hall (List.Perm.refl policy.entries)
      constructor
      · intro entries hperm
        simp only [canWritePathWithCwd, hlocal]
        rw [Bool.eq_iff_iff, canWritePath_iff_all hkind hcwd hall hperm]
        exact hself.symm
      · intro hfull uri' context' hsome entry hentry hwrite name hname hidden hjoin hbelow hcan
        rw [hlocal, Option.some.injEq, Prod.mk.injEq] at hsome
        obtain ⟨rfl, rfl⟩ := hsome
        simp only [canWritePathWithCwd, hlocal] at hcan
        obtain ⟨hreadable, hdecision, hevery⟩ := hself.mp hcan
        rw [hfull] at hevery
        simp only [Bool.false_eq_true, false_or] at hevery
        obtain ⟨hlexical, hhidden, hnames⟩ :=
          joinDescendant_iff (hreadable.entries entry hentry) hname hjoin
        have hopen := hevery hidden.names ⟨entry.1.names,
          mem_rootsOf_rulesOf.mpr ⟨entry, hentry, hlexical, hwrite, rfl⟩, name, hname, hnames,
          (startsWith_iff hreadable.path hhidden).mp hbelow⟩
        rw [← any_reopens_iff hreadable.path hhidden hreadable.entries] at hopen
        simp only [any_eq_true, Bool.and_eq_true, canWrite,
          beq_iff_eq] at hopen
        obtain ⟨other, hother, ⟨hotherWrite, hcovers⟩, hotherBelow⟩ := hopen
        exact ⟨other, hother, hotherWrite, hcovers, hotherBelow⟩

end

/-- The entry that gives an access to a path. -/
def pathEntry (path : String) (access : FileSystemAccessMode) : FileSystemSandboxEntry where
  path := .path (plainUrl.fromAbsPath (walkPath [] (ascii path)))
  access := access

def restrictedTo (entries : List FileSystemSandboxEntry) : FileSystemSandboxPolicy where
  kind := .restricted
  entries := entries

/-- A writable directory in the metadata of a writable root: its own metadata may be written when
the outer root comes first. -/
theorem nested_root_depends_on_order :
    (restrictedTo [pathEntry "/w" .write, pathEntry "/w/.git/sub" .write]).canWritePathWithCwd
        plainUrl bareHost (ascii "/w/.git/sub/.git/config") (ascii "/w") = true ∧
      (restrictedTo [pathEntry "/w/.git/sub" .write, pathEntry "/w" .write]).canWritePathWithCwd
        plainUrl bareHost (ascii "/w/.git/sub/.git/config") (ascii "/w") = false := by
  decide +kernel

/-- A writable root with a directory in it that may only be read. -/
def docsPolicy : FileSystemSandboxPolicy :=
  restrictedTo [pathEntry "/w" .write, pathEntry "/w/docs" .read]

theorem write_decisions_small :
    Orderless plainUrl bareHost docsPolicy (ascii "/w/.git") (ascii "/w") ∧
      ProtectsMetadata plainUrl bareHost docsPolicy (ascii "/w/.git") (ascii "/w") := by
  refine (write_decisions_iff rfl _ _).mpr ?_
  intro _ uri context _ hreadable
  rw [nestedMetadataCovered_iff hreadable]
  intro outer houter inner hinner m _ n _ hnested _
  -- Both roots are the only one, and none lies below itself.
  have honly (root : List Bytes)
      (hroot : root ∈ rootsOf (rulesOf (docsPolicy.resolvedEntries plainUrl context)) .write) :
      root = [ascii "w"] := by
    obtain ⟨entry, hmem, -, haccess, rfl⟩ := mem_rootsOf_rulesOf.mp hroot
    simp only [docsPolicy, resolvedEntries, restrictedTo, flatMap_cons, flatMap_nil, append_nil,
      mem_append, mem_map, mem_filter] at hmem
    rcases hmem with ⟨path, ⟨hpath, -⟩, rfl⟩ | ⟨path, -, rfl⟩
    · simp only [pathEntry, resolvedPaths, mem_singleton] at hpath
      rw [hpath]
      decide +kernel
    · cases haccess
  rw [honly outer houter, honly inner hinner] at hnested
  have hlength := hnested.length_le
  simp at hlength

end ExperienceCodex
