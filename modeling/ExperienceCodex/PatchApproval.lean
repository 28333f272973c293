import ExperienceCodex.PatchEffects
import ExperienceCodex.PlannedEdits

/-!
# What is approved is what is applied

The verification of a patch plans an edit of the files for each hunk, against the files as they
are; the application does the edits one after the other.  The changes that were shown are the marks
of the plans, so the patch does what was approved exactly when the plans agree.
-/

namespace ExperienceCodex.ApplyPatch

open List Programs PlannedEdits Edit

/-- The edit of a file by the chunks of an update. -/
def editContent (mode : ApplyPatchFileUpdateMode) (path : String) (chunks : List UpdateFileChunk) :
    Content → Option Content
  | .text original =>
    match newContents mode path chunks original with
    | .ok new => some (.text new)
    | .error _ => none
  | .binary _ => none

/-- The edit of a hunk, once its paths are resolved. -/
def hunkEdit (rules : PathRules) (mode : ApplyPatchFileUpdateMode) (cwd : PathUri) (hunk : Hunk) :
    Except String (Edit PathUri Content) := do
  let path ← rules.join cwd hunk.source
  match hunk with
  | .addFile _ contents => return .put path (.text contents)
  | .deleteFile _ => return .drop path
  | .updateFile _ none chunks =>
    return .change path (editContent mode (rules.nativeText path) chunks)
  | .updateFile _ (some destination) chunks =>
    let destination ← rules.join cwd destination
    return .move path destination (editContent mode (rules.nativeText path) chunks)

/-- What a change that was shown says of the files. -/
def announced (path : PathUri) : ApplyPatchFileChange → List (PathUri × Option Content)
  | .add content => [(path, some (.text content))]
  | .delete _ => [(path, none)]
  | .update _ none new => [(path, some (.text new))]
  | .update _ (some destination) new => [(destination, some (.text new)), (path, none)]

section
variable {σ : Type} {fs : ExecutorFileSystem σ} {rules : PathRules}
  {unifiedDiff : Line → Line → Line} {s : σ} {cwd path : PathUri}
  {mode : ApplyPatchFileUpdateMode}

/-- The change that is shown for a hunk is the plan of its edit. -/
lemma verifyHunk_ok {hunk : Hunk} {change : ApplyPatchFileChange}
    (hpath : rules.join cwd hunk.source = .ok path)
    (h : verifyHunk fs rules unifiedDiff s cwd mode path hunk = .ok change) :
    ∃ edit, hunkEdit rules mode cwd hunk = .ok edit ∧ edit.key = path ∧
      edit.Possible (fs.files s) ∧ announced path change = edit.marks (fs.files s) := by
  cases hunk with
  | addFile src contents =>
    cases h
    exact ⟨.put path (.text contents), by rw [hunkEdit, hpath]; rfl, rfl, trivial, rfl⟩
  | deleteFile src =>
    obtain ⟨v, -, h⟩ := bind_eq_ok_iff.mp h
    cases h
    exact ⟨.drop path, by rw [hunkEdit, hpath]; rfl, rfl, trivial, rfl⟩
  | updateFile src movePath chunks =>
    obtain ⟨orig, horig, h⟩ := bind_eq_ok_iff.mp h
    obtain ⟨new, hnew, h⟩ := bind_eq_ok_iff.mp h
    obtain ⟨destination, hdestination, h⟩ := bind_eq_ok_iff.mp h
    cases h
    have htext := fs.read_ok _ _ _ _ (mapError_eq_ok_iff.mp horig)
    have hplan : (fs.files s path).bind (editContent mode (rules.nativeText path) chunks) =
        some (.text new) := by
      rw [htext, Option.bind_some, editContent, mapError_eq_ok_iff.mp hnew]
    cases movePath with
    | none =>
      cases hdestination
      refine ⟨.change path (editContent mode (rules.nativeText path) chunks), ?_, rfl, ?_, ?_⟩
      · rw [hunkEdit, hpath]
        rfl
      · rw [Possible, hplan]
        exact Option.some_ne_none _
      · rw [marks, hplan]
        rfl
    | some tgt =>
      obtain ⟨q, hresv, h⟩ := bind_eq_ok_iff.mp hdestination
      cases h
      refine ⟨.move path q (editContent mode (rules.nativeText path) chunks), ?_, rfl, ?_, ?_⟩
      · simp only [hunkEdit, hpath, ok_bind, mapError_eq_ok_iff.mp hresv]
        rfl
      · rw [Possible, hplan]
        exact Option.some_ne_none _
      · rw [marks, hplan]
        rfl

/-- The plans of the hunks, with the changes that were shown for them. -/
structure Approved (fs : ExecutorFileSystem σ) (rules : PathRules) (s : σ) (cwd : PathUri)
    (mode : ApplyPatchFileUpdateMode) (hunks : List Hunk)
    (changes : List (PathUri × ApplyPatchFileChange)) (edits : List (Edit PathUri Content)) :
    Prop where
  edits_eq : hunks.mapM (hunkEdit rules mode cwd) = .ok edits
  keys : changes.map Prod.fst = edits.map Edit.key
  possible : ∀ edit ∈ edits, edit.Possible (fs.files s)
  marks : changes.map (fun change => announced change.1 change.2) =
    edits.map (Edit.marks (fs.files s))

variable {hunks : List Hunk}

lemma verifyHunks_ok {before changes : List (PathUri × ApplyPatchFileChange)}
    (hnodup : (before.map Prod.fst).Nodup)
    (h : verifyHunks fs rules unifiedDiff s cwd mode before hunks = .ok changes) :
    (changes.map Prod.fst).Nodup ∧ ∃ new edits, changes = before ++ new ∧
      Approved fs rules s cwd mode hunks new edits := by
  induction hunks generalizing before with
  | nil =>
    cases h
    exact ⟨hnodup, [], [], by simp, ⟨rfl, rfl, by simp, rfl⟩⟩
  | cons hunk hunks ih =>
    rw [verifyHunks] at h
    obtain ⟨path, hpath, h⟩ := bind_eq_ok_iff.mp h
    split_ifs at h with hmem
    obtain ⟨change, hchange, h⟩ := bind_eq_ok_iff.mp h
    obtain ⟨edit, hedit, hkey, hpossible, hmarks⟩ :=
      verifyHunk_ok (mapError_eq_ok_iff.mp hpath) hchange
    have hnext : ((before ++ [(path, change)]).map Prod.fst).Nodup := by
      rw [map_append, map_singleton, nodup_append]
      refine ⟨hnodup, nodup_singleton _, ?_⟩
      intro other hother same hsame heq
      rw [heq, mem_singleton.mp hsame] at hother
      exact hmem hother
    obtain ⟨hall, new, edits, rfl, happr⟩ := ih hnext h
    refine ⟨hall, (path, change) :: new, edit :: edits, by simp, ?_, ?_, ?_, ?_⟩
    · rw [mapM_cons, hedit, ok_bind, happr.edits_eq]
      rfl
    · simp [hkey, happr.keys]
    · intro other hother
      rcases mem_cons.mp hother with rfl | hother
      · exact hpossible
      · exact happr.possible other hother
    · simp [hmarks, happr.marks]

/-- A program does an edit of the files, unless the file system fails. -/
abbrev Does (fs : ExecutorFileSystem σ) (files : Option FileMap) {α : Type} (m : Apply σ α)
    (s : ApplyState σ) : Prop :=
  LiveEnds false m s (fun _ after => files = some (fs.files after.fs))
    fun error _ => error.IsIo ∨ (∃ message, error = .computeReplacements message) ∧ files = none

variable {options : ApplyPatchOptions} {state : ApplyState σ}

lemma live_false : Live false state :=
  live_of_loose rfl

lemma does_applyAdd {contents : Line} :
    Does fs ((put path (.text contents)).apply (fs.files state.fs))
      (applyAdd fs rules options path contents) state := by
  refine liveEnds_readOptional.bind fun overwritten read hread => ?_
  refine (liveEnds_tryWrite fun _ => liveEnds_writeRetry).andThen ?_ fun _ written hwritten => ?_
  · exact fun _ _ _ h => .inl h.2
  refine liveEnds_modify fun _ => ⟨live_false, ?_⟩
  rw [apply, (hwritten live_false).2, (hread live_false).1.1]

lemma does_applyDelete :
    Does fs ((drop path).apply (fs.files state.fs)) (applyDelete fs rules options path)
      state := by
  refine liveEnds_note.bind fun _ noted hnoted => ?_
  refine liveEnds_readText.bind fun r read hread => ?_
  have hsame : fs.files read.fs = fs.files state.fs := by
    rw [(hread live_false).1, (hnoted live_false).1]
  have hremove : ∀ {marked : ApplyState σ} {ctx : String} {expected : Option Line}
      {next : Unit → Apply σ Unit}, fs.files marked.fs = fs.files state.fs →
      (∀ after, LiveEnds false (next ()) after (fun _ final => final.fs = after.fs)
        fun _ _ => False) →
      Does fs ((drop path).apply (fs.files state.fs))
        (removeFile fs options ctx path expected >>= next) marked := by
    intro marked ctx expected next hmarked hnext
    refine liveEnds_removeFile.andThen (fun _ _ _ h => .inl h.1) fun _ removed hrem => ?_
    refine (hnext removed).mono ?_ fun _ _ _ h => h.elim
    intro _ final _ hfinal
    rw [hfinal, (hrem live_false).2, hmarked, apply]
  cases r with
  | error error =>
    refine liveEnds_inexact.bind fun _ marked hmarked =>
      hremove ?_ fun _ => liveEnds_pure fun _ => rfl
    rw [(hmarked live_false).2, hsame]
  | ok v => exact hremove hsame fun _ => liveEnds_modify fun _ => ⟨live_false, rfl⟩

lemma does_applyUpdate {orig new : Line} {f : Content → Option Content}
    (h : (fs.files state.fs path).bind f = some (.text new)) :
    Does fs ((change path f).apply (fs.files state.fs))
      (applyUpdate fs rules options path orig new) state := by
  refine (liveEnds_tryWrite fun _ => liveEnds_lastWrite fun _ => ⟨rfl, fun _ _ => rfl⟩).andThen
    (fun _ _ _ h => .inl h.2) fun _ written hwritten => ?_
  refine liveEnds_modify fun _ => ⟨live_false, ?_⟩
  rw [apply, h, Option.map_some, (hwritten live_false).2]

lemma does_applyMove {destination : PathUri} {orig new : Line} {f : Content → Option Content}
    (h : (fs.files state.fs path).bind f = some (.text new)) :
    Does fs ((move path destination f).apply (fs.files state.fs))
      (applyMove fs rules options path destination orig new) state := by
  refine liveEnds_readOptional.bind fun overwritten read hread => ?_
  refine (liveEnds_tryWrite fun _ => liveEnds_writeRetry).andThen (fun _ _ _ h => .inl h.2)
    fun _ written hwritten => ?_
  refine liveEnds_get_bind ?_
  refine liveEnds_pushChange.bind fun _ pushed hpushed => ?_
  refine liveEnds_removeFile.andThen (fun _ _ _ h => .inl h.1) fun _ removed hrem => ?_
  refine liveEnds_modify fun _ => ⟨live_false, ?_⟩
  rw [apply, h, Option.map_some, (hrem live_false).2, hpushed live_false,
    (hwritten live_false).2, (hread live_false).1.1]

lemma editContent_of_text {chunks : List UpdateFileChunk} {orig new : Line}
    (htext : fs.files state.fs path = some (.text orig))
    (hnew : newContents mode (rules.nativeText path) chunks orig = .ok new) :
    (fs.files state.fs path).bind (editContent mode (rules.nativeText path) chunks) =
      some (.text new) := by
  rw [htext, Option.bind_some, editContent, hnew]

lemma editContent_of_mismatch {chunks : List UpdateFileChunk} {error : ApplyPatchError}
    (h : ∃ orig message, fs.files state.fs path = some (.text orig) ∧
      newContents mode (rules.nativeText path) chunks orig = .error message ∧
        error = .computeReplacements message) :
    ∃ message, error = .computeReplacements message ∧
      (fs.files state.fs path).bind (editContent mode (rules.nativeText path) chunks) = none := by
  obtain ⟨orig, message, htext, hnew, herr⟩ := h
  exact ⟨message, herr, by rw [htext, Option.bind_some, editContent, hnew]⟩

/-- A hunk does its edit. -/
lemma does_applyHunk {affected : AffectedPaths} {hunk : Hunk} {edit : Edit PathUri Content}
    (hedit : hunkEdit rules options.updateFileMode cwd hunk = .ok edit) :
    Does fs (edit.apply (fs.files state.fs)) (applyHunk fs rules options cwd affected hunk)
      state := by
  obtain ⟨path, hpath, hedit⟩ := bind_eq_ok_iff.mp hedit
  refine liveEnds_orThrow.andThen ?_ fun q joined hjoined => ?_
  · rintro error after _ ⟨-, herr⟩
    rw [hpath] at herr
    cases herr
  obtain ⟨rfl, hresv⟩ := hjoined live_false
  rw [hpath] at hresv
  cases hresv
  cases hunk with
  | addFile src contents =>
    cases hedit
    exact does_applyAdd.bind fun _ _ hafter => liveEnds_pure hafter
  | deleteFile src =>
    cases hedit
    exact does_applyDelete.bind fun _ _ hafter => liveEnds_pure hafter
  | updateFile src movePath chunks =>
    refine liveEnds_note.bind fun _ noted hnoted => ?_
    have hsame : fs.files noted.fs = fs.files joined.fs := by rw [(hnoted live_false).1]
    cases movePath with
    | none =>
      cases hedit
      refine liveEnds_derive.andThen (fun _ _ _ h => h.2.imp_right fun hmis => ?_)
        fun contents derived hderived => ?_
      · obtain ⟨msg, herr, hnone⟩ := editContent_of_mismatch hmis
        rw [apply, ← hsame, hnone]
        exact ⟨⟨msg, herr⟩, rfl⟩
      · obtain ⟨rfl, htext, hnew⟩ := hderived live_false
        rw [← hsame]
        exact (does_applyUpdate (editContent_of_text htext hnew)).bind fun _ _ hafter =>
          liveEnds_pure hafter
    | some destination =>
      obtain ⟨tgt, htgt, hedit⟩ := bind_eq_ok_iff.mp hedit
      cases hedit
      refine liveEnds_derive.andThen (fun _ _ _ h => h.2.imp_right fun hmis => ?_)
        fun contents derived hderived => ?_
      · obtain ⟨msg, herr, hnone⟩ := editContent_of_mismatch hmis
        rw [apply, ← hsame, hnone]
        exact ⟨⟨msg, herr⟩, rfl⟩
      · obtain ⟨rfl, htext, hnew⟩ := hderived live_false
        refine liveEnds_orThrow.andThen ?_ fun q moved hmoved => ?_
        · rintro error after _ ⟨-, herr⟩
          rw [htgt] at herr
          cases herr
        obtain ⟨rfl, hresv⟩ := hmoved live_false
        rw [htgt] at hresv
        cases hresv
        rw [← hsame]
        exact (does_applyMove (editContent_of_text htext hnew)).bind fun _ _ hafter =>
          liveEnds_pure hafter

variable {edits : List (Edit PathUri Content)}

/-- The hunks do their edits one after the other. -/
lemma does_applyHunks {affected : AffectedPaths}
    (hedits : hunks.mapM (hunkEdit rules options.updateFileMode cwd) = .ok edits) :
    Does fs (run (fs.files state.fs) edits)
      (hunks.foldlM (applyHunk fs rules options cwd) affected) state := by
  induction hunks generalizing affected edits state with
  | nil =>
    cases hedits
    exact liveEnds_pure fun _ => rfl
  | cons hunk hunks ih =>
    rw [mapM_cons] at hedits
    obtain ⟨edit, hedit, hedits⟩ := bind_eq_ok_iff.mp hedits
    obtain ⟨rest, hrest, hedits⟩ := bind_eq_ok_iff.mp hedits
    cases hedits
    rw [foldlM_cons, run, foldlM_cons]
    refine (does_applyHunk hedit).andThen ?_ fun affected after hafter => ?_
    · intro error final _ herr
      refine herr.imp_right fun hmis => ⟨hmis.1, ?_⟩
      rw [hmis.2]
      rfl
    · rw [hafter live_false]
      exact ih hrest

end

/-- The edits of the hunks whose paths resolve. -/
def hunkEdits (rules : PathRules) (mode : ApplyPatchFileUpdateMode) (cwd : PathUri)
    (hunks : List Hunk) : List (Edit PathUri Content) :=
  hunks.filterMap fun hunk => (hunkEdit rules mode cwd hunk).toOption

lemma hunkEdits_eq {rules : PathRules} {mode : ApplyPatchFileUpdateMode} {cwd : PathUri}
    (h : hunks.mapM (hunkEdit rules mode cwd) = .ok edits) :
    hunkEdits rules mode cwd hunks = edits := by
  induction hunks generalizing edits with
  | nil =>
    cases h
    rfl
  | cons hunk hunks ih =>
    rw [mapM_cons] at h
    obtain ⟨edit, hedit, h⟩ := bind_eq_ok_iff.mp h
    obtain ⟨rest, hrest, h⟩ := bind_eq_ok_iff.mp h
    cases h
    have hsome : (hunkEdit rules mode cwd hunk).toOption = some edit := by
      rw [hedit]
      rfl
    rw [hunkEdits, filterMap_cons, hsome, ← hunkEdits, ih hrest]

/-- The program leaves the files as the action has announced them, and no other file is changed. -/
structure AppliedAsApproved {σ : Type} (fs : ExecutorFileSystem σ) (action : ApplyPatchAction)
    (s : σ) (m : Apply σ AffectedPaths) : Prop where
  /-- No hunk fails to find the lines that it replaces. -/
  fits : ∀ message after, m.run ⟨s, {}⟩ ≠ .error (.computeReplacements message) after
  announced : ∀ change ∈ action.changes, ∀ place content,
    (place, content) ∈ announced change.1 change.2 →
      fs.files (finalState m ⟨s, {}⟩).fs place = content
  kept : ∀ place, (∀ change ∈ action.changes, ∀ content,
    (place, content) ∉ ApplyPatch.announced change.1 change.2) →
      fs.files (finalState m ⟨s, {}⟩).fs place = fs.files s place

/-- The announcements of an action are the marks of the plans. -/
lemma Approved.asPlanned_iff {σ : Type} {fs : ExecutorFileSystem σ} {rules : PathRules} {s : σ}
    {cwd : PathUri} {mode : ApplyPatchFileUpdateMode}
    {changes : List (PathUri × ApplyPatchFileChange)}
    (h : Approved fs rules s cwd mode hunks changes edits) {final : FileMap} :
    AsPlanned (fs.files s) edits final ↔
      (∀ change ∈ changes, ∀ place v, (place, v) ∈ announced change.1 change.2 →
        final place = v) ∧
      ∀ place, (∀ change ∈ changes, ∀ v,
        (place, v) ∉ announced change.1 change.2) → final place = fs.files s place := by
  have hmarks : ∀ {P : List (PathUri × Option Content) → Prop},
      (∀ edit ∈ edits, P (edit.marks (fs.files s))) ↔
        ∀ change ∈ changes, P (announced change.1 change.2) := by
    intro P
    rw [← forall_mem_map (f := Edit.marks (fs.files s)), ← h.marks, forall_mem_map]
  have hmarked := hmarks (P := fun marks => ∀ place v, (place, v) ∈ marks →
    final place = v)
  have hkept : ∀ place, (∀ edit ∈ edits, ¬ edit.Touches place) ↔
      ∀ change ∈ changes, ∀ v, (place, v) ∉ announced change.1 change.2 := by
    intro place
    rw [← hmarks (P := fun marks => ∀ v, (place, v) ∉ marks)]
    refine forall₂_congr fun edit _ => ?_
    exact (not_congr touches_iff_exists_mark).trans not_exists
  constructor
  · intro hplan
    exact ⟨hmarked.mp hplan.marked, fun place hplace => hplan.kept place ((hkept place).mpr hplace)⟩
  · rintro ⟨hannounced, hother⟩
    exact ⟨hmarked.mpr hannounced, fun place hplace => hother place ((hkept place).mp hplace)⟩

/-- An application ends with the edits done, or without the lines that one of them replaces. -/
lemma ends_applyHunksToFiles {σ : Type} {fs : ExecutorFileSystem σ} {rules : PathRules}
    {options : ApplyPatchOptions} {s : σ} {cwd : PathUri}
    (hedits : hunks.mapM (hunkEdit rules options.updateFileMode cwd) = .ok edits) :
    Ends (applyHunksToFiles fs rules options cwd hunks) ⟨s, {}⟩
      (fun _ after => run (fs.files s) edits = some (fs.files after.fs))
      fun error after => error.IsIo ∨
        (∃ msg, error = .computeReplacements msg) ∧ run (fs.files s) edits = none ∨
        error = .noFilesModified ∧ run (fs.files s) edits = some (fs.files after.fs) := by
  cases hunks with
  | nil =>
    cases hedits
    exact ends_throw (.inr (.inr ⟨rfl, rfl⟩))
  | cons hunk hunks =>
    have hdoes : Does fs (run (fs.files s) edits)
        ((hunk :: hunks).foldlM (applyHunk fs rules options cwd) {}) ⟨s, {}⟩ :=
      does_applyHunks hedits
    refine Ends.mono hdoes ?_ ?_
    · intro _ after hafter
      exact (hafter live_false).2
    · intro error after hafter
      exact (hafter live_false).2.imp_right .inl

/-- A patch that was verified leaves the files as approved, without a failure of the file system,
exactly when no two hunks announce different things of one path, and each update of a path that an
earlier hunk moves a file to can be done on its own result. -/
theorem applied_as_approved_iff {σ : Type} (fs : ExecutorFileSystem σ) (rules : PathRules)
    (unifiedDiff : Line → Line → Line) {s : σ} {args : ApplyPatchArgs} {cwd : PathUri}
    {mode : ApplyPatchFileUpdateMode} {action : ApplyPatchAction}
    (hverify : tryVerifyApplyPatchArgs fs rules unifiedDiff s args cwd mode = .ok action)
    (followSymlinks : Bool)
    (hio : ∀ error after, (applyHunksToFiles fs rules ⟨mode, followSymlinks⟩ action.cwd
      args.hunks).run ⟨s, {}⟩ = .error error after → ¬ error.IsIo) :
    AppliedAsApproved fs action s
        (applyHunksToFiles fs rules ⟨mode, followSymlinks⟩ action.cwd args.hunks) ↔
      Agree (fs.files s) (hunkEdits rules mode action.cwd args.hunks) ∧
        Again (fs.files s) (hunkEdits rules mode action.cwd args.hunks) := by
  obtain ⟨effective, -, hrest⟩ := bind_eq_ok_iff.mp hverify
  obtain ⟨changes, hchanges, hrest⟩ := bind_eq_ok_iff.mp hrest
  obtain rfl := (Except.ok.inj hrest).symm
  obtain ⟨hnodup, new, edits, rfl, happroved⟩ := verifyHunks_ok (by simp) hchanges
  have hplanned : Planned (fs.files s) edits := ⟨happroved.keys ▸ hnodup, happroved.possible⟩
  rw [hunkEdits_eq happroved.edits_eq, ← asPlanned_iff hplanned]
  have hends : Ends (applyHunksToFiles fs rules ⟨mode, followSymlinks⟩ effective args.hunks)
      ⟨s, {}⟩ _ _ :=
    ends_applyHunksToFiles happroved.edits_eq
  set m := applyHunksToFiles fs rules ⟨mode, followSymlinks⟩ effective args.hunks
  -- Without a failure of the file system, the edits are done or a hunk does not fit.
  have hrun : run (fs.files s) edits = some (fs.files (finalState m ⟨s, {}⟩).fs) ∧
        (∀ message after, m.run ⟨s, {}⟩ ≠ .error (.computeReplacements message) after) ∨
      run (fs.files s) edits = none ∧
        ∃ message after, m.run ⟨s, {}⟩ = .error (.computeReplacements message) after := by
    cases hresult : m.run ⟨s, {}⟩ with
    | ok affected after =>
      refine .inl ⟨?_, fun _ _ h => by cases h⟩
      rw [finalState, hresult]
      exact hends.of_ok hresult
    | error error after =>
      rcases hends.of_error hresult with hfail | ⟨⟨message, rfl⟩, hnone⟩ | ⟨rfl, hdone⟩
      · exact absurd hfail (hio error after hresult)
      · exact .inr ⟨hnone, message, after, rfl⟩
      · refine .inl ⟨?_, fun _ _ h => by cases h⟩
        rw [finalState, hresult]
        exact hdone
  rcases hrun with ⟨hdone, hfits⟩ | ⟨hnone, message, after, hfail⟩
  · constructor
    · intro h
      exact ⟨_, hdone, happroved.asPlanned_iff.mpr ⟨h.announced, h.kept⟩⟩
    · rintro ⟨final, hfinal, hplan⟩
      cases hdone.symm.trans hfinal
      obtain ⟨hannounced, hkept⟩ := happroved.asPlanned_iff.mp hplan
      exact ⟨hfits, hannounced, hkept⟩
  · constructor
    · intro h
      exact absurd hfail (h.fits message after)
    · rintro ⟨final, hfinal, -⟩
      rw [hnone] at hfinal
      cases hfinal

section

/-- The program ends without an error. -/
def succeeds {σ α : Type} (m : Apply σ α) (s : σ) : Bool :=
  match m.run ⟨s, {}⟩ with
  | .ok .. => true
  | .error .. => false

lemma not_isIo_of_succeeds {σ α : Type} {m : Apply σ α} {s : σ} (h : succeeds m s = true)
    (error : ApplyPatchError) (after : ApplyState σ) (hrun : m.run ⟨s, {}⟩ = .error error after) :
    ¬ error.IsIo := by
  rw [succeeds, hrun] at h
  cases h

def fileA : PathUri :=
  .file none [[97]] (by decide)

def fileB : PathUri :=
  .file none [[98]] (by decide)

def fileC : PathUri :=
  .file none [[99]] (by decide)

/-- The one file `a`, with one line. -/
def oneFile : FileMap :=
  Function.update (fun _ => none) fileA (some (.text "x\n".toList))

/-- The line of `a` is replaced, and `a` moved to `b`. -/
def moveOfA : Hunk :=
  .updateFile "a".toList (some "b".toList)
    [{ oldLines := ["x".toList], newLines := ["y".toList] }]

/-- A file is added too, in the same patch. -/
def addAndMove (added : String) : List Hunk :=
  [.addFile added.toList "z\n".toList, moveOfA]

def addAndMoveAction (added : PathUri) : ApplyPatchAction where
  changes := [(added, .add "z\n".toList), (fileA, .update [] (some fileB) "y\n".toList)]
  updateFileMode := .normalizeToLf
  patch := []
  cwd := rootUri

theorem applied_as_approved_small :
    tryVerifyApplyPatchArgs memoryFileSystem asciiRules (fun _ _ => []) oneFile
        ⟨[], addAndMove "c", none, none⟩ rootUri .normalizeToLf = .ok (addAndMoveAction fileC) ∧
      AppliedAsApproved memoryFileSystem (addAndMoveAction fileC) oneFile
        (applyHunksToFiles memoryFileSystem asciiRules ⟨.normalizeToLf, true⟩ rootUri
          (addAndMove "c")) := by
  have hverify : tryVerifyApplyPatchArgs memoryFileSystem asciiRules (fun _ _ => []) oneFile
      ⟨[], addAndMove "c", none, none⟩ rootUri .normalizeToLf =
        .ok (addAndMoveAction fileC) := by decide +kernel
  have hsucceeds : succeeds (applyHunksToFiles memoryFileSystem asciiRules ⟨.normalizeToLf, true⟩
      rootUri (addAndMove "c")) oneFile = true := by decide +kernel
  have hedits : hunkEdits asciiRules .normalizeToLf rootUri (addAndMove "c") =
      [.put fileC (.text "z\n".toList), .move fileA fileB (editContent .normalizeToLf "file"
        [{ oldLines := ["x".toList], newLines := ["y".toList] }])] := rfl
  have hne : fileA ≠ fileB ∧ fileA ≠ fileC ∧ fileB ≠ fileC := by decide
  refine ⟨hverify, (applied_as_approved_iff memoryFileSystem asciiRules (fun _ _ => []) hverify
    true (not_isIo_of_succeeds hsucceeds)).mpr ?_⟩
  show Agree _ (hunkEdits asciiRules .normalizeToLf rootUri (addAndMove "c")) ∧
    Again _ (hunkEdits asciiRules .normalizeToLf rootUri (addAndMove "c"))
  rw [hedits]
  constructor
  · -- the three paths are different
    intro edit hedit other hother place value value' hmark hmark'
    rcases mem_pair.mp hedit with rfl | rfl <;> rcases mem_pair.mp hother with rfl | rfl <;>
      simp only [marks, mem_cons, Prod.mk.injEq, not_mem_nil, or_false] at hmark hmark' <;>
      grind
  · intro before key f after heq
    rcases before with _ | ⟨_, _ | ⟨_, before⟩⟩ <;> simp at heq

theorem approved_addition_is_lost :
    tryVerifyApplyPatchArgs memoryFileSystem asciiRules (fun _ _ => []) oneFile
        ⟨[], addAndMove "b", none, none⟩ rootUri .normalizeToLf = .ok (addAndMoveAction fileB) ∧
      succeeds (applyHunksToFiles memoryFileSystem asciiRules ⟨.normalizeToLf, true⟩ rootUri
        (addAndMove "b")) oneFile = true ∧
      ¬ AppliedAsApproved memoryFileSystem (addAndMoveAction fileB) oneFile
        (applyHunksToFiles memoryFileSystem asciiRules ⟨.normalizeToLf, true⟩ rootUri
          (addAndMove "b")) := by
  refine ⟨by decide +kernel, by decide +kernel, fun h => ?_⟩
  have hadded := h.announced (fileB, .add "z\n".toList) (by decide +kernel) fileB
    (some (.text "z\n".toList)) (by decide +kernel)
  revert hadded
  decide +kernel

end

end ExperienceCodex.ApplyPatch
