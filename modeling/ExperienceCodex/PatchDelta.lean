import ExperienceCodex.PatchEffects

/-!
# The record of an applied patch

The record of a patch lists what was done to the files, in order, and says whether it is exact.  An
exact record is faithful: its changes, done again on the files as they were, give the files as they
are, and undone from the last to the first they give the files as they were.
-/

namespace ExperienceCodex.ApplyPatch

open Programs

namespace AppliedPatchChange

/-- Does a change.  A move is a write at the destination and a removal of the source. -/
def redo (files : FileMap) (change : AppliedPatchChange) : FileMap :=
  match change.change with
  | .add content _ => Function.update files change.path (some (.text content))
  | .delete _ => Function.update files change.path none
  | .update none _ _ new => Function.update files change.path (some (.text new))
  | .update (some destination) _ _ new =>
    Function.update (Function.update files destination (some (.text new))) change.path none

/-- Undoes a change with the contents that it recorded. -/
def undo (change : AppliedPatchChange) (files : FileMap) : FileMap :=
  match change.change with
  | .add _ overwritten => Function.update files change.path (overwritten.map .text)
  | .delete content => Function.update files change.path (some (.text content))
  | .update none old _ _ => Function.update files change.path (some (.text old))
  | .update (some destination) old overwritten _ =>
    Function.update (Function.update files change.path (some (.text old))) destination
      (overwritten.map .text)

/-- What a change recorded is what the files hold. -/
def Records (files : FileMap) (change : AppliedPatchChange) : Prop :=
  match change.change with
  | .add _ overwritten => files change.path = overwritten.map .text
  | .delete content => files change.path = some (.text content)
  | .update none old _ _ => files change.path = some (.text old)
  | .update (some destination) old overwritten _ =>
    files change.path = some (.text old) ∧ files destination = overwritten.map .text

lemma undo_redo {files : FileMap} {change : AppliedPatchChange} (h : Records files change) :
    undo change (redo files change) = files := by
  obtain ⟨path, change⟩ := change
  match change with
  | .add _ overwritten | .delete v | .update none old _ _ =>
    simp only [Records] at h
    simp [undo, redo, ← h]
  | .update (some destination) old overwritten new =>
    obtain ⟨hpath, hdestination⟩ := h
    simp only [undo, redo, Function.update_idem, ← hpath, ← hdestination]
    ext1 other
    by_cases hother : other = destination
    · simp [hother]
    · by_cases hsame : other = path
      · subst hsame
        simp [hother]
      · simp [hother, hsame]

end AppliedPatchChange

/-- Done again the changes lead from the first files to the second, and undone back. -/
structure Faithful (start : FileMap) (changes : List AppliedPatchChange) (files : FileMap) :
    Prop where
  redo : changes.foldl AppliedPatchChange.redo start = files
  undo : changes.foldr AppliedPatchChange.undo files = start

lemma faithful_nil (start : FileMap) : Faithful start [] start :=
  ⟨rfl, rfl⟩

lemma Faithful.push {start files : FileMap} {changes : List AppliedPatchChange}
    {change : AppliedPatchChange} (h : Faithful start changes files)
    (hrecs : change.Records files) :
    Faithful start (changes ++ [change]) (change.redo files) := by
  constructor
  · rw [List.foldl_append, h.redo]
    rfl
  · rw [List.foldr_append, List.foldr_cons, List.foldr_nil,
      AppliedPatchChange.undo_redo hrecs, h.undo]

section
variable {σ : Type} {fs : ExecutorFileSystem σ} {rules : PathRules}
  {options : ApplyPatchOptions} {s : ApplyState σ} {start : FileMap}

/-- The record of a state is faithful. -/
def Recorded (fs : ExecutorFileSystem σ) (start : FileMap) (s : ApplyState σ) : Prop :=
  Faithful start s.delta.changes (fs.files s.fs)

/-- The state after a change that was recorded. -/
lemma Recorded.push {before : ApplyState σ} (h : Recorded fs start before)
    (change : AppliedPatchChange) (hrecs : change.Records (fs.files before.fs))
    (hdelta : s.delta.changes = before.delta.changes ++ [change])
    (hfiles : fs.files s.fs = change.redo (fs.files before.fs)) : Recorded fs start s := by
  rw [Recorded, hdelta, hfiles]
  exact Faithful.push h hrecs

/-- However the program ends, an exact record is faithful. -/
abbrev KeepsRecord (fs : ExecutorFileSystem σ) (start : FileMap) {α : Type} (m : Apply σ α)
    (s : ApplyState σ) : Prop :=
  LiveEnds true m s (fun _ => Recorded fs start) fun _ => Recorded fs start

lemma records_applyAdd {path : PathUri} {contents : Line}
    (h : Live true s → Recorded fs start s) :
    KeepsRecord fs start (applyAdd fs rules options path contents) s := by
  refine liveEnds_readOptional.bind fun overwritten read hread => ?_
  refine (liveEnds_tryWrite fun _ => liveEnds_writeRetry).andThen ?_ fun _ written hwritten => ?_
  · rintro error after _ ⟨hloose, -⟩
    cases hloose
  refine liveEnds_modify fun hlive => ⟨hlive, ?_⟩
  obtain ⟨hdelta, hfiles⟩ := hwritten hlive
  have hread' := hread fun _ => hdelta ▸ hlive rfl
  obtain rfl := hread'.1.2 rfl
  exact (h fun _ => hdelta ▸ hlive rfl).push ⟨path, .add contents overwritten⟩ (hread'.2 rfl)
    (by rw [← hdelta]) hfiles

lemma records_applyDelete {path : PathUri} (h : Live true s → Recorded fs start s) :
    KeepsRecord fs start (applyDelete fs rules options path) s := by
  refine liveEnds_note.bind fun _ noted hnoted => ?_
  refine liveEnds_readText.bind fun r read hread => ?_
  cases hres : r with
  | error error =>
    -- nothing that follows makes the record exact again
    refine liveEnds_inexact.bind fun _ marked hmarked => ?_
    refine liveEnds_removeFile.andThen ?_ fun _ removed hrem => ?_
    · rintro error after hlive ⟨-, hsame⟩
      have hloose := (hmarked fun _ => (hsame rfl).1 ▸ hlive rfl).1
      cases hloose
    · refine liveEnds_pure fun hlive => ?_
      have hloose := (hmarked fun _ => (hrem hlive).1 ▸ hlive rfl).1
      cases hloose
  | ok v =>
    have hstart : Live true read → Recorded fs start read ∧
        fs.files read.fs path = some (.text v) := by
      intro hlive
      obtain ⟨rfl, hresult'⟩ := hread hlive
      obtain rfl := (hnoted hlive).2 rfl
      exact ⟨h hlive, fs.read_ok _ _ _ _ (hresult'.symm.trans hres)⟩
    refine liveEnds_removeFile.andThen ?_ fun _ removed hrem => ?_
    · rintro error after hlive ⟨-, hsame⟩
      obtain ⟨hdelta, hfiles⟩ := hsame rfl
      rw [Recorded, hdelta, hfiles]
      exact (hstart fun _ => hdelta ▸ hlive rfl).1
    · refine liveEnds_modify fun hlive => ⟨hlive, ?_⟩
      obtain ⟨hdelta, hfiles⟩ := hrem hlive
      obtain ⟨hrec, hcont⟩ := hstart fun _ => hdelta ▸ hlive rfl
      exact hrec.push ⟨path, .delete v⟩ hcont (by rw [← hdelta]) hfiles

lemma records_applyUpdate {path : PathUri} {orig new : Line}
    (h : Live true s → Recorded fs start s ∧ fs.files s.fs path = some (.text orig)) :
    KeepsRecord fs start (applyUpdate fs rules options path orig new) s := by
  refine (liveEnds_tryWrite fun _ => liveEnds_lastWrite fun _ => ⟨rfl, fun _ _ => rfl⟩).andThen ?_
    fun _ written hwritten => ?_
  · rintro error after _ ⟨hloose, -⟩
    cases hloose
  refine liveEnds_modify fun hlive => ⟨hlive, ?_⟩
  obtain ⟨hdelta, hfiles⟩ := hwritten hlive
  obtain ⟨hrec, horig⟩ := h fun _ => hdelta ▸ hlive rfl
  exact hrec.push ⟨path, .update none orig none new⟩ horig (by rw [← hdelta]) hfiles

lemma records_applyMove {path destination : PathUri} {orig new : Line}
    (h : Live true s → Recorded fs start s ∧ fs.files s.fs path = some (.text orig)) :
    KeepsRecord fs start (applyMove fs rules options path destination orig new) s := by
  refine liveEnds_readOptional.bind fun overwritten read hread => ?_
  refine (liveEnds_tryWrite fun _ => liveEnds_writeRetry).andThen ?_ fun _ written hwritten => ?_
  · rintro error after _ ⟨hloose, -⟩
    cases hloose
  refine liveEnds_get_bind ?_
  refine liveEnds_pushChange.bind fun _ pushed hpushed => ?_
  -- the write is recorded by itself until the source is gone
  have hstart : Live true pushed → Recorded fs start s ∧
      fs.files s.fs path = some (.text orig) ∧
      fs.files s.fs destination = overwritten.map .text ∧
      pushed.delta.changes = s.delta.changes ++ [⟨destination, .add new overwritten⟩] ∧
      written.delta.changes.length = s.delta.changes.length ∧
      fs.files pushed.fs =
        Function.update (fs.files s.fs) destination (some (.text new)) := by
    intro hlive
    obtain rfl := hpushed hlive
    obtain ⟨hdelta, hfiles⟩ := hwritten hlive
    have hread' := hread fun _ => hdelta ▸ hlive rfl
    obtain rfl := hread'.1.2 rfl
    obtain ⟨hrec, horig⟩ := h fun _ => hdelta ▸ hlive rfl
    exact ⟨hrec, horig, hread'.2 rfl, by rw [← hdelta], by rw [hdelta], hfiles⟩
  refine liveEnds_removeFile.andThen ?_ fun _ removed hrem => ?_
  · rintro error after hlive ⟨-, hsame⟩
    obtain ⟨hdelta, hfiles⟩ := hsame rfl
    obtain ⟨hrec, -, hoverwritten, hchanges, -, hmoved⟩ :=
      hstart fun _ => hdelta ▸ hlive rfl
    exact hrec.push ⟨destination, .add new overwritten⟩ hoverwritten (hdelta ▸ hchanges)
      (hfiles.trans hmoved)
  · refine liveEnds_modify fun hlive => ⟨hlive, ?_⟩
    obtain ⟨hdelta, hfiles⟩ := hrem hlive
    obtain ⟨hrec, horig, hoverwritten, hchanges, hlen, hmoved⟩ :=
      hstart fun _ => hdelta ▸ hlive rfl
    refine hrec.push ⟨path, .update (some destination) orig overwritten new⟩
      ⟨horig, hoverwritten⟩ ?_ ?_
    · rw [hdelta, hchanges, hlen]
      simp
    · rw [hfiles, hmoved]
      rfl

/-- A hunk keeps a faithful record, however it ends. -/
lemma records_applyHunk {cwd : PathUri} {affected : AffectedPaths} {hunk : Hunk}
    (h : Live true s → Recorded fs start s) :
    KeepsRecord fs start (applyHunk fs rules options cwd affected hunk) s := by
  refine liveEnds_orThrow.andThen ?_ fun path resolved hresv => ?_
  · rintro error after hlive ⟨rfl, -⟩
    exact h hlive
  have hrec : Live true resolved → Recorded fs start resolved := by
    intro hlive
    obtain ⟨rfl, -⟩ := hresv hlive
    exact h hlive
  cases hunk with
  | addFile _ contents =>
    exact (records_applyAdd hrec).bind fun _ _ hafter => liveEnds_pure hafter
  | deleteFile _ =>
    exact (records_applyDelete hrec).bind fun _ _ hafter => liveEnds_pure hafter
  | updateFile _ movePath chunks =>
    refine liveEnds_note.bind fun _ noted hnoted => ?_
    refine liveEnds_derive.andThen ?_ fun contents derived hderived => ?_
    · rintro error after hlive ⟨rfl, -⟩
      obtain rfl := (hnoted hlive).2 rfl
      exact hrec hlive
    have hstart : Live true derived → Recorded fs start derived ∧
        fs.files derived.fs path = some (.text contents.1) := by
      intro hlive
      obtain ⟨rfl, horig, -⟩ := hderived hlive
      obtain rfl := (hnoted hlive).2 rfl
      exact ⟨hrec hlive, horig⟩
    cases movePath with
    | none =>
      exact (records_applyUpdate hstart).bind fun _ _ hafter => liveEnds_pure hafter
    | some destination =>
      refine liveEnds_orThrow.andThen ?_ fun tgt joined hjoined => ?_
      · rintro error after hlive ⟨rfl, -⟩
        exact (hstart hlive).1
      refine (records_applyMove ?_).bind fun _ _ hafter => liveEnds_pure hafter
      intro hlive
      obtain ⟨rfl, -⟩ := hjoined hlive
      exact hstart hlive

/-- Any number of hunks keep a faithful record, however they end. -/
lemma records_applyHunks {cwd : PathUri} {hunks : List Hunk} {affected : AffectedPaths}
    (h : Live true s → Recorded fs start s) :
    KeepsRecord fs start (hunks.foldlM (applyHunk fs rules options cwd) affected) s := by
  induction hunks generalizing affected s with
  | nil => exact liveEnds_pure h
  | cons hunk hunks ih =>
    rw [List.foldlM_cons]
    exact (records_applyHunk h).bind fun _ _ hafter => ih hafter

end

/-- However the application of a patch ends, an exact record leads from the files as they were to
the files as they are, and back. -/
theorem exact_delta_faithful {σ : Type} (fs : ExecutorFileSystem σ) (rules : PathRules)
    (options : ApplyPatchOptions) (cwd : PathUri) (hunks : List Hunk) (s : σ) :
    let final := finalState (applyHunksToFiles fs rules options cwd hunks) ⟨s, {}⟩
    final.delta.exact = true →
      final.delta.changes.foldl AppliedPatchChange.redo (fs.files s) = fs.files final.fs ∧
        final.delta.changes.foldr AppliedPatchChange.undo (fs.files final.fs) = fs.files s := by
  intro final hexact
  have hstart : Recorded fs (fs.files s) ⟨s, {}⟩ := faithful_nil (fs.files s)
  have hends : KeepsRecord fs (fs.files s) (applyHunksToFiles fs rules options cwd hunks)
      ⟨s, {}⟩ := by
    rw [applyHunksToFiles]
    split
    · exact liveEnds_throw fun _ => hstart
    · exact records_applyHunks fun _ => hstart
  have hfinal := Ends.final hends fun _ => hexact
  exact ⟨hfinal.2.redo, hfinal.2.undo⟩

/-- A file is added and then moved. -/
def addThenMove : List Hunk :=
  [.addFile "a".toList "x\n".toList, .updateFile "a".toList (some "b".toList) [{}]]

def addThenMoveRun : ApplyState FileMap :=
  finalState (applyHunksToFiles memoryFileSystem asciiRules ⟨.normalizeToLf, true⟩ rootUri
    addThenMove) ⟨fun _ => none, {}⟩

theorem exact_delta_faithful_small :
    addThenMoveRun.delta.changes.length = 2 ∧
      addThenMoveRun.delta.changes.foldl AppliedPatchChange.redo (fun _ => none) =
        memoryFileSystem.files addThenMoveRun.fs ∧
      addThenMoveRun.delta.changes.foldr AppliedPatchChange.undo
        (memoryFileSystem.files addThenMoveRun.fs) = fun _ => none := by
  have hexact : addThenMoveRun.delta.exact = true := by decide +kernel
  exact ⟨by decide +kernel, exact_delta_faithful memoryFileSystem asciiRules
    ⟨.normalizeToLf, true⟩ rootUri addThenMove (fun _ => none) hexact⟩

end ExperienceCodex.ApplyPatch
