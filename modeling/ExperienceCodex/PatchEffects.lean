import ExperienceCodex.PatchApply

/-!
# What the parts of a patch application do

Each part of the application is described by what it does to the files and to the record.  Some of
it is known only while the record is exact: `LiveEnds true` describes the ends of a program with an
exact record, and `LiveEnds false` all of them.
-/

namespace ExperienceCodex.ApplyPatch

open Programs

variable {path : PathUri}

/-- Failures of the file system. -/
def ApplyPatchError.IsIo : ApplyPatchError → Prop
  | .ioError .. => True
  | _ => False

section
variable {σ α β : Type} {fs : ExecutorFileSystem σ} {rules : PathRules}
  {options : ApplyPatchOptions} {s : ApplyState σ} {m : Apply σ α} {strict : Bool}

/-- The record is exact, if that is asked for. -/
def Live (strict : Bool) (s : ApplyState σ) : Prop :=
  strict = true → s.delta.exact = true

lemma live_of_loose (h : strict = false) : Live strict s := by
  intro hstr
  rw [h] at hstr
  cases hstr

/-- A program that ends live has begun live, and has ended with what is said. -/
def LiveEnds (strict : Bool) (m : Apply σ α) (s : ApplyState σ) (onOk : α → ApplyState σ → Prop)
    (onError : ApplyPatchError → ApplyState σ → Prop) : Prop :=
  Ends m s (fun a after => Live strict after → Live strict s ∧ onOk a after)
    fun error after => Live strict after → Live strict s ∧ onError error after

variable {onOk onOk' : α → ApplyState σ → Prop}
  {onError onError' : ApplyPatchError → ApplyState σ → Prop}

lemma liveEnds_pure {a : α} (h : Live strict s → onOk a s) :
    LiveEnds strict (pure a) s onOk onError :=
  ends_pure fun hlive => ⟨hlive, h hlive⟩

lemma liveEnds_throw {error : ApplyPatchError} (h : Live strict s → onError error s) :
    LiveEnds strict (throw error : Apply σ α) s onOk onError :=
  ends_throw fun hlive => ⟨hlive, h hlive⟩

lemma liveEnds_modify {change : ApplyState σ → ApplyState σ}
    {onOk : PUnit → ApplyState σ → Prop}
    (h : Live strict (change s) → Live strict s ∧ onOk () (change s)) :
    LiveEnds strict (modify change : Apply σ PUnit) s onOk onError :=
  ends_modify h

lemma liveEnds_get_bind {next : ApplyState σ → Apply σ α}
    (h : LiveEnds strict (next s) s onOk onError) :
    LiveEnds strict (get >>= next) s onOk onError :=
  ends_get_bind h

lemma LiveEnds.bind {next : α → Apply σ β} {onEnd : β → ApplyState σ → Prop}
    (hm : LiveEnds strict m s onOk onError)
    (hnext : ∀ a after, (Live strict after → onOk a after) →
      LiveEnds strict (next a) after onEnd onError) :
    LiveEnds strict (m >>= next) s onEnd onError := by
  refine ends_bind (Ends.mono hm ?_ fun _ _ h => h)
  intro a after hafter
  refine Ends.mono (hnext a after fun hlive => (hafter hlive).2) ?_ ?_
  · intro b final hfinal hlive
    obtain ⟨hmid, hb⟩ := hfinal hlive
    exact ⟨(hafter hmid).1, hb⟩
  · intro error final hfinal hlive
    obtain ⟨hmid, herr⟩ := hfinal hlive
    exact ⟨(hafter hmid).1, herr⟩

lemma LiveEnds.mono (h : LiveEnds strict m s onOk onError)
    (hok : ∀ a after, Live strict after → onOk a after → onOk' a after)
    (herr : ∀ error after, Live strict after → onError error after → onError' error after) :
    LiveEnds strict m s onOk' onError' := by
  refine Ends.mono h ?_ ?_
  · exact fun a after hafter hlive => (hafter hlive).imp_right (hok a after hlive)
  · exact fun error after hafter hlive => (hafter hlive).imp_right (herr error after hlive)

/-- A step whose failures are accounted for. -/
lemma LiveEnds.andThen {next : α → Apply σ β} {onEnd : β → ApplyState σ → Prop}
    (hm : LiveEnds strict m s onOk onError)
    (herr : ∀ error after, Live strict after → onError error after → onError' error after)
    (hnext : ∀ a after, (Live strict after → onOk a after) →
      LiveEnds strict (next a) after onEnd onError') :
    LiveEnds strict (m >>= next) s onEnd onError' :=
  (hm.mono (fun _ _ _ h => h) herr).bind hnext

/-- No state with an inexact record is live, if an exact one is asked for. -/
lemma liveEnds_inexact :
    LiveEnds strict inexact s (fun _ after => strict = false ∧ after.fs = s.fs) onError := by
  refine liveEnds_modify fun hlive => ?_
  cases strict with
  | true => exact absurd (hlive rfl) Bool.false_ne_true
  | false => exact ⟨live_of_loose rfl, rfl, rfl⟩

lemma liveEnds_orThrow {r : Except ApplyPatchError α} :
    LiveEnds strict (orThrow r) s (fun a after => after = s ∧ r = .ok a)
      fun error after => after = s ∧ r = .error error := by
  cases r with
  | ok a => exact liveEnds_pure fun _ => ⟨rfl, rfl⟩
  | error error => exact liveEnds_throw fun _ => ⟨rfl, rfl⟩

lemma liveEnds_pushChange {change : AppliedPatchChange} :
    LiveEnds strict (pushChange change) s (fun _ after => after =
      { s with delta := { s.delta with changes := s.delta.changes ++ [change] } }) onError :=
  liveEnds_modify fun hlive => ⟨hlive, rfl⟩

lemma liveEnds_metadataOf :
    LiveEnds strict (metadataOf fs options path) s (fun _ after => after = s) onError :=
  liveEnds_get_bind (liveEnds_pure fun _ => rfl)

lemma liveEnds_readText :
    LiveEnds strict (readText fs options path) s (fun r after => after = s ∧
      r = fs.readFileText s.fs path options.followSymlinks) onError :=
  liveEnds_get_bind (liveEnds_pure fun _ => ⟨rfl, rfl⟩)

lemma liveEnds_perform {operation : σ → Except IoError Unit × σ} :
    LiveEnds strict (perform operation) s (fun r after =>
      after = { s with fs := (operation s.fs).2 } ∧ r = (operation s.fs).1) onError :=
  ends_get_bind (ends_bind (ends_set (ends_pure fun hlive => ⟨hlive, rfl, rfl⟩)))

/-- The state is unchanged, but for the record being inexact. -/
def SameFiles (strict : Bool) (s after : ApplyState σ) : Prop :=
  after.fs = s.fs ∧ (strict = true → after = s)

lemma sameFiles_self : SameFiles strict s s :=
  ⟨rfl, fun _ => rfl⟩

lemma sameFiles_of_loose {after : ApplyState σ} (h : strict = false) (hfs : after.fs = s.fs) :
    SameFiles strict s after := by
  refine ⟨hfs, fun hstr => ?_⟩
  rw [h] at hstr
  cases hstr

lemma liveEnds_note :
    LiveEnds strict (noteExistingPathDeltaSupport fs options path) s
      (fun _ after => SameFiles strict s after) onError := by
  refine liveEnds_metadataOf.bind fun r after hafter => ?_
  have hpure : LiveEnds strict (pure () : Apply σ Unit) after
      (fun _ after => SameFiles strict s after) onError :=
    liveEnds_pure fun hlive => hafter hlive ▸ sameFiles_self
  have hinexact : LiveEnds strict inexact after (fun _ after => SameFiles strict s after)
      onError := by
    refine liveEnds_inexact.mono ?_ fun _ _ _ h => h
    rintro _ marked _ ⟨hloose, hfs⟩
    exact sameFiles_of_loose hloose (by rw [hfs, hafter (live_of_loose hloose)])
  cases r with
  | ok metadata =>
    dsimp only
    split
    · exact hpure
    · exact hinexact
  | error error =>
    dsimp only
    split
    · exact hpure
    · exact hinexact

/-- What is read of a file that will be written is what the file holds. -/
lemma liveEnds_readOptional :
    LiveEnds strict (readOptionalFileTextForDelta fs options path) s (fun v after =>
      SameFiles strict s after ∧
        (strict = true → fs.files s.fs path = v.map .text)) onError := by
  refine liveEnds_note.bind fun _ noted hnoted => ?_
  refine liveEnds_readText.bind fun r read hread => ?_
  cases hres : r with
  | ok v =>
    refine liveEnds_pure fun hlive => ?_
    obtain ⟨rfl, hresult'⟩ := hread hlive
    refine ⟨hnoted hlive, fun _ => ?_⟩
    rw [← (hnoted hlive).1]
    exact fs.read_ok _ _ _ _ (hresult'.symm.trans hres)
  | error error =>
    dsimp only
    split
    next hkind =>
      refine liveEnds_pure fun hlive => ?_
      obtain ⟨rfl, hresult'⟩ := hread hlive
      refine ⟨hnoted hlive, fun _ => ?_⟩
      rw [← (hnoted hlive).1]
      exact fs.read_notFound _ _ _ _ (hresult'.symm.trans hres) hkind
    next =>
      refine liveEnds_inexact.bind fun _ marked hmarked => liveEnds_pure fun hlive => ?_
      obtain ⟨hloose, hfs⟩ := hmarked hlive
      obtain ⟨rfl, -⟩ := hread (live_of_loose hloose)
      refine ⟨sameFiles_of_loose hloose (hfs.trans (hnoted (live_of_loose hloose)).1), ?_⟩
      intro hstr
      rw [hloose] at hstr
      cases hstr

/-- A write that succeeds after anything was done to the same file. -/
lemma files_write {before after : σ} {text : Line} {follow : Bool}
    (hother : ∀ other, other ≠ path → fs.files after other = fs.files before other)
    (h : (fs.writeFile after path text follow).1 = .ok ()) :
    fs.files (fs.writeFile after path text follow).2 =
      Function.update (fs.files before) path (some (.text text)) := by
  ext1 other
  by_cases hsame : other = path
  · rw [hsame, fs.write_ok _ _ _ _ h, Function.update_self]
  · rw [fs.write_other _ _ _ _ _ hsame, hother other hsame, Function.update_of_ne hsame]

/-- The state after a file was written. -/
def WroteFile (fs : ExecutorFileSystem σ) (s : ApplyState σ) (path : PathUri) (text : Line)
    (after : ApplyState σ) : Prop :=
  after.delta = s.delta ∧
    fs.files after.fs = Function.update (fs.files s.fs) path (some (.text text))

/-- The result of a write: the file is written, or the file system has failed. -/
def WriteEnds (fs : ExecutorFileSystem σ) (s : ApplyState σ) (path : PathUri) (text : Line)
    (result : Except ApplyPatchError Unit) (after : ApplyState σ) : Prop :=
  (result = .ok () → WroteFile fs s path text after) ∧ ∀ error, result = .error error → error.IsIo

lemma liveEnds_lastWrite {before : ApplyState σ} {text : Line} {ctx : String}
    (hbefore : Live strict s → s.delta = before.delta ∧
      ∀ other, other ≠ path → fs.files s.fs other = fs.files before.fs other) :
    LiveEnds strict (perform (fun s => fs.writeFile s path text options.followSymlinks) >>=
        fun r => pure (withContext ctx r)) s
      (WriteEnds fs before path text) onError := by
  refine liveEnds_perform.bind fun r after hafter => liveEnds_pure fun hlive => ?_
  cases r with
  | error error =>
    refine ⟨fun h => (by cases h), fun error' h => ?_⟩
    cases h
    trivial
  | ok value =>
    refine ⟨fun _ => ?_, fun error h => by cases h⟩
    obtain ⟨rfl, hres⟩ := hafter hlive
    obtain ⟨hdelta, hother⟩ := hbefore hlive
    exact ⟨hdelta, files_write hother hres.symm⟩

lemma liveEnds_writeRetry {text : Line} :
    LiveEnds strict (writeFileWithMissingParentRetry fs rules options path text) s
      (WriteEnds fs s path text) onError := by
  have hfailed : ∀ {state : ApplyState σ} {ctx : String} {error : IoError},
      LiveEnds strict (pure (.error (.ioError ctx error)) : Apply σ _) state
        (WriteEnds fs s path text) onError := by
    intro state ctx error
    refine liveEnds_pure fun _ => ⟨fun h => (by cases h), fun error' h => ?_⟩
    cases h
    trivial
  refine liveEnds_perform.bind fun r first hfst => ?_
  cases hres : r with
  | ok value =>
    refine liveEnds_pure fun hlive => ⟨fun _ => ?_, fun error h => by cases h⟩
    obtain ⟨rfl, hresult'⟩ := hfst hlive
    exact ⟨rfl, files_write (fun _ _ => rfl) (hresult'.symm.trans hres)⟩
  | error error =>
    have hkept : Live strict first → first.delta = s.delta ∧
        ∀ other, other ≠ path → fs.files first.fs other = fs.files s.fs other := by
      intro hlive
      obtain ⟨rfl, -⟩ := hfst hlive
      exact ⟨rfl, fun other hother => fs.write_other _ _ _ _ _ hother⟩
    dsimp only
    split
    · cases path.parent with
      | none => exact liveEnds_lastWrite hkept
      | some parent =>
        refine liveEnds_perform.bind fun created second hsnd => ?_
        cases created with
        | error error => exact hfailed
        | ok value =>
          refine liveEnds_lastWrite fun hlive => ?_
          obtain ⟨rfl, -⟩ := hsnd hlive
          rw [fs.createDirectory_files]
          exact hkept hlive
    · exact hfailed

/-- After a write that fails the record is not exact. -/
lemma liveEnds_tryWrite {write : Apply σ (Except ApplyPatchError Unit)}
    {text : Line} {before : ApplyState σ}
    (h : ∀ onError, LiveEnds strict write s (WriteEnds fs before path text) onError) :
    LiveEnds strict (tryWrite write) s (fun _ after => WroteFile fs before path text after)
      fun error _ => strict = false ∧ error.IsIo := by
  refine (h _).bind fun r after hafter => ?_
  cases r with
  | ok value => exact liveEnds_pure fun hlive => (hafter hlive).1 rfl
  | error error =>
    refine liveEnds_inexact.bind fun _ marked hmarked => liveEnds_throw fun hlive => ?_
    have hloose := (hmarked hlive).1
    exact ⟨hloose, (hafter (live_of_loose hloose)).2 error rfl⟩

lemma liveEnds_ensureNotDirectory :
    LiveEnds strict (ensureNotDirectory fs options path) s (fun _ after => after = s) onError := by
  refine liveEnds_metadataOf.bind fun r after hafter => ?_
  cases r with
  | error error => exact liveEnds_pure hafter
  | ok metadata =>
    dsimp only
    split
    · exact liveEnds_pure hafter
    · exact liveEnds_pure hafter

lemma liveEnds_sideEffectFree {expected : Option Line} :
    LiveEnds strict (removeFailureWasSideEffectFree fs options path expected) s (fun free after =>
      after = s ∧ (free = true → fs.files s.fs path ≠ none)) onError := by
  cases expected with
  | none => exact liveEnds_pure fun _ => ⟨rfl, fun h => by cases h⟩
  | some expected =>
    refine liveEnds_readText.bind fun r after hafter => ?_
    cases hres : r with
    | error error =>
      refine liveEnds_pure fun hlive => ?_
      exact ⟨(hafter hlive).1, fun h => by cases h⟩
    | ok v =>
      refine liveEnds_pure fun hlive => ?_
      obtain ⟨rfl, hresult'⟩ := hafter hlive
      refine ⟨rfl, fun _ => ?_⟩
      rw [fs.read_ok _ _ _ _ (hresult'.symm.trans hres)]
      exact Option.some_ne_none _

/-- A file is removed, or the file system has failed, with nothing done if the record is exact. -/
lemma liveEnds_removeFile {ctx : String} {expected : Option Line} :
    LiveEnds strict (removeFile fs options ctx path expected) s
      (fun _ after => after.delta = s.delta ∧
        fs.files after.fs = Function.update (fs.files s.fs) path none)
      fun error after => error.IsIo ∧
        (strict = true → after.delta = s.delta ∧ fs.files after.fs = fs.files s.fs) := by
  refine liveEnds_ensureNotDirectory.bind fun r checked hchecked => ?_
  refine liveEnds_orThrow.andThen ?_ fun _ start hstart => ?_
  · rintro error after hlive ⟨rfl, hres⟩
    cases r with
    | ok value => cases hres
    | error src =>
      cases hres
      rw [hchecked hlive]
      exact ⟨trivial, fun _ => ⟨rfl, rfl⟩⟩
  · refine liveEnds_perform.bind fun r removed hrem => ?_
    have hsame : Live strict removed →
        removed = { s with fs := (fs.remove s.fs path options.followSymlinks).2 } ∧
          r = (fs.remove s.fs path options.followSymlinks).1 := by
      intro hlive
      obtain ⟨rfl, hres⟩ := hrem hlive
      obtain ⟨rfl, -⟩ := hstart hlive
      obtain rfl := hchecked hlive
      exact ⟨rfl, hres⟩
    cases hres : r with
    | ok value =>
      refine liveEnds_pure fun hlive => ?_
      obtain ⟨rfl, hresult'⟩ := hsame hlive
      refine ⟨rfl, ?_⟩
      ext1 other
      by_cases hother : other = path
      · rw [hother, fs.remove_ok _ _ _ (hresult'.symm.trans hres), Function.update_self]
      · rw [fs.remove_other _ _ _ _ hother, Function.update_of_ne hother]
    | error error =>
      refine liveEnds_sideEffectFree.bind fun free after hafter => ?_
      cases free with
      | false =>
        refine liveEnds_inexact.bind fun _ marked hmarked => liveEnds_throw fun hlive => ?_
        refine ⟨trivial, fun hstr => ?_⟩
        rw [(hmarked hlive).1] at hstr
        cases hstr
      | true =>
        refine liveEnds_throw fun hlive => ⟨trivial, fun _ => ?_⟩
        obtain ⟨rfl, hpresent⟩ := hafter hlive
        obtain ⟨rfl, hresult'⟩ := hsame hlive
        refine ⟨rfl, ?_⟩
        ext1 other
        by_cases hother : other = path
        · rw [hother]
          exact (fs.remove_error _ _ _ _ (hresult'.symm.trans hres)).resolve_right (hpresent rfl)
        · exact fs.remove_other _ _ _ _ hother

/-- The text of a file is read and its new text found, or the file cannot be read, or the chunks of
the update do not fit its text. -/
lemma liveEnds_derive {chunks : List UpdateFileChunk} :
    LiveEnds strict (deriveNewContentsFromChunks fs rules options path chunks) s
      (fun contents after => after = s ∧ fs.files s.fs path = some (.text contents.1) ∧
        newContents options.updateFileMode (rules.nativeText path) chunks contents.1 =
          .ok contents.2)
      fun error after => after = s ∧ (error.IsIo ∨ ∃ orig msg,
        fs.files s.fs path = some (.text orig) ∧
          newContents options.updateFileMode (rules.nativeText path) chunks orig =
            .error msg ∧ error = .computeReplacements msg) := by
  refine liveEnds_readText.bind fun r read hread => ?_
  refine liveEnds_orThrow.andThen ?_ fun orig first hfst => ?_
  · rintro error after hlive ⟨rfl, hres⟩
    refine ⟨(hread hlive).1, .inl ?_⟩
    cases r with
    | ok text => cases hres
    | error src =>
      cases hres
      trivial
  have horig : Live strict first → first = s ∧ fs.files s.fs path = some (.text orig) := by
    intro hlive
    obtain ⟨rfl, hok⟩ := hfst hlive
    obtain ⟨rfl, hres⟩ := hread hlive
    refine ⟨rfl, fs.read_ok _ _ _ _ (hres.symm.trans ?_)⟩
    cases r with
    | error src => cases hok
    | ok text => exact congrArg Except.ok (Except.ok.inj hok)
  refine liveEnds_orThrow.andThen ?_ fun new second hsnd => liveEnds_pure fun hlive => ?_
  · rintro error after hlive ⟨rfl, hnew⟩
    obtain ⟨rfl, htext⟩ := horig hlive
    refine ⟨rfl, .inr ⟨orig, ?_⟩⟩
    cases hcompute : newContents options.updateFileMode (rules.nativeText path) chunks orig with
    | ok new =>
      rw [hcompute] at hnew
      cases hnew
    | error msg =>
      rw [hcompute] at hnew
      exact ⟨msg, htext, rfl, (Except.error.inj hnew).symm⟩
  · obtain ⟨rfl, hnew⟩ := hsnd hlive
    obtain ⟨rfl, htext⟩ := horig hlive
    refine ⟨rfl, htext, ?_⟩
    cases hcompute : newContents options.updateFileMode (rules.nativeText path) chunks orig with
    | ok text =>
      rw [hcompute] at hnew
      exact congrArg Except.ok (Except.ok.inj hnew)
    | error msg =>
      rw [hcompute] at hnew
      cases hnew

end

end ExperienceCodex.ApplyPatch
