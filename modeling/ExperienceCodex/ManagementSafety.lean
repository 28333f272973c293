import ExperienceCodex.ManagementFrame
import ExperienceCodex.StoreMetadata

/-!
# The managed file keeps its artifacts

A call on a canonical file changes nothing but the artifact it names exactly when the canonical
backend serves it and has the artifacts of the file.  This is so throughout a run in which the file
is given only contents that the canonical loader accepts.  The format alone does not ensure it: a
file with a `schema_version` that does not load is served by the legacy backend, which writes its
own snapshot over it.
-/

namespace ExperienceCodex

open Text ExperienceStore Managed Codec

variable {managed : Managed} {store : ExperienceStore} {file : FileContent}

/-- The items that a file lists under a member of its document. -/
def fileItems (kind : String) : FileContent → List Json
  | .document value => ((value.get kind).bind Json.asArray).getD []
  | _ => []

/-- The file is canonical, and every artifact that is not named is in it as it was before. -/
structure Preserved (names : List String) (before after : FileContent) : Prop where
  canonical : detectFormat after = .canonical
  experiences : ∀ item ∈ fileItems "experiences" before,
    (∀ name, artifactName item = some name → name ∉ names) →
      ∃ kept ∈ fileItems "experiences" after, artifactName kept = artifactName item ∧
        Codec.experience.decode kept = Codec.experience.decode item
  templates : ∀ item ∈ fileItems "templates" before,
    (∀ name, artifactName item = some name → name ∉ names) →
      ∃ kept ∈ fileItems "templates" after, artifactName kept = artifactName item ∧
        Codec.experienceTemplate.decode kept = Codec.experienceTemplate.decode item

lemma Preserved.refl (names : List String)
    (h : detectFormat file = .canonical) : Preserved names file file :=
  ⟨h, fun item hitem _ => ⟨item, hitem, rfl, rfl⟩, fun item hitem _ => ⟨item, hitem, rfl, rfl⟩⟩

/-- The canonical loader accepts the file. -/
def Loads (file : FileContent) : Prop :=
  ∃ value store, file = .document value ∧ ExperienceStore.fromJson value = .ok store

lemma exists_of_fieldD_list {α : Type} {codec : Codec α} {record : List (String × Json)}
    {kind : String} {values : List α}
    (h : fieldD (list codec) record kind [] = .ok values) :
    ∀ item ∈ ((record.lookup kind).bind Json.asArray).getD [],
      ∃ value ∈ values, codec.decode item = .ok value := by
  unfold fieldD at h
  cases hlook : record.lookup kind with
  | none => simp
  | some listed =>
    rw [hlook] at h
    cases listed with
    | array items => exact exists_of_mapM_ok h
    | _ => cases h

/-- The store holds every artifact that the file lists. -/
structure Covers (store : ExperienceStore) (file : FileContent) : Prop where
  experiences : ∀ item ∈ fileItems "experiences" file,
    ∃ experience ∈ store.all, Codec.experience.decode item = .ok experience
  templates : ∀ item ∈ fileItems "templates" file,
    ∃ template ∈ store.templates.items, Codec.experienceTemplate.decode item = .ok template

/-- What a document that loads lists is what the store holds. -/
lemma covers_of_fromJson {value : Json}
    (h : ExperienceStore.fromJson value = .ok store) :
    detectFormat (.document value) = .canonical ∧ Covers store (.document value) := by
  unfold fromJson at h
  cases hdec : storeFile.decode value with
  | error error =>
    rw [hdec] at h
    cases h
  | ok file =>
    rw [hdec] at h
    obtain ⟨hexps, htpls, -⟩ := fromFile_items h
    simp only [storeFile, bind_eq_ok_iff] at hdec
    obtain ⟨record, hrec, version, hversion, experiences, hlisted, templates, hlistedTemplates,
      _, -, _, -, _, -, _, -, _, -, _, -, _, -, _, -, heq⟩ := hdec
    cases heq
    rw [members_eq_ok_iff.mp hrec]
    refine ⟨?_, ?_, ?_⟩
    · have hpresent : (record.lookup "schema_version").isSome = true := by
        unfold field at hversion
        cases hlook : record.lookup "schema_version" with
        | none => simp [hlook] at hversion
        | some _ => rfl
      simp [detectFormat, Json.get, hpresent]
    · rw [all, hexps]
      exact exists_of_fieldD_list hlisted
    · rw [htpls]
      exact exists_of_fieldD_list hlistedTemplates

lemma loads_savedJson (hwf : store.Wf) :
    Loads (.document store.savedJson) :=
  ⟨store.savedJson, { store with path := none }, rfl, by
    rw [fromJson_savedJson, fromFile_toFile hwf]⟩

lemma Loads.canonical (h : Loads file) : detectFormat file = .canonical := by
  obtain ⟨value, store, rfl, hload⟩ := h
  exact (covers_of_fromJson hload).1

/-- The store of the canonical backend is well formed. -/
def Managed.Wf (managed : Managed) : Prop :=
  ∀ store, managed.service.canonical = some store → store.Wf

/-- The canonical backend serves the calls and has the artifacts of the file: the file loads, or
the store that is kept when it does not load has them already. -/
def Managed.Guarded (managed : Managed) : Prop :=
  ∃ store, managed.service.canonical = some store ∧
    (Loads managed.file ∨ Covers store managed.file)

lemma reload_of_not_loads {service : Service}
    (hformat : detectFormat file = .canonical) (hloads : ¬ Loads file) :
    service.canonical.isSome = true → service.reload file = service := by
  intro hsome
  obtain ⟨store, hstore⟩ := Option.isSome_iff_exists.mp hsome
  unfold Service.reload
  rw [hstore]
  cases file with
  | missing => cases hformat
  | unreadable error => rfl
  | notJson error => rfl
  | document value =>
    cases hload : fromJson value with
    | error error => simp [openFile, hload]
    | ok loaded => exact absurd ⟨value, loaded, rfl, hload⟩ hloads

lemma Managed.Wf.reload (h : managed.Wf)
    (hreload : (managed.service.reload managed.file).canonical = some store) : store.Wf := by
  unfold Service.reload at hreload
  cases hcanon : managed.service.canonical with
  | none =>
    rw [hcanon] at hreload
    cases hreload
  | some kept =>
    rw [hcanon] at hreload
    cases hopen : openFile managed.service.path managed.file with
    | ok reopened =>
      rw [hopen] at hreload
      cases hreload
      exact StoreOp.wf_of_openFile hopen
    | error error =>
      rw [hopen] at hreload
      exact h store hreload

/-- A call on the canonical backend is confined to the artifacts it names, and the file is left as
it is or becomes what the store then holds. -/
lemma call_canonical
    (hreload : (managed.service.reload managed.file).canonical = some store) (hwf : store.Wf)
    (single : SingleText) (op : ManageOp) (saved : Bool) :
    ∃ other, (managed.call single op saved).2.service.canonical = some other ∧
      Confined op.targets store other ∧
      ((managed.call single op saved).2.file = managed.file ∨
        (managed.call single op saved).2.file = .document other.savedJson) := by
  unfold call
  simp only [hreload]
  rcases hcall : op.onCanonical store with _ | ⟨_ | answer, other⟩
  · exact ⟨store, hreload, .refl hwf _, .inl rfl⟩
  · exact ⟨other, rfl, confined_onCanonical hwf hcall, .inl rfl⟩
  · cases saved with
    | false => exact ⟨other, rfl, confined_onCanonical hwf hcall, .inl rfl⟩
    | true => exact ⟨other, rfl, confined_onCanonical hwf hcall, .inr rfl⟩

/-- The backend is chosen when the service is opened and stays. -/
lemma call_legacy
    (hreload : (managed.service.reload managed.file).canonical = none)
    (single : SingleText) (op : ManageOp) (saved : Bool) :
    (managed.call single op saved).2.service.canonical = none := by
  unfold call
  simp only [hreload]
  rcases op.onLegacy single (managed.service.reload managed.file).store with
    _ | error | ⟨answer, store⟩
  · exact hreload
  · exact hreload
  · rfl

lemma Managed.Wf.call (h : managed.Wf) (single : SingleText) (op : ManageOp)
    (saved : Bool) : (managed.call single op saved).2.Wf := by
  intro after hafter
  cases hreload : (managed.service.reload managed.file).canonical with
  | none => cases (call_legacy hreload single op saved).symm.trans hafter
  | some store =>
    obtain ⟨other, hother, hconf, -⟩ := call_canonical hreload (h.reload hreload) single op saved
    cases hother.symm.trans hafter
    exact hconf.1

/-- A guarded call preserves what the file has besides the artifacts that the call names. -/
theorem Managed.Guarded.call (h : managed.Guarded) (hwf : managed.Wf)
    (hformat : detectFormat managed.file = .canonical) (single : SingleText) (op : ManageOp)
    (saved : Bool) : Preserved op.targets managed.file (managed.call single op saved).2.file := by
  have hreload : ∃ store, (managed.service.reload managed.file).canonical = some store ∧
      Covers store managed.file := by
    obtain ⟨kept, hkept, hcov⟩ := h
    by_cases hloads : Loads managed.file
    · obtain ⟨value, loaded, hfile, hload⟩ := hloads
      rw [hfile]
      refine ⟨{ loaded with path := some managed.service.path }, ?_,
        (covers_of_fromJson hload).2.experiences,
        (covers_of_fromJson hload).2.templates⟩
      simp [Service.reload, hkept, openFile, hload]
    · rw [reload_of_not_loads hformat hloads (by rw [hkept]; rfl)]
      exact ⟨kept, hkept, hcov.resolve_left hloads⟩
  obtain ⟨store, hstore, hcov⟩ := hreload
  obtain ⟨other, -, hconf, hsame | hwritten⟩ :=
    call_canonical hstore (hwf.reload hstore) single op saved
  · rw [hsame]
    exact .refl _ hformat
  · -- the saved store has kept the other artifacts
    rw [hwritten]
    refine ⟨(loads_savedJson hconf.1).canonical, fun item hitem hname => ?_,
      fun item hitem hname => ?_⟩
    · obtain ⟨e, hmem, hdec⟩ := hcov.experiences item hitem
      have hitemName := artifactName_of_experience hdec
      have hkept := hconf.2.experiences e hmem (hname _ hitemName)
      refine ⟨experience.encode e, List.mem_map_of_mem hkept, ?_, ?_⟩
      · rw [hitemName]
        exact artifactName_of_experience (experience.decode_encode e)
      · rw [hdec]
        exact experience.decode_encode e
    · obtain ⟨t, hmem, hdec⟩ := hcov.templates item hitem
      have hitemName := artifactName_of_template hdec
      have hkept := hconf.2.templates t hmem (hname _ hitemName)
      refine ⟨experienceTemplate.encode t, List.mem_map_of_mem hkept, ?_, ?_⟩
      · rw [hitemName]
        exact artifactName_of_template (experienceTemplate.decode_encode t)
      · rw [hdec]
        exact experienceTemplate.decode_encode t

/-- The body of a legacy experience. -/
def legacyNoteJson : Json := .object [
  ("id", .string "note"),
  ("name", .string "note"),
  ("kind", .string "Process"),
  ("trigger", .object [("keywords", .array [.string "note"]), ("context", .object [])]),
  ("conditions", .array []),
  ("workflow", .object [("steps", .array [.object [("name", .string "write"), ("args", .null)]])]),
  ("confidence", .number (.posInt 1)),
  ("risk", .string "Low"),
  ("status", .string "New"),
  ("version", .number (.posInt 1))]

def importLegacyNote : ManageOp := .importJson (.ok legacyNoteJson) true

lemma exists_legacyNote :
    ∃ note, LegacyExperience.ofJson legacyNoteJson = .ok note ∧ note.validate = .ok () := by
  have hvalid : (match LegacyExperience.ofJson legacyNoteJson with
      | .ok note => decide (note.validate = .ok ())
      | .error _ => false) = true := by decide +kernel
  split at hvalid
  next note hread => exact ⟨note, hread, of_decide_eq_true hvalid⟩
  next => cases hvalid

/-- A legacy backend imports the note into whatever it has and writes its own snapshot. -/
lemma call_importLegacyNote (hlegacy : managed.service.canonical = none)
    (single : SingleText) :
    detectFormat (managed.call single importLegacyNote true).2.file = .legacy := by
  obtain ⟨note, hread, hvalid⟩ := exists_legacyNote
  have hreload : (managed.service.reload managed.file).canonical = none := by
    unfold Service.reload
    rw [hlegacy]
  unfold call
  simp only [hreload]
  simp only [importLegacyNote, ManageOp.onLegacy, legacyImport, ok_bind, hread, Bool.not_true,
    Bool.false_and, Bool.false_eq_true, if_false, legacyUpsert, LegacyStore.upsertValidated, hvalid]
  rfl

/-- One name of each length. -/
def nameOfLength (length : ℕ) : String := String.ofList (List.replicate (length + 1) 'n')

lemma isBlank_nameOfLength (length : ℕ) : isBlank (nameOfLength length) = false := by
  have hfst : (List.replicate (length + 1) 'n').dropWhile isWhitespace =
      List.replicate (length + 1) 'n' := by
    rw [List.replicate_succ, List.dropWhile_cons_of_neg (by decide)]
  have hlast : (List.replicate (length + 1) 'n').rdropWhile isWhitespace =
      List.replicate (length + 1) 'n' := by
    rw [List.replicate_succ', List.rdropWhile_concat_neg _ _ _ (by decide)]
  rw [isBlank, trim, nameOfLength, String.toList_ofList, hfst, hlast]
  simp [List.replicate_succ]

lemma exists_nameOfLength_notMem (taken : List String) : ∃ length, nameOfLength length ∉ taken := by
  refine ⟨(taken.map String.length).sum, fun hmem => ?_⟩
  have hle := List.le_sum_of_mem (List.mem_map_of_mem (f := String.length) hmem)
  rw [nameOfLength, String.length_ofList, List.length_replicate] at hle
  omega

/-- The import of a small experience under a given name. -/
def importNote (name : String) : ManageOp :=
  .importJson (.ok (Codec.experience.encode (StoreOp.noteExperience name))) false

lemma targets_importNote (name : String) : (importNote name).targets = [name] := by
  have hname := artifactName_of_experience
    (experience.decode_encode (StoreOp.noteExperience name))
  rw [artifactName] at hname
  simp only [importNote, ManageOp.targets, Except.toOption, Option.bind_some, hname]
  rfl

def candidateNote (name : String) : Experience :=
  { StoreOp.noteExperience name with status := .candidate }

lemma schemaIssues_candidateNote (length : ℕ) :
    (candidateNote (nameOfLength length)).schemaIssues = [] := by
  have htool : isBlank "task" = false := by decide
  have hact : isBlank "write_file" = false := by decide
  simp [candidateNote, StoreOp.noteExperience, Experience.schemaIssues, isBlank_nameOfLength,
    blankActionIssues, htool, hact]

/-- A canonical backend imports a note of a new name into the store it has. -/
lemma onCanonical_importNote (hwf : store.Wf) {length : ℕ}
    (hfresh : nameOfLength length ∉ store.all.map Experience.name) :
    ∃ other, (importNote (nameOfLength length)).onCanonical store =
        some (.ok (.id (nameOfLength length)), other) ∧
      other.all = store.all ++ [candidateNote (nameOfLength length)] ∧
      other.templates = store.templates := by
  have hcont : store.experiences.byKey.contains (nameOfLength length) = false := by
    rw [hwf.experiences.contains_eq_false_iff]
    exact hfresh
  have habsent : store.get (StoreOp.noteExperience (nameOfLength length)).name = none :=
    (hwf.experiences.lookup_eq_none_iff _).mpr hfresh
  have hinsert : store.insert (candidateNote (nameOfLength length)) = (.ok (), { store with
      experiences := store.experiences.push Experience.name Experience.activeTool
        (candidateNote (nameOfLength length)) }) := by
    have hname : store.experiences.byKey.contains (candidateNote (nameOfLength length)).name =
        false := hcont
    simp [ExperienceStore.insert, schemaIssues_candidateNote, hname]
  rw [candidateNote] at hinsert
  refine ⟨{ store with
      experiences := store.experiences.push Experience.name Experience.activeTool
        (candidateNote (nameOfLength length)) }, ?_, rfl, rfl⟩
  simp only [importNote, ManageOp.onCanonical, canonicalImport, Except.bind, decode_encode,
    habsent, Option.isSome_none, Bool.and_false, Bool.false_eq_true, if_false, hinsert]
  rfl

/-- If every call preserves the file, then the canonical backend serves the calls and has the
artifacts of the file. -/
theorem guarded_of_preserved (hwf : managed.Wf)
    (hformat : detectFormat managed.file = .canonical) (single : SingleText)
    (h : ∀ op saved, Preserved op.targets managed.file (managed.call single op saved).2.file) :
    managed.Guarded := by
  cases hcanon : managed.service.canonical with
  | none =>
    have hlegacy := call_importLegacyNote hcanon single
    cases hlegacy.symm.trans (h importLegacyNote true).canonical
  | some store =>
    refine ⟨store, hcanon, or_iff_not_imp_left.mpr fun hloads => ?_⟩
    -- A name that neither the store nor the file has: its import names no artifact of the file.
    obtain ⟨length, hfresh⟩ := exists_nameOfLength_notMem (store.all.map Experience.name ++
      (fileItems "experiences" managed.file).filterMap artifactName ++
      (fileItems "templates" managed.file).filterMap artifactName)
    simp only [List.mem_append, not_or, List.mem_filterMap, not_exists, not_and] at hfresh
    obtain ⟨⟨hstore, hexps⟩, htpls⟩ := hfresh
    obtain ⟨other, hcall, hall, hkept⟩ := onCanonical_importNote (hwf store hcanon) hstore
    have hfile : (managed.call single (importNote (nameOfLength length)) true).2.file =
        .document other.savedJson := by
      unfold call
      rw [reload_of_not_loads hformat hloads (by rw [hcanon]; rfl)]
      simp only [hcanon, hcall, if_true]
    have hpreserved := h (importNote (nameOfLength length)) true
    rw [hfile, targets_importNote] at hpreserved
    refine ⟨fun item hitem => ?_, fun item hitem => ?_⟩
    · obtain ⟨kept, hmem, hname, hdec⟩ := hpreserved.experiences item hitem
        fun name hname hnamed => hexps item hitem (by rw [hname, List.mem_singleton.mp hnamed])
      obtain ⟨e, hlisted, rfl⟩ := List.mem_map.mp hmem
      rw [decode_encode] at hdec
      refine ⟨e, ?_, hdec.symm⟩
      have hlisted : e ∈ other.all := hlisted
      rw [hall] at hlisted
      obtain hlisted | hnote := List.mem_append.mp hlisted
      · exact hlisted
      · rw [artifactName_of_experience (experience.decode_encode e),
          List.mem_singleton.mp hnote] at hname
        exact absurd hname.symm (hexps item hitem)
    · obtain ⟨kept, hmem, -, hdec⟩ := hpreserved.templates item hitem
        fun name hname hnamed => htpls item hitem (by rw [hname, List.mem_singleton.mp hnamed])
      obtain ⟨t, hlisted, rfl⟩ := List.mem_map.mp hmem
      rw [decode_encode] at hdec
      refine ⟨t, ?_, hdec.symm⟩
      rw [← hkept]
      exact hlisted

lemma wf_opened (path : String) (file : FileContent) :
    ({ service := .opened path file, file } : Managed).Wf := by
  intro store hstore
  simp only [Service.opened] at hstore
  split_ifs at hstore
  cases hopen : openFile path file with
  | error error =>
    rw [hopen] at hstore
    cases hstore
  | ok opened =>
    rw [hopen] at hstore
    cases hstore
    exact StoreOp.wf_of_openFile hopen

theorem Managed.Wf.next (h : managed.Wf) (single : SingleText)
    (event : ManageEvent) : (ManageEvent.next single managed event).Wf := by
  cases event with
  | call op saved => exact h.call single op saved
  | changed v => exact h
  | reopened => exact wf_opened _ _

theorem ManageEvent.wf_run (single : SingleText) (path : String) (file : FileContent)
    (events : List ManageEvent) : (ManageEvent.run single path file events).Wf :=
  Runs.run_induction (fun _ event h => h.next single event) (wf_opened path file) events

/-- The canonical backend serves the calls, and the file loads whenever its format is
canonical. -/
structure Managed.Loadable (managed : Managed) : Prop where
  wf : managed.Wf
  backend : managed.service.canonical.isSome = true
  loads : detectFormat managed.file = .canonical → Loads managed.file

lemma Managed.Loadable.guarded (h : managed.Loadable)
    (hformat : detectFormat managed.file = .canonical) : managed.Guarded := by
  obtain ⟨store, hstore⟩ := Option.isSome_iff_exists.mp h.backend
  exact ⟨store, hstore, .inl (h.loads hformat)⟩

lemma loadable_opened (path : String) (h : Loads file) :
    ({ service := .opened path file, file } : Managed).Loadable := by
  refine ⟨wf_opened path file, ?_, fun _ => h⟩
  have hformat := h.canonical
  obtain ⟨value, store, rfl, hload⟩ := h
  simp [Service.opened, hformat, openFile, hload, Except.toOption]

lemma Managed.Loadable.call (h : managed.Loadable) (single : SingleText)
    (op : ManageOp) (saved : Bool) : (managed.call single op saved).2.Loadable := by
  cases hreload : (managed.service.reload managed.file).canonical with
  | none =>
    obtain ⟨store, hstore⟩ := Option.isSome_iff_exists.mp h.backend
    simp only [Service.reload, hstore] at hreload
    split at hreload
    · cases hreload
    · cases hstore.symm.trans hreload
  | some store =>
    obtain ⟨other, hother, hconf, hfile⟩ :=
      call_canonical hreload (h.wf.reload hreload) single op saved
    refine ⟨h.wf.call single op saved, by rw [hother]; rfl, ?_⟩
    obtain hsame | hwritten := hfile
    · rw [hsame]
      exact h.loads
    · rw [hwritten]
      exact fun _ => loads_savedJson hconf.1

/-- Contents that come from outside load when their format is canonical, and a service is only
opened on a file that loads. -/
def ManageEvent.KeepsLoadable (managed : Managed) : ManageEvent → Prop
  | call _ _ => True
  | changed content => detectFormat content = .canonical → Loads content
  | reopened => Loads managed.file

theorem Managed.Loadable.next (h : managed.Loadable) (single : SingleText)
    {event : ManageEvent} (hevent : ManageEvent.KeepsLoadable managed event) :
    (ManageEvent.next single managed event).Loadable := by
  cases event with
  | call op saved => exact h.call single op saved
  | changed v => exact ⟨h.wf, h.backend, hevent⟩
  | reopened => exact loadable_opened _ hevent

/-- A canonical file of a later schema version, with one experience. -/
def newerFile : FileContent := .document (.object [
  ("schema_version", .number (.posInt 2)),
  ("experiences", .array [Codec.experience.encode (StoreOp.noteExperience "report")])])

end ExperienceCodex
