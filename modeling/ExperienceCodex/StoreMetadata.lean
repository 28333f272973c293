import ExperienceCodex.StoreRuns

/-!
# Metadata of the artifacts that stay

Pins, scopes, usage decisions, display names, confidences and provenance are addressed by bare
name, while experiences and templates are two collections with a name space each.  Removing an
artifact drops the metadata of its name.  This leaves the metadata of every artifact that stays
alone exactly when no artifact of the other kind has that name and some metadata.
-/

namespace ExperienceCodex

open ExperienceStore

/-- Everything that is recorded about a name. -/
structure ArtifactMetadata where
  pinned : Bool := false
  scope : Option String := none
  usage : Option String := none
  displayName : Option String := none
  confidence : Option FiniteF64 := none
  origin : Option CandidateOrigin := none
deriving DecidableEq

namespace ExperienceStore

variable {store : ExperienceStore}

def metadataOf (store : ExperienceStore) (name : String) : ArtifactMetadata where
  pinned := store.isPinned name
  scope := store.scopes[name]?
  usage := store.userUsage[name]?
  displayName := store.displayNames[name]?
  confidence := store.userConfidence[name]?
  origin := store.candidateOrigins[name]?

lemma metadataOf_clearMetadata_self (store : ExperienceStore) (name : String) :
    (store.clearMetadata name).metadataOf name = {} := by
  simp [metadataOf, clearMetadata, isPinned]

lemma metadataOf_clearMetadata_of_ne (store : ExperienceStore) {name other : String}
    (h : other ≠ name) :
    (store.clearMetadata name).metadataOf other = store.metadataOf other := by
  have hpinned : (store.pinned.filter fun pinned => pinned ≠ name).any (fun p => p == other) =
      store.pinned.any fun p => p == other := by
    rw [Bool.eq_iff_iff, List.any_eq_true, List.any_eq_true]
    constructor
    · rintro ⟨p, hp, heq⟩
      exact ⟨p, (List.mem_filter.mp hp).1, heq⟩
    · rintro ⟨p, hp, heq⟩
      refine ⟨p, List.mem_filter.mpr ⟨hp, ?_⟩, heq⟩
      rw [eq_of_beq heq]
      simpa using h
  simp only [metadataOf, clearMetadata, isPinned, hpinned, Std.ExtTreeMap.getElem?_erase,
    Std.compare_eq_iff_eq, h.symm, if_false]

/-- Removing the template or the experience of a name leaves the metadata of every artifact of
the other kind that is still in the store unchanged. -/
def KeepsOthers (store : ExperienceStore) (name : String) : Prop :=
  (∀ experience ∈ (store.removeTemplate name).2.all,
      (store.removeTemplate name).2.metadataOf experience.name =
        store.metadataOf experience.name) ∧
    ∀ template ∈ (store.remove name).2.templates.items,
      (store.remove name).2.metadataOf template.name = store.metadataOf template.name

/-- A name of both an experience and a template, about which something is recorded. -/
def SharedName (store : ExperienceStore) (name : String) : Prop :=
  name ∈ store.all.map Experience.name ∧
    name ∈ store.templates.items.map ExperienceTemplate.name ∧ store.metadataOf name ≠ {}

/-- After the metadata of `name` is dropped, an artifact's metadata is unchanged unless it has
that name and some metadata. -/
lemma metadataOf_clearMetadata_eq_iff (store : ExperienceStore) (name other : String) :
    (store.clearMetadata name).metadataOf other = store.metadataOf other ↔
      ¬ (other = name ∧ store.metadataOf name ≠ {}) := by
  by_cases h : other = name
  · subst h
    rw [metadataOf_clearMetadata_self]
    simp [eq_comm]
  · simp [metadataOf_clearMetadata_of_ne store h, h]

/-- A store in which the metadata of a name is dropped if an artifact was removed. -/
def Dropped (store : ExperienceStore) (name : String) (removed : Prop) (changed : ExperienceStore) :
    Prop :=
  ¬removed ∧ changed.metadataOf = store.metadataOf ∨
    removed ∧ changed.metadataOf = (store.clearMetadata name).metadataOf

lemma Dropped.keeps_iff {α : Type} {name : String} {removed : Prop} {changed : ExperienceStore}
    (h : Dropped store name removed changed) (items : List α) (key : α → String) :
    (∀ item ∈ items, changed.metadataOf (key item) = store.metadataOf (key item)) ↔
      ¬(name ∈ items.map key ∧ removed ∧ store.metadataOf name ≠ {}) := by
  obtain ⟨hkept, heq⟩ | ⟨hrem, heq⟩ := h
  · simp [hkept, heq]
  · simp only [heq, metadataOf_clearMetadata_eq_iff, hrem, true_and, List.mem_map]
    constructor
    · rintro h ⟨⟨item, hmem, hkey⟩, hsome⟩
      exact h item hmem ⟨hkey, hsome⟩
    · rintro h item hmem ⟨hkey, hsome⟩
      exact h ⟨⟨item, hmem, hkey⟩, hsome⟩

theorem keepsOthers_iff (h : store.Wf) (name : String) :
    store.KeepsOthers name ↔ ¬ store.SharedName name := by
  have hexperiences : (store.removeTemplate name).2.all = store.all ∧
      Dropped store name (name ∈ store.templates.items.map ExperienceTemplate.name)
        (store.removeTemplate name).2 := by
    unfold Dropped
    rw [← h.templates.isSome_byKey_iff]
    obtain ⟨hpos, heq⟩ | ⟨i, hpos, heq⟩ := removeTemplate_cases store name
    · rw [heq, hpos]
      exact ⟨rfl, .inl ⟨Bool.false_ne_true, rfl⟩⟩
    · rw [heq, hpos]
      exact ⟨Catalog.items_ofItems .., .inr ⟨rfl, rfl⟩⟩
  have htemplates : (store.remove name).2.templates.items = store.templates.items ∧
      Dropped store name (name ∈ store.experiences.items.map Experience.name)
        (store.remove name).2 := by
    unfold Dropped
    rw [← h.experiences.isSome_byKey_iff]
    obtain ⟨hpos, heq⟩ | ⟨i, hpos, heq⟩ := remove_cases store name
    · rw [heq, hpos]
      exact ⟨rfl, .inl ⟨Bool.false_ne_true, rfl⟩⟩
    · rw [heq, hpos]
      exact ⟨Catalog.items_ofItems .., .inr ⟨rfl, rfl⟩⟩
  rw [KeepsOthers, hexperiences.1, hexperiences.2.keeps_iff store.all Experience.name, htemplates.1,
    htemplates.2.keeps_iff store.templates.items ExperienceTemplate.name]
  constructor
  · exact And.left
  · exact fun hnot => ⟨hnot, fun ⟨hexp, htpl, hmeta⟩ => hnot ⟨htpl, hexp, hmeta⟩⟩

def experienceNames (store : ExperienceStore) : List String := store.all.map Experience.name

def templateNames (store : ExperienceStore) : List String :=
  store.templates.items.map ExperienceTemplate.name

/-- No name addresses an experience and a template. -/
def NamesApart (store : ExperienceStore) : Prop :=
  ∀ name ∈ store.experienceNames, name ∉ store.templateNames

lemma NamesApart.mono {other : ExperienceStore} (h : store.NamesApart)
    (hexps : other.experienceNames ⊆ store.experienceNames)
    (htpls : other.templateNames ⊆ store.templateNames) : other.NamesApart :=
  fun name hname htpl => h name (hexps hname) (htpls htpl)

lemma experienceNames_reindex (store : ExperienceStore) :
    store.reindex.experienceNames = store.experienceNames := by
  rw [experienceNames, all, reindex, Catalog.items_ofItems]
  rfl

lemma templateNames_reindex (store : ExperienceStore) :
    store.reindex.templateNames = store.templateNames := by
  rw [templateNames, reindex, Catalog.items_ofItems]
  rfl

lemma NamesApart.setExperience (h : store.NamesApart) {i : ℕ}
    {e other : Experience}
    (hitem : store.experiences.items[i]? = some e)
    (hname : other.name = e.name) :
    (store.setExperiences (store.experiences.items.set i other)).reindex.NamesApart := by
  refine h.mono ?_ ?_
  · rw [experienceNames_reindex, experienceNames, all, setExperiences_items,
      map_set_key _ _ hitem hname]
    exact List.Subset.refl _
  · rw [templateNames_reindex]
    exact List.Subset.refl _

end ExperienceStore

namespace StoreOp

/-- The step adds no name to one collection that the other one has. -/
def KeepsNamesApart (store : ExperienceStore) : StoreOp → Prop
  | insert experience => experience.name ∉ store.templateNames
  | insertTemplate template => template.name ∉ store.experienceNames
  | fromJson document | openFile _ (.document document) =>
    ∀ file, Codec.storeFile.decode document = .ok file →
      ∀ experience ∈ file.experiences, ∀ template ∈ file.templates,
        experience.name ≠ template.name
  | _ => True

lemma namesApart_of_fromJson {doc : Json}
    (happart : ∀ file, Codec.storeFile.decode doc = .ok file →
      ∀ e ∈ file.experiences, ∀ t ∈ file.templates,
        e.name ≠ t.name)
    (hok : ExperienceStore.fromJson doc = .ok store) : store.NamesApart := by
  unfold ExperienceStore.fromJson at hok
  split at hok
  · cases hok
  · rename_i file hfile
    obtain ⟨hexps, htpls, -⟩ := fromFile_items hok
    intro name hname htpl
    rw [experienceNames, all, hexps, List.mem_map] at hname
    rw [templateNames, htpls, List.mem_map] at htpl
    obtain ⟨e, hexp, rfl⟩ := hname
    obtain ⟨t, hmem, heq⟩ := htpl
    exact happart file hfile e hexp t hmem heq.symm

lemma MetadataOutcome.namesApart
    {o : Except StoreError Unit × ExperienceStore}
    (hout : MetadataOutcome store o) (h : store.NamesApart) : o.2.NamesApart := by
  obtain ⟨error, rfl⟩ | ⟨other, rfl, hsame⟩ := hout
  · exact h
  · simp only [NamesApart, experienceNames, templateNames, all, hsame.1, hsame.2] at h ⊢
    exact h

/-- A step that keeps the name spaces apart leaves them apart. -/
lemma namesApart_next (hwf : store.Wf) (h : store.NamesApart)
    (op : StoreOp) (hop : KeepsNamesApart store op) : (next store op).NamesApart := by
  have hmeta := metadata_outcome store op
  cases op with
  | fromJson document =>
    exact loaded_of (P := NamesApart) h fun other hok => namesApart_of_fromJson hop hok
  | openFile path v =>
    refine loaded_of (P := NamesApart) h fun other hok => ?_
    cases v with
    | missing =>
      cases hok
      exact nofun
    | unreadable error => cases hok
    | notJson error => cases hok
    | document value =>
      obtain ⟨loadedStore, hload, heq⟩ := bind_eq_ok_iff.mp hok
      cases heq
      exact (namesApart_of_fromJson hop hload : loadedStore.NamesApart)
  | insert experience =>
    rw [next, perform]
    obtain ⟨error, heq⟩ | ⟨-, -, heq⟩ := insert_cases store experience
    · rw [heq]
      exact h
    · rw [heq]
      intro name hname htpl
      rw [experienceNames, all, Catalog.push, List.map_append, List.mem_append] at hname
      rcases hname with hold | hnew
      · exact h name hold htpl
      · rw [List.map_singleton, List.mem_singleton] at hnew
        exact hop (hnew ▸ htpl)
  | insertTemplate template =>
    rw [next, perform]
    obtain ⟨error, heq⟩ | ⟨-, -, heq⟩ := insertTemplate_cases store template
    · rw [heq]
      exact h
    · rw [heq]
      intro name hname htpl
      rw [templateNames, Catalog.push, List.map_append, List.mem_append] at htpl
      rcases htpl with hold | hnew
      · exact h name hname hold
      · rw [List.map_singleton, List.mem_singleton] at hnew
        exact hop (hnew ▸ hname)
  | transitionStatus name action =>
    rw [next, perform, discard]
    obtain ⟨error, heq⟩ | ⟨i, experience, status, hpos, -, heq⟩ :=
      transitionStatus_cases store name action
    · rw [heq]
      exact h
    · rw [heq]
      exact h.setExperience (positioned_spec hwf.experiences hpos).1 rfl
  | transitionTemplateStatus name action =>
    rw [next, perform, discard]
    obtain ⟨error, heq⟩ | ⟨i, template, status, hpos, -, heq⟩ :=
      transitionTemplateStatus_cases store name action
    · rw [heq]
      exact h
    · rw [heq]
      refine h.mono ?_ ?_
      · rw [experienceNames_reindex]
        exact List.Subset.refl _
      · rw [templateNames_reindex, templateNames, setTemplates_items,
          map_set_key ExperienceTemplate.name { template with status }
            (positioned_spec hwf.templates hpos).1 rfl]
        exact List.Subset.refl _
  | replaceExisting name repl =>
    rw [next, perform]
    obtain ⟨error, heq⟩ | ⟨i, experience, hpos, -, heq⟩ :=
      replaceExisting_cases store name repl
    · rw [heq]
      exact h
    · obtain ⟨hitem, hname⟩ := positioned_spec hwf.experiences hpos
      rw [heq]
      exact h.setExperience hitem hname.symm
  | remove name =>
    rw [next, perform]
    obtain ⟨-, heq⟩ | ⟨i, -, heq⟩ := remove_cases store name
    · rw [heq]
      exact h
    · rw [heq]
      refine h.mono ?_ ?_
      · rw [experienceNames_reindex]
        exact ((List.eraseIdx_sublist _ _).map _).subset
      · rw [templateNames_reindex]
        exact List.Subset.refl _
  | removeTemplate name =>
    rw [next, perform]
    obtain ⟨-, heq⟩ | ⟨i, -, heq⟩ := removeTemplate_cases store name
    · rw [heq]
      exact h
    · rw [heq]
      refine h.mono ?_ ?_
      · rw [experienceNames_reindex]
        exact List.Subset.refl _
      · rw [templateNames_reindex]
        exact ((List.eraseIdx_sublist _ _).map _).subset
  | _ => exact MetadataOutcome.namesApart hmeta h

/-- After every run, removing an artifact leaves the metadata of the others alone exactly when
its name is not shared; and no name is shared in a run whose steps keep the name spaces apart. -/
theorem run_keepsOthers (ops : List StoreOp) :
    (∀ name, (run ops).KeepsOthers name ↔ ¬ (run ops).SharedName name) ∧
      (Runs.Along next KeepsNamesApart {} ops → ∀ k name, (run (ops.take k)).KeepsOthers name) := by
  refine ⟨keepsOthers_iff (wf_run ops), ?_⟩
  intro halong k name
  have hapart : (run (ops.take k)).Wf ∧ (run (ops.take k)).NamesApart :=
    halong.invariant (Q := fun store => store.Wf ∧ store.NamesApart)
      (fun store op h hop => ⟨wf_next h.1 op, namesApart_next h.1 h.2 op hop⟩)
      ⟨wf_default, nofun⟩ k
  refine (keepsOthers_iff hapart.1 name).mpr ?_
  rintro ⟨hexperience, htemplate, -⟩
  exact hapart.2 name hexperience htemplate

/-- A small experience. -/
def noteExperience (name : String) : Experience where
  name := name
  trigger := { tool := "task", commandPattern := none }
  preconditions := []
  workflow := [{ action := "write_file", args := .object [("path", .string "note.txt")] }]
  postconditions := [{ key := "file:note.txt.exists", expected := .bool true }]
  verification := []
  failurePolicy := .stopAndReport
  undo := .unsupported
  status := .active

/-- A small template. -/
def noteTemplate (name : String) : ExperienceTemplate where
  name := name
  trigger := { tool := "task", commandPattern := none }
  parameters := []
  workflow := [{ action := "write_file", args := .object [("path", .string "note.txt")] }]
  preconditions := []
  postconditions := [{ key := "file:note.txt.exists", expected := .bool true }]
  verification := []
  failurePolicy := .stopAndReport
  undo := .unsupported
  status := .active

/-- An experience and a template may have one name, and removing the template then drops the
pin of the experience. -/
theorem removeTemplate_drops_pin :
    let ops := [insert (noteExperience "note"), insertTemplate (noteTemplate "note"), pin "note"]
    (∃ experience ∈ ((run ops).removeTemplate "note").2.all, experience.name = "note") ∧
      (run ops).isPinned "note" = true ∧
      ((run ops).removeTemplate "note").2.isPinned "note" = false ∧
      ¬ (run ops).KeepsOthers "note" := by
  intro ops
  have hpinned : (run ops).isPinned "note" = true := by decide +kernel
  have hdropped : ((run ops).removeTemplate "note").2.isPinned "note" = false := by
    decide +kernel
  have hkept : ((run ops).removeTemplate "note").2.all = [noteExperience "note"] := rfl
  have hmem : noteExperience "note" ∈ ((run ops).removeTemplate "note").2.all := by
    rw [hkept]
    exact List.mem_singleton_self _
  refine ⟨⟨noteExperience "note", hmem, rfl⟩, hpinned, hdropped, fun hkeeps => ?_⟩
  have hsame := congrArg ArtifactMetadata.pinned (hkeeps.1 _ hmem)
  exact absurd (hdropped.symm.trans (hsame.trans hpinned)) Bool.false_ne_true

/-- A run that keeps the name spaces apart. -/
theorem run_keepsOthers_note :
    let ops := [insert (noteExperience "note"), insertTemplate (noteTemplate "form"), pin "note"]
    Runs.Along next KeepsNamesApart {} ops ∧ ∀ k name, (run (ops.take k)).KeepsOthers name := by
  intro ops
  have halong : Runs.Along next KeepsNamesApart {} ops := by
    refine ⟨?_, ?_, trivial, trivial⟩
    · exact List.not_mem_nil
    · have hnames : (next {} (insert (noteExperience "note"))).experienceNames = ["note"] := by
        decide +kernel
      rw [KeepsNamesApart, hnames]
      decide
  exact ⟨halong, (run_keepsOthers ops).2 halong⟩

end StoreOp

end ExperienceCodex
