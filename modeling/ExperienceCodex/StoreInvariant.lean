import ExperienceCodex.StoreJson

/-!
# The store invariant

In a well-formed store both collections are indexed as a rebuild would index them, names are
distinct within each collection, and every artifact passes the structural validation.  Every
operation keeps the invariant, and an operation that fails leaves the store as it was.
-/

namespace ExperienceCodex

namespace ExperienceStore

open List Catalog

variable {s : ExperienceStore}

structure Wf (store : ExperienceStore) : Prop where
  experiences : store.experiences.Wf Experience.name Experience.activeTool
  templates : store.templates.Wf ExperienceTemplate.name ExperienceTemplate.activeTool
  valid : ∀ experience ∈ store.experiences.items, experience.schemaIssues = []
  validTemplates : ∀ template ∈ store.templates.items, template.schemaIssues = []

lemma catalog_empty_wf {α : Type} (key : α → String) (bucket : α → Option String) :
    (empty : Catalog α String String).Wf key bucket :=
  ⟨rfl, nodup_nil⟩

theorem wf_default : ({} : ExperienceStore).Wf :=
  ⟨catalog_empty_wf .., catalog_empty_wf .., nofun, nofun⟩

variable {other : ExperienceStore}

/-- The invariant does not speak about the metadata. -/
lemma Wf.of_collections_eq (h : s.Wf)
    (hexps : other.experiences = s.experiences)
    (htpls : other.templates = s.templates) : other.Wf := by
  refine ⟨?_, ?_, ?_, ?_⟩
  · rw [hexps]
    exact h.experiences
  · rw [htpls]
    exact h.templates
  · rw [hexps]
    exact h.valid
  · rw [htpls]
    exact h.validTemplates

/-- A rebuild establishes the invariant from distinct names and valid artifacts. -/
lemma wf_reindex
    (hnames : (s.experiences.items.map Experience.name).Nodup)
    (htpls : (s.templates.items.map ExperienceTemplate.name).Nodup)
    (hvalid : ∀ e ∈ s.experiences.items, e.schemaIssues = [])
    (hvalidTemplates : ∀ t ∈ s.templates.items, t.schemaIssues = []) :
    s.reindex.Wf where
  experiences := wf_ofItems _ _ hnames
  templates := wf_ofItems _ _ htpls
  valid := by
    rw [reindex, items_ofItems]
    exact hvalid
  validTemplates := by
    rw [reindex, items_ofItems]
    exact hvalidTemplates

section
variable {α : Type} {key : α → String} {bucket : α → Option String}
  {c : Catalog α String String}

variable {name : String}

lemma positioned_spec (h : c.Wf key bucket) {i : ℕ} {item : α}
    (hpos : positioned c name = some (i, item)) :
    c.items[i]? = some item ∧ key item = name := by
  obtain ⟨index, hindex, hitem⟩ := Option.bind_eq_some_iff.mp hpos
  obtain ⟨found, hfound, heq⟩ := Option.map_eq_some_iff.mp hitem
  cases heq
  obtain ⟨a, ha, hkey⟩ := h.position_spec hindex
  rw [hfound] at ha
  cases ha
  exact ⟨hfound, hkey⟩

/-- Replacing an item by one with the same key does not change the keys. -/
lemma map_set_key {items : List α} {i : ℕ} {item : α} (key : α → String) (other : α)
    (hitem : items[i]? = some item) (hkey : key other = key item) :
    (items.set i other).map key = items.map key := by
  apply ext_getElem?
  intro index
  rw [map_set, hkey, getElem?_set]
  split_ifs with heq hlt
  · rw [← heq, getElem?_map, hitem]
    rfl
  · rw [← heq]
    exact (getElem?_eq_none (not_lt.mp hlt)).symm
  · rfl

end

/-! ### What an operation can do

Each operation either fails and leaves the store as it was, or makes the change that its lemma
names. -/

section
variable (s : ExperienceStore)

lemma insert_cases (e : Experience) :
    (∃ error, s.insert e = (.error error, s)) ∨
      e.schemaIssues = [] ∧ s.experiences.byKey.contains e.name = false ∧
        s.insert e = (.ok (), { s with
          experiences :=
            s.experiences.push Experience.name Experience.activeTool e }) := by
  unfold insert
  dsimp only
  split_ifs with hissues hdup
  · exact .inl ⟨_, rfl⟩
  · exact .inl ⟨_, rfl⟩
  · exact .inr ⟨by simpa using hissues, eq_false_of_ne_true hdup, rfl⟩

lemma insertTemplate_cases (t : ExperienceTemplate) :
    (∃ error, s.insertTemplate t = (.error error, s)) ∨
      t.schemaIssues = [] ∧ s.templates.byKey.contains t.name = false ∧
        s.insertTemplate t = (.ok (), { s with
          templates := s.templates.push ExperienceTemplate.name
            ExperienceTemplate.activeTool t }) := by
  unfold insertTemplate
  dsimp only
  split_ifs with hissues hdup
  · exact .inl ⟨_, rfl⟩
  · exact .inl ⟨_, rfl⟩
  · exact .inr ⟨by simpa using hissues, eq_false_of_ne_true hdup, rfl⟩

variable (name : String)

lemma transitionStatus_cases (action : QualificationAction) :
    (∃ error, s.transitionStatus name action = (.error error, s)) ∨
      ∃ i experience next,
        positioned s.experiences name = some (i, experience) ∧
        experience.status.transition action = .ok next ∧
        s.transitionStatus name action = (.ok next, (s.setExperiences
          (s.experiences.items.set i { experience with status := next })).reindex) := by
  unfold transitionStatus
  split
  · exact .inl ⟨_, rfl⟩
  · next i experience hpos =>
    split
    · exact .inl ⟨_, rfl⟩
    · next next htrans => exact .inr ⟨i, experience, next, hpos, htrans, rfl⟩

lemma replaceExisting_cases (repl : Experience) :
    (∃ error, s.replaceExisting name repl = (.error error, s)) ∨
      ∃ i experience,
        positioned s.experiences name = some (i, experience) ∧
        repl.schemaIssues = [] ∧
        s.replaceExisting name repl = (.ok (), (s.setExperiences
          (s.experiences.items.set i
            { repl with name, status := experience.status })).reindex) := by
  unfold replaceExisting
  split
  · exact .inl ⟨_, rfl⟩
  · next i experience hpos =>
    dsimp only
    split_ifs with hissues
    · exact .inl ⟨_, rfl⟩
    · exact .inr ⟨i, experience, hpos, by simpa using hissues, rfl⟩

lemma transitionTemplateStatus_cases (action : QualificationAction) :
    (∃ error, s.transitionTemplateStatus name action = (.error error, s)) ∨
      ∃ i template next,
        positioned s.templates name = some (i, template) ∧
        template.status.transition action = .ok next ∧
        s.transitionTemplateStatus name action = (.ok next, (s.setTemplates
          (s.templates.items.set i { template with status := next })).reindex) := by
  unfold transitionTemplateStatus
  split
  · exact .inl ⟨_, rfl⟩
  · next i template hpos =>
    split
    · exact .inl ⟨_, rfl⟩
    · next next htrans => exact .inr ⟨i, template, next, hpos, htrans, rfl⟩

lemma removeTemplate_cases :
    (s.templates.byKey[name]? = none ∧
        s.removeTemplate name = (.error (.notFound name), s)) ∨
      ∃ i, s.templates.byKey[name]? = some i ∧
        s.removeTemplate name = (.ok (), ((s.clearMetadata name).setTemplates
          (s.templates.items.eraseIdx i)).reindex) := by
  unfold removeTemplate
  split
  · next hnone => exact .inl ⟨hnone, rfl⟩
  · next i hpos => exact .inr ⟨i, hpos, rfl⟩

lemma remove_cases :
    (s.experiences.byKey[name]? = none ∧
        s.remove name = (.error (.notFound name), s)) ∨
      ∃ i, s.experiences.byKey[name]? = some i ∧
        s.remove name = (.ok (), ((s.clearMetadata name).setExperiences
          (s.experiences.items.eraseIdx i)).reindex) := by
  unfold remove
  split
  · next hnone => exact .inl ⟨hnone, rfl⟩
  · next i hpos => exact .inr ⟨i, hpos, rfl⟩

end

section
variable (h : s.Wf)
include h

lemma Wf.insert (e : Experience) :
    (s.insert e).2.Wf := by
  obtain ⟨error, heq⟩ | ⟨hvalid, hdup, heq⟩ := insert_cases s e
  · rw [heq]
    exact h
  · rw [heq]
    refine ⟨h.experiences.push ((h.experiences.contains_eq_false_iff _).mp hdup), h.templates, ?_,
      h.validTemplates⟩
    exact forall_mem_append.mpr ⟨h.valid, forall_mem_singleton.mpr hvalid⟩

lemma Wf.insertTemplate (t : ExperienceTemplate) : (s.insertTemplate t).2.Wf := by
  obtain ⟨error, heq⟩ | ⟨hvalid, hdup, heq⟩ := insertTemplate_cases s t
  · rw [heq]
    exact h
  · rw [heq]
    refine ⟨h.experiences, h.templates.push ((h.templates.contains_eq_false_iff _).mp hdup),
      h.valid, ?_⟩
    exact forall_mem_append.mpr ⟨h.validTemplates, forall_mem_singleton.mpr hvalid⟩

lemma Wf.clearMetadata (name : String) : (s.clearMetadata name).Wf :=
  h.of_collections_eq rfl rfl

lemma Wf.setExperiences {items : List Experience}
    (hnodup : (items.map Experience.name).Nodup)
    (hvalid : ∀ e ∈ items, e.schemaIssues = []) :
    (s.setExperiences items).reindex.Wf :=
  wf_reindex hnodup h.templates.nodup hvalid h.validTemplates

lemma Wf.setTemplates {items : List ExperienceTemplate}
    (hnodup : (items.map ExperienceTemplate.name).Nodup)
    (hvalid : ∀ t ∈ items, t.schemaIssues = []) :
    (s.setTemplates items).reindex.Wf :=
  wf_reindex h.experiences.nodup hnodup h.valid hvalid

/-- Replace the experience at a position by a valid one of the same name, and rebuild. -/
lemma Wf.setExperience {i : ℕ} {experience other : Experience}
    (hitem : s.experiences.items[i]? = some experience)
    (hname : other.name = experience.name) (hvalid : other.schemaIssues = []) :
    (s.setExperiences (s.experiences.items.set i other)).reindex.Wf := by
  apply h.setExperiences
  · rw [map_set_key _ _ hitem hname]
    exact h.experiences.nodup
  · intro e he
    rcases mem_or_eq_of_mem_set he with hold | rfl
    · exact h.valid e hold
    · exact hvalid

lemma Wf.transitionStatus (name : String)
    (action : QualificationAction) : (s.transitionStatus name action).2.Wf := by
  obtain ⟨error, heq⟩ | ⟨i, experience, next, hpos, -, heq⟩ :=
    transitionStatus_cases s name action
  · rw [heq]
    exact h
  · obtain ⟨hitem, -⟩ := positioned_spec h.experiences hpos
    rw [heq]
    exact h.setExperience hitem rfl (h.valid experience (mem_of_getElem? hitem))

lemma Wf.replaceExisting (name : String)
    (repl : Experience) : (s.replaceExisting name repl).2.Wf := by
  obtain ⟨error, heq⟩ | ⟨i, experience, hpos, hnew, heq⟩ :=
    replaceExisting_cases s name repl
  · rw [heq]
    exact h
  · obtain ⟨hitem, hname⟩ := positioned_spec h.experiences hpos
    rw [heq]
    refine h.setExperience hitem hname.symm ?_
    -- The stored name is valid because the experience that bears it is.
    have hold := h.valid experience (mem_of_getElem? hitem)
    simp only [Experience.schemaIssues, append_eq_nil_iff] at hold hnew ⊢
    rw [hname] at hold
    exact ⟨⟨⟨hold.1.1.1, hnew.1.1.2⟩, hnew.1.2⟩, hnew.2⟩

lemma Wf.transitionTemplateStatus (name : String)
    (action : QualificationAction) : (s.transitionTemplateStatus name action).2.Wf := by
  obtain ⟨error, heq⟩ | ⟨i, template, next, hpos, -, heq⟩ :=
    transitionTemplateStatus_cases s name action
  · rw [heq]
    exact h
  · obtain ⟨hitem, -⟩ := positioned_spec h.templates hpos
    rw [heq]
    apply h.setTemplates
    · rw [map_set_key ExperienceTemplate.name { template with status := next } hitem rfl]
      exact h.templates.nodup
    · intro t ht
      rcases mem_or_eq_of_mem_set ht with hold | rfl
      · exact h.validTemplates t hold
      · exact h.validTemplates template (mem_of_getElem? hitem)

lemma Wf.removeTemplate (name : String) :
    (s.removeTemplate name).2.Wf := by
  obtain ⟨-, heq⟩ | ⟨i, -, heq⟩ := removeTemplate_cases s name
  · rw [heq]
    exact h
  · rw [heq]
    exact (h.clearMetadata name).setTemplates
      (h.templates.nodup.sublist ((eraseIdx_sublist _ _).map _))
      fun t ht => h.validTemplates t (mem_of_mem_eraseIdx ht)

lemma Wf.remove (name : String) :
    (s.remove name).2.Wf := by
  obtain ⟨-, heq⟩ | ⟨i, -, heq⟩ := remove_cases s name
  · rw [heq]
    exact h
  · rw [heq]
    exact (h.clearMetadata name).setExperiences
      (h.experiences.nodup.sublist ((eraseIdx_sublist _ _).map _))
      fun e he => h.valid e (mem_of_mem_eraseIdx he)

end

section
variable {s : ExperienceStore}

lemma all_setExperiences_reindex (s : ExperienceStore) (items : List Experience) :
    (s.setExperiences items).reindex.all = items := by
  rw [all, reindex, items_ofItems, setExperiences_items]

lemma mem_insert {experience other : Experience}
    (h : other ∈ (s.insert experience).2.all) : other ∈ s.all ∨ other = experience := by
  obtain ⟨error, heq⟩ | ⟨-, -, heq⟩ := insert_cases s experience
  · rw [heq] at h
    exact .inl h
  · rw [heq] at h
    exact (mem_append.mp h).imp id mem_singleton.mp

lemma mem_remove {other : Experience}
    (h : other ∈ (s.remove name).2.all) : other ∈ s.all := by
  obtain ⟨-, heq⟩ | ⟨i, -, heq⟩ := remove_cases s name
  · rw [heq] at h
    exact h
  · rw [heq, all_setExperiences_reindex] at h
    exact mem_of_mem_eraseIdx h

lemma mem_transitionStatus (hwf : s.Wf) {action : QualificationAction}
    {other : Experience} (h : other ∈ (s.transitionStatus name action).2.all) :
    other ∈ s.all ∨ ∃ experience ∈ s.all, experience.name = name ∧
      ∃ next, experience.status.transition action = .ok next ∧
        other = { experience with status := next } := by
  obtain ⟨error, heq⟩ | ⟨i, experience, next, hpos, htrans, heq⟩ :=
    transitionStatus_cases s name action
  · rw [heq] at h
    exact .inl h
  · obtain ⟨hitem, hname⟩ := positioned_spec hwf.experiences hpos
    rw [heq, all_setExperiences_reindex] at h
    rcases mem_or_eq_of_mem_set h with hold | hnew
    · exact .inl hold
    · exact .inr ⟨experience, mem_of_getElem? hitem, hname, next, htrans, hnew⟩

lemma mem_replaceExisting (hwf : s.Wf) {repl other : Experience}
    (h : other ∈ (s.replaceExisting name repl).2.all) :
    other ∈ s.all ∨ ∃ experience ∈ s.all, experience.name = name ∧
      other = { repl with name, status := experience.status } := by
  obtain ⟨error, heq⟩ | ⟨i, experience, hpos, -, heq⟩ :=
    replaceExisting_cases s name repl
  · rw [heq] at h
    exact .inl h
  · obtain ⟨hitem, hname⟩ := positioned_spec hwf.experiences hpos
    rw [heq, all_setExperiences_reindex] at h
    rcases mem_or_eq_of_mem_set h with hold | hnew
    · exact .inl hold
    · exact .inr ⟨experience, mem_of_getElem? hitem, hname, hnew⟩

/-- The stored experience of a name is unique. -/
lemma Wf.eq_of_get (hwf : s.Wf) {experience other : Experience}
    (hget : s.get name = some experience) (hmem : other ∈ s.all)
    (hname : other.name = name) : other = experience := by
  have hother : s.get name = some other :=
    (hwf.experiences.lookup_eq_some_iff name other).mpr ⟨hmem, hname⟩
  rw [hget] at hother
  exact (Option.some.inj hother).symm

end

lemma fresh_of_nodup {α : Type} {key : α → String} {items rest : List α} {item : α}
    (h : ((items ++ [item] ++ rest).map key).Nodup) : key item ∉ items.map key := by
  rw [map_append, map_append, append_assoc, nodup_append] at h
  exact fun hmem => h.2.2 _ hmem (key item) (by simp) rfl

/-- Inserting a list gets through if the artifacts are valid and no name comes twice. -/
lemma insertAll_eq_ok_iff
    (h : s.experiences.Wf Experience.name Experience.activeTool) (items : List Experience) :
    s.insertAll items = .ok other ↔ (∀ e ∈ items, e.schemaIssues = []) ∧
      ((s.experiences.items ++ items).map Experience.name).Nodup ∧
        other = { s with
          experiences :=
            .ofItems Experience.name Experience.activeTool (s.experiences.items ++ items) } := by
  induction items generalizing s with
  | nil =>
    rw [append_nil, ← h.indexed, insertAll, Except.ok.injEq]
    exact ⟨fun heq => ⟨nofun, h.nodup, heq.symm⟩, fun hall => hall.2.2.symm⟩
  | cons e rest ih =>
    rw [insertAll, append_cons, forall_mem_cons]
    obtain ⟨error, heq⟩ | ⟨hvalid, hcont, heq⟩ := insert_cases s e
    · rw [heq]
      refine ⟨nofun, ?_⟩
      rintro ⟨⟨hvalid, -⟩, hnodup, -⟩
      simp [insert, hvalid, (h.contains_eq_false_iff _).mpr (fresh_of_nodup hnodup)] at heq
    · rw [heq]
      simp only [hvalid, true_and]
      exact ih (h.push ((h.contains_eq_false_iff _).mp hcont))

lemma insertAllTemplates_eq_ok_iff
    (h : s.templates.Wf ExperienceTemplate.name ExperienceTemplate.activeTool)
    (items : List ExperienceTemplate) :
    s.insertAllTemplates items = .ok other ↔ (∀ t ∈ items, t.schemaIssues = []) ∧
      ((s.templates.items ++ items).map ExperienceTemplate.name).Nodup ∧
        other = { s with
          templates :=
            .ofItems ExperienceTemplate.name ExperienceTemplate.activeTool
              (s.templates.items ++ items) } := by
  induction items generalizing s with
  | nil =>
    rw [append_nil, ← h.indexed, insertAllTemplates, Except.ok.injEq]
    exact ⟨fun heq => ⟨nofun, h.nodup, heq.symm⟩, fun hall => hall.2.2.symm⟩
  | cons t rest ih =>
    rw [insertAllTemplates, append_cons, forall_mem_cons]
    obtain ⟨error, heq⟩ | ⟨hvalid, hcont, heq⟩ := insertTemplate_cases s t
    · rw [heq]
      refine ⟨nofun, ?_⟩
      rintro ⟨⟨hvalid, -⟩, hnodup, -⟩
      simp [insertTemplate, hvalid, (h.contains_eq_false_iff _).mpr (fresh_of_nodup hnodup)] at heq
    · rw [heq]
      simp only [hvalid, true_and]
      exact ih (h.push ((h.contains_eq_false_iff _).mp hcont))

/-- The store of an envelope before its artifacts are inserted. -/
def ofMetadata (file : StoreFile) : ExperienceStore :=
  { pinned := file.pinned
    scopes := file.scopes
    displayNames := file.displayNames
    userUsage := file.userUsage
    userConfidence := file.userConfidence
    references := file.references
    scopePolicies := file.scopePolicies
    candidateOrigins := file.candidateOrigins }

/-- What a load asks of an envelope. -/
structure Loadable (file : StoreFile) : Prop where
  version : file.schemaVersion = currentSchemaVersion
  valid : ∀ experience ∈ file.experiences, experience.schemaIssues = []
  names : (file.experiences.map Experience.name).Nodup
  validTemplates : ∀ template ∈ file.templates, template.schemaIssues = []
  templateNames : (file.templates.map ExperienceTemplate.name).Nodup

/-- A load gives the artifacts of the envelope, with their indexes, and its metadata. -/
theorem fromFile_eq_ok_iff (file : StoreFile) (s : ExperienceStore) :
    fromFile file = .ok s ↔ Loadable file ∧
      s = { ofMetadata file with
        experiences := .ofItems Experience.name Experience.activeTool file.experiences
        templates :=
          .ofItems ExperienceTemplate.name ExperienceTemplate.activeTool file.templates } := by
  by_cases hversion : file.schemaVersion = currentSchemaVersion
  · simp only [fromFile, hversion, ne_eq, not_true_eq_false, if_false]
    constructor
    · intro hok
      obtain ⟨middle, hmid, hok⟩ := bind_eq_ok_iff.mp hok
      obtain ⟨hvalid, hnames, rfl⟩ := (insertAll_eq_ok_iff (catalog_empty_wf ..) _).mp hmid
      obtain ⟨hvalid', hnames', rfl⟩ :=
        (insertAllTemplates_eq_ok_iff (catalog_empty_wf ..) _).mp hok
      exact ⟨⟨hversion, hvalid, hnames, hvalid', hnames'⟩, rfl⟩
    · rintro ⟨h, rfl⟩
      exact bind_eq_ok_iff.mpr
        ⟨_, (insertAll_eq_ok_iff (catalog_empty_wf ..) _).mpr ⟨h.valid, h.names, rfl⟩,
          (insertAllTemplates_eq_ok_iff (catalog_empty_wf ..) _).mpr
            ⟨h.validTemplates, h.templateNames, rfl⟩⟩
  · simp only [fromFile, hversion, ne_eq, not_false_eq_true, if_true]
    refine ⟨fun h => ?_, fun h => absurd h.1.version hversion⟩
    cases h

/-- A loaded store has the artifacts of the envelope, in their order, and its metadata. -/
theorem fromFile_items {file : StoreFile}
    (hok : fromFile file = .ok s) :
    s.experiences.items = file.experiences ∧ s.templates.items = file.templates ∧
      s = { ofMetadata file with
        experiences := s.experiences, templates := s.templates } := by
  obtain ⟨-, rfl⟩ := (fromFile_eq_ok_iff file s).mp hok
  exact ⟨items_ofItems .., items_ofItems .., rfl⟩

theorem wf_of_fromJson {doc : Json}
    (hok : fromJson doc = .ok s) : s.Wf := by
  unfold fromJson at hok
  split at hok
  · cases hok
  · obtain ⟨h, rfl⟩ := (fromFile_eq_ok_iff _ s).mp hok
    refine ⟨wf_ofItems _ _ h.names, wf_ofItems _ _ h.templateNames, ?_, ?_⟩
    · rw [items_ofItems]
      exact h.valid
    · rw [items_ofItems]
      exact h.validTemplates

/-- Loading what was saved gives the store back, without its path. -/
theorem fromFile_toFile (h : s.Wf) :
    fromFile s.toFile = .ok { s with path := none } := by
  refine (fromFile_eq_ok_iff ..).mpr ⟨⟨rfl, h.valid, h.experiences.nodup, h.validTemplates,
    h.templates.nodup⟩, ?_⟩
  rw [toFile, ← h.experiences.indexed, ← h.templates.indexed]
  rfl

end ExperienceStore

end ExperienceCodex
