import ExperienceCodex.Management

/-!
# Calls leave the other artifacts alone

Each operation of the store keeps every artifact whose name it is not given, and so does each call
on the canonical backend.  An imported artifact is named by its document.
-/

namespace ExperienceCodex

open Text ExperienceStore Codec

namespace ExperienceStore

/-- Every artifact with another name is still there. -/
structure KeepsBut (names : List String) (store other : ExperienceStore) : Prop where
  experiences : ∀ experience ∈ store.all, experience.name ∉ names → experience ∈ other.all
  templates : ∀ template ∈ store.templates.items, template.name ∉ names →
    template ∈ other.templates.items

lemma KeepsBut.refl (names : List String) (store : ExperienceStore) :
    KeepsBut names store store :=
  ⟨fun _ hmem _ => hmem, fun _ hmem _ => hmem⟩

lemma KeepsBut.trans {names : List String} {store middle other : ExperienceStore}
    (hfst : KeepsBut names store middle) (hsnd : KeepsBut names middle other) :
    KeepsBut names store other :=
  ⟨fun e hmem hname =>
      hsnd.experiences e (hfst.experiences e hmem hname) hname,
    fun t hmem hname =>
      hsnd.templates t (hfst.templates t hmem hname) hname⟩

section
variable {α : Type} {key : α → String} {name : String} {items : List α} {position : ℕ}
  {item other : α}

/-- An item of another key stands at another position. -/
lemma exists_ne_position (hitem : items[position]? = some item) (hkey : key item = name)
    (hmem : other ∈ items) (hother : key other ∉ [name]) :
    ∃ i, i ≠ position ∧ items[i]? = some other := by
  obtain ⟨i, hindex⟩ := List.mem_iff_getElem?.mp hmem
  refine ⟨i, ?_, hindex⟩
  rintro rfl
  rw [hitem] at hindex
  cases hindex
  exact hother (List.mem_singleton.mpr hkey)

lemma mem_set_of_key_ne (new : α) (hitem : items[position]? = some item) (hkey : key item = name)
    (hmem : other ∈ items) (hother : key other ∉ [name]) : other ∈ items.set position new := by
  obtain ⟨i, hdiff, hindex⟩ := exists_ne_position hitem hkey hmem hother
  exact List.mem_of_getElem? ((List.getElem?_set_ne hdiff.symm).trans hindex)

end

section
variable {store : ExperienceStore} {names : List String}

lemma keepsBut_setExperiences {other : ExperienceStore} {items : List Experience}
    (hsame : other.templates = store.templates)
    (h : ∀ e ∈ store.all, e.name ∉ names → e ∈ items) :
    KeepsBut names store (other.setExperiences items).reindex := by
  refine ⟨fun e hmem hname => ?_, fun t hmem _ => ?_⟩
  · rw [all_setExperiences_reindex]
    exact h e hmem hname
  · rw [reindex, Catalog.items_ofItems]
    exact hsame ▸ hmem

lemma keepsBut_setTemplates {other : ExperienceStore} {items : List ExperienceTemplate}
    (hsame : other.experiences = store.experiences)
    (h : ∀ t ∈ store.templates.items, t.name ∉ names → t ∈ items) :
    KeepsBut names store (other.setTemplates items).reindex := by
  refine ⟨fun e hmem _ => ?_, fun t hmem hname => ?_⟩
  · rw [all, reindex, Catalog.items_ofItems]
    exact hsame ▸ hmem
  · rw [reindex, Catalog.items_ofItems, setTemplates_items]
    exact h t hmem hname

variable (hwf : store.Wf) (name : String)
include hwf

lemma keepsBut_transitionStatus (action : QualificationAction) :
    KeepsBut [name] store (store.transitionStatus name action).2 := by
  obtain ⟨error, heq⟩ | ⟨position, experience, next, hpos, -, heq⟩ :=
    transitionStatus_cases store name action
  · rw [heq]
    exact .refl _ store
  · obtain ⟨hitem, hname⟩ := positioned_spec hwf.experiences hpos
    rw [heq]
    exact keepsBut_setExperiences rfl fun _ => mem_set_of_key_ne _ hitem hname

lemma keepsBut_transitionTemplateStatus (action : QualificationAction) :
    KeepsBut [name] store (store.transitionTemplateStatus name action).2 := by
  obtain ⟨error, heq⟩ | ⟨position, template, next, hpos, -, heq⟩ :=
    transitionTemplateStatus_cases store name action
  · rw [heq]
    exact .refl _ store
  · obtain ⟨hitem, hname⟩ := positioned_spec hwf.templates hpos
    rw [heq]
    exact keepsBut_setTemplates rfl fun _ => mem_set_of_key_ne _ hitem hname

lemma keepsBut_replaceExisting (repl : Experience) :
    KeepsBut [name] store (store.replaceExisting name repl).2 := by
  obtain ⟨error, heq⟩ | ⟨position, experience, hpos, -, heq⟩ :=
    replaceExisting_cases store name repl
  · rw [heq]
    exact .refl _ store
  · obtain ⟨hitem, hname⟩ := positioned_spec hwf.experiences hpos
    rw [heq]
    exact keepsBut_setExperiences rfl fun _ => mem_set_of_key_ne _ hitem hname

lemma keepsBut_remove : KeepsBut [name] store (store.remove name).2 := by
  obtain ⟨-, heq⟩ | ⟨position, hpos, heq⟩ := remove_cases store name
  · rw [heq]
    exact .refl _ store
  · obtain ⟨e, hitem, hname⟩ := hwf.experiences.position_spec hpos
    rw [heq]
    refine keepsBut_setExperiences rfl fun other hmem hother => ?_
    exact List.mem_eraseIdx_iff_getElem?.mpr (exists_ne_position hitem hname hmem hother)

lemma keepsBut_removeTemplate : KeepsBut [name] store (store.removeTemplate name).2 := by
  obtain ⟨-, heq⟩ | ⟨position, hpos, heq⟩ := removeTemplate_cases store name
  · rw [heq]
    exact .refl _ store
  · obtain ⟨t, hitem, hname⟩ := hwf.templates.position_spec hpos
    rw [heq]
    refine keepsBut_setTemplates rfl fun other hmem hother => ?_
    exact List.mem_eraseIdx_iff_getElem?.mpr (exists_ne_position hitem hname hmem hother)

end

lemma keepsBut_insert (names : List String) (store : ExperienceStore) (e : Experience) :
    KeepsBut names store (store.insert e).2 := by
  obtain ⟨error, heq⟩ | ⟨-, -, heq⟩ := insert_cases store e
  · rw [heq]
    exact .refl _ store
  · rw [heq]
    exact ⟨fun other hmem _ => List.mem_append_left _ hmem, fun _ hmem _ => hmem⟩

end ExperienceStore

/-- The store stays well formed and the artifacts that are not named stay. -/
def Confined (names : List String) (store other : ExperienceStore) : Prop :=
  other.Wf ∧ KeepsBut names store other

lemma answered_snd (describe : StoreError → String) (answer : ManageAnswer)
    (o : Except StoreError Unit × ExperienceStore) :
    (answered describe answer o).2 = o.2 := by
  obtain ⟨r, other⟩ := o
  cases r <;> rfl

section
variable {store : ExperienceStore} (hwf : store.Wf)
include hwf

lemma Confined.refl (names : List String) : Confined names store store := ⟨hwf, .refl _ store⟩

lemma confined_metadata (names : List String)
    {o : Except StoreError Unit × ExperienceStore}
    (hout : StoreOp.MetadataOutcome store o) : Confined names store o.2 := by
  refine ⟨hout.wf hwf, ?_⟩
  obtain ⟨error, rfl⟩ | ⟨other, rfl, hsame⟩ := hout
  · exact .refl _ store
  · exact ⟨fun e hmem _ => by rwa [all, hsame.1], fun t hmem _ => by rwa [hsame.2]⟩

variable (id : String)

lemma confined_transitionAny (action : QualificationAction) :
    Confined [id] store (transitionAny store id action).2 := by
  unfold transitionAny
  split_ifs
  · exact ⟨hwf.transitionStatus id action, keepsBut_transitionStatus hwf id action⟩
  · exact ⟨hwf.transitionTemplateStatus id action, keepsBut_transitionTemplateStatus hwf id action⟩

lemma confined_transitionAll (next : ExperienceStatus)
    (actions : List QualificationAction) :
    Confined [id] store (transitionAll id next actions store).2 := by
  induction actions generalizing store next with
  | nil => exact .refl hwf _
  | cons action rest ih =>
    have hstep := confined_transitionAny hwf id action
    rw [transitionAll]
    rcases hany : transitionAny store id action with ⟨r, other⟩
    rw [hany] at hstep
    cases r with
    | error error => exact hstep
    | ok status =>
      have hrest := ih hstep.1 status
      exact ⟨hrest.1, hstep.2.trans hrest.2⟩

lemma confined_canonicalTransition (action : LifecycleAction) :
    Confined [id] store (canonicalTransition store id action).2 := by
  unfold canonicalTransition
  cases currentCanonicalStatus store id with
  | error error => exact .refl hwf _
  | ok cur =>
    dsimp only
    cases canonicalSteps id cur action with
    | error error => exact .refl hwf _
    | ok steps =>
      have hsteps := confined_transitionAll hwf id cur steps
      dsimp only
      rcases hall : transitionAll id cur steps store with ⟨r, other⟩
      rw [hall] at hsteps
      cases r with
      | error error => exact hsteps
      | ok next => exact hsteps

lemma confined_canonicalDelete :
    Confined [id] store (canonicalDelete store id).2 := by
  rw [canonicalDelete, answered_snd]
  split_ifs
  · exact ⟨hwf.remove id, keepsBut_remove hwf id⟩
  · exact ⟨hwf.removeTemplate id, keepsBut_removeTemplate hwf id⟩

lemma confined_canonicalUnpin :
    Confined [id] store (canonicalUnpin store id).2 := by
  unfold canonicalUnpin
  split_ifs
  · exact .refl hwf _
  · rw [answered_snd]
    exact confined_metadata hwf [id] (StoreOp.metadata_outcome store (.unpin id))

lemma confined_canonicalUpdateMeta (title : Option String)
    (confidence : Option F64) :
    Confined [id] store (canonicalUpdateMeta store id title confidence).2 := by
  unfold canonicalUpdateMeta
  split_ifs
  · exact .refl hwf _
  · have htitled : Confined [id] store (canonicalRetitle store id title).2 := by
      cases title with
      | none => exact .refl hwf _
      | some title =>
        exact confined_metadata hwf [id]
          (StoreOp.metadata_outcome store (.setDisplayName id (unlessBlank title)))
    rcases hretitle : canonicalRetitle store id title with ⟨r, other⟩
    rw [hretitle] at htitled
    cases r with
    | error error => exact htitled
    | ok done =>
      cases confidence with
      | none => exact htitled
      | some value =>
        have hval := confined_metadata htitled.1 [id]
          (StoreOp.metadata_outcome other (.setUserConfidence id (some value)))
        dsimp only
        rw [answered_snd]
        exact ⟨hval.1, htitled.2.trans hval.2⟩

end

/-- The name that an item of a document carries. -/
def artifactName (item : Json) : Option String := (item.get "name").bind Json.asStr

variable {record : List (String × Json)}

lemma members_eq_ok_iff {value : Json} :
    members value = .ok record ↔ value = .object record := by
  cases value <;> simp [members]

lemma artifactName_of_field {value : Json} {name : String}
    (hrec : members value = .ok record)
    (hname : field string record "name" = .ok name) :
    artifactName value = some name := by
  unfold field at hname
  rw [members_eq_ok_iff.mp hrec, artifactName, Json.get]
  cases hlook : record.lookup "name" with
  | none => simp [hlook] at hname
  | some value =>
    rw [hlook] at hname
    cases value <;> simp [string] at hname
    rw [hname]
    rfl

lemma artifactName_of_experience {value : Json} {e : Experience}
    (h : experience.decode value = .ok e) :
    artifactName value = some e.name := by
  simp only [experience, bind_eq_ok_iff] at h
  obtain ⟨record, hrec, name, hname, _, -, _, -, _, -, _, -, _, -, _, -, _, -, _, -, heq⟩ := h
  cases heq
  exact artifactName_of_field hrec hname

lemma artifactName_of_template {value : Json} {t : ExperienceTemplate}
    (h : experienceTemplate.decode value = .ok t) :
    artifactName value = some t.name := by
  simp only [experienceTemplate, bind_eq_ok_iff] at h
  obtain ⟨record, hrec, name, hname, _, -, _, -, _, -, _, -, _, -, _, -, _, -, _, -, _, -, heq⟩ := h
  cases heq
  exact artifactName_of_field hrec hname

lemma confined_canonicalImport {store : ExperienceStore} (hwf : store.Wf)
    (body : Except String Json) (overwrite : Bool) :
    Confined (ManageOp.importJson body overwrite).targets store
      (canonicalImport store body overwrite).2 := by
  unfold canonicalImport
  cases body with
  | error error => exact .refl hwf _
  | ok value =>
    simp only [Except.bind]
    cases hdec : experience.decode value with
    | error error => exact .refl hwf _
    | ok e =>
      have htgts : (ManageOp.importJson (.ok value) overwrite).targets = [e.name] := by
        have hname := artifactName_of_experience hdec
        rw [artifactName] at hname
        simp [ManageOp.targets, Except.toOption, hname]
      rw [htgts]
      dsimp only
      split_ifs
      · exact .refl hwf _
      · rw [answered_snd]
        exact ⟨hwf.replaceExisting _ e, keepsBut_replaceExisting hwf _ e⟩
      · rw [answered_snd]
        exact ⟨hwf.insert _, keepsBut_insert _ store _⟩

/-- Every call on the canonical backend is confined to the artifacts it names. -/
theorem confined_onCanonical {store other : ExperienceStore} (hwf : store.Wf) {op : ManageOp}
    {r : Except String ManageAnswer} (h : op.onCanonical store = some (r, other)) :
    Confined op.targets store other := by
  suffices hconf : ∀ o, op.onCanonical store = some o →
      Confined op.targets store o.2 from hconf (r, other) h
  intro o hout
  cases op with
  | view => cases hout
  | pin id =>
    cases hout
    rw [canonicalPin, answered_snd]
    exact confined_metadata hwf [id] (StoreOp.metadata_outcome store (.pin id))
  | unpin id =>
    cases hout
    exact confined_canonicalUnpin hwf id
  | activate id =>
    cases hout
    exact confined_canonicalTransition hwf id .activate
  | revalidate id =>
    cases hout
    exact confined_canonicalTransition hwf id .revalidate
  | disable id =>
    cases hout
    exact confined_canonicalTransition hwf id .disable
  | delete id trash =>
    cases hout
    exact confined_canonicalDelete hwf id
  | importJson body overwrite =>
    cases hout
    exact confined_canonicalImport hwf body overwrite
  | editAsDraft id now =>
    cases hout
    exact .refl hwf _
  | adoptDraft draftId replaceId =>
    cases hout
    exact .refl hwf _
  | updateMeta id title note confidence =>
    cases hout
    exact confined_canonicalUpdateMeta hwf id title confidence
  | updateControl id applicability conditions =>
    cases hout
    show Confined [id] store (canonicalUpdateControl store id applicability conditions).2
    simp only [canonicalUpdateControl]
    split_ifs
    · exact .refl hwf _
    · exact .refl hwf _
    · rw [answered_snd]
      exact confined_metadata hwf [id] (StoreOp.metadata_outcome store (.setScope id _))

end ExperienceCodex
