import ExperienceCodex.Server
import ExperienceCodex.StoreMetadata

/-!
# Export and import

An export writes the experiences of a scope with the metadata of their names.  An import inserts
the experiences of a payload one by one and assigns each its scope; it stops at the first item that
it refuses.  It does not take back the items before, and of the metadata it reads the scopes only.
-/

namespace ExperienceCodex

open List ExperienceStore Codec Experience

variable {store : ExperienceStore}

/-- The item is read as an experience that the import takes. -/
structure Takes (store : ExperienceStore) (item : Json) (experience : Experience) : Prop where
  decoded : Codec.experience.decode item = .ok experience
  editable : validateEditableBody experience = .ok ()
  fresh : store.experiences.byKey.contains experience.name = false

/-- The store after an experience was inserted and its scope was set. -/
def ExperienceStore.place (store : ExperienceStore) (experience : Experience)
    (assigned : Option String) : ExperienceStore :=
  { store with
    experiences := store.experiences.push Experience.name Experience.activeTool experience
    scopes := store.scopes.put experience.name assigned }

lemma schemaIssues_of_editable {e : Experience}
    (h : validateEditableBody e = .ok ()) : e.schemaIssues = [] := by
  unfold validateEditableBody at h
  split_ifs at h with hvalid
  simpa [isSchemaValid] using hvalid

variable (payload : Json)

variable (scope : Option String)

variable (i : ℕ)

/-- The scope is set on a name that was just inserted, which does not fail. -/
lemma importItems_cons_of_takes
    {item : Json} (rest : List Json) {e : Experience}
    (h : Takes store item e) :
    importItems payload scope i (item :: rest) store =
      importItems payload scope (i + 1) rest (store.place e
        (scope.orElse fun _ => payloadScope payload e.name)) := by
  have hinsert : store.insert e = (.ok (), { store with
      experiences :=
        store.experiences.push name activeTool e }) := by
    simp [ExperienceStore.insert, schemaIssues_of_editable h.editable, h.fresh]
  rw [importItems, h.decoded]
  simp only [h.editable, hinsert]
  simp [setScope, whenContained, ExperienceStore.contains, Catalog.push, place]

/-- Every refusal comes before the store is changed. -/
lemma importItems_cons_of_not_takes
    {item : Json} (rest : List Json)
    (h : ∀ e, ¬ Takes store item e) :
    ∃ error, importItems payload scope i (item :: rest) store = (.error error, store) := by
  rw [importItems]
  cases hdecoded : experience.decode item with
  | error error => exact ⟨_, rfl⟩
  | ok e =>
    dsimp only
    cases heditable : validateEditableBody e with
    | error error => exact ⟨_, rfl⟩
    | ok valid =>
      dsimp only
      obtain ⟨error, hinsert⟩ | ⟨-, hfresh, -⟩ := insert_cases store e
      · rw [hinsert]
        exact ⟨_, rfl⟩
      · exact absurd ⟨hdecoded, heditable, hfresh⟩ (h e)

lemma importItems_extends
    (items : List Json) (store : ExperienceStore) :
    store.all <+: (importItems payload scope i items store).2.all := by
  induction items generalizing i store with
  | nil => exact prefix_rfl
  | cons item rest ih =>
    by_cases h : ∃ e, Takes store item e
    · obtain ⟨e, htakes⟩ := h
      rw [importItems_cons_of_takes _ _ _ _ htakes]
      refine IsPrefix.trans ?_ (ih _ _)
      exact prefix_append store.all [e]
    · obtain ⟨error, heq⟩ := importItems_cons_of_not_takes payload scope i rest
        (not_exists.mp h)
      rw [heq]

/-- Import the items of a payload.  The number of items is returned, or the first error. -/
def importExperiences (store : ExperienceStore) (payload : Json) (scope : Option String) :
    Except String ℕ × ExperienceStore :=
  match payloadItems payload with
  | none => (.error "payload 缺少 experiences 数组", store)
  | some items =>
    match importItems payload scope 0 items store with
    | (.error error, store) => (.error error, store)
    | (.ok (), store) => (.ok items.length, store)

namespace ExperienceStore

def exportedNames (store : ExperienceStore) (scope : Option String) : List String :=
  (store.all.filter fun experience => store.isInScope experience.name scope).map Experience.name

def exported (store : ExperienceStore) (scope : Option String) : List Experience :=
  store.all.filter fun experience => (store.exportedNames scope).contains experience.name

/-- One map of the export: what is recorded about the names of the exported experiences. -/
def exportedMap {V : Type} (store : ExperienceStore) (scope : Option String)
    (recorded : String → Option V) : NameMap V :=
  .ofList ((store.exported scope).filterMap fun experience =>
    (recorded experience.name).map fun value => (experience.name, value))

end ExperienceStore

/-- The document of an export. -/
def exportExperiences (store : ExperienceStore) (scope : Option String) : Json :=
  .object [
    ("schema_version", .number (.posInt 1)),
    ("experiences", (Codec.list Codec.experience).encode (store.exported scope)),
    ("pinned", (Codec.list Codec.string).encode
      (store.pinned.filter fun name => (store.exportedNames scope).contains name)),
    ("scopes", (Codec.map Codec.string).encode
      (store.exportedMap scope fun name => store.scopes[name]?)),
    ("display_names", (Codec.map Codec.string).encode
      (store.exportedMap scope fun name => store.displayNames[name]?)),
    ("user_usage", (Codec.map Codec.string).encode
      (store.exportedMap scope fun name => store.userUsage[name]?)),
    ("user_confidence", (Codec.map Codec.f64).encode
      (store.exportedMap scope fun name => store.userConfidence[name]?))]

namespace ExperienceStore

lemma mem_exported_iff (store : ExperienceStore) (scope : Option String)
    (experience : Experience) :
    experience ∈ store.exported scope ↔
      experience ∈ store.all ∧ store.isInScope experience.name scope = true := by
  simp only [exported, exportedNames, mem_filter, contains_iff_mem, mem_map]
  constructor
  · rintro ⟨hmem, other, ⟨-, hscope⟩, hname⟩
    rw [hname] at hscope
    exact ⟨hmem, hscope⟩
  · rintro ⟨hmem, hscope⟩
    exact ⟨hmem, experience, ⟨hmem, hscope⟩, rfl⟩

lemma mem_exportedNames_iff (store : ExperienceStore) (scope : Option String) (name : String) :
    name ∈ store.exportedNames scope ↔
      ∃ e ∈ store.exported scope, e.name = name := by
  simp only [exportedNames, mem_map, mem_filter, mem_exported_iff]

lemma nodup_exported_names (h : store.Wf) (scope : Option String) :
    ((store.exported scope).map name).Nodup :=
  h.experiences.nodup.sublist (filter_sublist.map name)

lemma getElem?_exportedMap {V : Type} (h : store.Wf)
    (scope : Option String) (rec : String → Option V) (name : String) :
    (store.exportedMap scope rec)[name]? =
      if name ∈ store.exportedNames scope then rec name else none := by
  have hmem (value : V) : (name, value) ∈ ((store.exported scope).filterMap fun e =>
      (rec e.name).map fun value => (e.name, value)) ↔
      name ∈ store.exportedNames scope ∧ rec name = some value := by
    simp only [mem_filterMap, Option.map_eq_some_iff, Prod.mk.injEq, mem_exportedNames_iff]
    constructor
    · rintro ⟨e, hexported, found, hfound, rfl, rfl⟩
      exact ⟨⟨e, hexported, rfl⟩, hfound⟩
    · rintro ⟨⟨e, hexported, rfl⟩, hfound⟩
      exact ⟨e, hexported, value, hfound, rfl, rfl⟩
  have hdist : ((store.exported scope).filterMap fun e =>
      (rec e.name).map fun value => (e.name, value)).Pairwise
        fun a b => ¬ compare a.1 b.1 = .eq := by
    rw [pairwise_filterMap]
    refine (pairwise_map.mp (nodup_exported_names h scope)).imp ?_
    intro first second hne a ha b hb heq
    obtain ⟨_, _, rfl⟩ := Option.map_eq_some_iff.mp ha
    obtain ⟨_, _, rfl⟩ := Option.map_eq_some_iff.mp hb
    exact hne (Std.compare_eq_iff_eq.mp heq)
  by_cases hname : name ∈ store.exportedNames scope
  · rw [if_pos hname]
    cases hrec : rec name with
    | some value =>
      exact Std.ExtTreeMap.getElem?_ofList_of_mem Std.compare_self hdist
        ((hmem value).mpr ⟨hname, hrec⟩)
    | none =>
      apply Std.ExtTreeMap.getElem?_ofList_of_contains_eq_false
      rw [← Bool.not_eq_true, contains_iff_mem, mem_map]
      rintro ⟨⟨key, value⟩, hentry, rfl⟩
      rw [((hmem value).mp hentry).2] at hrec
      cases hrec
  · rw [if_neg hname]
    apply Std.ExtTreeMap.getElem?_ofList_of_contains_eq_false
    rw [← Bool.not_eq_true, contains_iff_mem, mem_map]
    rintro ⟨⟨key, value⟩, hentry, rfl⟩
    exact hname ((hmem value).mp hentry).1

end ExperienceStore

lemma lookup_map_eq_some {α β : Type} (encode : α → β) (es : List (String × α))
    (name : String) :
    (es.map fun (key, value) => (key, encode value)).lookup name =
      (es.lookup name).map encode := by
  induction es with
  | nil => rfl
  | cons e rest ih =>
    obtain ⟨key, value⟩ := e
    rw [map_cons, lookup_cons, lookup_cons, ih]
    cases name == key <;> rfl

lemma lookup_toList {V : Type} (es : NameMap V) (name : String) :
    es.toList.lookup name = es[name]? := by
  apply Option.ext
  intro value
  rw [← Std.ExtTreeMap.mem_toList_iff_getElem?_eq_some]
  constructor
  · intro h
    obtain ⟨before, after, heq, -⟩ := lookup_eq_some_iff.mp h
    rw [heq]
    simp
  · intro h
    obtain ⟨before, after, heq⟩ := append_of_mem h
    refine lookup_eq_some_iff.mpr ⟨before, after, heq, ?_⟩
    -- an earlier entry with the key would be a second one
    have hdist : es.toList.Pairwise fun a b => ¬ compare a.1 b.1 = .eq :=
      Std.ExtTreeMap.distinct_keys_toList
    rw [heq, pairwise_append] at hdist
    intro e hentry
    have hne := hdist.2.2 e hentry (name, value) (by simp)
    rw [bne_iff_ne]
    exact fun h => hne (Std.compare_eq_iff_eq.mpr h.symm)

lemma get_encode_map {V : Type} (codec : Codec V) (es : NameMap V) (name : String) :
    ((map codec).encode es).get name = es[name]?.map codec.encode := by
  rw [← lookup_toList]
  exact lookup_map_eq_some codec.encode es.toList name

lemma payloadItems_export (store : ExperienceStore) (scope : Option String) :
    payloadItems (exportExperiences store scope) =
      some ((store.exported scope).map experience.encode) := rfl

lemma getElem?_put {V : Type} (es : NameMap V) (name other : String) (value : Option V) :
    (es.put name value)[other]? = if other = name then value else es[other]? := by
  cases value with
  | some value =>
    simp only [NameMap.put, Std.ExtTreeMap.getElem?_insert, Std.compare_eq_iff_eq]
    by_cases h : other = name
    · simp [h]
    · simp [h, Ne.symm h]
  | none =>
    simp only [NameMap.put, Std.ExtTreeMap.getElem?_erase, Std.compare_eq_iff_eq]
    by_cases h : other = name
    · simp [h]
    · simp [h, Ne.symm h]

/-- An import of experiences that it takes: they are appended, their names get the scopes of the
payload, and nothing else is recorded about them. -/
lemma importItems_of_editable (es : List Experience)
    (hwf : store.Wf)
    (heditable : ∀ experience ∈ es, validateEditableBody experience = .ok ())
    (hnames : ((store.all ++ es).map Experience.name).Nodup) :
    ∃ after, importItems payload none i (es.map Codec.experience.encode) store =
        (.ok (), after) ∧ after.all = store.all ++ es ∧
      ∀ name, after.metadataOf name =
        if name ∈ es.map Experience.name then
          { store.metadataOf name with scope := payloadScope payload name }
        else store.metadataOf name := by
  induction es generalizing i store with
  | nil => exact ⟨store, rfl, (append_nil _).symm, by simp⟩
  | cons experience rest ih =>
    have hfresh : store.experiences.byKey.contains experience.name = false := by
      rw [hwf.experiences.contains_eq_false_iff]
      rw [map_append, nodup_append] at hnames
      intro hmem
      exact hnames.2.2 _ hmem experience.name (by simp) rfl
    have htakes : Takes store (Codec.experience.encode experience) experience :=
      ⟨Codec.experience.decode_encode experience, heditable experience mem_cons_self, hfresh⟩
    have hplaced : (store.place experience (payloadScope payload experience.name)).Wf := by
      have hins := hwf.insert experience
      simp only [ExperienceStore.insert, schemaIssues_of_editable htakes.editable, hfresh]
        at hins
      exact hins.of_collections_eq rfl rfl
    obtain ⟨after, himport, hall, hmeta⟩ := ih (i + 1) hplaced
      (forall_mem_of_forall_mem_cons heditable) (by
        simpa [ExperienceStore.all, place, Catalog.push] using hnames)
    refine ⟨after, ?_, ?_, fun name => ?_⟩
    · rw [map_cons, importItems_cons_of_takes _ _ _ _ htakes]
      exact himport
    · rw [hall]
      simp [ExperienceStore.all, place, Catalog.push]
    · have hrest : experience.name ∉ rest.map Experience.name := by
        rw [map_append, nodup_append, map_cons, nodup_cons] at hnames
        exact hnames.2.1.1
      rw [hmeta name]
      simp only [metadataOf, place, isPinned, getElem?_put]
      by_cases hname : name = experience.name
      · rw [if_neg (hname ▸ hrest), if_pos hname, if_pos (by simp [hname]), hname]
      · simp only [map_cons, mem_cons, hname, false_or, if_false]

lemma editable_of_importItems
    (es : List Experience) {after : ExperienceStore}
    (h : importItems payload scope i (es.map experience.encode) store =
      (.ok (), after)) :
    ∀ e ∈ es, validateEditableBody e = .ok () := by
  induction es generalizing i store with
  | nil => simp
  | cons e rest ih =>
    rw [map_cons] at h
    by_cases htakes : ∃ read, Takes store (experience.encode e) read
    · obtain ⟨read, htakes⟩ := htakes
      have hread : e = read := by
        have hdecoded := htakes.decoded
        rw [decode_encode] at hdecoded
        exact Except.ok.inj hdecoded
      rw [importItems_cons_of_takes _ _ _ _ htakes] at h
      exact forall_mem_cons.mpr ⟨hread ▸ htakes.editable, ih (i + 1) h⟩
    · obtain ⟨error, heq⟩ := importItems_cons_of_not_takes payload scope i
        (rest.map experience.encode) (not_exists.mp htakes)
      rw [heq] at h
      cases h

/-- Importing an export into an empty store succeeds and gives the exported experiences in order,
with what the export says about their names and nothing about other names. -/
def ImportUndoesExport (store : ExperienceStore) (scope : Option String) : Prop :=
  ∃ after, importExperiences {} (exportExperiences store scope) none =
      (.ok (store.exported scope).length, after) ∧
    after.all = store.exported scope ∧
    ∀ name, after.metadataOf name =
      if name ∈ store.exportedNames scope then { store.metadataOf name with origin := none }
      else {}

/-- The import of an export, for experiences that the import takes: only the scopes are back. -/
lemma importExperiences_export (h : store.Wf) (scope : Option String)
    (heditable : ∀ e ∈ store.exported scope, validateEditableBody e = .ok ()) :
    ∃ after, importExperiences {} (exportExperiences store scope) none =
        (.ok (store.exported scope).length, after) ∧
      after.all = store.exported scope ∧
      ∀ name, after.metadataOf name =
        if name ∈ store.exportedNames scope then { scope := store.scopes[name]? } else {} := by
  obtain ⟨after, himport, hall, hmeta⟩ := importItems_of_editable
    (exportExperiences store scope) 0 (store.exported scope) wf_default heditable
    (nodup_exported_names h scope)
  have hmem (name : String) : name ∈ (store.exported scope).map Experience.name ↔
      name ∈ store.exportedNames scope := by
    rw [mem_map, mem_exportedNames_iff]
  have hempty (name : String) : ({} : ExperienceStore).metadataOf name = {} := by
    simp [metadataOf, isPinned]
  refine ⟨after, ?_, hall, fun name => ?_⟩
  · simp only [importExperiences, payloadItems_export, himport, length_map]
  · rw [hmeta name]
    by_cases hname : name ∈ store.exportedNames scope
    · have hscopes : (exportExperiences store scope).get "scopes" = some ((map
          string).encode (store.exportedMap scope fun name => store.scopes[name]?)) := rfl
      rw [if_pos ((hmem name).mpr hname), if_pos hname, hempty, payloadScope, hscopes,
        Option.bind_some, get_encode_map, getElem?_exportedMap h, if_pos hname]
      cases store.scopes[name]? <;> rfl
    · rw [if_neg (fun hcontra => hname ((hmem name).mp hcontra)), if_neg hname, hempty]

/-- For every store that operations can build, an import undoes an export exactly if every exported
experience can be edited, and none is pinned or has a display name, a usage decision or a
confidence of the user. -/
theorem run_import_export_iff (ops : List StoreOp) (scope : Option String) :
    ImportUndoesExport (StoreOp.run ops) scope ↔
      ∀ experience ∈ (StoreOp.run ops).all,
        (StoreOp.run ops).isInScope experience.name scope = true →
          validateEditableBody experience = .ok () ∧
          (StoreOp.run ops).isPinned experience.name = false ∧
          (StoreOp.run ops).displayNames[experience.name]? = none ∧
          (StoreOp.run ops).userUsage[experience.name]? = none ∧
          (StoreOp.run ops).userConfidence[experience.name]? = none := by
  have hwf := StoreOp.wf_run ops
  generalize StoreOp.run ops = store at hwf ⊢
  constructor
  · rintro ⟨after, himport, -, hmetadata⟩ experience hmem hscope
    have hexported := (mem_exported_iff store scope experience).mpr ⟨hmem, hscope⟩
    have heditable : ∀ experience ∈ store.exported scope,
        validateEditableBody experience = .ok () := by
      simp only [importExperiences, payloadItems_export] at himport
      rcases hitems : importItems (exportExperiences store scope) none 0
          ((store.exported scope).map Codec.experience.encode) {} with ⟨result, left⟩
      rw [hitems] at himport
      cases result with
      | error error => cases himport
      | ok done => exact editable_of_importItems _ _ _ _ hitems
    -- the import is determined, and nothing but scopes is in it
    obtain ⟨other, hother, -, hscopes⟩ := importExperiences_export hwf scope heditable
    have hsame : other = after := congrArg Prod.snd (hother.symm.trans himport)
    have hname : experience.name ∈ store.exportedNames scope :=
      (mem_exportedNames_iff ..).mpr ⟨experience, hexported, rfl⟩
    have hmarks := (hmetadata experience.name).symm.trans (hsame ▸ hscopes experience.name)
    rw [if_pos hname, if_pos hname] at hmarks
    simp only [metadataOf, ArtifactMetadata.mk.injEq] at hmarks
    exact ⟨heditable experience hexported, hmarks.1, hmarks.2.2.2.1, hmarks.2.2.1,
      hmarks.2.2.2.2.1⟩
  · intro hplain
    have hexported : ∀ experience ∈ store.exported scope, _ := fun experience hmem =>
      hplain experience ((mem_exported_iff ..).mp hmem).1 ((mem_exported_iff ..).mp hmem).2
    obtain ⟨after, himport, hall, hmetadata⟩ := importExperiences_export hwf scope
      fun experience hmem => (hexported experience hmem).1
    refine ⟨after, himport, hall, fun name => ?_⟩
    rw [hmetadata name]
    by_cases hname : name ∈ store.exportedNames scope
    · obtain ⟨experience, hmem, rfl⟩ := (mem_exportedNames_iff ..).mp hname
      obtain ⟨-, hpinned, hdisplay, husage, hconfidence⟩ := hexported experience hmem
      rw [if_pos hname, if_pos hname]
      simp only [metadataOf, hpinned, hdisplay, husage, hconfidence]
    · rw [if_neg hname, if_neg hname]

/-- The user denies the use of an experience; its export carries the decision, and the import
succeeds without it. -/
theorem import_forgets_denied :
    let store := StoreOp.run
      [.insert (StoreOp.noteExperience "note"), .setUserUsage "note" (some "deny")]
    let after := importExperiences {} (exportExperiences store none) none
    after.1 = .ok 1 ∧ store.isUsageAllowed "note" = false ∧
      after.2.isUsageAllowed "note" = true := by
  decide +kernel

end ExperienceCodex
