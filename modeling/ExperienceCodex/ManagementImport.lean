import ExperienceCodex.GateDecisions
import ExperienceCodex.Management
import ExperienceCodex.StoreMetadata

/-!
# Imported bodies

An import into the canonical store either inserts a new experience, as a candidate, or replaces the
body of a stored one.  The replacement keeps the status of what it replaces.  So an imported body
arrives as a candidate exactly when the name is new or belongs to a candidate, and what arrives as a
candidate takes no proposal over before it is activated.
-/

namespace ExperienceCodex

open ExperienceStore StoreOp

variable {store : ExperienceStore} {name : String}

/-- The state after some changes of status, whether or not they succeed. -/
def transitions (store : ExperienceStore) (changes : List (String × QualificationAction)) :
    ExperienceStore :=
  Runs.run (fun store change => (store.transitionStatus change.1 change.2).2) store changes

/-- The change does not activate the experience of a name. -/
def LeavesInactive (name : String) (change : String × QualificationAction) : Prop :=
  change.1 = name → change.2 ≠ .activate ∧ change.2 ≠ .forceActivate

/-- The store is well formed and the experience of a name, if there is one, is not active. -/
structure Inactive (name : String) (store : ExperienceStore) : Prop where
  wf : store.Wf
  notActive : ∀ experience ∈ store.all, experience.name = name → experience.status ≠ .active

lemma Inactive.transitionStatus
    (h : Inactive name store) {change : String × QualificationAction}
    (hchange : LeavesInactive name change) :
    Inactive name (store.transitionStatus change.1 change.2).2 := by
  refine ⟨h.wf.transitionStatus change.1 change.2, ?_⟩
  intro e hmem hname
  obtain hold | ⟨before, -, hbefore, next, htrans, rfl⟩ := mem_transitionStatus h.wf hmem
  · exact h.notActive e hold hname
  · have hact := hchange (hbefore.symm.trans hname)
    rintro rfl
    cases hstatus : before.status <;> cases haction : change.2 <;>
      simp_all [ExperienceStatus.transition]

lemma Inactive.transitions (h : Inactive name store)
    {changes : List (String × QualificationAction)}
    (hchanges : ∀ change ∈ changes, LeavesInactive name change) :
    Inactive name (transitions store changes) := by
  induction changes generalizing store with
  | nil => exact h
  | cons change rest ih =>
    exact ih (h.transitionStatus (hchanges change (List.mem_cons_self ..)))
      (List.forall_mem_of_forall_mem_cons hchanges)

/-- The experience of a name is a candidate, and until it is activated no proposal is matched
by it. -/
structure ArrivesInert (floatText : F64 → String) (name : String) (store : ExperienceStore) :
    Prop where
  candidate : ∃ experience, store.get name = some experience ∧ experience.status = .candidate
  unmatched : ∀ changes : List (String × QualificationAction),
    (∀ change ∈ changes, LeavesInactive name change) → ∀ proposal,
      ∀ matched ∈ (transitions store changes).candidatesFor floatText proposal,
        matched.name ≠ name

/-- A successful import stores the imported body under its name, with the status of what was
stored under that name before, or else as a candidate. -/
lemma canonicalImport_get {after : ExperienceStore} (hwf : store.Wf)
    {body : Except String Json} {overwrite : Bool} {e : Experience}
    {answer : ManageAnswer} (hbody : body.bind Codec.experience.decode = .ok e)
    (himport : canonicalImport store body overwrite = (.ok answer, after)) :
    after.Wf ∧ after.get e.name = some { e with
      status := ((store.get e.name).map Experience.status).getD .candidate } := by
  unfold canonicalImport at himport
  rw [hbody] at himport
  dsimp only at himport
  split_ifs at himport with hrefused hstored
  · cases himport
  · obtain ⟨previous, hprevious⟩ := Option.isSome_iff_exists.mp hstored
    have hkeeps := hwf.replaceExisting e.name e
    obtain ⟨error, heq⟩ | ⟨i, replaced, hpos, -, heq⟩ :=
      replaceExisting_cases store e.name e
    · rw [heq] at himport
      cases himport
    · rw [heq] at himport hkeeps
      cases himport
      obtain ⟨hitem, hname⟩ := positioned_spec hwf.experiences hpos
      have hrepl : replaced = previous :=
        hwf.eq_of_get hprevious (List.mem_of_getElem? hitem) hname
      refine ⟨hkeeps, (hkeeps.experiences.lookup_eq_some_iff _ _).mpr ⟨?_, rfl⟩⟩
      rw [hprevious, ← hrepl]
      change _ ∈ ExperienceStore.all _
      rw [all_setExperiences_reindex]
      exact List.mem_set (List.getElem?_eq_some_iff.mp hitem).1 _
  · rw [Option.not_isSome_iff_eq_none] at hstored
    have hkeeps := hwf.insert { e with status := .candidate }
    obtain ⟨error, heq⟩ | ⟨-, -, heq⟩ :=
      insert_cases store { e with status := .candidate }
    · rw [heq] at himport
      cases himport
    · rw [heq] at himport hkeeps
      cases himport
      refine ⟨hkeeps, (hkeeps.experiences.lookup_eq_some_iff _ _).mpr ⟨?_, rfl⟩⟩
      rw [hstored]
      exact List.mem_append_right _ (List.mem_singleton_self _)

/-- In every store that operations can build, what an import stores arrives inert exactly when the
name was new or the experience of that name was a candidate. -/
theorem canonicalImport_arrivesInert_iff (floatText : F64 → String) (ops : List StoreOp)
    (body : Except String Json) (overwrite : Bool) (experience : Experience)
    (hbody : body.bind Codec.experience.decode = .ok experience) (answer : ManageAnswer)
    (after : ExperienceStore)
    (himport : canonicalImport (StoreOp.run ops) body overwrite = (.ok answer, after)) :
    ArrivesInert floatText experience.name after ↔
      ∀ previous, (StoreOp.run ops).get experience.name = some previous →
        previous.status = .candidate := by
  obtain ⟨hafter, hget⟩ := canonicalImport_get (wf_run ops) hbody himport
  constructor
  · rintro ⟨⟨stored, hstored, hstatus⟩, -⟩ previous hprevious
    rw [hget, hprevious] at hstored
    cases hstored
    exact hstatus
  · intro hprevious
    have hcandidate : ∃ e, after.get experience.name = some e ∧ e.status = .candidate := by
      refine ⟨_, hget, ?_⟩
      cases hstored : (run ops).get experience.name with
      | none => rfl
      | some previous => exact hprevious previous hstored
    obtain ⟨e, hget, hstatus⟩ := hcandidate
    have hinactive : Inactive experience.name after := by
      refine ⟨hafter, fun other hmem hname => ?_⟩
      rw [hafter.eq_of_get hget hmem hname, hstatus]
      decide
    refine ⟨⟨e, hget, hstatus⟩, fun changes hchanges p matched hmatched hname => ?_⟩
    have hleft := hinactive.transitions hchanges
    obtain ⟨hstored, hactive, -⟩ := mem_of_candidate hleft.wf hmatched
    exact hleft.notActive matched hstored hname hactive

/-- The imported note: the stored one with another workflow. -/
def importedNote : Experience :=
  { StoreOp.noteExperience "note" with
    workflow := [{ action := "delete_file", args := .object [("path", .string "note.txt")] }] }

lemma importedNote_decode :
    (Except.ok (Codec.experience.encode importedNote) : Except String Json).bind
      Codec.experience.decode = .ok importedNote :=
  Codec.experience.decode_encode importedNote

/-- An import that does not fail has an answer. -/
lemma exists_canonicalImport_ok (store : ExperienceStore) (body : Except String Json)
    (overwrite : Bool)
    (h : (match (canonicalImport store body overwrite).1 with
      | .ok _ => true
      | .error _ => false) = true) :
    ∃ answer after, canonicalImport store body overwrite = (.ok answer, after) := by
  cases himport : canonicalImport store body overwrite with
  | mk r after =>
    rw [himport] at h
    cases r with
    | error error => cases h
    | ok answer => exact ⟨answer, after, rfl⟩

/-- A new name: an import of an active body arrives inert. -/
theorem canonicalImport_arrivesInert_new :
    ∃ answer after, canonicalImport (StoreOp.run [])
        (.ok (Codec.experience.encode importedNote)) false = (.ok answer, after) ∧
      ArrivesInert (fun _ => "0.0") "note" after := by
  obtain ⟨answer, after, himport⟩ := exists_canonicalImport_ok (run [])
    (.ok (Codec.experience.encode importedNote)) false (by decide +kernel)
  refine ⟨answer, after, himport, ?_⟩
  refine (canonicalImport_arrivesInert_iff _ [] _ false importedNote importedNote_decode answer
    after himport).mpr ?_
  intro previous hprevious
  cases hprevious

/-- The note is active, and an import replaces its body: what was never qualified is active and
matches every task. -/
theorem import_replaces_active_body :
    ∃ answer after, canonicalImport (StoreOp.run [.insert (StoreOp.noteExperience "note")])
        (.ok (Codec.experience.encode importedNote)) true = (.ok answer, after) ∧
      after.get "note" = some importedNote ∧ importedNote.status = .active ∧
      importedNote ∈ after.candidatesFor (fun _ => "0.0") { tool := "task", args := .null } ∧
      ¬ ArrivesInert (fun _ => "0.0") "note" after := by
  obtain ⟨answer, after, himport⟩ := exists_canonicalImport_ok
    (run [.insert (noteExperience "note")])
    (.ok (Codec.experience.encode importedNote)) true (by decide +kernel)
  obtain ⟨hwf, hget⟩ := canonicalImport_get (wf_run _) importedNote_decode himport
  have hnote : after.get "note" = some importedNote := hget
  have hmem := (hwf.experiences.lookup_eq_some_iff _ _).mp hnote
  refine ⟨answer, after, himport, hnote, rfl, ?_, ?_⟩
  · rw [(answersLikeScan_of_wf _ hwf).candidates, List.mem_filter]
    exact ⟨hmem.1, by decide⟩
  · rintro ⟨⟨stored, hstored, hstatus⟩, -⟩
    rw [hnote] at hstored
    cases hstored
    cases hstatus

end ExperienceCodex
