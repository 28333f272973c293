import ExperienceCodex.Runs
import ExperienceCodex.StoreInvariant

/-!
# Runs of store operations

A run is a sequence of the public operations of the store, in any order, some of them failing.
Loading a document or opening a file is an operation too: when it succeeds, its store takes the
place of the current one.
-/

namespace ExperienceCodex

namespace ExperienceStore

/-- What is found at the path of a store file. -/
inductive FileContent where
  | missing
  | unreadable (error : String)
  | notJson (error : String)
  | document (value : Json)

/-- A missing file gives an empty store, and a file that cannot be loaded an error. -/
def openFile (path : String) : FileContent → Except StoreError ExperienceStore
  | .missing => .ok { path := some path }
  | .unreadable error => .error (.io error)
  | .notJson error => .error (.serialization error)
  | .document value => do
    let store ← fromJson value
    return { store with path := some path }

end ExperienceStore

open ExperienceStore

inductive StoreOp where
  | fromJson (document : Json)
  | openFile (path : String) (content : FileContent)
  | insert (experience : Experience)
  | insertTemplate (template : ExperienceTemplate)
  | transitionStatus (name : String) (action : QualificationAction)
  | transitionTemplateStatus (name : String) (action : QualificationAction)
  | replaceExisting (name : String) (replacement : Experience)
  | remove (name : String)
  | removeTemplate (name : String)
  | pin (name : String)
  | unpin (name : String)
  | setScope (name : String) (scope : Option String)
  | setDisplayName (name : String) (displayName : Option String)
  | setUserUsage (name : String) (usage : Option String)
  | setUserConfidence (name : String) (value : Option F64)
  | setCandidateOrigin (name : String) (origin : CandidateOrigin)
  | setScopePolicy (scope : String) (policy : Option CapabilityPolicy)
  | insertReference (entry : ReferenceEntry)
  | removeReference (id : String)

namespace StoreOp

variable {store : ExperienceStore}

/-- A loaded store takes the place of the current one. -/
def loaded (store : ExperienceStore) :
    Except StoreError ExperienceStore → Except StoreError Unit × ExperienceStore
  | .ok other => (.ok (), other)
  | .error error => (.error error, store)

/-- The outcome of a status change, without the new status. -/
def discard (outcome : Except StoreError ExperienceStatus × ExperienceStore) :
    Except StoreError Unit × ExperienceStore :=
  (outcome.1.map fun _ => (), outcome.2)

def perform (store : ExperienceStore) : StoreOp → Except StoreError Unit × ExperienceStore
  | fromJson document => loaded store (ExperienceStore.fromJson document)
  | openFile path content => loaded store (ExperienceStore.openFile path content)
  | insert experience => store.insert experience
  | insertTemplate template => store.insertTemplate template
  | transitionStatus name action => discard (store.transitionStatus name action)
  | transitionTemplateStatus name action => discard (store.transitionTemplateStatus name action)
  | replaceExisting name replacement => store.replaceExisting name replacement
  | remove name => store.remove name
  | removeTemplate name => store.removeTemplate name
  | pin name => store.pin name
  | unpin name => store.unpin name
  | setScope name scope => store.setScope name scope
  | setDisplayName name displayName => store.setDisplayName name displayName
  | setUserUsage name usage => store.setUserUsage name usage
  | setUserConfidence name value => store.setUserConfidence name value
  | setCandidateOrigin name origin => (.ok (), store.setCandidateOrigin name origin)
  | setScopePolicy scope policy => store.setScopePolicy scope policy
  | insertReference entry => store.insertReference entry
  | removeReference id => store.removeReference id

/-- The state that an operation leaves behind. -/
def next (store : ExperienceStore) (op : StoreOp) : ExperienceStore := (op.perform store).2

/-- The state after a run from the empty store. -/
def run (ops : List StoreOp) : ExperienceStore := Runs.run next {} ops

/-- The operation leaves both collections alone. -/
def SameCollections (store other : ExperienceStore) : Prop :=
  other.experiences = store.experiences ∧ other.templates = store.templates

/-- The outcome of an operation on the metadata: a failure changes nothing, and a success
leaves the collections alone. -/
def MetadataOutcome (store : ExperienceStore)
    (outcome : Except StoreError Unit × ExperienceStore) : Prop :=
  (∃ error, outcome = (.error error, store)) ∨
    ∃ other, outcome = (.ok (), other) ∧ SameCollections store other

lemma whenContained_outcome (store : ExperienceStore) (name : String)
    {changed : ExperienceStore} (h : SameCollections store changed) :
    MetadataOutcome store (store.whenContained name changed) := by
  unfold whenContained
  split_ifs
  · exact .inl ⟨_, rfl⟩
  · exact .inr ⟨changed, rfl, h⟩

lemma wf_of_openFile {path : String} {v : FileContent}
    (hok : ExperienceStore.openFile path v = .ok store) : store.Wf := by
  cases v with
  | missing =>
    cases hok
    exact wf_default.of_collections_eq rfl rfl
  | unreadable error => cases hok
  | notJson error => cases hok
  | document value =>
    obtain ⟨other, hload, heq⟩ := bind_eq_ok_iff.mp hok
    cases heq
    exact (wf_of_fromJson hload).of_collections_eq rfl rfl

variable {outcome : Except StoreError Unit × ExperienceStore}

lemma MetadataOutcome.wf (hout : MetadataOutcome store outcome)
    (h : store.Wf) : outcome.2.Wf := by
  obtain ⟨error, rfl⟩ | ⟨other, rfl, hsame⟩ := hout
  · exact h
  · exact h.of_collections_eq hsame.1 hsame.2

lemma loaded_of {P : ExperienceStore → Prop} {r : Except StoreError ExperienceStore}
    (h : P store) (hres : ∀ other, r = .ok other → P other) : P (loaded store r).2 := by
  cases r with
  | error error => exact h
  | ok other => exact hres other rfl

/-- The operations on the metadata, with their outcome. -/
lemma metadata_outcome (store : ExperienceStore) (op : StoreOp) :
    match op with
    | pin _ | unpin _ | setScope _ _ | setDisplayName _ _ | setUserUsage _ _
    | setUserConfidence _ _ | setCandidateOrigin _ _ | setScopePolicy _ _ | insertReference _
    | removeReference _ => MetadataOutcome store (op.perform store)
    | _ => True := by
  cases op with
  | pin name =>
    apply whenContained_outcome
    split_ifs <;> exact ⟨rfl, rfl⟩
  | unpin name => exact .inr ⟨_, rfl, rfl, rfl⟩
  | setScope name scope => exact whenContained_outcome store name ⟨rfl, rfl⟩
  | setDisplayName name displayName => exact whenContained_outcome store name ⟨rfl, rfl⟩
  | setCandidateOrigin name origin => exact .inr ⟨_, rfl, rfl, rfl⟩
  | setUserUsage | setUserConfidence | setScopePolicy | insertReference | removeReference =>
    -- each branch is an error or a change of the metadata
    simp only [perform, ExperienceStore.setUserUsage, ExperienceStore.setUserConfidence,
      ExperienceStore.setScopePolicy, ExperienceStore.insertReference,
      ExperienceStore.removeReference]
    repeat' split
    all_goals first | exact .inl ⟨_, rfl⟩ | exact .inr ⟨_, rfl, rfl, rfl⟩
  | _ => trivial

/-- Every operation keeps the store well formed. -/
theorem wf_next (h : store.Wf) (op : StoreOp) : (next store op).Wf := by
  have hmeta := metadata_outcome store op
  cases op with
  | fromJson doc => exact loaded_of (P := Wf) h fun other hok => wf_of_fromJson hok
  | openFile path v => exact loaded_of (P := Wf) h fun other hok => wf_of_openFile hok
  | insert e => exact h.insert e
  | insertTemplate t => exact h.insertTemplate t
  | transitionStatus name action => exact h.transitionStatus name action
  | transitionTemplateStatus name action => exact h.transitionTemplateStatus name action
  | replaceExisting name repl => exact h.replaceExisting name repl
  | remove name => exact h.remove name
  | removeTemplate name => exact h.removeTemplate name
  | _ => exact MetadataOutcome.wf hmeta h

theorem wf_run (ops : List StoreOp) : (run ops).Wf :=
  Runs.run_induction (P := ExperienceStore.Wf) (fun _ op h => wf_next h op) wf_default ops

/-- The outcome of an operation that fails without a trace. -/
def Atomic (store : ExperienceStore) (outcome : Except StoreError Unit × ExperienceStore) :
    Prop :=
  ∀ error, outcome.1 = .error error → outcome.2 = store

lemma atomic_of_cases
    (h : (∃ error, outcome = (.error error, store)) ∨ outcome.1 = .ok ()) :
    Atomic store outcome := by
  intro error herr
  obtain ⟨_, rfl⟩ | hok := h
  · rfl
  · rw [hok] at herr
    cases herr

lemma MetadataOutcome.atomic
    (h : MetadataOutcome store outcome) : Atomic store outcome := by
  apply atomic_of_cases
  obtain ⟨error, rfl⟩ | ⟨other, rfl, -⟩ := h
  · exact .inl ⟨error, rfl⟩
  · exact .inr rfl

lemma loaded_atomic (store : ExperienceStore) (r : Except StoreError ExperienceStore) :
    Atomic store (loaded store r) := by
  cases r with
  | error error => exact fun _ _ => rfl
  | ok other => exact fun _ herr => nomatch herr

lemma discard_atomic
    {outcome : Except StoreError ExperienceStatus × ExperienceStore}
    (h : (∃ error, outcome = (.error error, store)) ∨ ∃ status, outcome.1 = .ok status) :
    Atomic store (discard outcome) := by
  apply atomic_of_cases
  obtain ⟨error, rfl⟩ | ⟨status, hok⟩ := h
  · exact .inl ⟨error, rfl⟩
  · exact .inr (by rw [discard, hok]; rfl)

/-- An operation that fails leaves the store as it was. -/
theorem perform_atomic (store : ExperienceStore) (op : StoreOp) :
    Atomic store (op.perform store) := by
  have hmeta := metadata_outcome store op
  cases op with
  | fromJson doc => exact loaded_atomic store _
  | openFile path v => exact loaded_atomic store _
  | insert e =>
    apply atomic_of_cases
    obtain hfail | ⟨-, -, heq⟩ := insert_cases store e
    · exact .inl hfail
    · exact .inr (congrArg Prod.fst heq)
  | insertTemplate t =>
    apply atomic_of_cases
    obtain hfail | ⟨-, -, heq⟩ := insertTemplate_cases store t
    · exact .inl hfail
    · exact .inr (congrArg Prod.fst heq)
  | transitionStatus name action =>
    apply discard_atomic
    obtain hfail | ⟨_, _, status, -, -, heq⟩ := transitionStatus_cases store name action
    · exact .inl hfail
    · exact .inr ⟨status, congrArg Prod.fst heq⟩
  | transitionTemplateStatus name action =>
    apply discard_atomic
    obtain hfail | ⟨_, _, status, -, -, heq⟩ := transitionTemplateStatus_cases store name action
    · exact .inl hfail
    · exact .inr ⟨status, congrArg Prod.fst heq⟩
  | replaceExisting name repl =>
    apply atomic_of_cases
    obtain hfail | ⟨_, _, -, -, heq⟩ := replaceExisting_cases store name repl
    · exact .inl hfail
    · exact .inr (congrArg Prod.fst heq)
  | remove name =>
    apply atomic_of_cases
    obtain ⟨-, heq⟩ | ⟨_, -, heq⟩ := remove_cases store name
    · exact .inl ⟨_, heq⟩
    · exact .inr (congrArg Prod.fst heq)
  | removeTemplate name =>
    apply atomic_of_cases
    obtain ⟨-, heq⟩ | ⟨_, -, heq⟩ := removeTemplate_cases store name
    · exact .inl ⟨_, heq⟩
    · exact .inr (congrArg Prod.fst heq)
  | _ => exact MetadataOutcome.atomic hmeta

/-- The answers that go through an index, as scans of the two lists. -/
structure AnswersLikeScan (floatText : F64 → String) (store : ExperienceStore) : Prop where
  candidates : ∀ proposal, store.candidatesFor floatText proposal =
    store.all.filter fun experience =>
      decide (experience.status = .active ∧ experience.trigger.tool = proposal.tool) &&
        experience.trigger.matches floatText proposal
  candidates_nodup : ∀ proposal, (store.candidatesFor floatText proposal).Nodup
  get : ∀ name experience, store.get name = some experience ↔
    experience ∈ store.all ∧ experience.name = name
  unique : ∀ experience ∈ store.all, ∀ other ∈ store.all,
    experience.name = other.name → experience = other
  templates : ∀ proposal, store.templatesFor floatText proposal =
    store.templates.items.filter fun template =>
      decide (template.status = .active ∧ template.trigger.tool = proposal.tool) &&
        template.trigger.matches floatText proposal
  templates_nodup : ∀ proposal, (store.templatesFor floatText proposal).Nodup
  template : ∀ name template, store.template name = some template ↔
    template ∈ store.templates.items ∧ template.name = name
  unique_template : ∀ template ∈ store.templates.items, ∀ other ∈ store.templates.items,
    template.name = other.name → template = other

theorem answersLikeScan_of_wf (ft : F64 → String)
    (h : store.Wf) : AnswersLikeScan ft store := by
  have hcands : ∀ proposal, store.candidatesFor ft proposal =
      store.all.filter fun e =>
        decide (e.status = .active ∧ e.trigger.tool = proposal.tool) &&
          e.trigger.matches ft proposal := by
    intro proposal
    rw [candidatesFor, h.experiences.select_eq_filter]
    refine List.filter_congr fun e _ => ?_
    simp [Experience.activeTool, and_comm]
  have htpls : ∀ proposal, store.templatesFor ft proposal =
      store.templates.items.filter fun t =>
        decide (t.status = .active ∧ t.trigger.tool = proposal.tool) &&
          t.trigger.matches ft proposal := by
    intro proposal
    rw [templatesFor, h.templates.select_eq_filter]
    refine List.filter_congr fun t _ => ?_
    simp [ExperienceTemplate.activeTool, and_comm]
  refine ⟨hcands, ?_, h.experiences.lookup_eq_some_iff, ?_, htpls, ?_,
    h.templates.lookup_eq_some_iff, ?_⟩
  · intro proposal
    rw [hcands]
    exact (List.Nodup.of_map _ h.experiences.nodup).filter _
  · intro e he other ho hname
    exact List.inj_on_of_nodup_map h.experiences.nodup he ho hname
  · intro proposal
    rw [htpls]
    exact (List.Nodup.of_map _ h.templates.nodup).filter _
  · intro t ht other ho hname
    exact List.inj_on_of_nodup_map h.templates.nodup ht ho hname

/-- After every run the indexes answer like linear scans of the stored lists, and an operation
that fails changes no answer. -/
theorem run_answers_like_scan (floatText : F64 → String) (ops : List StoreOp) :
    AnswersLikeScan floatText (run ops) ∧
      ∀ op error, (op.perform (run ops)).1 = .error error → next (run ops) op = run ops :=
  ⟨answersLikeScan_of_wf floatText (wf_run ops), fun op error => perform_atomic (run ops) op error⟩

/-- For every reachable store, loading what a save writes succeeds and gives a store with the
same artifacts in the same order and the same metadata, and hence with the same answers. -/
theorem run_save_load (floatText : F64 → String) (ops : List StoreOp) :
    ∃ store, ExperienceStore.fromJson (run ops).savedJson = .ok store ∧
      store = { run ops with path := none } ∧
      (∀ proposal, store.candidatesFor floatText proposal =
        (run ops).candidatesFor floatText proposal) ∧
      (∀ proposal, store.templatesFor floatText proposal =
        (run ops).templatesFor floatText proposal) ∧
      (∀ name scope, store.isInScope name scope = (run ops).isInScope name scope) ∧
      (∀ name, store.isUsageAllowed name = (run ops).isUsageAllowed name) ∧
      ∀ scope, store.policyForScope scope = (run ops).policyForScope scope := by
  refine ⟨{ run ops with path := none }, ?_, rfl, ?_, ?_, ?_, ?_, ?_⟩
  · rw [fromJson_savedJson, fromFile_toFile (wf_run ops)]
  · exact fun proposal => rfl
  · exact fun proposal => rfl
  · exact fun name scope => rfl
  · exact fun name => rfl
  · exact fun scope => rfl

/-- The operations of a run that succeed in it, in their order. -/
def succeeded : ExperienceStore → List StoreOp → List StoreOp
  | _, [] => []
  | store, op :: ops =>
    if (op.perform store).1.isOk then op :: succeeded (next store op) ops
    else succeeded (next store op) ops

/-- What failed has left no trace: the operations that succeed in a run reach on their own what the
run reaches, and each succeeds again. -/
theorem run_eq_run_succeeded (ops : List StoreOp) :
    Runs.Along next (fun store op => (op.perform store).1 = .ok ()) {} (succeeded {} ops) ∧
      run (succeeded {} ops) = run ops := by
  unfold run
  generalize ({} : ExperienceStore) = store
  induction ops generalizing store with
  | nil => exact ⟨trivial, rfl⟩
  | cons op ops ih =>
    rw [succeeded]
    cases hop : (op.perform store).1 with
    | error error =>
      have hsame : next store op = store := perform_atomic store op error hop
      rw [if_neg (by simp [Except.isOk, Except.toBool]), Runs.run, Runs.run, List.foldl_cons,
        hsame]
      exact ih store
    | ok =>
      rw [if_pos (by simp [Except.isOk, Except.toBool])]
      exact ⟨⟨hop, (ih (next store op)).1⟩, (ih (next store op)).2⟩

end StoreOp

end ExperienceCodex
