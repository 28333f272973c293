import ExperienceCodex.InduceRender

/-!
# Binding an induced template

Binding a template to the request of a run captures the parameters and renders the workflow and the
conditions.  The conditions of an induced template are read off its workflow and render whenever it
does, so that the run is reproduced when the parameters can be captured and the arguments render to
those of the run.
-/

namespace ExperienceCodex

open List hiding contains after
open Text

variable {predicate : Predicate} {workflow : List WorkflowStep}

/-- The values of a run by the names of the parameters; of two parameters with one name the later
one counts. -/
def boundValues (second : Bool) (entries : List Entry) (bindings : Bindings) : Bindings :=
  entries.foldl (fun bindings entry =>
    bindings.insert entry.name (pick second entry.valueA entry.valueB)) bindings

/-- The proposal of a request. -/
def requestProposal (tool task : String) : ActionProposal :=
  { tool, args := .object [("task", .string task)] }

lemma validateValue_parameter (e : Entry) (value : String) :
    validateValue e.parameter value = .ok () ↔
      (looksLikePath e.valueA e.valueB = true → pathValueError value = none) := by
  have htext : paramKindText ≠ paramKindPath := by decide
  have htoken : paramKindText ≠ paramKindToken := by decide
  unfold validateValue Entry.parameter
  cases hpath : looksLikePath e.valueA e.valueB with
  | false => simp [htext, htoken]
  | true => cases herr : pathValueError value <;> simp

/-- Capturing the parameters of the entries gives the values of the run, unless one of them is not
allowed. -/
lemma captureParameters_entries (ft : F64 → String) (tool cwd task : String) (second : Bool)
    {es : List Entry}
    (hcaptured : ∀ e ∈ es, captureParameter task e.before e.after =
      some (pick second e.valueA e.valueB))
    (hne : ∀ e ∈ es, pick second e.valueA e.valueB ≠ "")
    (bindings result : Bindings) :
    captureParameters ft (requestProposal tool task) cwd (es.map Entry.parameter)
        bindings = .ok result ↔
      (∀ e ∈ es, looksLikePath e.valueA e.valueB = true →
        pathValueError (pick second e.valueA e.valueB) = none) ∧
      boundValues second es bindings = result := by
  induction es generalizing bindings with
  | nil => simp [captureParameters, boundValues]
  | cons e rest ih =>
    have hsrc : sourceText ft e.parameter.source (requestProposal tool task) cwd =
        task := rfl
    have hval := hcaptured e mem_cons_self
    have hempty : (pick second e.valueA e.valueB).isEmpty = false := by
      simpa using hne e mem_cons_self
    have hrest := ih (forall_mem_of_forall_mem_cons hcaptured)
      (forall_mem_of_forall_mem_cons hne)
      (bindings.insert e.name (pick second e.valueA e.valueB))
    rw [map_cons, captureParameters, hsrc]
    simp only [show e.parameter.before = e.before from rfl,
      show e.parameter.after = e.after from rfl, hval, hempty, Bool.not_false, if_true]
    rw [forall_mem_cons, ← validateValue_parameter, and_assoc]
    cases hvalid : validateValue e.parameter (pick second e.valueA e.valueB) with
    | error error => simp
    | ok allowed =>
      rw [eq_self_iff_true, true_and]
      exact hrest

lemma mem_of_mem_foldl_pushUnique {predicates collected : List Predicate} {other : Predicate}
    (h : other ∈ predicates.foldl pushUnique collected) :
    other ∈ collected ∨ other ∈ predicates := by
  induction predicates generalizing collected with
  | nil => exact .inl h
  | cons predicate rest ih =>
    obtain hcollected | hrest := ih h
    · unfold pushUnique at hcollected
      split_ifs at hcollected
      · exact .inl hcollected
      · obtain hold | hnew := mem_append.mp hcollected
        · exact .inl hold
        · exact .inr (mem_singleton.mp hnew ▸ mem_cons_self)
    · exact .inr (mem_cons_of_mem _ hrest)

/-- A predicate about a file that an argument of the step names. -/
def AboutArgument (step : WorkflowStep) (predicate : Predicate) : Prop :=
  ∃ key file, (step.args.get key).bind Json.asStr = some file ∧
    ((∃ expected, predicate = fileExists file expected) ∨
      ∃ content, contains content "$\x7b" = false ∧ predicate = fileContent file content)

lemma aboutArgument_of_mem {step : WorkflowStep} {key : String} {expected : Bool}
    (h : predicate ∈ (((step.args.get key).bind Json.asStr).map
      fun file => fileExists file expected).toList) : AboutArgument step predicate := by
  rw [Option.mem_toList, Option.map_eq_some_iff] at h
  obtain ⟨file, hfile, rfl⟩ := h
  exact ⟨key, file, hfile, .inl ⟨expected, rfl⟩⟩

lemma aboutArgument_of_mem_stepEffects {step : WorkflowStep}
    (h : predicate ∈ (stepEffects step).1 ∨ predicate ∈ (stepEffects step).2) :
    AboutArgument step predicate := by
  simp only [stepEffects] at h
  split_ifs at h
  · obtain h | h := h
    · exact aboutArgument_of_mem h
    · obtain h | h := mem_append.mp h <;> exact aboutArgument_of_mem h
  · exact h.elim aboutArgument_of_mem aboutArgument_of_mem
  · exact h.elim aboutArgument_of_mem aboutArgument_of_mem
  · exact h.elim (fun h => nomatch h) aboutArgument_of_mem
  · cases hfile : (step.args.get "path").bind Json.asStr with
    | none =>
      rw [hfile] at h
      exact h.elim (fun h => nomatch h) (fun h => nomatch h)
    | some file =>
      rw [hfile] at h
      have hwritten : predicate = fileExists file true → AboutArgument step predicate :=
        fun heq => ⟨"path", file, hfile, .inl ⟨true, heq⟩⟩
      cases hcont : (step.args.get "content").bind Json.asStr with
      | none =>
        rw [hcont] at h
        exact h.elim (fun h => nomatch h) fun h => hwritten (mem_singleton.mp h)
      | some v =>
        rw [hcont] at h
        dsimp only at h
        split_ifs at h with hasserted
        · exact h.elim (fun h => nomatch h) fun h => hwritten (mem_singleton.mp h)
        · rw [Bool.or_eq_true, not_or, Bool.not_eq_true] at hasserted
          obtain h | h := h
          · exact nomatch h
          · obtain h | h := mem_cons.mp h
            · exact hwritten h
            · exact ⟨"path", file, hfile,
                .inr ⟨v, hasserted.1, mem_singleton.mp h⟩⟩
  · exact h.elim aboutArgument_of_mem (fun h => nomatch h)
  · exact h.elim (fun h => nomatch h) (fun h => nomatch h)

section
variable {bindings : Bindings}

lemma renderString_of_renderMembers {members rendered : List (String × Json)}
    (h : renderMembers bindings members = .ok rendered) {key text : String}
    (hlook : members.lookup key = some (.string text)) :
    ∃ output, renderString text bindings = .ok output := by
  induction members generalizing rendered with
  | nil => cases hlook
  | cons member rest ih =>
    rw [renderMembers] at h
    obtain ⟨value, hval, h⟩ := bind_eq_ok_iff.mp h
    obtain ⟨others, hothers, -⟩ := bind_eq_ok_iff.mp h
    rw [lookup_cons] at hlook
    split at hlook
    · rw [Option.some.inj hlook, renderValue] at hval
      obtain ⟨output, houtput, -⟩ := bind_eq_ok_iff.mp hval
      exact ⟨output, houtput⟩
    · exact ih hothers hlook

variable {rendered : List WorkflowStep}

/-- When the workflow renders, so do the conditions that were read off it. -/
lemma renderPredicate_of_mem_effectsFor
    (h : renderSteps bindings workflow = .ok rendered)
    (hmem : predicate ∈ (effectsFor workflow).1 ∨ predicate ∈ (effectsFor workflow).2.1) :
    ∃ result, renderPredicate bindings predicate = .ok result := by
  obtain ⟨step, hstep, habout⟩ : ∃ step ∈ workflow, AboutArgument step predicate := by
    obtain h | h := hmem
    · obtain h | h := mem_of_mem_foldl_pushUnique h
      · cases h
      · obtain ⟨step, hstep, h⟩ := mem_flatMap.mp h
        exact ⟨step, hstep, aboutArgument_of_mem_stepEffects (.inl h)⟩
    · obtain h | h := mem_of_mem_foldl_pushUnique h
      · cases h
      · obtain ⟨step, hstep, h⟩ := mem_flatMap.mp h
        exact ⟨step, hstep, aboutArgument_of_mem_stepEffects (.inr h)⟩
  obtain ⟨result, -, hres⟩ := exists_of_mapM_ok h step hstep
  obtain ⟨args, hargs, -⟩ := bind_eq_ok_iff.mp hres
  obtain ⟨key, file, hfile, h⟩ := habout
  obtain ⟨value, hval, htext⟩ := Option.bind_eq_some_iff.mp hfile
  -- The file is named by a text of the arguments, and all texts of the arguments render.
  have hrend : ∃ output, renderString file bindings = .ok output := by
    cases hmembers : step.args with
    | object members =>
      rw [hmembers] at hval hargs
      cases value with
      | string text =>
        cases htext
        rw [renderValue] at hargs
        obtain ⟨rendered, hrend, -⟩ := bind_eq_ok_iff.mp hargs
        exact renderString_of_renderMembers hrend hval
      | _ => cases htext
    | _ =>
      rw [hmembers] at hval
      cases hval
  obtain ⟨output, houtput⟩ := hrend
  obtain ⟨expected, rfl⟩ | ⟨v, hcont, rfl⟩ := h
  · refine ⟨{ key := "file:" ++ output ++ ".exists", expected := .bool expected }, ?_⟩
    rw [renderPredicate, fileExists,
      renderString_around houtput (by decide) (by decide) (by decide)]
    rfl
  · refine ⟨{ key := "file:" ++ output ++ ".content", expected := .string v }, ?_⟩
    rw [renderPredicate, fileContent,
      renderString_around houtput (by decide) (by decide) (by decide), ok_bind, renderValue,
      renderString_literal bindings hcont]
    rfl

end

/-- The same actions with equal arguments. -/
def SameSteps (workflow : List WorkflowStep) (observed : List ObservedStep) : Prop :=
  List.Forall₂ (fun step seen => step.action = seen.action ∧ step.args.jsonEq seen.args = true)
    workflow observed

/-- Binding the template to the request of a run gives the steps of the run. -/
def Reproduces (floatText : F64 → String) (tool cwd : String) (template : ExperienceTemplate)
    (observed : ObservedTask) : Prop :=
  ∃ experience bindings,
    template.bind floatText (requestProposal tool observed.task) cwd = .ok (experience, bindings) ∧
      SameSteps experience.workflow observed.steps

lemma sameSteps_iff {observed : List ObservedStep} :
    SameSteps workflow observed ↔
      workflow.map WorkflowStep.action = observed.map ObservedStep.action ∧
        Json.arrayEq (workflow.map WorkflowStep.args) (observed.map ObservedStep.args) = true := by
  induction workflow generalizing observed with
  | nil => cases observed <;> simp [SameSteps, Json.arrayEq]
  | cons step rest ih =>
    cases observed with
    | nil => simp [SameSteps]
    | cons seen others =>
      rw [SameSteps, List.forall₂_cons, ← SameSteps, ih]
      simp only [map_cons, List.cons.injEq, Json.arrayEq, Bool.and_eq_true]
      tauto

/-- Rendering the steps is rendering their arguments. -/
lemma renderValues_args_iff {bindings : Bindings} {args : List Json} :
    renderValues bindings (workflow.map WorkflowStep.args) = .ok args ↔
      ∃ rendered, renderSteps bindings workflow = .ok rendered ∧
        rendered.map WorkflowStep.action = workflow.map WorkflowStep.action ∧
        rendered.map WorkflowStep.args = args := by
  induction workflow generalizing args with
  | nil =>
    constructor
    · rintro ⟨⟩
      exact ⟨[], rfl, rfl, rfl⟩
    · rintro ⟨rendered, hrend, -, rfl⟩
      cases hrend
      rfl
  | cons step rest ih =>
    rw [map_cons, renderValues, renderSteps, mapM_cons]
    rw [renderSteps] at ih
    simp only [bind_eq_ok_iff]
    constructor
    · rintro ⟨first, hfst, others, hothers, heq⟩
      cases heq
      obtain ⟨rendered, hrend, hacts, hargs⟩ := ih.mp hothers
      refine ⟨{ action := step.action, args := first } :: rendered,
        ⟨_, ⟨first, hfst, rfl⟩, rendered, hrend, rfl⟩, ?_, ?_⟩
      · rw [map_cons, map_cons, hacts]
      · rw [map_cons, hargs]
    · rintro ⟨rendered, ⟨first, ⟨value, hval, hfst⟩, others, hothers, heq⟩, hacts, rfl⟩
      cases hfst
      cases heq
      rw [map_cons, map_cons, List.cons.injEq] at hacts
      exact ⟨value, hval, _, ih.mpr ⟨others, hothers, hacts.2, rfl⟩, rfl⟩

lemma map_action_of_renderSteps {bindings : Bindings}
    (h : renderSteps bindings workflow = .ok rendered) :
    rendered.map WorkflowStep.action = workflow.map WorkflowStep.action := by
  induction workflow generalizing rendered with
  | nil =>
    cases h
    rfl
  | cons step rest ih =>
    rw [renderSteps, mapM_cons] at h
    obtain ⟨first, hfst, h⟩ := bind_eq_ok_iff.mp h
    obtain ⟨others, hothers, heq⟩ := bind_eq_ok_iff.mp h
    obtain ⟨args, -, hstep⟩ := bind_eq_ok_iff.mp hfst
    cases hstep
    cases heq
    rw [map_cons, map_cons, ih hothers]

/-- The workflow of the bound template is that of the run when its arguments render to those of the
run. -/
lemma exists_renderSteps_iff {bindings : Bindings}
    {observed : ObservedTask} (hacts : workflow.map WorkflowStep.action = observed.actions) :
    (∃ rendered, renderSteps bindings workflow = .ok rendered ∧
        SameSteps rendered observed.steps) ↔
      ItemsRender bindings (workflow.map WorkflowStep.args) observed.args := by
  constructor
  · rintro ⟨rendered, hrend, hsame⟩
    refine ⟨rendered.map WorkflowStep.args, ?_, (sameSteps_iff.mp hsame).2⟩
    exact renderValues_args_iff.mpr ⟨rendered, hrend, map_action_of_renderSteps hrend, rfl⟩
  · rintro ⟨args, hargs, hequal⟩
    obtain ⟨rendered, hrend, hkept, rfl⟩ := renderValues_args_iff.mp hargs
    exact ⟨rendered, hrend, sameSteps_iff.mpr ⟨hkept.trans hacts, hequal⟩⟩

/-- An induced template reproduces a run exactly when its parameters can be captured from the
request and its arguments then render to those of the run. -/
lemma reproduces_iff_items {ft : F64 → String} {tool cwd : String}
    {t : ExperienceTemplate} {observed : ObservedTask}
    (heffects : (t.preconditions, t.postconditions, t.verification) =
      effectsFor t.workflow)
    (hacts : t.workflow.map WorkflowStep.action = observed.actions) :
    Reproduces ft tool cwd t observed ↔
      ∃ bindings, captureParameters ft (requestProposal tool observed.task) cwd
          t.parameters ∅ = .ok bindings ∧
        ItemsRender bindings (t.workflow.map WorkflowStep.args) observed.args := by
  constructor
  · rintro ⟨e, bindings, hbind, hsame⟩
    simp only [ExperienceTemplate.bind, bind_eq_ok_iff] at hbind
    obtain ⟨captured, hcaptured, preconditions, -, workflow, hworkflow, postconditions, -,
      verification, -, heq⟩ := hbind
    cases heq
    exact ⟨bindings, hcaptured, (exists_renderSteps_iff hacts).mp ⟨workflow, hworkflow, hsame⟩⟩
  · rintro ⟨bindings, hcaptured, hitems⟩
    obtain ⟨workflow, hworkflow, hsame⟩ := (exists_renderSteps_iff hacts).mpr hitems
    have hpre : ∀ predicate ∈ t.preconditions,
        ∃ result, renderPredicate bindings predicate = .ok result := by
      rw [show t.preconditions = (effectsFor t.workflow).1 by rw [← heffects]]
      exact fun _ hmem => renderPredicate_of_mem_effectsFor hworkflow (.inl hmem)
    have hpost : ∀ predicate ∈ t.postconditions,
        ∃ result, renderPredicate bindings predicate = .ok result := by
      rw [show t.postconditions = (effectsFor t.workflow).2.1 by rw [← heffects]]
      exact fun _ hmem => renderPredicate_of_mem_effectsFor hworkflow (.inr hmem)
    have hverify : ∀ step ∈ t.verification,
        ∃ result, renderVerification bindings step = .ok result := by
      rw [show t.verification = (effectsFor t.workflow).2.2 by rw [← heffects]]
      intro step hmem
      obtain ⟨predicate, hpredicate, rfl⟩ := mem_map.mp hmem
      obtain ⟨result, hres⟩ := renderPredicate_of_mem_effectsFor hworkflow (.inr hpredicate)
      exact ⟨.probe result, by rw [renderVerification, hres]; rfl⟩
    obtain ⟨preconditions, hpreconditions⟩ := exists_mapM_ok hpre
    obtain ⟨postconditions, hpostconditions⟩ := exists_mapM_ok hpost
    obtain ⟨verification, hverification⟩ := exists_mapM_ok hverify
    simp only [Reproduces, ExperienceTemplate.bind, hcaptured, hpreconditions, hworkflow,
      hpostconditions, hverification, ok_bind]
    exact ⟨_, _, rfl, hsame⟩

end ExperienceCodex
