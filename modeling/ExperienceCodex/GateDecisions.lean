import ExperienceCodex.Gate
import ExperienceCodex.StoreRuns

/-!
# What the gate decides, and when it returns

Both loops of the decision are searches for the first artifact that is ready: applicable, or with
nothing left to do.  From that it follows for which stores and worlds the gate returns at all.
-/

namespace ExperienceCodex

variable {store : ExperienceStore} {experience : Experience}

section
variable {W : Type} (env : GateEnv W) (context : GateContext) (cancel : ℕ → Bool)

/-- The postconditions are all observed to hold, and there is at least one. -/
def AlreadySatisfied (world : W) (experience : Experience) : Prop :=
  experience.postconditions ≠ [] ∧
    ∀ predicate ∈ experience.postconditions, probePredicate env context world predicate = .true

/-- Neither applicable nor already satisfied. -/
def Idle (world : W) (experience : Experience) : Prop :=
  preconditionsHold env context world experience = false ∧
    ¬ AlreadySatisfied env context world experience

variable (world : W)

lemma factsOf_isSome_iff (ps : List Predicate) :
    (factsOf env context world ps).isSome = true ↔
      ∀ p ∈ ps, probePredicate env context world p = .true := by
  induction ps with
  | nil => simp [factsOf]
  | cons p rest ih =>
    rw [List.forall_mem_cons, ← ih, factsOf, probePredicate]
    cases hobs : env.probe world context p.key with
    | none => simp [Predicate.probe]
    | some observed =>
      by_cases hprobe : p.probe (some observed) = .true
      · simp [hprobe]
      · simp [hprobe]

lemma postconditionFacts_isSome_iff (experience : Experience) :
    (postconditionFacts env context world experience).isSome = true ↔
      AlreadySatisfied env context world experience := by
  unfold postconditionFacts AlreadySatisfied
  by_cases hempty : experience.postconditions = []
  · simp [hempty]
  · simp [hempty, factsOf_isSome_iff]

lemma alreadySatisfied_of_facts {world : W} {facts : List StateFact}
    (h : postconditionFacts env context world experience = some facts) :
    AlreadySatisfied env context world experience := by
  rw [← postconditionFacts_isSome_iff, h]
  rfl

/-- The decision for one experience; `applicable` is the decision when it is applicable. -/
def decisionFor (world : W) (experience : Experience) (applicable : GateDecision) :
    Option GateDecision :=
  if preconditionsHold env context world experience then some applicable
  else
    (postconditionFacts env context world experience).map
      (.satisfied experience.name (tierFor experience))

lemma decisionFor_eq_none_iff (experience : Experience) (applicable : GateDecision) :
    decisionFor env context world experience applicable = none ↔
      Idle env context world experience := by
  unfold decisionFor Idle
  rw [← postconditionFacts_isSome_iff]
  cases preconditionsHold env context world experience with
  | true => simp
  | false => simp

/-- A decision is for an applicable experience or for one that is already satisfied. -/
lemma decisionFor_cases {world : W} {applicable d : GateDecision}
    (h : decisionFor env context world experience applicable = some d) :
    (preconditionsHold env context world experience = true ∧ d = applicable) ∨
      (preconditionsHold env context world experience = false ∧
        ∃ facts, postconditionFacts env context world experience = some facts ∧
          d = .satisfied experience.name (tierFor experience) facts) := by
  unfold decisionFor at h
  cases hready : preconditionsHold env context world experience with
  | true =>
    rw [hready, if_pos rfl] at h
    exact .inl ⟨rfl, (Option.some.inj h).symm⟩
  | false =>
    rw [hready, if_neg Bool.false_ne_true, Option.map_eq_some_iff] at h
    obtain ⟨facts, hfacts, heq⟩ := h
    exact .inr ⟨rfl, facts, hfacts, heq.symm⟩

theorem decideExperiences_eq_findSome (cs : List Experience) :
    decideExperiences env context world cs = cs.findSome? fun c =>
      decisionFor env context world c (.hit c.name (tierFor c)) := by
  induction cs with
  | nil => rfl
  | cons c rest ih =>
    rw [List.findSome?_cons, ← ih, decideExperiences, decisionFor]
    cases preconditionsHold env context world c with
    | true => rfl
    | false => cases postconditionFacts env context world c <;> rfl

/-- The decision for a template that binds. -/
def templateDecision (proposal : ActionProposal) (world : W) (template : ExperienceTemplate) :
    Option GateDecision :=
  match template.bind env.floatText proposal context.cwd with
  | .error _ => none
  | .ok (instantiated, bindings) =>
    decisionFor env context world instantiated
      (.templateHit instantiated.name (tierFor instantiated) bindings
        (template.bindingFingerprint bindings) instantiated)

theorem decideTemplates_eq_findSome (proposal : ActionProposal) (world : W)
    (ts : List ExperienceTemplate) :
    decideTemplates env context proposal world ts =
      ts.findSome? (templateDecision env context proposal world) := by
  induction ts with
  | nil => rfl
  | cons t rest ih =>
    rw [List.findSome?_cons, ← ih, decideTemplates, templateDecision]
    cases t.bind env.floatText proposal context.cwd with
    | error error => rfl
    | ok bound =>
      obtain ⟨inst, bs⟩ := bound
      simp only [decisionFor]
      cases preconditionsHold env context world inst with
      | true => rfl
      | false => cases postconditionFacts env context world inst <;> rfl

/-- No binding of the template is ready. -/
def TemplateIdle (proposal : ActionProposal) (world : W) (template : ExperienceTemplate) : Prop :=
  ∀ instantiated bindings,
    template.bind env.floatText proposal context.cwd = .ok (instantiated, bindings) →
      Idle env context world instantiated

lemma templateDecision_eq_none_iff (proposal : ActionProposal) (world : W)
    (template : ExperienceTemplate) :
    templateDecision env context proposal world template = none ↔
      TemplateIdle env context proposal world template := by
  unfold templateDecision TemplateIdle
  cases template.bind env.floatText proposal context.cwd with
  | error error => simp
  | ok bound =>
    obtain ⟨inst, bs⟩ := bound
    simp only [decisionFor_eq_none_iff]
    constructor
    · rintro h _ _ ⟨⟩
      exact h
    · exact fun h => h inst bs rfl

variable {proposal : ActionProposal}

lemma bind_name {ft : F64 → String} {t : ExperienceTemplate} {cwd : String}
    {inst : Experience} {bs : Bindings}
    (h : t.bind ft proposal cwd = .ok (inst, bs)) :
    inst.name = t.name := by
  unfold ExperienceTemplate.bind at h
  simp only [bind_eq_ok_iff] at h
  obtain ⟨_, -, _, -, _, -, _, -, _, -, heq⟩ := h
  cases heq
  rfl

/-- The stored experience, or the bound template, that a decision is about. -/
inductive DecidedBy (store : ExperienceStore) (proposal : ActionProposal) (world : W) :
    GateDecision → Prop
  | miss : DecidedBy store proposal world .miss
  | stored {candidate : Experience} {decision : GateDecision}
      (hmem : candidate ∈ store.candidatesFor env.floatText proposal)
      (hdecision : decisionFor env context world candidate
        (.hit candidate.name (tierFor candidate)) = some decision) :
      DecidedBy store proposal world decision
  | bound {earlier later : List ExperienceTemplate} {template : ExperienceTemplate}
      {instantiated : Experience} {bindings : Bindings} {decision : GateDecision}
      (hidle : ∀ candidate ∈ store.candidatesFor env.floatText proposal,
        Idle env context world candidate)
      (htemplates : store.templatesFor env.floatText proposal = earlier ++ template :: later)
      (hearlier : ∀ other ∈ earlier, TemplateIdle env context proposal world other)
      (hbind : template.bind env.floatText proposal context.cwd = .ok (instantiated, bindings))
      (hdecision : decisionFor env context world instantiated
        (.templateHit instantiated.name (tierFor instantiated) bindings
          (template.bindingFingerprint bindings) instantiated) = some decision) :
      DecidedBy store proposal world decision

lemma decideExperiences_eq_none_iff (cs : List Experience) :
    decideExperiences env context world cs = none ↔
      ∀ candidate ∈ cs, Idle env context world candidate := by
  rw [decideExperiences_eq_findSome, List.findSome?_eq_none_iff]
  simp only [decisionFor_eq_none_iff]

theorem decidedBy_decideGate (store : ExperienceStore) (proposal : ActionProposal) (world : W) :
    DecidedBy env context store proposal world
      (decideGate env context store proposal world) := by
  unfold decideGate
  cases hstored : decideExperiences env context world
      (store.candidatesFor env.floatText proposal) with
  | some d =>
    rw [decideExperiences_eq_findSome] at hstored
    obtain ⟨c, hmem, hdec⟩ := List.exists_of_findSome?_eq_some hstored
    exact .stored hmem hdec
  | none =>
    have hidle := (decideExperiences_eq_none_iff env context world _).mp hstored
    rw [decideTemplates_eq_findSome]
    cases hbound : (store.templatesFor env.floatText proposal).findSome?
        (templateDecision env context proposal world) with
    | none => exact .miss
    | some d =>
      obtain ⟨earlier, template, later, htpls, hdec, hearlier⟩ :=
        List.findSome?_eq_some_iff.mp hbound
      have hidles : ∀ other ∈ earlier, TemplateIdle env context proposal world other :=
        fun other hmem => (templateDecision_eq_none_iff ..).mp (hearlier other hmem)
      unfold templateDecision at hdec
      cases hbind : template.bind env.floatText proposal context.cwd with
      | error error =>
        rw [hbind] at hdec
        cases hdec
      | ok pair =>
        rw [hbind] at hdec
        exact .bound hidle htpls hidles hbind hdec

/-- The name that `execute` looks up is stored. -/
def Resolves (store : ExperienceStore) : GateDecision → Prop
  | .hit name _ => (store.get name).isSome = true
  | .satisfied name _ _ => (store.get name).isSome = true
  | .templateHit .. => True
  | .miss => True

lemma gate_returns_iff_resolves (store : ExperienceStore) (proposal : ActionProposal) (world : W) :
    (∃ o, (gate env context cancel store proposal world).1 = .ok o) ↔
      Resolves store (decideGate env context store proposal world) := by
  unfold gate
  cases decideGate env context store proposal world with
  | miss => simp [Resolves]
  | hit name tier =>
    cases hget : store.get name <;> simp [Resolves, executeDecision, hget, Except.map]
  | satisfied name tier facts =>
    cases hget : store.get name <;> simp [Resolves, executeDecision, hget, Except.map]
  | templateHit name tier bs fingerprint inst =>
    simp [Resolves, executeDecision, Except.map]

/-- No candidate is ready, and the first template with a ready binding is already satisfied, not
applicable, and shares its name with no stored experience. -/
def SatisfiedTemplateFirst (store : ExperienceStore) (proposal : ActionProposal) (world : W) :
    Prop :=
  (∀ candidate ∈ store.candidatesFor env.floatText proposal, Idle env context world candidate) ∧
    ∃ earlier template later instantiated bindings,
      store.templatesFor env.floatText proposal = earlier ++ template :: later ∧
      (∀ other ∈ earlier, TemplateIdle env context proposal world other) ∧
      template.bind env.floatText proposal context.cwd = .ok (instantiated, bindings) ∧
      preconditionsHold env context world instantiated = false ∧
      AlreadySatisfied env context world instantiated ∧
      ∀ experience ∈ store.all, experience.name ≠ template.name

lemma get_isSome_of_mem (h : store.Wf)
    (hmem : experience ∈ store.all) : (store.get experience.name).isSome = true := by
  have hget : store.get experience.name = some experience :=
    (h.experiences.lookup_eq_some_iff _ _).mpr ⟨hmem, rfl⟩
  rw [hget]
  rfl

lemma get_isSome_iff (h : store.Wf) (name : String) :
    (store.get name).isSome = true ↔ ∃ experience ∈ store.all, experience.name = name := by
  constructor
  · intro hsome
    obtain ⟨experience, hget⟩ := Option.isSome_iff_exists.mp hsome
    have hstored := (h.experiences.lookup_eq_some_iff _ _).mp hget
    exact ⟨experience, hstored.1, hstored.2⟩
  · rintro ⟨experience, hmem, rfl⟩
    exact get_isSome_of_mem h hmem

lemma mem_of_candidate (h : store.Wf) {ft : F64 → String} {c : Experience}
    (hmem : c ∈ store.candidatesFor ft proposal) :
    c ∈ store.all ∧ c.status = .active ∧
      c.trigger.matches ft proposal = true := by
  rw [(StoreOp.answersLikeScan_of_wf ft h).candidates, List.mem_filter] at hmem
  obtain ⟨hstored, hactive⟩ := hmem
  simp only [Bool.and_eq_true, decide_eq_true_eq] at hactive
  exact ⟨hstored, hactive.1.1, hactive.2⟩

/-- On every store that operations can build, the gate returns unless the first ready artifact is
a template that is already satisfied and whose name no stored experience has. -/
theorem gate_returns_iff (ops : List StoreOp) (proposal : ActionProposal) (world : W) :
    (∃ outcome, (gate env context cancel (StoreOp.run ops) proposal world).1 = .ok outcome) ↔
      ¬ SatisfiedTemplateFirst env context (StoreOp.run ops) proposal world := by
  have hwf := StoreOp.wf_run ops
  generalize StoreOp.run ops = store at hwf ⊢
  rw [gate_returns_iff_resolves]
  constructor
  · -- the case that `execute` does not expect
    rintro hresolves ⟨hidle, earlier, template, later, instantiated, bindings, htpls, hearlier,
      hbind, hpre, hsat, hunstored⟩
    obtain ⟨facts, hfacts⟩ := Option.isSome_iff_exists.mp
      ((postconditionFacts_isSome_iff env context world instantiated).mpr hsat)
    have hnone := (decideExperiences_eq_none_iff env context world _).mpr hidle
    have hfst : (earlier ++ template :: later).findSome?
        (templateDecision env context proposal world) =
          some (.satisfied instantiated.name (tierFor instantiated) facts) := by
      refine List.findSome?_eq_some_iff.mpr ⟨earlier, template, later, rfl, ?_, fun other hmem =>
        (templateDecision_eq_none_iff ..).mpr (hearlier other hmem)⟩
      simp [templateDecision, hbind, decisionFor, hpre, hfacts]
    rw [decideGate, hnone, decideTemplates_eq_findSome, htpls, hfst] at hresolves
    obtain ⟨experience, hmem, hname⟩ := (get_isSome_iff hwf _).mp hresolves
    exact hunstored experience hmem (hname.trans (bind_name hbind))
  · intro hnot
    have hdecided := decidedBy_decideGate env context store proposal world
    generalize decideGate env context store proposal world = decision at hdecided
    cases hdecided with
    | miss => trivial
    | stored hmem hdecision =>
      have hget := get_isSome_of_mem hwf (mem_of_candidate hwf hmem).1
      obtain ⟨-, rfl⟩ | ⟨-, facts, -, rfl⟩ := decisionFor_cases env context hdecision
      · exact hget
      · exact hget
    | @bound earlier later template instantiated bindings _ hidle htemplates hearlier hbind
        hdecision =>
      obtain ⟨-, rfl⟩ | ⟨hpre, facts, hfacts, rfl⟩ := decisionFor_cases env context hdecision
      · trivial
      · rw [Resolves, get_isSome_iff hwf, bind_name hbind]
        by_contra hunstored
        push Not at hunstored
        exact hnot ⟨hidle, earlier, template, later, instantiated, bindings, htemplates, hearlier,
          hbind, hpre, alreadySatisfied_of_facts env context hfacts, hunstored⟩

end

/-- A template that writes a note where there is none. -/
def writeNoteTemplate : ExperienceTemplate where
  name := "note"
  trigger := { tool := "task", commandPattern := none }
  parameters := []
  workflow := [{ action := "write_file", args := .object [("path", .string "note.txt")] }]
  preconditions := [{ key := "file:note.txt.exists", expected := .bool false }]
  postconditions := [{ key := "file:note.txt.exists", expected := .bool true }]
  verification := []
  failurePolicy := .stopAndReport
  undo := .unsupported
  status := .active

/-- Surroundings in which the note exists. -/
def noteWritten : GateEnv Unit where
  probe _ _ key := if key = "file:note.txt.exists" then some (.bool true) else none
  run _ _ _ := (.error "unsupported action", ())
  readToString _ _ := .ok ""
  clock _ := 0
  floatText _ := "0.0"

/-- Asked again after the note was written, the gate panics: the name of the template is looked up
among the experiences. -/
theorem gate_panics_on_satisfied_template :
    (gate noteWritten { cwd := "/work" } (fun _ => false)
      (StoreOp.run [.insertTemplate writeNoteTemplate]) { tool := "task", args := .null } ()).1 =
        .error (.leftTheStore "note") := by
  rfl

end ExperienceCodex
