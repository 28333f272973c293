import ExperienceCodex.LocalGate

/-!
# What the user decided, and the embedded gate

A user may deny the use of an artifact, and may assign it to a scope that has a policy of its own.
The server looks at both before it runs an experience.  The embedded gate looks at neither: it takes
the first artifact that is ready, and its runner has the global policy.
-/

namespace ExperienceCodex

open FileTree

/-- What the gate is loaded with. -/
structure EmbeddedRuntime where
  store : ExperienceStore
  runner : LocalRunner

/-- A runtime for a store that could be opened; the directory for backups may be set outside. -/
def loadRuntime (backupRoot : Option String) (store : ExperienceStore) : EmbeddedRuntime where
  store := store
  runner :=
    match backupRoot with
    | some root => .withBackupAndPolicy root store.globalPolicy
    | none => .withPolicy store.globalPolicy

/-- The surroundings of the embedded gate. -/
def EmbeddedRuntime.env (runtime : EmbeddedRuntime) (machine : Machine)
    (clock : Tree FileName ByteArray → UInt64) (floatText : F64 → String) :
    GateEnv (Tree FileName ByteArray) :=
  localEnv (hostFs machine.cwd) (fun tree context step =>
    runtime.runner.run machine context tree step)
    clock floatText

/-- The policy under which the server runs an experience. -/
def effectivePolicyFor (store : ExperienceStore) (name : String) (sessionScope : Option String) :
    CapabilityPolicy :=
  match store.scopes[name]? with
  | some scope => store.policyForScope (some scope)
  | none => store.policyForScope sessionScope

/-- The artifact that a decision takes the proposal over for, and whether it is executed. -/
def GateDecision.takenOver : GateDecision → Option (String × Bool)
  | .miss => none
  | .hit name _ => some (name, true)
  | .satisfied name _ _ => some (name, false)
  | .templateHit name _ _ _ _ => some (name, true)

section
variable {W : Type} (env : GateEnv W) (context : GateContext)

/-- The first artifact that is ready for a proposal, and whether it is applicable. -/
inductive FirstReady (store : ExperienceStore) (proposal : ActionProposal) (world : W) :
    String → Bool → Prop
  | stored {earlier later : List Experience} {candidate : Experience}
      (hcandidates : store.candidatesFor env.floatText proposal = earlier ++ candidate :: later)
      (hearlier : ∀ other ∈ earlier, Idle env context world other)
      (hready : ¬ Idle env context world candidate) :
      FirstReady store proposal world candidate.name (preconditionsHold env context world candidate)
  | bound {earlier later : List ExperienceTemplate} {template : ExperienceTemplate}
      {instantiated : Experience} {bindings : Bindings}
      (hidle : ∀ candidate ∈ store.candidatesFor env.floatText proposal,
        Idle env context world candidate)
      (htemplates : store.templatesFor env.floatText proposal = earlier ++ template :: later)
      (hearlier : ∀ other ∈ earlier, TemplateIdle env context proposal world other)
      (hbind : template.bind env.floatText proposal context.cwd = .ok (instantiated, bindings))
      (hready : ¬ Idle env context world instantiated) :
      FirstReady store proposal world template.name
        (preconditionsHold env context world instantiated)

/-- The decision for an artifact names it, and executes it if it is applicable. -/
lemma takenOver_decisionFor {world : W} {e : Experience}
    {applicable d : GateDecision}
    (happlicable : applicable.takenOver = some (e.name, true))
    (h : decisionFor env context world e applicable = some d) :
    d.takenOver = some (e.name, preconditionsHold env context world e) := by
  obtain ⟨hpre, rfl⟩ | ⟨hpre, facts, -, rfl⟩ := decisionFor_cases env context h
  · rw [happlicable, hpre]
  · rw [hpre]
    rfl

lemma exists_decisionFor {world : W} {e : Experience}
    (hready : ¬ Idle env context world e) (applicable : GateDecision) :
    ∃ decision, decisionFor env context world e applicable = some decision := by
  rw [← Option.ne_none_iff_exists']
  exact mt (decisionFor_eq_none_iff env context world e applicable).mp hready

lemma takenOver_of_firstReady {store : ExperienceStore} {proposal : ActionProposal} {world : W}
    {name : String} {executed : Bool}
    (h : FirstReady env context store proposal world name executed) :
    (decideGate env context store proposal world).takenOver = some (name, executed) := by
  cases h with
  | @stored earlier later candidate hcands hearlier hready =>
    obtain ⟨decision, hdec⟩ := exists_decisionFor env context hready
      (.hit candidate.name (tierFor candidate))
    have hfst : decideExperiences env context world
        (store.candidatesFor env.floatText proposal) = some decision := by
      rw [decideExperiences_eq_findSome, hcands]
      exact List.findSome?_eq_some_iff.mpr ⟨earlier, candidate, later, rfl, hdec,
        fun other hmem => (decisionFor_eq_none_iff ..).mpr (hearlier other hmem)⟩
    rw [decideGate, hfst]
    exact takenOver_decisionFor env context rfl hdec
  | @bound earlier later template inst bs hidle htpls hearlier hbind hready =>
    obtain ⟨decision, hdec⟩ := exists_decisionFor env context hready
      (.templateHit inst.name (tierFor inst) bs
        (template.bindingFingerprint bs) inst)
    have hnone := (decideExperiences_eq_none_iff env context world _).mpr hidle
    have hfst : decideTemplates env context proposal world
        (store.templatesFor env.floatText proposal) = some decision := by
      rw [decideTemplates_eq_findSome, htpls]
      refine List.findSome?_eq_some_iff.mpr ⟨earlier, template, later, rfl, ?_, fun other hmem =>
        (templateDecision_eq_none_iff ..).mpr (hearlier other hmem)⟩
      rw [templateDecision, hbind]
      exact hdec
    rw [decideGate, hnone, hfst, ← bind_name hbind]
    exact takenOver_decisionFor env context rfl hdec

lemma firstReady_of_takenOver {store : ExperienceStore} {proposal : ActionProposal} {world : W}
    {name : String} {executed : Bool}
    (h : (decideGate env context store proposal world).takenOver = some (name, executed)) :
    FirstReady env context store proposal world name executed := by
  have hready : ∀ {experience : Experience} {applicable d : GateDecision},
      decisionFor env context world experience applicable = some d →
        ¬ Idle env context world experience := by
    intro experience applicable d hdec hidle
    rw [(decisionFor_eq_none_iff env context world experience applicable).mpr hidle] at hdec
    cases hdec
  cases hstored : decideExperiences env context world
      (store.candidatesFor env.floatText proposal) with
  | some d =>
    rw [decideGate, hstored] at h
    rw [decideExperiences_eq_findSome] at hstored
    obtain ⟨earlier, candidate, later, hcands, hdec, hearlier⟩ :=
      List.findSome?_eq_some_iff.mp hstored
    have htaken := takenOver_decisionFor env context rfl hdec
    rw [h] at htaken
    cases htaken
    exact .stored hcands
      (fun other hmem => (decisionFor_eq_none_iff ..).mp (hearlier other hmem)) (hready hdec)
  | none =>
    have hidle := (decideExperiences_eq_none_iff env context world _).mp hstored
    have hdecided := decidedBy_decideGate env context store proposal world
    generalize decideGate env context store proposal world = d at h hdecided
    cases hdecided with
    | miss => cases h
    | stored hmem hdec => exact absurd (hidle _ hmem) (hready hdec)
    | @bound earlier later t inst bs _ hidles htpls hearlier hbind
        hdec =>
      have htaken := takenOver_decisionFor env context rfl hdec
      rw [h, bind_name hbind] at htaken
      cases htaken
      exact .bound hidles htpls hearlier hbind (hready hdec)

end

section
variable (machine : Machine) (clock : Tree FileName ByteArray → UInt64) (floatText : F64 → String)
  (context : GateContext) (backupRoot : Option String) (store : ExperienceStore)
  (proposal : ActionProposal) (world : Tree FileName ByteArray)

/-- What the embedded gate decides. -/
def embeddedDecision : GateDecision :=
  decideGate ((loadRuntime backupRoot store).env machine clock floatText) context store proposal
    world

/-- The first artifact that is ready for the embedded gate. -/
abbrev EmbeddedFirst : String → Bool → Prop :=
  FirstReady ((loadRuntime backupRoot store).env machine clock floatText) context store proposal
    world

/-- A denied artifact is not taken over, and an artifact of a scope is executed under the policy
that the server would run it under. -/
def UserDecisionsBind : Prop :=
  ∀ name executed,
    (embeddedDecision machine clock floatText context backupRoot store proposal world).takenOver =
        some (name, executed) →
      store.isUsageAllowed name = true ∧
        (executed = true → ∀ scope, store.scopes[name]? = some scope → ∀ sessionScope,
          (loadRuntime backupRoot store).runner.policy = effectivePolicyFor store name sessionScope)

lemma loadRuntime_policy : (loadRuntime backupRoot store).runner.policy = store.globalPolicy := by
  cases backupRoot <;> rfl

/-- What the user decided binds the embedded gate if and only if the first artifact that is ready
is not denied, and has no scope with a policy other than the global one if it is applicable. -/
theorem userDecisionsBind_iff :
    UserDecisionsBind machine clock floatText context backupRoot store proposal world ↔
      ∀ name applicable,
        EmbeddedFirst machine clock floatText context backupRoot store proposal world name
            applicable →
          store.userUsage[name]? ≠ some "deny" ∧
            (applicable = true → ∀ scope, store.scopes[name]? = some scope →
              ∀ policy, store.scopePolicies[scope]? = some policy →
                policy = store.globalPolicy) := by
  have hallowed : ∀ name, store.isUsageAllowed name = true ↔
      store.userUsage[name]? ≠ some "deny" := by
    intro name
    rw [ExperienceStore.isUsageAllowed]
    cases store.userUsage[name]? <;> simp
  unfold UserDecisionsBind
  refine forall₂_congr fun name executed => ?_
  rw [embeddedDecision, hallowed, loadRuntime_policy]
  refine imp_congr ⟨firstReady_of_takenOver _ _, takenOver_of_firstReady _ _⟩ ?_
  refine and_congr_right fun _ => imp_congr_right fun _ => forall₂_congr fun scope hscope => ?_
  simp only [effectivePolicyFor, hscope, ExperienceStore.policyForScope]
  cases store.scopePolicies[scope]? <;> simp [eq_comm]

end

/-- A store whose only experience is denied, and assigned to a scope that may write nothing. -/
def deniedStore : ExperienceStore :=
  StoreOp.run [.insert { writeNote with preconditions := [] }, .setUserUsage "note" (some "deny"),
    .setScope "note" (some "review"), .setScopePolicy "review" (some { fsWrite := fsWriteDeny })]

/-- The gate takes the proposal over for the denied experience, and would run it under the global
policy. -/
theorem embedded_gate_runs_denied :
    deniedStore.isUsageAllowed "note" = false ∧
      (embeddedDecision bareMachine (fun _ => 0) (fun _ => "0.0") { cwd := "/work" } none
        deniedStore
        { tool := "task", args := .null } Tree.empty).takenOver = some ("note", true) ∧
      (loadRuntime none deniedStore).runner.policy.fsWrite = fsWriteWorkspaceOnly ∧
      (effectivePolicyFor deniedStore "note" none).fsWrite = fsWriteDeny := by
  decide +kernel

end ExperienceCodex
