import ExperienceCodex.Gate

/-!
# What the runner did and what the gate reports

The runner calls of an execution are made visible by surroundings that record them in the world.
A run of the step loop is described once, as a relation; the law that connects the reported steps
and side effects with the recorded calls is read off from it.
-/

namespace ExperienceCodex

/-- A call of the runner and what it returned. -/
abbrev RunnerCall := WorkflowStep × Except String StepOutcome

section
variable {V W : Type}

/-- The same surroundings, with the runner calls recorded in the world. -/
def GateEnv.logged (env : GateEnv W) : GateEnv (W × List RunnerCall) where
  probe world := env.probe world.1
  run world context step :=
    let (result, next) := env.run world.1 context step
    (result, next, world.2 ++ [(step, result)])
  readToString world := env.readToString world.1
  clock world := env.clock world.1
  floatText := env.floatText

/-- The worlds of `fine` are seen through `view` as worlds of `coarse`, with equal answers. -/
structure GateEnv.Simulates (view : V → W) (fine : GateEnv V) (coarse : GateEnv W) : Prop where
  probe : ∀ world, fine.probe world = coarse.probe (view world)
  run : ∀ world context step, coarse.run (view world) context step =
    ((fine.run world context step).1, view (fine.run world context step).2)
  readToString : ∀ world, fine.readToString world = coarse.readToString (view world)
  clock : ∀ world, fine.clock world = coarse.clock (view world)
  floatText : fine.floatText = coarse.floatText

theorem GateEnv.logged_simulates (env : GateEnv W) :
    Simulates Prod.fst env.logged env where
  probe _ := rfl
  run _ _ _ := rfl
  readToString _ := rfl
  clock _ := rfl
  floatText := rfl

namespace GateEnv.Simulates
variable {view : V → W} {fine : GateEnv V} {coarse : GateEnv W} (sim : Simulates view fine coarse)
  (context : GateContext) (cancel : ℕ → Bool)
include sim

variable (world : V)

variable (experience : Experience)

theorem preconditionsHold_eq :
    preconditionsHold fine context world experience =
      preconditionsHold coarse context (view world) experience := by
  have hprobe : probePredicate fine context world = probePredicate coarse context (view world) := by
    funext p
    simp only [probePredicate, sim.probe]
  simp only [preconditionsHold, hprobe]

theorem factsOf_eq (predicates : List Predicate) :
    factsOf fine context world predicates =
      factsOf coarse context (view world) predicates := by
  induction predicates with
  | nil => rfl
  | cons p rest ih => simp only [factsOf, sim.probe, sim.clock, ih]

theorem postconditionFacts_eq :
    postconditionFacts fine context world experience =
      postconditionFacts coarse context (view world) experience := by
  simp only [postconditionFacts, sim.factsOf_eq]

theorem decideExperiences_eq (candidates : List Experience) :
    decideExperiences fine context world candidates =
      decideExperiences coarse context (view world) candidates := by
  induction candidates with
  | nil => rfl
  | cons c rest ih =>
    simp only [decideExperiences, sim.preconditionsHold_eq, sim.postconditionFacts_eq, ih]

theorem decideTemplates_eq (p : ActionProposal) (world : V)
    (templates : List ExperienceTemplate) :
    decideTemplates fine context p world templates =
      decideTemplates coarse context p (view world) templates := by
  induction templates with
  | nil => rfl
  | cons t rest ih =>
    simp only [decideTemplates, sim.preconditionsHold_eq, sim.postconditionFacts_eq,
      sim.floatText, ih]

variable (s : ExperienceStore)

theorem decideGate_eq (p : ActionProposal) (world : V) :
    decideGate fine context s p world =
      decideGate coarse context s p (view world) := by
  simp only [decideGate, sim.decideExperiences_eq, sim.decideTemplates_eq, sim.floatText]

theorem runSteps_eq (i : ℕ) (steps : List WorkflowStep) (progress : Progress) (world : V) :
    runSteps coarse context cancel i steps progress (view world) =
      let outcome := runSteps fine context cancel i steps progress world
      (outcome.1, outcome.2.1, view outcome.2.2) := by
  induction steps generalizing i progress world with
  | nil => rfl
  | cons step rest ih =>
    simp only [runSteps, sim.run]
    split_ifs
    · rfl
    · obtain ⟨r, next⟩ := fine.run world context step
      cases r with
      | error error => rfl
      | ok outcome =>
        simp only
        split_ifs
        · exact ih (i + 1) (progress.push step outcome) next
        · rfl

theorem verifyPostconditions_eq :
    verifyPostconditions fine context world experience =
      verifyPostconditions coarse context (view world) experience := by
  have hstep : verifyStep fine context world = verifyStep coarse context (view world) := by
    funext step
    cases step with
    | readFile path expectContent => simp only [verifyStep, sim.readToString, sim.clock]
    | probe p => simp only [verifyStep, sim.probe, sim.clock]
  simp only [verifyPostconditions, hstep]

theorem executeExperience_eq (p : ActionProposal) (experience : Experience) (world : V) :
    executeExperience coarse context cancel p experience (view world) =
      let outcome :=
        executeExperience fine context cancel p experience world
      (outcome.1, view outcome.2) := by
  simp only [executeExperience, sim.runSteps_eq, observedFacts, sim.probe, sim.clock,
    sim.verifyPostconditions_eq]
  obtain ⟨finished, progress, next⟩ :=
    runSteps fine context cancel 0 experience.workflow {} world
  cases finished with
  | false => rfl
  | true => rfl

end GateEnv.Simulates

/-- How the step loop stops. -/
inductive LoopStop where
  | finished
  | cancelled
  | stepError (step : WorkflowStep) (error : String)
  | exitMismatch (step : WorkflowStep) (outcome : StepOutcome)

def LoopStop.isFinished : LoopStop → Bool
  | finished => true
  | _ => false

/-- The runner call on which the loop stopped. -/
def LoopStop.calls : LoopStop → List RunnerCall
  | finished => []
  | cancelled => []
  | stepError step error => [(step, .error error)]
  | exitMismatch step outcome => [(step, .ok outcome)]

variable (env : GateEnv W) (context : GateContext) (cancel : ℕ → Bool)

/-- A run of the step loop: the steps it accepted with their outcomes, and how it stopped. -/
inductive LoopRun :
    ℕ → List WorkflowStep → W → List (WorkflowStep × StepOutcome) → LoopStop → W → Prop
  | finished (index : ℕ) (world : W) : LoopRun index [] world [] .finished world
  | cancelled {index : ℕ} {step : WorkflowStep} {rest : List WorkflowStep} {world : W}
      (hcancel : cancel index = true) : LoopRun index (step :: rest) world [] .cancelled world
  | stepError {index : ℕ} {step : WorkflowStep} {rest : List WorkflowStep} {world next : W}
      {error : String} (hcancel : cancel index = false)
      (hrun : env.run world context step = (.error error, next)) :
      LoopRun index (step :: rest) world [] (.stepError step error) next
  | exitMismatch {index : ℕ} {step : WorkflowStep} {rest : List WorkflowStep} {world next : W}
      {outcome : StepOutcome} (hcancel : cancel index = false)
      (hrun : env.run world context step = (.ok outcome, next))
      (hexit : exitCodeExpected step outcome = false) :
      LoopRun index (step :: rest) world [] (.exitMismatch step outcome) next
  | accepted {index : ℕ} {step : WorkflowStep} {rest : List WorkflowStep} {world next last : W}
      {outcome : StepOutcome} {accepted : List (WorkflowStep × StepOutcome)} {stop : LoopStop}
      (hcancel : cancel index = false)
      (hrun : env.run world context step = (.ok outcome, next))
      (hexit : exitCodeExpected step outcome = true)
      (hrest : LoopRun (index + 1) rest next accepted stop last) :
      LoopRun index (step :: rest) world ((step, outcome) :: accepted) stop last

/-- What an accepted step adds to the report. -/
def executedStepOf (entry : WorkflowStep × StepOutcome) : ExecutedStep :=
  { action := entry.1.action, args := entry.1.args, evidence := some entry.2.evidence }

/-- The successful ones of some runner calls. -/
def okCalls (calls : List RunnerCall) : List (WorkflowStep × StepOutcome) :=
  calls.filterMap fun (step, result) =>
    match result with
    | .ok outcome => some (step, outcome)
    | .error _ => none

/-- The calls of a run: those of the accepted steps and the one it stopped on. -/
def callsOf (accepted : List (WorkflowStep × StepOutcome)) (stop : LoopStop) : List RunnerCall :=
  accepted.map (fun (step, outcome) => (step, .ok outcome)) ++ stop.calls

@[simp] lemma Progress.note_executed (progress : Progress) (line : String) :
    (progress.note line).executed = progress.executed := rfl

@[simp] lemma Progress.note_sideEffects (progress : Progress) (line : String) :
    (progress.note line).sideEffects = progress.sideEffects := rfl

/-- The step loop performs a run, reports the accepted steps of it and makes its calls. -/
theorem runSteps_logged (i : ℕ) (steps : List WorkflowStep) (progress : Progress) (world : W)
    (calls : List RunnerCall) :
    ∃ acc stop last report,
      LoopRun env context cancel i steps world acc stop last ∧
      runSteps env.logged context cancel i steps progress (world, calls) =
        (stop.isFinished, report, last, calls ++ callsOf acc stop) ∧
      report.executed = progress.executed ++ acc.map executedStepOf ∧
      report.sideEffects = progress.sideEffects ++
        acc.flatMap fun e => e.2.sideEffects := by
  induction steps generalizing i progress world calls with
  | nil =>
    refine ⟨[], .finished, world, progress, .finished i world, ?_, by simp, by simp⟩
    simp [runSteps, callsOf, LoopStop.calls, LoopStop.isFinished]
  | cons step rest ih =>
    cases hcancel : cancel i with
    | true =>
      refine ⟨[], .cancelled, world, progress.note "workflow interrupted by cancellation",
        .cancelled hcancel, ?_, by simp, by simp⟩
      simp [runSteps, hcancel, callsOf, LoopStop.calls, LoopStop.isFinished]
    | false =>
      rcases hrun : env.run world context step with ⟨r, next⟩
      cases r with
      | error error =>
        refine ⟨[], .stepError step error, next,
          progress.note ("step '" ++ step.action ++ "' failed: " ++ error),
          .stepError hcancel hrun, ?_, by simp, by simp⟩
        simp [runSteps, hcancel, GateEnv.logged, hrun, callsOf, LoopStop.calls, LoopStop.isFinished]
      | ok o =>
        cases hexit : exitCodeExpected step o with
        | false =>
          refine ⟨[], .exitMismatch step o, next,
            progress.note (exitMismatchLine step o),
            .exitMismatch hcancel hrun hexit, ?_, by simp, by simp⟩
          simp [runSteps, hcancel, GateEnv.logged, hrun, hexit, callsOf, LoopStop.calls,
            LoopStop.isFinished]
        | true =>
          obtain ⟨acc, stop, last, report, hloop, heq, hexec, heffects⟩ :=
            ih (i + 1) (progress.push step o) next (calls ++ [(step, .ok o)])
          refine ⟨(step, o) :: acc, stop, last, report,
            .accepted hcancel hrun hexit hloop, ?_, ?_, ?_⟩
          · have hunfold : runSteps env.logged context cancel i (step :: rest) progress
                (world, calls) = runSteps env.logged context cancel (i + 1) rest
                  (progress.push step o) (next, calls ++ [(step, .ok o)]) := by
              simp [runSteps, hcancel, GateEnv.logged, hrun, hexit]
            rw [hunfold, heq]
            simp [callsOf]
          · rw [hexec]
            simp [Progress.push, executedStepOf]
          · rw [heffects]
            simp [Progress.push]

/-- The runner calls of one execution. -/
def executionCalls (proposal : ActionProposal) (experience : Experience) (world : W) :
    List RunnerCall :=
  (executeExperience env.logged context cancel proposal experience (world, [])).2.2

/-- An execution is a run of the step loop followed, when that finished, by the verification. -/
theorem executeExperience_spec (p : ActionProposal) (experience : Experience) (world : W) :
    ∃ acc stop last,
      LoopRun env context cancel 0 experience.workflow world acc stop last ∧
      executionCalls env context cancel p experience world = callsOf acc stop ∧
      (executeExperience env context cancel p experience world).2 = last ∧
      let result := (executeExperience env context cancel p experience world).1
      result.executed = acc.map executedStepOf ∧
      result.executedSideEffects = acc.flatMap (fun e => e.2.sideEffects) ∧
      (result.isSuccess = true ↔ stop.isFinished = true ∧
        experience.postconditionsSatisfiedBy
          (verifyPostconditions env context last experience).1 = true) := by
  have hsim := env.logged_simulates
  obtain ⟨acc, stop, last, report, hloop, heq, hexec, heffects⟩ :=
    runSteps_logged env context cancel 0 experience.workflow {} world []
  have hplain := hsim.executeExperience_eq context cancel p experience (world, [])
  have hverify := hsim.verifyPostconditions_eq context (last, [] ++ callsOf acc stop) experience
  simp only at hplain hverify
  refine ⟨acc, stop, last, hloop, ?_, ?_, ?_⟩
  · cases hstop : stop.isFinished <;>
      simp [executionCalls, executeExperience, heq, hstop]
  · rw [hplain]
    cases hstop : stop.isFinished <;> simp [executeExperience, heq, hstop]
  · rw [hplain]
    cases hstop : stop.isFinished with
    | false => simp [executeExperience, heq, hstop, hexec, heffects, GateHitResult.isSuccess]
    | true =>
      simp only [executeExperience, heq, hstop, hverify]
      cases experience.postconditionsSatisfiedBy
          (verifyPostconditions env context last experience).1 with
      | false => simp [hexec, heffects, GateHitResult.isSuccess]
      | true => simp [hexec, heffects, GateHitResult.isSuccess]

/-- No step that the loop reaches returns normally with an exit code it does not expect. -/
def NoExitMismatch : ℕ → List WorkflowStep → W → Prop
  | _, [], _ => True
  | index, step :: rest, world =>
    cancel index = false →
      match env.run world context step with
      | (.ok outcome, next) =>
        exitCodeExpected step outcome = true ∧ NoExitMismatch (index + 1) rest next
      | (.error _, _) => True

lemma LoopRun.noExitMismatch_iff {i : ℕ} {steps : List WorkflowStep} {world last : W}
    {accepted : List (WorkflowStep × StepOutcome)} {stop : LoopStop}
    (hloop : LoopRun env context cancel i steps world accepted stop last) :
    NoExitMismatch env context cancel i steps world ↔ okCalls stop.calls = [] := by
  induction hloop with
  | finished i world => simp [NoExitMismatch, okCalls, LoopStop.calls]
  | cancelled hcancel => simp [NoExitMismatch, okCalls, LoopStop.calls, hcancel]
  | stepError hcancel hrun => simp [NoExitMismatch, okCalls, LoopStop.calls, hcancel, hrun]
  | exitMismatch hcancel hrun hexit =>
    simp [NoExitMismatch, okCalls, LoopStop.calls, hcancel, hrun, hexit]
  | accepted hcancel hrun hexit hrest ih => simp [NoExitMismatch, hcancel, hrun, hexit, ih]

/-- The report lists exactly the steps that the runner returned normally from and their side
effects, if and only if no reached step returns with an exit code it does not expect: such a step
has run, but neither it nor its side effects are reported. -/
theorem executeExperience_reports_ok_calls_iff (proposal : ActionProposal)
    (experience : Experience) (world : W) :
    let result := (executeExperience env context cancel proposal experience world).1
    let ok := okCalls (executionCalls env context cancel proposal experience world)
    (result.executed = ok.map executedStepOf ∧
      result.executedSideEffects = ok.flatMap fun entry => entry.2.sideEffects) ↔
        NoExitMismatch env context cancel 0 experience.workflow world := by
  obtain ⟨accepted, stop, last, hloop, hcalls, -, hexecuted, heffects, -⟩ :=
    executeExperience_spec env context cancel proposal experience world
  have hok : okCalls (callsOf accepted stop) = accepted ++ okCalls stop.calls := by
    simp [okCalls, callsOf, List.filterMap_append, List.filterMap_map]
  simp only [hexecuted, heffects, hcalls, hok, hloop.noExitMismatch_iff]
  constructor
  · rintro ⟨hsteps, -⟩
    have hlength := congrArg List.length hsteps
    simp only [List.length_map, List.length_append] at hlength
    exact List.length_eq_zero_iff.mp (by omega)
  · intro hnone
    simp [hnone]

end

/-- An experience that runs one command. -/
def buildExperience : Experience where
  name := "build"
  trigger := { tool := "task", commandPattern := none }
  preconditions := []
  workflow := [{ action := "exec", args := .object [("program", .string "make")] }]
  postconditions := [{ key := "file:out.txt.exists", expected := .bool true }]
  verification := []
  failurePolicy := .stopAndReport
  undo := .unsupported
  status := .active

/-- Surroundings in which nothing is observed and every command writes a log and exits with 1. -/
def failingCommands : GateEnv Unit where
  probe _ _ _ := none
  run _ _ _ := (.ok
    { evidence := "exit 1"
      sideEffects := [{ description := "write build.log", evidence := none }]
      exitCode := some 1
      stdout := ""
      stderr := "" }, ())
  readToString _ _ := .error "not found"
  clock _ := 0
  floatText _ := "0.0"

/-- The command has run and has written its log, and the report knows of neither. -/
theorem executeExperience_hides_failed_command :
    let proposal : ActionProposal := { tool := "task", args := .null }
    let context : GateContext := { cwd := "/work" }
    let result := (executeExperience failingCommands context (fun _ => false) proposal
      buildExperience ()).1
    let ok := okCalls (executionCalls failingCommands context (fun _ => false) proposal
      buildExperience ())
    ok.map (fun entry => entry.1.action) = ["exec"] ∧
      ok.flatMap (fun entry => entry.2.sideEffects) =
        [{ description := "write build.log", evidence := none }] ∧
      result.executed = [] ∧ result.executedSideEffects = [] := by
  refine ⟨by decide +kernel, by decide +kernel, ?_, by decide +kernel⟩
  exact List.length_eq_zero_iff.mp (by decide +kernel)

end ExperienceCodex
