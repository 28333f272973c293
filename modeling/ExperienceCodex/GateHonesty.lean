import ExperienceCodex.GateDecisions
import ExperienceCodex.GateEffects

/-!
# The honesty of the gate

A success is only ever reported for an active artifact whose trigger matches, after its whole
workflow ran as expected or without running anything, and only when every postcondition holds in
the world that is left behind.  The facts that support this come from two sources, the probe and
the files that the verification reads; the local probe answers from the same files.
-/

namespace ExperienceCodex

open Text

variable {store : ExperienceStore}

/-- What is asked of the local file system.  A path that can be read exists. -/
structure LocalFs (W : Type) where
  readToString : W → String → Except String String
  pathExists : W → String → Bool
  exists_of_read : ∀ {world path content},
    readToString world path = .ok content → pathExists world path = true

section
variable {W : Type}

/-- The keys `cwd.exists`, `file:<relpath>.exists` and `file:<relpath>.content`. -/
def localProbe (fs : LocalFs W) (world : W) (context : GateContext) (key : String) :
    Option Json :=
  if key = "cwd.exists" then some (.bool (fs.pathExists world context.cwd))
  else
    match stripStart key "file:" with
    | none => none
    | some rest =>
      match stripEnd rest ".exists" with
      | some relative => some (.bool (fs.pathExists world (pathJoin context.cwd relative)))
      | none =>
        match stripEnd rest ".content" with
        | some relative =>
          match fs.readToString world (pathJoin context.cwd relative) with
          | .ok content => some (.string content)
          | .error _ => none
        | none => none

/-- The surroundings of the local gate: any runner, over the local file system. -/
def localEnv (fs : LocalFs W)
    (run : W → GateContext → WorkflowStep → Except String StepOutcome × W)
    (clock : W → UInt64) (floatText : F64 → String) : GateEnv W where
  probe := localProbe fs
  run := run
  readToString := fs.readToString
  clock := clock
  floatText := floatText

/-- The probe reports the files as the verification reads them. -/
structure GateEnv.ObservesFiles (env : GateEnv W) : Prop where
  exists_of_read : ∀ {world context path content},
    env.readToString world (pathJoin context.cwd path) = .ok content →
      env.probe world context ("file:" ++ path ++ ".exists") = some (.bool true)
  content_of_read : ∀ {world context path content},
    env.readToString world (pathJoin context.cwd path) = .ok content →
      env.probe world context ("file:" ++ path ++ ".content") = some (.string content)

lemma file_key_ne_cwd (rest : String) : "file:" ++ rest ≠ "cwd.exists" := by
  intro h
  have hchars := congrArg (fun text => text.toList.head?) h
  simp [String.toList_append] at hchars

lemma stripEnd_content_exists (path : String) :
    stripEnd (path ++ ".content") ".exists" = none := by
  rw [stripEnd, if_neg]
  intro hends
  rw [endsWith, List.isSuffixOf_iff_suffix] at hends
  obtain ⟨front, hfront⟩ := hends
  have hlast := congrArg List.getLast? hfront
  simp [String.toList_append] at hlast

variable (env : GateEnv W) (context : GateContext) (cancel : ℕ → Bool)

/-- A fact that a probe of the same world confirms. -/
def Confirmed (world : W) (fact : StateFact) : Prop :=
  env.probe world context fact.key = some fact.value

variable {env} in
lemma verifyStep_confirmed (hfiles : env.ObservesFiles) (world : W) (step : VerificationStep) :
    ∀ fact ∈ (verifyStep env context world step).1, Confirmed env context world fact := by
  cases step with
  | readFile path expectContent =>
    cases hread : env.readToString world (pathJoin context.cwd path) with
    | error error => simp [verifyStep, hread]
    | ok v =>
      have hexists := hfiles.exists_of_read hread
      have hcontent := hfiles.content_of_read hread
      cases expectContent with
      | none => simpa [verifyStep, hread, Confirmed, StateFact.new] using hexists
      | some expected =>
        by_cases hmatch : v = expected
        · subst hmatch
          simpa [verifyStep, hread, Confirmed, StateFact.new] using ⟨hexists, hcontent⟩
        · simpa [verifyStep, hread, hmatch, Confirmed, StateFact.new] using hexists
  | probe p =>
    cases hobserved : env.probe world context p.key with
    | none => simp [verifyStep, hobserved, Predicate.probe]
    | some observed =>
      cases hprobe : p.probe (some observed) with
      | true => simp [verifyStep, hobserved, hprobe, Confirmed, StateFact.new]
      | false => simp [verifyStep, hobserved, hprobe]
      | unknown => simp [verifyStep, hobserved, hprobe]

lemma holds_of_confirmed {world : W} {facts : List StateFact} {e : Experience}
    (hfacts : ∀ fact ∈ facts, Confirmed env context world fact)
    (hsat : e.postconditionsSatisfiedBy facts = true) :
    ∀ p ∈ e.postconditions,
      probePredicate env context world p = .true := by
  intro p hmem
  have hprobe := List.all_eq_true.mp hsat p hmem
  simp only [decide_eq_true_eq] at hprobe
  obtain ⟨actual, hval, hexpected⟩ := (p.probe_eq_true_iff _).mp hprobe
  obtain ⟨fact, hfind, rfl⟩ := Option.map_eq_some_iff.mp hval
  have hkey : fact.key = p.key := by simpa using List.find?_some hfind
  have hconfirmed := hfacts fact (List.mem_of_find?_eq_some hfind)
  rw [Confirmed, hkey] at hconfirmed
  exact (p.probe_eq_true_iff _).mpr ⟨fact.value, hconfirmed, hexpected⟩

section
variable {env context cancel} {i : ℕ} {steps : List WorkflowStep} {world last : W}
  {accepted : List (WorkflowStep × StepOutcome)} {stop : LoopStop}

lemma LoopRun.calls_steps
    (hloop : LoopRun env context cancel i steps world accepted stop last) :
    (callsOf accepted stop).map Prod.fst <+: steps := by
  induction hloop with
  | finished i world => simp [callsOf, LoopStop.calls]
  | cancelled hcancel => simp [callsOf, LoopStop.calls]
  | stepError hcancel hrun => simp [callsOf, LoopStop.calls]
  | exitMismatch hcancel hrun hexit => simp [callsOf, LoopStop.calls]
  | accepted hcancel hrun hexit hrest ih => simpa [callsOf, List.cons_prefix_cons] using ih

/-- A call that returned normally with the exit code its step expects. -/
def RunnerCall.Succeeded (call : RunnerCall) : Prop :=
  ∃ outcome, call.2 = .ok outcome ∧ exitCodeExpected call.1 outcome = true

lemma LoopRun.finished_calls
    (hloop : LoopRun env context cancel i steps world accepted stop last)
    (hfinished : stop.isFinished = true) :
    (callsOf accepted stop).map Prod.fst = steps ∧
      ∀ call ∈ callsOf accepted stop, RunnerCall.Succeeded call := by
  induction hloop with
  | finished i world => simp [callsOf, LoopStop.calls]
  | cancelled hcancel => simp [LoopStop.isFinished] at hfinished
  | stepError hcancel hrun => simp [LoopStop.isFinished] at hfinished
  | exitMismatch hcancel hrun hexit => simp [LoopStop.isFinished] at hfinished
  | @accepted i step rest world next last o accepted stop hcancel hrun hexit hrest ih =>
    obtain ⟨hsteps, hcalls⟩ := ih hfinished
    have hcons : callsOf ((step, o) :: accepted) stop =
        (step, .ok o) :: callsOf accepted stop := rfl
    rw [hcons, List.map_cons, hsteps]
    refine ⟨rfl, List.forall_mem_cons.mpr ⟨⟨o, rfl, hexit⟩, hcalls⟩⟩

end

/-- The runner calls of one gate call. -/
def gateCalls (store : ExperienceStore) (proposal : ActionProposal) (world : W) :
    List RunnerCall :=
  (gate env.logged context cancel store proposal (world, [])).2.2

/-- What may take a proposal over: a stored experience or the binding of a stored template,
active and with a matching trigger. -/
inductive Eligible (floatText : F64 → String) (cwd : String) (store : ExperienceStore)
    (proposal : ActionProposal) : Experience → Prop
  | stored {experience : Experience} (hmem : experience ∈ store.all)
      (hactive : experience.status = .active)
      (hmatches : experience.trigger.matches floatText proposal = true) :
      Eligible floatText cwd store proposal experience
  | bound {template : ExperienceTemplate} {instantiated : Experience} {bindings : Bindings}
      (hmem : template ∈ store.templates.items) (hactive : template.status = .active)
      (hmatches : template.trigger.matches floatText proposal = true)
      (hbind : template.bind floatText proposal cwd = .ok (instantiated, bindings)) :
      Eligible floatText cwd store proposal instantiated

/-- The gate executed an applicable artifact. -/
structure Executed (store : ExperienceStore) (proposal : ActionProposal) (world : W)
    (experience : Experience) : Prop where
  eligible : Eligible env.floatText context.cwd store proposal experience
  applicable : preconditionsHold env context world experience = true
  calls : gateCalls env context cancel store proposal world =
    executionCalls env context cancel proposal experience world
  final : (gate env context cancel store proposal world).2 =
    (executeExperience env context cancel proposal experience world).2
  success : ∀ result, (gate env context cancel store proposal world).1 = .ok (.hit result) →
    result.isSuccess = (executeExperience env context cancel proposal experience world).1.isSuccess

/-- The gate ran nothing; if it took the proposal over, the artifact was already satisfied. -/
structure RanNothing (store : ExperienceStore) (proposal : ActionProposal) (world : W) : Prop where
  calls : gateCalls env context cancel store proposal world = []
  final : (gate env context cancel store proposal world).2 = world
  satisfied : ∀ result, (gate env context cancel store proposal world).1 = .ok (.hit result) →
    ∃ experience, Eligible env.floatText context.cwd store proposal experience ∧
      AlreadySatisfied env context world experience

lemma ranNothing_of_satisfied {p : ActionProposal} {world : W}
    {e : Experience} {facts : List StateFact} {tier : GateTier}
    (hdec : decideGate env context store p world =
      .satisfied e.name tier facts)
    (heligible : Eligible env.floatText context.cwd store p e)
    (hsat : AlreadySatisfied env context world e) :
    RanNothing env context cancel store p world := by
  have hlog := env.logged_simulates.decideGate_eq context store p (world, [])
  rw [hdec] at hlog
  refine ⟨?_, ?_, fun r _ => ⟨e, heligible, hsat⟩⟩
  · rw [gateCalls, gate, hlog]
    cases hget : store.get e.name <;> simp [executeDecision, hget]
  · rw [gate, hdec]
    cases hget : store.get e.name <;> simp [executeDecision, hget]

/-- Every gate call on a well-formed store executes an applicable artifact or runs nothing. -/
theorem executed_or_ranNothing (hwf : store.Wf)
    (proposal : ActionProposal) (world : W) :
    (∃ e, Executed env context cancel store proposal world e) ∨
      RanNothing env context cancel store proposal world := by
  have hdecided := decidedBy_decideGate env context store proposal world
  have hlog := env.logged_simulates.decideGate_eq context store proposal (world, [])
  generalize hdec : decideGate env context store proposal world = d at hdecided hlog
  cases hdecided with
  | miss =>
    right
    refine ⟨?_, ?_, ?_⟩
    · rw [gateCalls, gate, hlog]
    · rw [gate, hdec]
    · intro r hres
      rw [gate, hdec] at hres
      cases hres
  | @stored candidate _ hmem hfor =>
    obtain ⟨hstored, hactive, hmatches⟩ := mem_of_candidate hwf hmem
    have heligible : Eligible env.floatText context.cwd store proposal candidate :=
      .stored hstored hactive hmatches
    obtain ⟨hpre, rfl⟩ | ⟨-, facts, hfacts, rfl⟩ := decisionFor_cases env context hfor
    · have hget : store.get candidate.name = some candidate :=
        (hwf.experiences.lookup_eq_some_iff _ _).mpr ⟨hstored, rfl⟩
      refine .inl ⟨candidate, heligible, hpre, ?_, ?_, ?_⟩
      · simp only [gateCalls, gate, hlog, executeDecision, hget, executionCalls]
      · simp only [gate, hdec, executeDecision, hget]
      · intro r hres
        simp only [gate, hdec, executeDecision, hget] at hres
        cases hres
        rfl
    · exact .inr (ranNothing_of_satisfied env context cancel hdec heligible
        (alreadySatisfied_of_facts env context hfacts))
  | @bound earlier later t instantiated bs _ _ htpls _ hbind hfor =>
    have hmem : t ∈ store.templatesFor env.floatText proposal := by
      rw [htpls]
      exact List.mem_append_right _ List.mem_cons_self
    rw [(StoreOp.answersLikeScan_of_wf env.floatText hwf).templates, List.mem_filter,
      Bool.and_eq_true, decide_eq_true_eq] at hmem
    obtain ⟨hstored, ⟨hactive, -⟩, hmatches⟩ := hmem
    have heligible : Eligible env.floatText context.cwd store proposal instantiated :=
      .bound hstored hactive hmatches hbind
    obtain ⟨hpre, rfl⟩ | ⟨-, facts, hfacts, rfl⟩ := decisionFor_cases env context hfor
    · refine .inl ⟨instantiated, heligible, hpre, ?_, ?_, ?_⟩
      · simp only [gateCalls, gate, hlog, executeDecision, executionCalls]
      · simp only [gate, hdec, executeDecision]
      · intro r hres
        simp only [gate, hdec, executeDecision] at hres
        cases hres
        rfl
    · exact .inr (ranNothing_of_satisfied env context cancel hdec heligible
        (alreadySatisfied_of_facts env context hfacts))

/-- The workflow was run as a whole: each step was called in order and succeeded. -/
def RanWorkflow (calls : List RunnerCall) (experience : Experience) : Prop :=
  calls.map Prod.fst = experience.workflow ∧ ∀ call ∈ calls, RunnerCall.Succeeded call

end

/-- On every store that operations can build, and for every runner over the local file system:
the gate calls the runner only for an eligible artifact whose preconditions were all observed to
hold, and it reports a success only when the whole workflow of an eligible artifact ran as
expected or nothing had to be run, and all postconditions hold in the world it leaves. -/
theorem gate_honest {W : Type} (fs : LocalFs W)
    (run : W → GateContext → WorkflowStep → Except String StepOutcome × W)
    (clock : W → UInt64) (floatText : F64 → String) (context : GateContext) (cancel : ℕ → Bool)
    (ops : List StoreOp) (proposal : ActionProposal) (world : W) :
    let env := localEnv fs run clock floatText
    let store := StoreOp.run ops
    let outcome := gate env context cancel store proposal world
    let calls := gateCalls env context cancel store proposal world
    (calls ≠ [] → ∃ experience, Eligible floatText context.cwd store proposal experience ∧
      (∀ predicate ∈ experience.preconditions,
        probePredicate env context world predicate = .true) ∧
      calls.map Prod.fst <+: experience.workflow) ∧
    ∀ result, outcome.1 = .ok (.hit result) → result.isSuccess = true →
      ∃ experience, Eligible floatText context.cwd store proposal experience ∧
        (((∀ predicate ∈ experience.preconditions,
              probePredicate env context world predicate = .true) ∧
            RanWorkflow calls experience) ∨
          (calls = [] ∧ outcome.2 = world ∧
            ∀ predicate ∈ experience.postconditions,
              probePredicate env context world predicate = .true)) ∧
        ∀ predicate ∈ experience.postconditions,
          probePredicate env context outcome.2 predicate = .true := by
  intro env store outcome calls
  have hwf : store.Wf := StoreOp.wf_run ops
  -- the local probe and the verification look at the same files
  have hfiles : env.ObservesFiles := by
    constructor
    · intro world context path v hread
      have hexists := fs.exists_of_read hread
      simp only [env, localEnv, localProbe, String.append_assoc, file_key_ne_cwd, if_false,
        stripStart_append, stripEnd_append, hexists]
    · intro world context path v hread
      simp only [env, localEnv] at hread
      simp only [env, localEnv, localProbe, String.append_assoc, file_key_ne_cwd, if_false,
        stripStart_append, stripEnd_content_exists, stripEnd_append, hread]
  obtain ⟨e, hexec⟩ | hnothing := executed_or_ranNothing env context cancel hwf proposal world
  · obtain ⟨accepted, stop, last, hloop, hexecution, hfinal, -, -, hiff⟩ :=
      executeExperience_spec env context cancel proposal e world
    have hcalls : calls = _ := hexec.calls.trans hexecution
    have hpre : ∀ predicate ∈ e.preconditions,
        probePredicate env context world predicate = .true := by
      simpa [preconditionsHold] using hexec.applicable
    refine ⟨fun _ => ⟨e, hexec.eligible, hpre, ?_⟩, fun result hhit hsuccess => ?_⟩
    · rw [hcalls]
      exact hloop.calls_steps
    · rw [hexec.success result hhit, hiff] at hsuccess
      obtain ⟨hfinished, hsat⟩ := hsuccess
      have hleft : outcome.2 = _ := hexec.final.trans hfinal
      refine ⟨e, hexec.eligible, .inl ⟨hpre, ?_⟩, ?_⟩
      · rw [hcalls]
        exact hloop.finished_calls hfinished
      · rw [hleft]
        refine holds_of_confirmed env context (fun fact hmem => ?_) hsat
        simp only [verifyPostconditions, List.flatMap_map, List.mem_flatMap] at hmem
        obtain ⟨step, -, hfact⟩ := hmem
        exact verifyStep_confirmed context hfiles last step fact hfact
  · refine ⟨fun hcalls => absurd hnothing.calls hcalls, fun result hhit _ => ?_⟩
    obtain ⟨e, heligible, -, hsat⟩ := hnothing.satisfied result hhit
    refine ⟨e, heligible, .inr ⟨hnothing.calls, hnothing.final, hsat⟩, ?_⟩
    rw [show outcome.2 = world from hnothing.final]
    exact hsat

/-- A file system with at most the file `/work/note.txt`; the world is its content. -/
def noteFs : LocalFs (Option String) where
  readToString world path :=
    match world with
    | some content => if path = "/work/note.txt" then .ok content else .error "not found"
    | none => .error "not found"
  pathExists world path := world.isSome && path = "/work/note.txt"
  exists_of_read {world path content} hread := by
    cases world with
    | none => cases hread
    | some text =>
      by_cases hpath : path = "/work/note.txt"
      · simp [hpath]
      · simp [hpath] at hread

/-- An experience that writes the note where there is none. -/
def writeNote : Experience where
  name := "note"
  trigger := { tool := "task", commandPattern := none }
  preconditions := [{ key := "file:note.txt.exists", expected := .bool false }]
  workflow := [{ action := "write_file", args := .object [("path", .string "note.txt")] }]
  postconditions := [{ key := "file:note.txt.exists", expected := .bool true }]
  verification := [.readFile "note.txt" none]
  failurePolicy := .stopAndReport
  undo := .unsupported
  status := .active

/-- A runner whose every step writes the note. -/
def noteRunner (_ : Option String) (_ : GateContext) (_ : WorkflowStep) :
    Except String StepOutcome × Option String :=
  (.ok { evidence := "wrote note.txt", sideEffects := [], exitCode := none, stdout := "",
         stderr := "" }, some "hello")

/-- The note is written, and the success is honest. -/
theorem gate_honest_note :
    let env := localEnv noteFs noteRunner (fun _ => 0) (fun _ => "0.0")
    let store := StoreOp.run [.insert writeNote]
    let proposal : ActionProposal := { tool := "task", args := .null }
    let outcome := gate env { cwd := "/work" } (fun _ => false) store proposal none
    (∃ result, outcome.1 = .ok (.hit result) ∧ result.isSuccess = true) ∧
      ∃ experience, Eligible (fun _ => "0.0") "/work" store proposal experience ∧
        ∀ predicate ∈ experience.postconditions,
          probePredicate env { cwd := "/work" } outcome.2 predicate = .true := by
  intro env store proposal outcome
  have hreturned : (match outcome.1 with
      | .ok (.hit result) => result.isSuccess
      | _ => false) = true := by decide +kernel
  obtain ⟨result, hresult, hsuccess⟩ :
      ∃ result, outcome.1 = .ok (.hit result) ∧ result.isSuccess = true := by
    split at hreturned
    · exact ⟨_, by assumption, hreturned⟩
    · cases hreturned
  refine ⟨⟨result, hresult, hsuccess⟩, ?_⟩
  obtain ⟨experience, heligible, -, hholds⟩ := (gate_honest noteFs noteRunner (fun _ => 0)
    (fun _ => "0.0") { cwd := "/work" } (fun _ => false) [.insert writeNote] proposal none).2
    result hresult hsuccess
  exact ⟨experience, heligible, hholds⟩

end ExperienceCodex
