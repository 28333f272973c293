import ExperienceCodex.Domain

/-!
# Qualification

Before a candidate may become validated, its predicates must be bound to observable state sources
and its workflow must survive a dry run.  The dry run knows three of the canonical tools and does
not return on the others.
-/

namespace ExperienceCodex

open Text

def canonicalTools : List String :=
  ["exec_command", "exec", "write_file", "read_file", "append_file", "mkdir", "copy_file",
    "move_file", "delete_file"]

/-- Every step of a workflow calls a canonical tool with arguments. -/
def validateToolBoundary (candidate : Experience) : Except String Unit :=
  let problem (step : WorkflowStep) : Option String :=
    if step.action ∉ canonicalTools then some ("unknown tool '" ++ step.action ++ "'")
    else
      match step.args with
      | .object (_ :: _) => none
      | _ => some ("tool '" ++ step.action ++ "' has no usable arguments")
  match candidate.workflow.findSome? problem with
  | some issue => .error issue
  | none => .ok ()

structure ProbeSource where
  id : String
  freshnessTtl : UInt64
deriving DecidableEq

def fsProbeTtlSecs : UInt64 := 60

/-- The family of state sources that serves a key. -/
def familyOf (key : String) : Option String :=
  if key = "cwd.exists" ∨ startsWith key "file:" ∨ startsWith key "dir:" then some "fs"
  else if startsWith key "process." then some "exec"
  else if startsWith key "git." then some "git"
  else if startsWith key "http." then some "http"
  else if startsWith key "port." then some "net"
  else none

def resolveDefaultSource (key : String) : Option ProbeSource := do
  let family ← familyOf key
  match family with
  | "fs" => some { id := "fs_probe", freshnessTtl := fsProbeTtlSecs }
  | "exec" => some { id := "exec_evidence", freshnessTtl := 30 }
  | "git" => some { id := "git_probe", freshnessTtl := 30 }
  | "http" => some { id := "http_probe", freshnessTtl := 15 }
  | "net" => some { id := "net_probe", freshnessTtl := 10 }
  | _ => none

/-- Why a predicate cannot be relied on. -/
def predicateProblem (resolve : String → Option ProbeSource) (predicate : Predicate) :
    Option String :=
  if predicate.key = "candidate.pending_validation" then
    some (predicate.key ++ ": placeholder completion criterion is not evidence")
  else
    match resolve predicate.key with
    | some source =>
      if source.freshnessTtl > 0 then none
      else some (predicate.key ++ ": source has no freshness ttl")
    | none => some (predicate.key ++ ": no observable state source binding")

/-- All problems are reported together. -/
def predicatesObservable (resolve : String → Option ProbeSource) (predicates : List Predicate) :
    Except (List String) Unit :=
  let problems := predicates.filterMap (predicateProblem resolve)
  if problems.isEmpty then .ok () else .error problems

/-- The scratch directory of a dry run: whether it can be made, and what is read back after a
content was written. -/
structure Scratch where
  create : Except String Unit
  roundTrip : String → Except String String

/-- How a qualification ends that does not pass. -/
inductive QualifyStop where
  | issues (problems : List String)
  | unreachableTool (action : String)
deriving DecidableEq

/-- A refusal of the dry run. -/
def refuse (issue : String) : Except QualifyStop Unit := .error (.issues [issue])

def dryRunStep (scratch : Scratch) (step : WorkflowStep) : Except QualifyStop Unit :=
  if step.action ∉ canonicalTools then refuse ("unknown tool '" ++ step.action ++ "'")
  else if step.action = "exec_command" then
    match (step.args.get "cmd").bind Json.asStr with
    | none => refuse "exec_command requires string arg 'cmd'"
    | some cmd => if isBlank cmd then refuse "exec_command 'cmd' is empty" else .ok ()
  else if step.action = "write_file" then
    match (step.args.get "content").bind Json.asStr with
    | none => refuse "write_file requires string arg 'content'"
    | some content =>
      match scratch.roundTrip content with
      | .error error => refuse error
      | .ok readBack =>
        if readBack ≠ content then refuse "write_file scratch round-trip mismatch" else .ok ()
  else if step.action = "read_file" then
    if (step.args.get "path").isNone then refuse "read_file requires arg 'path'" else .ok ()
  else .error (.unreachableTool step.action)

def dryRunSteps (scratch : Scratch) : List WorkflowStep → Except QualifyStop Unit
  | [] => .ok ()
  | step :: rest =>
    match dryRunStep scratch step with
    | .error stop => .error stop
    | .ok () => dryRunSteps scratch rest

def dryRunReplayable (scratch : Scratch) (candidate : Experience) : Except QualifyStop Unit :=
  match scratch.create with
  | .error error => refuse error
  | .ok () => dryRunSteps scratch candidate.workflow

/-- The predicates of both sides are observable, and the workflow is replayable. -/
def qualify (scratch : Scratch) (resolve : String → Option ProbeSource) (candidate : Experience) :
    Except QualifyStop Unit :=
  match predicatesObservable resolve candidate.preconditions with
  | .error problems => .error (.issues problems)
  | .ok () =>
    match dryRunReplayable scratch candidate with
    | .error stop => .error stop
    | .ok () =>
      match predicatesObservable resolve candidate.postconditions with
      | .error problems => .error (.issues problems)
      | .ok () => .ok ()

/-- What a qualification looks at. -/
structure Body where
  preconditions : List Predicate
  workflow : List WorkflowStep
  postconditions : List Predicate

def Experience.body (experience : Experience) : Body where
  preconditions := experience.preconditions
  workflow := experience.workflow
  postconditions := experience.postconditions

/-- The tools that the dry run replays. -/
def replayedTools : List String := ["exec_command", "write_file", "read_file"]

/-- A step that the dry run gets past: a command that is not blank, a content that the scratch
directory gives back, or a read with a path. -/
def WorkflowStep.Replays (scratch : Scratch) (step : WorkflowStep) : Prop :=
  (step.action = "exec_command" ∧
      ∃ cmd, (step.args.get "cmd").bind Json.asStr = some cmd ∧ isBlank cmd = false) ∨
    (step.action = "write_file" ∧ ∃ content,
      (step.args.get "content").bind Json.asStr = some content ∧
        scratch.roundTrip content = .ok content) ∨
    (step.action = "read_file" ∧ (step.args.get "path").isSome = true)

theorem WorkflowStep.Replays.action_mem {scratch : Scratch} {step : WorkflowStep}
    (h : step.Replays scratch) : step.action ∈ replayedTools := by
  rcases h with ⟨h, _⟩ | ⟨h, _⟩ | ⟨h, _⟩ <;> simp [replayedTools, h]

variable (scratch : Scratch)

theorem dryRunStep_eq_ok_iff (step : WorkflowStep) :
    dryRunStep scratch step = .ok () ↔ step.Replays scratch := by
  constructor
  · intro h
    simp only [dryRunStep, refuse] at h
    split_ifs at h with hknown hexec hwrite hread hpath
    · cases hcmd : (step.args.get "cmd").bind Json.asStr with
      | none => simp [hcmd] at h
      | some cmd =>
        refine Or.inl ⟨hexec, cmd, hcmd, ?_⟩
        cases hblank : isBlank cmd with
        | false => rfl
        | true => simp [hcmd, hblank] at h
    · cases hcont : (step.args.get "content").bind Json.asStr with
      | none => simp [hcont] at h
      | some content =>
        refine Or.inr (Or.inl ⟨hwrite, content, hcont, ?_⟩)
        cases hback : scratch.roundTrip content with
        | error error => simp [hcont, hback] at h
        | ok readBack =>
          by_cases heq : readBack = content
          · rw [heq]
          · simp [hcont, hback, heq] at h
    · refine Or.inr (Or.inr ⟨hread, ?_⟩)
      simpa [Option.isSome_iff_ne_none] using hpath
  · intro h
    have hsubset : ∀ action ∈ replayedTools, action ∈ canonicalTools := by decide
    have hknown := hsubset _ h.action_mem
    unfold dryRunStep
    rw [if_neg (not_not_intro hknown)]
    rcases h with ⟨hact, cmd, hcmd, hblank⟩ | ⟨hact, content, hcont, hback⟩ |
      ⟨hact, hpath⟩
    · simp [hact, hcmd, hblank]
    · simp [hact, hcont, hback]
    · simp [hact, Option.isSome_iff_ne_none.mp hpath]

/-- The arm that was not meant to be reached takes the canonical tools that are not replayed. -/
theorem dryRunStep_eq_unreachable_iff (step : WorkflowStep) (action : String) :
    dryRunStep scratch step = .error (.unreachableTool action) ↔
      step.action = action ∧ step.action ∈ canonicalTools ∧ step.action ∉ replayedTools := by
  constructor
  · intro h
    have hnot : step.action ∉ replayedTools ∧ step.action ∈ canonicalTools ∧
        step.action = action := by
      simp only [dryRunStep, refuse] at h
      split_ifs at h with hknown hexec hwrite hread hpath
      · cases hcmd : (step.args.get "cmd").bind Json.asStr with
        | none => simp [hcmd] at h
        | some cmd =>
          simp only [hcmd] at h
          split_ifs at h
          cases h
      · cases hcont : (step.args.get "content").bind Json.asStr with
        | none => simp [hcont] at h
        | some v =>
          cases hback : scratch.roundTrip v with
          | error error => simp [hcont, hback] at h
          | ok readBack =>
            simp only [hcont, hback] at h
            split_ifs at h
            cases h
      · cases h
      · cases h
        exact ⟨by simp [replayedTools, hexec, hwrite, hread], hknown, rfl⟩
      · cases h
    exact ⟨hnot.2.2, hnot.2.1, hnot.1⟩
  · rintro ⟨rfl, hknown, hother⟩
    simp only [replayedTools, List.mem_cons, List.not_mem_nil, or_false, not_or] at hother
    simp [dryRunStep, hknown, hother]

/-- A dry run stops at the first step that it does not get past. -/
theorem dryRunSteps_eq_error_iff (steps : List WorkflowStep)
    (stop : QualifyStop) :
    dryRunSteps scratch steps = .error stop ↔
      ∃ earlier step later, steps = earlier ++ step :: later ∧
        (∀ passed ∈ earlier, passed.Replays scratch) ∧ dryRunStep scratch step = .error stop := by
  induction steps with
  | nil => simp [dryRunSteps]
  | cons step rest ih =>
    rw [dryRunSteps]
    cases hstep : dryRunStep scratch step with
    | error found =>
      constructor
      · intro h
        exact ⟨[], step, rest, rfl, by simp, hstep.trans h⟩
      · rintro ⟨earlier, at', later, hsplit, hpassed, hfound⟩
        cases earlier with
        | nil =>
          obtain ⟨rfl, -⟩ := List.cons.inj hsplit
          exact hstep.symm.trans hfound
        | cons first others =>
          obtain ⟨rfl, -⟩ := List.cons.inj hsplit
          rw [(dryRunStep_eq_ok_iff scratch step).mpr (hpassed step (by simp))] at hstep
          cases hstep
    | ok done =>
      have hreplays := (dryRunStep_eq_ok_iff scratch step).mp hstep
      simp only [ih]
      constructor
      · rintro ⟨earlier, at', later, rfl, hpassed, hfound⟩
        exact ⟨step :: earlier, at', later, rfl,
          List.forall_mem_cons.mpr ⟨hreplays, hpassed⟩, hfound⟩
      · rintro ⟨earlier, at', later, hsplit, hpassed, hfound⟩
        cases earlier with
        | nil =>
          obtain ⟨rfl, -⟩ := List.cons.inj hsplit
          rw [hstep] at hfound
          cases hfound
        | cons first others =>
          obtain ⟨rfl, rfl⟩ := List.cons.inj hsplit
          exact ⟨others, at', later, rfl, (List.forall_mem_cons.mp hpassed).2, hfound⟩

/-- A qualification ends in the dry run's arm when the dry run is made and ends there. -/
theorem qualify_eq_unreachable_iff (resolve : String → Option ProbeSource)
    (c : Experience) (action : String) :
    qualify scratch resolve c = .error (.unreachableTool action) ↔
      predicatesObservable resolve c.preconditions = .ok () ∧ scratch.create = .ok () ∧
        dryRunSteps scratch c.workflow = .error (.unreachableTool action) := by
  unfold qualify dryRunReplayable
  cases predicatesObservable resolve c.preconditions with
  | error problems => simp
  | ok done =>
    cases scratch.create with
    | error error => simp [refuse]
    | ok made =>
      cases dryRunSteps scratch c.workflow with
      | error stop => simp
      | ok passed => cases predicatesObservable resolve c.postconditions <;> simp

/-- A qualification returns, with a verdict or with issues, exactly if no step that the dry run
comes to calls a canonical tool that it does not replay. -/
theorem qualify_returns_iff (scratch : Scratch) (resolve : String → Option ProbeSource)
    (candidate : Experience) :
    (∀ action, qualify scratch resolve candidate ≠ .error (.unreachableTool action)) ↔
      (predicatesObservable resolve candidate.preconditions = .ok () → scratch.create = .ok () →
        ∀ earlier step later, candidate.workflow = earlier ++ step :: later →
          (∀ passed ∈ earlier, passed.Replays scratch) →
            step.action ∈ canonicalTools → step.action ∈ replayedTools) := by
  simp only [ne_eq, qualify_eq_unreachable_iff, dryRunSteps_eq_error_iff,
    dryRunStep_eq_unreachable_iff]
  constructor
  · intro h hpre hcreate earlier step later hsplit hpassed hknown
    by_contra hother
    exact h step.action
      ⟨hpre, hcreate, earlier, step, later, hsplit, hpassed, rfl, hknown, hother⟩
  · rintro h action ⟨hpre, hcreate, earlier, step, later, hsplit, hpassed, rfl, hknown, hother⟩
    exact hother (h hpre hcreate earlier step later hsplit hpassed hknown)

/-- Makes one directory. -/
def directoryCandidate : Experience where
  name := "make-build-directory"
  trigger := { tool := "task", commandPattern := none }
  preconditions := []
  workflow := [{ action := "mkdir", args := .object [("path", .string "build")] }]
  postconditions := [{ key := "file:build.exists", expected := .bool true }]
  verification := []
  failurePolicy := .stopAndReport
  undo := .unsupported
  status := .candidate

/-- A candidate with a valid schema and canonical tools on which no qualification returns. -/
theorem qualify_mkdir_unreachable :
    directoryCandidate.isSchemaValid = true ∧
      (∀ step ∈ directoryCandidate.workflow, step.action ∈ canonicalTools) ∧
        ∀ resolve roundTrip, qualify { create := .ok (), roundTrip := roundTrip } resolve
          directoryCandidate = .error (.unreachableTool "mkdir") := by
  refine ⟨by decide +kernel, by decide +kernel, fun resolve roundTrip => ?_⟩
  simp [qualify, predicatesObservable, directoryCandidate, dryRunReplayable, dryRunSteps,
    dryRunStep, canonicalTools]

end ExperienceCodex
