import ExperienceCodex.Policy
import ExperienceCodex.Safety

/-!
# The process gate of the step executor

`executeStep` turns a workflow step into an effect.  For the two process actions it reads the
command, applies the policy, the allowlist and the denylist, and only then spawns.  The model
stops at the spawn: its result is the request that would be handed to the operating system, so
that reaching the spawn is a statement about the returned plan.
-/

namespace ExperienceCodex

open Text

structure StepError where
  outcome : String
  detail : String
deriving DecidableEq

namespace StepError

def invalid (action detail : String) : StepError :=
  { outcome := "invalid", detail := action ++ ": " ++ detail }

def execution (action detail : String) : StepError :=
  { outcome := "execution_error", detail := action ++ ": " ++ detail }

end StepError

structure StepExecution where
  evidence : String
  sideEffects : List String := []
  content : String := ""
  backedUp : Bool := false
  exitCode : Option Int32 := none
  stdout : String := ""
  stderr : String := ""
deriving DecidableEq

/-- What the process actions read of a step context. -/
structure StepContext where
  canonicalWorkspace : String
  policy : CapabilityPolicy
  runRoot : Option String := none
  scratch : Option String := none

/-- The process that a step would start. -/
structure SpawnRequest where
  program : String
  args : List String
  currentDir : String
  env : List (String × String)
  timeoutSecs : UInt64
  outputCap : UInt64
deriving DecidableEq

/-- What the executor is about to do for a step that passed its checks. -/
inductive StepPlan where
  | fileAction (action : String)
  | dryRun (execution : StepExecution)
  | spawn (request : SpawnRequest)
deriving DecidableEq

/-- Programs that are refused even when the allowlist names them. -/
def dangerousProgramDenylist : List String := [
  "cmd", "powershell", "pwsh", "wscript", "cscript", "mshta", "rundll32", "reg",
  "regedit", "format", "diskpart", "bcdedit", "shutdown", "taskkill", "netsh",
  "sc", "schtasks", "at", "vssadmin", "wbadmin", "takeown", "icacls", "cacls",
  "attrib", "robocopy", "xcopy", "subst", "mklink", "setx", "wmic"]

/-- Texts that are refused anywhere in the program and its arguments. -/
def dangerousArgPatterns : List String := [
  "del /f /s", "del /f /q", "rd /s /q", "rmdir /s /q", "format ", "shutdown ",
  "remove-item -recurse -force", "rm -rf", "rmdir /s", "reg delete", "reg add",
  "invoke-expression", "iex(", "-encodedcommand", "downloadstring", "| iex",
  "curl | sh", "curl | bash", "wget | sh"]

/-- The program name without directory or extension, in lower case. -/
def programStem (program : String) : String :=
  stripSuffix (toLowercase (afterLast (fun c => c == '/' || c == '\\') program)) ".exe"

def denylistHit (program : String) (args : List String) : Option String :=
  let stem := programStem program
  if stem ∈ dangerousProgramDenylist then some ("dangerous program: " ++ stem)
  else
    let joined := toLowercase (program ++ " " ++ String.intercalate " " args)
    (dangerousArgPatterns.find? fun pattern => contains joined pattern).map
      fun pattern => "dangerous pattern: " ++ pattern

def requiredStr (step : WorkflowStep) (key : String) : Except StepError String :=
  match (step.args.get key).bind Json.asStr with
  | some text => .ok text
  | none => .error (.invalid step.action ("missing string arg '" ++ key ++ "'"))

/-- The command of a process step. -/
structure StepCommand where
  program : String
  args : List String
  cwd : Option String := none
  env : List (String × String) := []
deriving DecidableEq

/-- The elements of the optional `args` array, all of which must be texts. -/
def readArgs (step : WorkflowStep) : Except StepError (List String) :=
  match (step.args.get "args").bind Json.asArray with
  | none => .ok []
  | some values => values.mapM fun value =>
    match value.asStr with
    | some text => .ok text
    | none => .error (.invalid step.action "args must be an array of strings")

/-- The optional working directory, which must lie in the workspace. -/
def readCwd (fs : FsView) (context : StepContext) (step : WorkflowStep) :
    Except StepError (Option String) :=
  match (step.args.get "cwd").bind Json.asStr with
  | none => .ok none
  | some cwd =>
    match safeJoin fs context.canonicalWorkspace cwd with
    | .ok resolved => .ok (some resolved)
    | .error error => .error (.invalid step.action ("cwd rejected: " ++ error.display))

/-- The optional environment additions; values that are no texts are dropped. -/
def readEnv (step : WorkflowStep) : List (String × String) :=
  match (step.args.get "env").bind Json.asObject with
  | none => []
  | some members => members.filterMap fun (key, value) => value.asStr.map fun text => (key, text)

/-- The legacy shape is one shell text; the other names a program with its arguments. -/
def readCommand (fs : FsView) (context : StepContext) (step : WorkflowStep) (legacy : Bool) :
    Except StepError StepCommand :=
  if legacy then do
    let command ← requiredStr step "cmd"
    return { program := "sh", args := ["-c", command] }
  else do
    let program ← requiredStr step "program"
    let args ← readArgs step
    let cwd ← readCwd fs context step
    return { program, args, cwd, env := readEnv step }

/-- The mode check, the legacy opt-in, the allowlist and the denylist, in this order. -/
def policyGate (policy : CapabilityPolicy) (step : WorkflowStep) (legacy : Bool)
    (command : StepCommand) : Except StepError Unit :=
  if policy.exec.mode ≠ execAllowlist then
    .error ⟨"invalid", "policy denied step '" ++ step.action ++ "': exec (exec=off)"⟩
  else if legacy && !policy.exec.allowLegacyShell then
    .error ⟨"invalid",
      "policy denied step '" ++ step.action ++ "': exec (legacy shell not allowed)"⟩
  -- An empty list is not matched against at all.
  else if !policy.exec.allow.isEmpty &&
      !policy.exec.allow.any fun entry => programStem entry == programStem command.program then
    .error ⟨"invalid", "exec '" ++ command.program ++ "' is not allowed by policy (allow: " ++
      String.intercalate "," policy.exec.allow ++ ")"⟩
  else
    match denylistHit command.program command.args with
    | some reason =>
      .error ⟨"invalid", "denylist refused step '" ++ step.action ++ "': " ++ reason⟩
    | none => .ok ()

/-- A path is resolved inside the workspace or the run root; a bare name is left to `PATH`. -/
def resolveProgram (fs : FsView) (context : StepContext) (step : WorkflowStep)
    (program : String) : Except StepError String :=
  if program.toList.any fun c => c == '/' || c == '\\' || c == ':' then
    if startsWith program "/" then
      match fs.canonicalize program with
      | .error error => .error (.invalid step.action ("program not found: " ++ error))
      | .ok canonical =>
        if pathStartsWith canonical context.canonicalWorkspace ||
            context.runRoot.any fun root => pathStartsWith canonical root then .ok canonical
        else
          .error (.invalid step.action ("program outside workspace/run root: " ++ canonical))
    else
      match safeJoin fs context.canonicalWorkspace program with
      | .ok resolved => .ok resolved
      | .error error =>
        .error (.invalid step.action ("program path rejected: " ++ error.display))
  else
    match context.runRoot with
    | some root =>
      if fs.isFile (pathJoin root program) then .ok (pathJoin root program) else .ok program
    | none => .ok program

/-- A dry run reports the validated shape; otherwise the program is resolved and spawned. -/
def collectOutput (fs : FsView) (context : StepContext) (step : WorkflowStep)
    (command : StepCommand) : Except StepError StepPlan :=
  if context.scratch.isSome then
    let evidence := "dry-run exec " ++ command.program ++ " (args " ++
      toString command.args.length ++ ", policy " ++ context.policy.exec.mode ++ ", not spawned)"
    .ok (.dryRun { evidence })
  else do
    let resolved ← resolveProgram fs context step command.program
    return .spawn
      { program := resolved
        args := command.args
        currentDir := command.cwd.getD context.canonicalWorkspace
        env := command.env
        timeoutSecs := min (max context.policy.exec.timeoutSecs 1) 3600
        outputCap := max context.policy.exec.outputCap 1 }

def execProgram (fs : FsView) (context : StepContext) (step : WorkflowStep) (legacy : Bool) :
    Except StepError StepPlan := do
  let command ← readCommand fs context step legacy
  policyGate context.policy step legacy command
  collectOutput fs context step command

/-- The policy check runs first, so that a denied step has no effect. -/
def executeStep (fs : FsView) (context : StepContext) (step : WorkflowStep) :
    Except StepError StepPlan :=
  match context.policy.check step.action with
  | .error decision =>
    .error ⟨"invalid", "policy denied step '" ++ decision.action ++ "': " ++ decision.family ++
      " (" ++ decision.reason ++ ")"⟩
  | .ok () =>
    if step.action = "exec" then execProgram fs context step false
    else if step.action = "exec_command" then execProgram fs context step true
    else if step.action ∈ ["write_file", "append_file", "mkdir", "copy_file", "move_file",
        "delete_file", "read_file"] then .ok (.fileAction step.action)
    else .error (.invalid step.action "unsupported workflow action for the embedded executor")

end ExperienceCodex
