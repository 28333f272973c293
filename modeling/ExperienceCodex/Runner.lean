import ExperienceCodex.FileSteps
import ExperienceCodex.Gate

/-!
# The local runner

The adapter that binds the step executor to the gate.  It makes a new step context for every step,
and with it a new list of backup entries; only the files carry over from one step to the next.
-/

namespace ExperienceCodex

open Text FileTree

/-- What the executor is given by the process it runs in and by the operating system. -/
structure Machine where
  cwd : Place
  shownText : ByteArray → String
  spawner : Spawner

/-- A machine without processes. -/
def bareMachine : Machine where
  cwd := []
  shownText _ := ""
  spawner := noSpawner

namespace Machine

variable (machine : Machine)

/-- A new step context.  A workspace that has no canonical path is taken as it is written. -/
def stepContext (tree : Tree FileName ByteArray) (workspace : String) (policy : CapabilityPolicy) :
    FileContext where
  canonicalWorkspace :=
    match Host.canonicalize { tree, cwd := machine.cwd } workspace with
    | .ok place => render place
    | .error _ => workspace
  policy := policy
  cwd := machine.cwd
  shownText := machine.shownText

end Machine

/-- What the gate keeps of an execution. -/
def StepExecution.outcome (execution : StepExecution) : StepOutcome where
  evidence := execution.evidence
  sideEffects := execution.sideEffects.map fun description => { description, evidence := none }
  exitCode := execution.exitCode
  stdout := execution.stdout
  stderr := execution.stderr

structure LocalRunner where
  backupRoot : Option String := none
  policy : CapabilityPolicy := {}

namespace LocalRunner

/-- The runner that backs up every path it changes, under the built-in policy. -/
def withBackup (root : String) : LocalRunner := { backupRoot := some root }

def withPolicy (policy : CapabilityPolicy) : LocalRunner := { policy }

def withBackupAndPolicy (root : String) (policy : CapabilityPolicy) : LocalRunner :=
  { backupRoot := some root, policy }

variable (machine : Machine) (runner : LocalRunner) (context : GateContext)

/-- The context in which a step is run. -/
def contextFor (tree : Tree FileName ByteArray) : FileContext :=
  { machine.stepContext tree context.cwd runner.policy with backup := runner.backupRoot }

def run (tree : Tree FileName ByteArray) (step : WorkflowStep) :
    Except String StepOutcome × Tree FileName ByteArray :=
  match (performStep machine.spawner (runner.contextFor machine context tree) step).run
      { tree } with
  | .ok execution after => (.ok execution.outcome, after.tree)
  | .error error after => (.error error.detail, after.tree)

/-- The files that a step leaves behind. -/
def next (tree : Tree FileName ByteArray) (step : WorkflowStep) : Tree FileName ByteArray :=
  (runner.run machine context tree step).2

end LocalRunner

end ExperienceCodex
