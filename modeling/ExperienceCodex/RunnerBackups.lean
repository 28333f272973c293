import ExperienceCodex.FileStepsJournal
import ExperienceCodex.Runner
import ExperienceCodex.Runs

/-!
# The backups of the local runner

The list of backed-up paths lives for one step here, while the backup root lives for the whole run.
A path that a later step changes again is copied again, over the copy of its first content.  The
copies keep the first contents in the runs in which this does not happen.
-/

namespace ExperienceCodex

open Text FileTree Programs

lemma spawnsNothing_of_exec_off {context : FileContext}
    (hoff : context.policy.exec.mode ≠ execAllowlist) (step : WorkflowStep) :
    SpawnsNothing context step := by
  intro fs req hspawn
  obtain ⟨hchecked, hact⟩ := exec_of_spawn hspawn
  rcases hact with hact | hact
  · rw [hact] at hchecked
    simp [CapabilityPolicy.check, hoff] at hchecked
  · rw [hact] at hchecked
    simp [CapabilityPolicy.check, hoff] at hchecked

namespace LocalRunner

variable {machine : Machine} {context : GateContext} {layout : Layout} {b : Place}
  {tree : Tree FileName ByteArray}

lemma contextFor_fits {runner : LocalRunner} (hb : layout.backup = some b)
    (hbackup : runner.backupRoot = some (render b))
    (hroot : Host.canonicalize { tree, cwd := machine.cwd } context.cwd = .ok layout.root) :
    layout.Fits (runner.contextFor machine context tree) where
  workspace := by simp only [contextFor, Machine.stepContext, hroot]
  scratch := rfl
  backup := by simp only [contextFor, hbackup, hb, Option.map_some]

lemma next_eq (runner : LocalRunner) (step : WorkflowStep) :
    runner.next machine context tree step =
      (finalState (performStep machine.spawner (runner.contextFor machine context tree) step)
        { tree }).tree := by
  unfold next run finalState
  cases (performStep machine.spawner (runner.contextFor machine context tree) step).run
    { tree } with
  | ok execution after => rfl
  | error error after => rfl

/-- One step is a sequence of changes under a log of its own. -/
lemma next_inv {runner : LocalRunner} (hb : layout.backup = some b)
    (hbackup : runner.backupRoot = some (render b))
    (hroot : Host.canonicalize { tree, cwd := machine.cwd } context.cwd = .ok layout.root)
    (hplain : layout.Plain tree) {step : WorkflowStep}
    (hspawns : SpawnsNothing (runner.contextFor machine context tree) step) :
    layout.Plain (runner.next machine context tree step) ∧
      ∃ log, (∀ e ∈ log, e.place ∈ backupTargets step) ∧
        UndoLog.Inv (journal layout.root b [] tree)
          (journal layout.root b log (runner.next machine context tree step)) := by
  have hdoing : Doing layout b (journal layout.root b [] tree) [] { tree } :=
    ⟨hplain, .nil, List.forall_mem_nil _, .refl⟩
  have hclear : Clearable layout [] tree (backupTargets step) :=
    fun _ _ _ _ _ e hentry => absurd hentry List.not_mem_nil
  have hends := hdoing.performStep_ends machine.spawner (contextFor_fits hb hbackup hroot)
    (Option.mem_def.mpr hb) hspawns hclear
  obtain ⟨log, hdone, htgts⟩ := hends.final
  rw [next_eq]
  exact ⟨hdone.plain, log, htgts,
    (UndoLog.inv_start rfl).changes hplain.linkFree (work_rooted _ tree) hdone.changes⟩

/-- Where a step is about to change a file that was there at the start, that file has its first
content or is not there. -/
def FirstChanges (layout : Layout) (start tree : Tree FileName ByteArray) (step : WorkflowStep) :
    Prop :=
  ∀ l ∈ backupTargets step, ∀ content, start.node (layout.root ++ l) = some (.file content) →
    ∀ now, tree.node (layout.root ++ l) = some (.file now) → now = content

/-- A first file that a step changes is copied, and a copy of a first content stays. -/
lemma next_originals {runner : LocalRunner} (hb : layout.backup = some b)
    (hbackup : runner.backupRoot = some (render b))
    (hroot : Host.canonicalize { tree, cwd := machine.cwd } context.cwd = .ok layout.root)
    (hplain : layout.Plain tree) {step : WorkflowStep}
    (hspawns : SpawnsNothing (runner.contextFor machine context tree) step)
    {start : Tree FileName ByteArray} (hfst : FirstChanges layout start tree step) {l : Place}
    {v : ByteArray} (hstart : start.node (layout.root ++ l) = some (.file v)) :
    (tree.node (layout.root ++ l) = some (.file v) →
        (runner.next machine context tree step).node (layout.root ++ l) ≠ some (.file v) →
        (runner.next machine context tree step).node (b ++ l) = some (.file v)) ∧
      (tree.node (b ++ l) = some (.file v) →
        (runner.next machine context tree step).node (b ++ l) = some (.file v)) := by
  obtain ⟨-, log, htgts, hinv⟩ := next_inv hb hbackup hroot hplain hspawns
  constructor
  · intro hbefore hlost
    obtain ⟨e, hentry, rfl, hexist⟩ := hinv.entered_of_lost (work_rooted _ tree) hbefore hlost
    obtain ⟨first, hfirst, hcopy⟩ := hinv.saved e hentry hexist
    cases hbefore.symm.trans hfirst
    exact hcopy
  · intro hcopy
    refine hinv.copy_stays hcopy ?_
    rintro ⟨e, hentry, rfl⟩ now hnow
    exact hfst e.place (htgts e hentry) v hstart now hnow

/-- A state of a run in which a file has its first content, in the workspace or under the backup
root. -/
def Holds (layout : Layout) (b l : Place) (content : ByteArray) (tree : Tree FileName ByteArray) :
    Prop :=
  tree.node (layout.root ++ l) = some (.file content) ∨ tree.node (b ++ l) = some (.file content)

/-- What a step of a run may rely on: the workspace path still leads to the workspace, and no file
that was there at the start is changed a second time. -/
def Orderly (machine : Machine) (context : GateContext) (layout : Layout)
    (start tree : Tree FileName ByteArray) (step : WorkflowStep) : Prop :=
  Host.canonicalize { tree, cwd := machine.cwd } context.cwd = .ok layout.root ∧
    FirstChanges layout start tree step

/-- In a run all of whose steps are orderly, a file of the start that has been changed has its first
content under the backup root from then on. -/
theorem withBackup_keeps_originals (hb : layout.backup = some b)
    {start : Tree FileName ByteArray} (hplain : layout.Plain start) {steps : List WorkflowStep}
    (hsteps : Runs.Along ((withBackup (render b)).next machine context)
      (Orderly machine context layout start) start steps)
    {l : Place} {content : ByteArray}
    (hstart : start.node (layout.root ++ l) = some (.file content)) {i k : ℕ} (hik : i ≤ k)
    (hchanged : (Runs.run ((withBackup (render b)).next machine context) start
      (steps.take i)).node (layout.root ++ l) ≠ some (.file content)) :
    (Runs.run ((withBackup (render b)).next machine context) start
      (steps.take k)).node (b ++ l) = some (.file content) := by
  have hoff : ({} : CapabilityPolicy).exec.mode ≠ execAllowlist := by decide
  have hspawns (tree : Tree FileName ByteArray) (step : WorkflowStep) :
      SpawnsNothing ((withBackup (render b)).contextFor machine context tree) step :=
    spawnsNothing_of_exec_off hoff step
  -- Up to the change the file is in its place or has been copied.
  have hbefore := hsteps.invariant
    (Q := fun tree => layout.Plain tree ∧ Holds layout b l content tree) ?_
    ⟨hplain, .inl hstart⟩ i
  · obtain ⟨hplainThen, hcopied⟩ := hbefore
    -- After it the copy stays.
    have hafter := (hsteps.drop i).invariant
      (Q := fun tree => layout.Plain tree ∧ tree.node (b ++ l) = some (.file content)) ?_
      ⟨hplainThen, hcopied.resolve_left hchanged⟩ (k - i)
    · rw [Runs.run_take_of_le start steps hik]
      exact hafter.2
    · rintro tree step ⟨hplainNow, hcopy⟩ ⟨hroot, hfirst⟩
      have hnext := next_originals hb rfl hroot hplainNow (hspawns tree step) hfirst hstart
      exact ⟨(next_inv hb rfl hroot hplainNow (hspawns tree step)).1, hnext.2 hcopy⟩
  · rintro tree step ⟨hplainNow, hholds⟩ ⟨hroot, hfirst⟩
    have hnext := next_originals hb rfl hroot hplainNow (hspawns tree step) hfirst hstart
    refine ⟨(next_inv hb rfl hroot hplainNow (hspawns tree step)).1, ?_⟩
    rcases hholds with hwork | hcopy
    · by_cases hkept : ((withBackup (render b)).next machine context tree step).node
          (layout.root ++ l) = some (.file content)
      · exact .inl hkept
      · exact .inr (hnext.1 hwork hkept)
    · exact .inr (hnext.2 hcopy)

/-- The files after some steps in the small workspace. -/
def smallRun (steps : List WorkflowStep) : Tree FileName ByteArray :=
  Runs.run ((withBackup (render [backupName])).next bareMachine ⟨"/ws"⟩)
    smallTree steps

/-- A second write of the same path puts what the first one wrote over the copy. -/
theorem second_write_loses_original :
    smallTree.content [⟨"ws", by decide⟩, ⟨"f", by decide⟩] = some "old".toUTF8 ∧
      (smallRun [writeStep "f" "new", writeStep "f" "newer"]).content
        [⟨"ws", by decide⟩, ⟨"f", by decide⟩] = some "newer".toUTF8 ∧
      (smallRun [writeStep "f" "new", writeStep "f" "newer"]).content
        [⟨"backup", by decide⟩, ⟨"f", by decide⟩] = some "new".toUTF8 := by
  decide +kernel

/-- A run that changes the file once and then writes another one. -/
theorem withBackup_keeps_small :
    (smallRun [writeStep "f" "new", writeStep "g" "other"]).node
      [⟨"backup", by decide⟩, ⟨"f", by decide⟩] = some (.file "old".toUTF8) := by
  have hold : smallTree.node (smallLayout.root ++ [⟨"f", by decide⟩]) =
      some (.file "old".toUTF8) := Tree.content_eq_some_iff.mp (by decide)
  have hsteps : Runs.Along ((withBackup (render [⟨"backup", by decide⟩])).next bareMachine ⟨"/ws"⟩)
      (Orderly bareMachine ⟨"/ws"⟩ smallLayout smallTree) smallTree
      [writeStep "f" "new", writeStep "g" "other"] := by
    refine ⟨⟨by decide +kernel, ?_⟩, ⟨by decide +kernel, ?_⟩, trivial⟩
    · intro l _ content hstart now hnow
      rw [hstart] at hnow
      cases hnow
      rfl
    · intro l hl content hstart
      have htargets : backupTargets (writeStep "g" "other") = [[⟨"g", by decide⟩]] := by
        decide
      rw [htargets, List.mem_singleton] at hl
      have hnone : smallTree.content (smallLayout.root ++ l) = none := by
        rw [hl]
        decide
      rw [Tree.content_eq_some_iff.mpr hstart] at hnone
      cases hnone
  have hchanged : (smallRun [writeStep "f" "new", writeStep "g" "other"]).node
      (smallLayout.root ++ [⟨"f", by decide⟩]) ≠ some (.file "old".toUTF8) := by
    rw [ne_eq, ← Tree.content_eq_some_iff]
    decide +kernel
  have hb : smallLayout.backup = some [⟨"backup", by decide⟩] := rfl
  have hcopy := withBackup_keeps_originals hb smallTree_plain hsteps hold (Nat.le_refl 2) hchanged
  exact hcopy

end LocalRunner

end ExperienceCodex
