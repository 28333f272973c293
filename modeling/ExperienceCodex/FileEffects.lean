import ExperienceCodex.FileFacts
import ExperienceCodex.FileStepsPlain

/-!
# What a successful file step does

A file step that succeeds in a workspace without links does one operation on the files of the
workspace, with or without a backup root: the step's arguments name the operation, and the guarded
executor refines it.
-/

namespace ExperienceCodex

open List Text FileTree Programs FileFacts UndoLog

/-- The nodes of a workspace. -/
abbrev workOf (layout : Layout) (t : Tree FileName ByteArray) : UndoLog.Nodes FileName ByteArray :=
  fun k => t.node (layout.root ++ k)

/-- A text argument of a step. -/
def textArg (step : WorkflowStep) (key : String) : Option String :=
  (step.args.get key).bind Json.asStr

/-- The place that an argument of a step names. -/
def placeArg (step : WorkflowStep) (key : String) : Option Place :=
  (textArg step key).map guardNames

/-- The operation that a step stands for. -/
def fileOp (work : UndoLog.Nodes FileName ByteArray) (step : WorkflowStep) :
    Option (Op FileName ByteArray) :=
  if step.action = "write_file" then do
    let l ← placeArg step "path"
    let content ← textArg step "content"
    return .put l content.toUTF8
  else if step.action = "append_file" then do
    let l ← placeArg step "path"
    let content ← textArg step "content"
    return .put l ((UndoLog.contentAt work l).getD ∅ ++ content.toUTF8)
  else if step.action = "mkdir" then do
    let l ← placeArg step "path"
    return .makeDir l
  else if step.action = "copy_file" then do
    let source ← placeArg step "source"
    let target ← placeArg step "target"
    -- A file that is copied to itself is emptied.
    return .put target (if target = source then ∅ else (UndoLog.contentAt work source).getD ∅)
  else if step.action = "move_file" then do
    let source ← placeArg step "source"
    let target ← placeArg step "target"
    return .move source target
  else if step.action = "delete_file" then do
    let l ← placeArg step "path"
    return .remove l
  else some .read

/-- A step of one of the file actions. -/
def IsFileAction (step : WorkflowStep) : Prop :=
  step.action ∈ ["write_file", "append_file", "mkdir", "copy_file", "move_file", "delete_file",
    "read_file"]

section
variable {lay : Layout} {ctx : FileContext} (step : WorkflowStep) {s : FileState}

/-- The workspace is as it was. -/
structure SameWork (layout : Layout) (s after : FileState) : Prop where
  plain : layout.Plain after.tree
  work : workOf layout after.tree = workOf layout s.tree

lemma SameWork.refl (h : lay.Plain s.tree) : SameWork lay s s := ⟨h, rfl⟩

/-- A backup leaves the workspace alone. -/
lemma ensureBackup_work_ends (hfits : lay.Fits ctx) (h : lay.Plain s.tree)
    {names : Place} (hspell : ∀ name ∈ names, Spelled name) :
    Yields (ensureBackup ctx step (render (lay.root ++ names))) s
      fun _ after => SameWork lay s after := by
  cases hb : lay.backup with
  | none =>
    have hbackup : ctx.backup = none := by rw [hfits.backup, hb]; rfl
    unfold ensureBackup
    simp only [hbackup]
    exact ends_pure (.refl h)
  | some b =>
    have hbackup : ctx.backup = some (render b) := by rw [hfits.backup, hb]; rfl
    have hrel : relativeTo ctx.canonicalWorkspace (render (lay.root ++ names)) =
        some (relText names) := by rw [hfits.workspace, relativeTo_render]
    have hex : (ctx.host s).pathExists (render (lay.root ++ names)) =
        (s.tree.node (lay.root ++ names)).isSome := Host.pathExists_render (h.noLinks names)
    unfold ensureBackup
    simp only [hbackup, hrel, withSlashes_relText hspell]
    refine ends_get_bind ?_
    split_ifs
    · exact ends_pure (.refl h)
    · rw [hex]
      cases hnode : s.tree.node (lay.root ++ names) with
      | none => exact ends_bind (ends_pure (ends_bind (ends_modify (ends_pure ⟨h, rfl⟩))))
      | some node =>
        refine (copyToBackup_ends step hb h names).yields_bind ?_
        rintro path after ⟨rfl, -, mid, content, haside, -, htakes, rfl⟩
        refine ends_bind (ends_modify (ends_pure ⟨haside.plain.putFile htakes content, ?_⟩))
        funext k
        exact (work_putCopy hb htakes content k).trans (haside.work k)

/-- Recording a directory leaves the files alone. -/
lemma recordCreatedDir_tree_ends (tgt : String) :
    Yields (recordCreatedDir ctx tgt) s fun _ after => after.tree = s.tree := by
  refine ends_get_bind ?_
  split_ifs
  · exact ends_pure rfl
  · split
    · dsimp only
      split_ifs
      · exact ends_pure rfl
      · exact ends_set rfl
    · exact ends_pure rfl

/-- The directories above a place are made. -/
structure Opened (layout : Layout) (names : Place) (s after : FileState) : Prop where
  plain : layout.Plain after.tree
  wasOpen : Open (workOf layout s.tree) names
  work : ∀ k, workOf layout after.tree k =
    if k <+: names ∧ k ≠ names then some .dir else workOf layout s.tree k

lemma Opened.of_concat {above : Place} {last : FileName} {after : FileState}
    (hplain : lay.Plain after.tree)
    (hfree : ∀ k, k <+: above → s.tree.node (lay.root ++ k) = none ∨
      s.tree.node (lay.root ++ k) = some .dir)
    (hnodes : ∀ k, after.tree.node (lay.root ++ k) =
      if k <+: above then some .dir else s.tree.node (lay.root ++ k)) :
    Opened lay (above ++ [last]) s after := by
  have hstr (k : Place) : k <+: above ++ [last] ∧ k ≠ above ++ [last] ↔ k <+: above := by
    constructor
    · rintro ⟨hk, hne⟩
      exact (prefix_concat_iff.mp hk).resolve_left hne
    · intro hk
      refine ⟨hk.trans (prefix_append _ _), ?_⟩
      rintro rfl
      simpa using hk.length_le
  refine ⟨hplain, ?_, ?_⟩
  · intro k hk hne
    rcases hfree k ((hstr k).mp ⟨hk, hne⟩) with hnone | hdir
    · simp [contentAt, hnone]
    · simp [contentAt, hdir]
  · intro k
    simp only [hstr k, hnodes]

lemma createParents_work_ends (h : lay.Plain s.tree) (names : Place) :
    Yields (createParents ctx step (render (lay.root ++ names))) s
      fun _ after => Opened lay names s after := by
  unfold createParents
  rcases eq_nil_or_concat names with rfl | ⟨above, last, rfl⟩
  · -- Above the workspace the directories are there.
    have hnothing (k : Place) : ¬ (k <+: [] ∧ k ≠ []) := by
      rintro ⟨hk, hne⟩
      exact hne (prefix_nil.mp hk)
    rw [append_nil]
    rcases eq_nil_or_concat lay.root with hroot | ⟨above, last, hroot⟩
    · have hpar : pathParent (render []) = none := by decide +kernel
      rw [hroot, hpar]
      exact ends_pure ⟨h, fun k hk hne => absurd ⟨hk, hne⟩ (hnothing k), fun k => by
        rw [if_neg (hnothing k)]⟩
    · rw [concat_eq_append] at hroot
      have hlinks : s.tree.NoLinks above := by
        have hall := h.noLinks []
        rw [append_nil, hroot] at hall
        exact hall.above (prefix_append _ _)
      rw [hroot, pathParent_render]
      simp only [render_ne_empty, Bool.false_eq_true, if_false]
      refine (makeDirs_ends step _ hlinks).yields ?_
      rintro - after ⟨-, -, hnodes⟩
      refine ⟨h.makeDirs hnodes, fun k hk hne => absurd ⟨hk, hne⟩ (hnothing k), ?_⟩
      intro k
      have hbelow : ¬ lay.root ++ k <+: above := by
        intro hbeg
        have hlen := hbeg.length_le
        rw [hroot] at hlen
        simp only [length_append, length_singleton] at hlen
        omega
      rw [if_neg (hnothing k), workOf, hnodes, if_neg hbelow]
  · rw [concat_eq_append, ← append_assoc, pathParent_render]
    simp only [render_ne_empty, Bool.false_eq_true, if_false]
    refine (makeDirs_work_ends step h _ above).yields ?_
    rintro - after ⟨-, hplain, -, hfree, hnodes⟩
    exact .of_concat hplain hfree hnodes

/-- An operation on the files of the workspace has been done. -/
structure Did (layout : Layout) (s : FileState) (op : Op FileName ByteArray) (after : FileState) :
    Prop where
  plain : layout.Plain after.tree
  fits : op.Fits (workOf layout s.tree)
  work : workOf layout after.tree = op.apply (workOf layout s.tree)

variable {mid : FileState}

lemma SameWork.did {after : FileState} {op : Op FileName ByteArray}
    (hsame : SameWork lay s mid) (h : Did lay mid op after) : Did lay s op after := by
  obtain ⟨hplain, hfits, hwork⟩ := h
  rw [hsame.work] at hfits hwork
  exact ⟨hplain, hfits, hwork⟩

lemma Opened.work_at {names : Place} (h : Opened lay names s mid) :
    workOf lay mid.tree names = workOf lay s.tree names := by
  rw [h.work, if_neg fun hboth => hboth.2 rfl]

/-- A file is put where the directories have been made for it. -/
lemma Opened.put {names : Place} (h : Opened lay names s mid)
    (htakes : mid.tree.takesFile (lay.root ++ names) = true) (v : ByteArray) :
    Did lay s (.put names v)
      { mid with tree := mid.tree.putFile (lay.root ++ names) v } := by
  refine ⟨h.plain.putFile htakes v, h.wasOpen, ?_⟩
  funext k
  have hnode : workOf lay (mid.tree.putFile (lay.root ++ names) v) k =
      if k = names then some (.file v) else workOf lay mid.tree k :=
    work_putFile htakes v k
  rw [hnode, h.work]
  by_cases hk : k = names
  · simp [Op.apply, hk]
  · simp [Op.apply, hk]

/-- Something is moved to where the directories have been made for it. -/
lemma Opened.move {src target : Place} (h : Opened lay target s mid)
    (hsome : workOf lay s.tree src ≠ none)
    (hmov : mid.tree.movable (lay.root ++ src) (lay.root ++ target) = true)
    (hfree : ∀ below, below ≠ [] → workOf lay mid.tree (target ++ below) = none) :
    Did lay s (.move src target)
      { mid with tree := mid.tree.move (lay.root ++ src) (lay.root ++ target) } := by
  obtain ⟨hnotSource, hnotTarget⟩ := not_begins_of_movable hmov
  -- The new directories are neither in the source nor below the target.
  have hfrom (more : Place) : workOf lay mid.tree (src ++ more) =
      workOf lay s.tree (src ++ more) := by
    rw [h.work, if_neg]
    rintro ⟨hbeg, -⟩
    exact hnotSource ((prefix_append _ _).trans hbeg)
  have hbelow (below : Place) (hne : below ≠ []) : workOf lay s.tree (target ++ below) = none := by
    rw [← hfree below hne, h.work, if_neg]
    rintro ⟨hbeg, -⟩
    have hlen := hbeg.length_le
    rw [length_append] at hlen
    have hpos := length_pos_of_ne_nil hne
    omega
  have hne : src ≠ target := by
    rintro rfl
    exact hnotSource prefix_rfl
  refine ⟨h.plain.move hmov,
    ⟨hsome, fun _ => ⟨h.wasOpen, hnotSource, hnotTarget, hbelow⟩⟩, ?_⟩
  funext k
  have hmoved : workOf lay (mid.tree.move (lay.root ++ src) (lay.root ++ target)) k =
      if target <+: k then workOf lay mid.tree (src ++ k.drop target.length)
      else if src <+: k then none
      else workOf lay mid.tree k := work_move hmov k
  rw [hmoved, hfrom, h.work]
  simp only [Op.apply, if_neg hne]
  by_cases htgt : target <+: k
  · simp [htgt]
  · have hk : k ≠ target := by
      rintro rfl
      exact htgt prefix_rfl
    simp [htgt, hk]

lemma placeArg_of_named {key : String} {names : Place} (h : names ∈ named step key) :
    placeArg step key = some names := by
  unfold named at h
  exact Option.mem_toList.mp h

variable (hfits : lay.Fits ctx) (h : lay.Plain s.tree)
include hfits h

lemma writeFile_did (append : Bool) :
    Yields (writeFile ctx step append) s
      fun _ after => ∃ l content, placeArg step "path" = some l ∧
        textArg step "content" = some content ∧
        Did lay s (.put l (if append then
          (contentAt (workOf lay s.tree) l).getD ∅ ++ content.toUTF8
          else content.toUTF8)) after := by
  unfold writeFile
  refine (resolvePath_ends step hfits h "path").yields_bind ?_
  rintro path after ⟨rfl, names, hmem, hspell, rfl⟩
  refine (orThrow_ends _).yields_bind ?_
  rintro content after ⟨rfl, hcont⟩
  refine (ensureBackup_work_ends step hfits h hspell).yields_bind ?_
  intro backedUp mid hsame
  refine (createParents_work_ends step hsame.plain names).yields_bind ?_
  intro _ opened hopened
  refine (changeTree_write_ends step hopened.plain names _ _).yields_bind ?_
  rintro - done ⟨htakes, rfl⟩
  refine ends_pure ⟨names, content, placeArg_of_named step hmem,
    ?_, hsame.did ?_⟩
  · unfold requiredStr at hcont
    split at hcont
    · next found hfound => exact hfound.trans (congrArg some (Except.ok.inj hcont))
    · cases hcont
  have hold : opened.tree.content (lay.root ++ names) =
      contentAt (workOf lay after.tree) names := by
    rw [← hsame.work, ← contentAt_work]
    simp only [contentAt, hopened.work_at]
  have hput := hopened.put htakes (if append = true then
    (opened.tree.content (lay.root ++ names)).getD ∅ ++ content.toUTF8 else content.toUTF8)
  rw [hold] at hput
  rw [hold]
  exact hput

lemma copyFile_did :
    Yields (copyFile ctx step) s
      fun _ after => ∃ source target, placeArg step "source" = some source ∧
        placeArg step "target" = some target ∧
        Did lay s (.put target (if target = source then ∅
          else (contentAt (workOf lay s.tree) source).getD ∅)) after := by
  unfold copyFile
  refine (resolvePath_ends step hfits h "source").yields_bind ?_
  rintro path after ⟨rfl, source, hsrc, -, rfl⟩
  refine (resolvePath_ends step hfits h "target").yields_bind ?_
  rintro path after ⟨rfl, target, htgt, hspell, rfl⟩
  refine (requireSource_ends step h source).yields_bind ?_
  rintro - after ⟨rfl, -⟩
  refine (ensureBackup_work_ends step hfits h hspell).yields_bind ?_
  intro backedUp mid hsame
  refine (createParents_work_ends step hsame.plain target).yields_bind ?_
  intro _ opened hopened
  refine (changeTree_copy_ends step _ (hopened.plain.noLinks source)
    (hopened.plain.noLinks target)).yields_bind ?_
  rintro - done ⟨v, hcont, htakes, rfl⟩
  refine ends_pure ⟨source, target, placeArg_of_named step hsrc, placeArg_of_named step htgt,
    hsame.did ?_⟩
  -- No directory has been made in the place of the source.
  have hfile : workOf lay after.tree source = some (.file v) := by
    have hopenedSource : workOf lay opened.tree source = some (.file v) := hcont
    rw [hopened.work] at hopenedSource
    rw [← hsame.work]
    split_ifs at hopenedSource
    · cases hopenedSource
    · exact hopenedSource
  have hput := hopened.put htakes (if target = source then ∅ else v)
  simp only [append_cancel_left_eq, contentAt_eq_some_iff.mpr hfile, Option.getD_some]
  exact hput

lemma mkdir_did :
    Yields (mkdir ctx step) s
      fun _ after => ∃ l, placeArg step "path" = some l ∧ Did lay s (.makeDir l) after := by
  unfold mkdir
  refine (resolvePath_ends step hfits h "path").yields_bind ?_
  rintro path after ⟨rfl, names, hmem, -, rfl⟩
  refine (recordCreatedDir_tree_ends _).yields_bind ?_
  intro _ mid htree
  have hplain : lay.Plain mid.tree := by
    rw [htree]
    exact h
  refine (makeDirs_work_ends step hplain _ names).yields_bind ?_
  rintro - done ⟨-, hdone, -, hfree, hnodes⟩
  rw [htree] at hfree hnodes
  have hnone (k : Place) (hk : k <+: names) :
      contentAt (workOf lay after.tree) k = none := by
    rcases hfree k hk with hnone | hdir
    · simp [contentAt, hnone]
    · simp [contentAt, hdir]
  exact ends_pure ⟨names, placeArg_of_named step hmem, hdone,
    ⟨fun k hk _ => hnone k hk, hnone names prefix_rfl⟩, funext hnodes⟩

lemma deleteFile_did :
    Yields (deleteFile ctx step) s
      fun _ after => ∃ l, placeArg step "path" = some l ∧ Did lay s (.remove l) after := by
  unfold deleteFile
  refine (resolvePath_ends step hfits h "path").yields_bind ?_
  rintro path after ⟨rfl, names, hmem, hspell, rfl⟩
  refine (ensureBackup_work_ends step hfits h hspell).yields_bind ?_
  intro backedUp mid hsame
  refine (removeTarget_ends step hsame.plain names).yields_bind ?_
  rintro - done hdone
  refine ends_pure ⟨names, placeArg_of_named step hmem, hsame.did ?_⟩
  rcases hdone with ⟨hnone, rfl⟩ | ⟨v, hnode, rfl⟩
  · refine ⟨hsame.plain, trivial, ?_⟩
    funext k
    by_cases hk : k = names
    · simp [Op.apply, hk, hnone]
    · simp [Op.apply, hk]
  · have hdir : mid.tree.isDir (lay.root ++ names) = false := by
      simp [Tree.isDir, hnode, Node.isDir]
    exact ⟨hsame.plain.removeNode hdir, trivial, funext (work_removeNode hdir)⟩

lemma moveFile_did :
    Yields (moveFile ctx step) s
      fun _ after => ∃ source target, placeArg step "source" = some source ∧
        placeArg step "target" = some target ∧ Did lay s (.move source target) after := by
  unfold moveFile
  refine (resolvePath_ends step hfits h "source").yields_bind ?_
  rintro path after ⟨rfl, source, hsrc, hsourceSpelled, rfl⟩
  refine (resolvePath_ends step hfits h "target").yields_bind ?_
  rintro path after ⟨rfl, target, htgt, htargetSpelled, rfl⟩
  refine (requireSource_ends step h source).yields_bind ?_
  rintro - after ⟨rfl, hex⟩
  refine (ensureBackup_work_ends step hfits h hsourceSpelled).yields_bind ?_
  intro _ first hfst
  refine (ensureBackup_work_ends step hfits hfst.plain htargetSpelled).yields_bind ?_
  intro _ mid hmid
  have hsame : SameWork lay after mid := ⟨hmid.plain, hmid.work.trans hfst.work⟩
  refine (createParents_work_ends step hsame.plain target).yields_bind ?_
  intro _ opened hopened
  refine (changeTree_rename_ends step hopened.plain source target _).yields_bind ?_
  intro _ done hdone
  refine ends_pure ⟨source, target, placeArg_of_named step hsrc, placeArg_of_named step htgt,
    hsame.did ?_⟩
  have hsome : workOf lay mid.tree source ≠ none := by
    rw [hsame.work]
    exact hex
  rcases hdone with ⟨rfl, rfl⟩ | ⟨hmov, hfree, rfl⟩
  · -- moving something to where it is changes nothing: the directories above it are there
    refine ⟨hopened.plain, ⟨hsome, fun hne => absurd rfl hne⟩, ?_⟩
    funext k
    have happly : (Op.move source source).apply (workOf lay mid.tree) = workOf lay mid.tree :=
      if_pos rfl
    rw [happly, hopened.work]
    split_ifs with habove
    · obtain ⟨⟨below, rfl⟩, hne⟩ := habove
      refine (work_rooted lay.root mid.tree k below ?_ hsome).symm
      rintro rfl
      exact hne (append_nil k).symm
    · rfl
  · exact hopened.move hsome hmov hfree

/-- A file action that succeeds has done the operation of its step. -/
lemma fileAction_did :
    Yields (fileAction ctx step) s
      fun _ after => ∃ op, fileOp (workOf lay s.tree) step = some op ∧ Did lay s op after := by
  unfold fileAction
  by_cases hwrite : step.action = "write_file"
  · rw [if_pos hwrite]
    refine (writeFile_did step hfits h false).yields ?_
    rintro - after ⟨l, content, hl, hcont, hdid⟩
    exact ⟨_, by simp [fileOp, hwrite, hl, hcont], hdid⟩
  by_cases happend : step.action = "append_file"
  · rw [if_neg hwrite, if_pos happend]
    refine (writeFile_did step hfits h true).yields ?_
    rintro - after ⟨l, content, hl, hcont, hdid⟩
    exact ⟨_, by simp [fileOp, happend, hl, hcont], hdid⟩
  by_cases hmkdir : step.action = "mkdir"
  · rw [if_neg hwrite, if_neg happend, if_pos hmkdir]
    refine (mkdir_did step hfits h).yields ?_
    rintro - after ⟨l, hl, hdid⟩
    exact ⟨_, by simp [fileOp, hmkdir, hl], hdid⟩
  by_cases hcopy : step.action = "copy_file"
  · rw [if_neg hwrite, if_neg happend, if_neg hmkdir, if_pos hcopy]
    refine (copyFile_did step hfits h).yields ?_
    rintro - after ⟨src, target, hsrc, htgt, hdid⟩
    exact ⟨_, by simp [fileOp, hcopy, hsrc, htgt], hdid⟩
  by_cases hmove : step.action = "move_file"
  · rw [if_neg hwrite, if_neg happend, if_neg hmkdir, if_neg hcopy, if_pos hmove]
    refine (moveFile_did step hfits h).yields ?_
    rintro - after ⟨src, target, hsrc, htgt, hdid⟩
    exact ⟨_, by simp [fileOp, hmove, hsrc, htgt], hdid⟩
  by_cases hdel : step.action = "delete_file"
  · rw [if_neg hwrite, if_neg happend, if_neg hmkdir, if_neg hcopy, if_neg hmove, if_pos hdel]
    refine (deleteFile_did step hfits h).yields ?_
    rintro - after ⟨l, hl, hdid⟩
    exact ⟨_, by simp [fileOp, hdel, hl], hdid⟩
  · rw [if_neg hwrite, if_neg happend, if_neg hmkdir, if_neg hcopy, if_neg hmove, if_neg hdel]
    refine (readFile_ends step hfits h).yields ?_
    rintro - after rfl
    exact ⟨.read, by simp [fileOp, hwrite, happend, hmkdir, hcopy, hmove, hdel], h, trivial, rfl⟩

/-- A file step that succeeds has done its operation. -/
theorem performStep_did (spawner : Spawner) (hstep : IsFileAction step) :
    Yields (performStep spawner ctx step) s
      fun _ after => ∃ op, fileOp (workOf lay s.tree) step = some op ∧ Did lay s op after := by
  have hexec : step.action ≠ "exec" := by
    intro heq
    simp [IsFileAction, heq] at hstep
  have hcommand : step.action ≠ "exec_command" := by
    intro heq
    simp [IsFileAction, heq] at hstep
  unfold performStep
  refine ends_get_bind ?_
  unfold executeStep
  cases ctx.policy.check step.action with
  | error d => exact ends_throw trivial
  | ok checked =>
    -- the plan for a file step is the file action
    unfold IsFileAction at hstep
    dsimp only
    rw [if_neg hexec, if_neg hcommand, if_pos hstep]
    exact fileAction_did step hfits h

end

end ExperienceCodex
