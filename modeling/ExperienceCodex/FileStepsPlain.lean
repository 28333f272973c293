import ExperienceCodex.FileLayout
import ExperienceCodex.UndoLog

/-!
# File steps in a workspace without links

In a workspace without links every part of a file action says what it means for the nodes of the
workspace: a path names one place, and what is made, written, removed or moved there is seen at that
place and nowhere else.  What is done for a backup stays outside the workspace.
-/

namespace ExperienceCodex

open List Text FileTree Programs Tree

/-- The places that a step names under a key. -/
def named (step : WorkflowStep) (key : String) : List Place :=
  (((step.args.get key).bind Json.asStr).map guardNames).toList

/-- The places that a step backs up or records before it changes them. -/
def backupTargets (step : WorkflowStep) : List Place :=
  if step.action = "copy_file" then named step "target"
  else if step.action = "move_file" then named step "source" ++ named step "target"
  else if step.action = "read_file" then []
  else named step "path"

/-- The step starts no process, whatever the files are. -/
def SpawnsNothing (context : FileContext) (step : WorkflowStep) : Prop :=
  ∀ fs request, executeStep fs context.toStepContext step ≠ .ok (.spawn request)

/-- Only the process actions start a process, and only when the policy lets them. -/
lemma exec_of_spawn {fs : FsView} {ctx : StepContext} {step : WorkflowStep}
    {req : SpawnRequest} (h : executeStep fs ctx step = .ok (.spawn req)) :
    ctx.policy.check step.action = .ok () ∧
      (step.action = "exec" ∨ step.action = "exec_command") := by
  unfold executeStep at h
  cases hcheck : ctx.policy.check step.action with
  | error d =>
    rw [hcheck] at h
    cases h
  | ok checked =>
    rw [hcheck] at h
    refine ⟨rfl, ?_⟩
    by_contra hother
    push Not at hother
    dsimp only at h
    rw [if_neg hother.1, if_neg hother.2] at h
    split_ifs at h
    cases h

lemma work_rooted (root : Place) (t : Tree FileName ByteArray) :
    UndoLog.Rooted fun l => t.node (root ++ l) := by
  intro l below hbelow hex
  beta_reduce at hex ⊢
  rw [← append_assoc] at hex
  exact node_above hbelow hex

lemma contentAt_work (root : Place) (t : Tree FileName ByteArray) (l : Place) :
    UndoLog.contentAt (fun k => t.node (root ++ k)) l = t.content (root ++ l) := by
  unfold UndoLog.contentAt content
  beta_reduce
  cases t.node (root ++ l) with
  | none => rfl
  | some node => cases node <;> rfl

namespace Layout

variable {lay : Layout} {t t' : Tree FileName ByteArray}

/-- A tree with no further links, in which the root is still a directory. -/
lemma Plain.of_links (h : lay.Plain t) (hroot : t'.node lay.root = some .dir)
    (hlinks : ∀ k, t'.isLink k = true →
      t.isLink k = true ∨ ∃ l, t.isLink (lay.root ++ l) = true) : lay.Plain t' := by
  have hnot : ∀ k, t.isLink k = false → t'.isLink k = false := by
    intro k hk
    rw [Bool.eq_false_iff]
    intro hlink
    rcases hlinks k hlink with hsame | ⟨l, hwork⟩
    · rw [hk] at hsame
      cases hsame
    · rw [h.work l] at hwork
      cases hwork
  refine ⟨hroot, fun l => hnot _ (h.work l), ?_⟩
  intro b hb
  exact ⟨fun k hk => hnot k ((h.backup b hb).1 k hk), fun l => hnot _ ((h.backup b hb).2 l)⟩

lemma not_begins {a b : Place} (h : ¬ a <+: b ∧ ¬ b <+: a) (k l : Place) : ¬ a ++ k <+: b ++ l := by
  intro hbeg
  have hroot := (prefix_append a k).trans hbeg
  have horder := prefix_or_prefix_of_prefix hroot (prefix_append b l)
  exact horder.elim h.1 h.2

/-- No place is at the same time in the workspace and at or above one at the backup root. -/
lemma not_begins_backup (lay : Layout) {b : Place} (hb : b ∈ lay.backup) (k l : Place) :
    ¬ lay.root ++ k <+: b ++ l :=
  not_begins (lay.apart b hb) k l

lemma not_begins_work (lay : Layout) {b : Place} (hb : b ∈ lay.backup) (k l : Place) :
    ¬ b ++ k <+: lay.root ++ l :=
  not_begins (lay.apart b hb).symm k l

end Layout

section
variable {lay : Layout} {t made : Tree FileName ByteArray}

lemma Layout.Plain.makeDirs {p : Place}
    (h : lay.Plain t)
    (hnodes : ∀ k, made.node k = if k <+: p then some .dir else t.node k) :
    lay.Plain made := by
  refine h.of_links ?_ ?_
  · rw [hnodes]
    split_ifs
    · rfl
    · exact h.rootDir
  · intro k hlink
    rw [isLink, hnodes] at hlink
    split_ifs at hlink
    · cases hlink
    · exact .inl hlink

lemma Layout.Plain.putFile {p : Place} (h : lay.Plain t)
    (htakes : t.takesFile p = true) (v : ByteArray) : lay.Plain (t.putFile p v) := by
  refine h.of_links ?_ ?_
  · have hne : lay.root ≠ p := by
      rintro rfl
      simp [takesFile, h.rootDir, Node.isFile] at htakes
    rw [node_putFile htakes, if_neg hne]
    exact h.rootDir
  · intro k hlink
    rw [isLink, node_putFile htakes] at hlink
    split_ifs at hlink
    · cases hlink
    · exact .inl hlink

lemma work_putFile {root names : Place} (htakes : t.takesFile (root ++ names) = true)
    (v : ByteArray) (k : Place) :
    (t.putFile (root ++ names) v).node (root ++ k) =
      if k = names then some (.file v) else t.node (root ++ k) := by
  rw [node_putFile htakes]
  simp only [append_cancel_left_eq]

lemma Layout.Plain.removeNode {names : Place} (h : lay.Plain t)
    (hdir : t.isDir (lay.root ++ names) = false) :
    lay.Plain (t.removeNode (lay.root ++ names)) := by
  refine h.of_links ?_ ?_
  · have hne : lay.root ≠ lay.root ++ names := by
      intro heq
      rw [← heq, isDir_iff.mpr h.rootDir] at hdir
      cases hdir
    rw [node_removeNode hdir, if_neg hne]
    exact h.rootDir
  · intro k hlink
    rw [isLink, node_removeNode hdir] at hlink
    split_ifs at hlink
    · cases hlink
    · exact .inl hlink

lemma work_removeNode {root names : Place} (hdir : t.isDir (root ++ names) = false) (k : Place) :
    (t.removeNode (root ++ names)).node (root ++ k) =
      if k = names then none else t.node (root ++ k) := by
  rw [node_removeNode hdir]
  simp only [append_cancel_left_eq]

lemma not_begins_of_movable {root source tgt : Place}
    (hmov : t.movable (root ++ source) (root ++ tgt) = true) :
    ¬ source <+: tgt ∧ ¬ tgt <+: source := by
  simp only [movable, Bool.and_eq_true, Bool.not_eq_eq_eq_not, Bool.not_true,
    decide_eq_false_iff_not, prefix_append_right_inj] at hmov
  exact ⟨hmov.1.2, hmov.2⟩

lemma work_move {root src tgt : Place}
    (hmov : t.movable (root ++ src) (root ++ tgt) = true) (k : Place) :
    (t.move (root ++ src) (root ++ tgt)).node (root ++ k) =
      if tgt <+: k then t.node (root ++ (src ++ k.drop tgt.length))
      else if src <+: k then none
      else t.node (root ++ k) := by
  have hdrop : root ++ src ++ (root ++ k).drop (root ++ tgt).length =
      root ++ (src ++ k.drop tgt.length) := by
    rw [length_append, ← drop_drop, drop_left, append_assoc]
  rw [node_move hmov, hdrop]
  simp only [prefix_append_right_inj]

lemma Layout.Plain.move {src tgt : Place} (h : lay.Plain t)
    (hmov : t.movable (lay.root ++ src) (lay.root ++ tgt) = true) :
    lay.Plain (t.move (lay.root ++ src) (lay.root ++ tgt)) := by
  obtain ⟨hnotSource, hnotTarget⟩ := not_begins_of_movable hmov
  refine h.of_links ?_ ?_
  · have hroot := work_move hmov []
    have htgt : ¬ tgt <+: [] := by
      intro hbeg
      rw [prefix_nil.mp hbeg] at hnotTarget
      exact hnotTarget nil_prefix
    have hsrc : ¬ src <+: [] := by
      intro hbeg
      rw [prefix_nil.mp hbeg] at hnotSource
      exact hnotSource nil_prefix
    rw [if_neg htgt, if_neg hsrc, append_nil] at hroot
    rw [hroot]
    exact h.rootDir
  · intro k hlink
    rw [isLink, node_move hmov] at hlink
    split_ifs at hlink
    · rw [append_assoc] at hlink
      exact .inr ⟨_, hlink⟩
    · cases hlink
    · exact .inl hlink

end

section
variable {lay : Layout} {ctx : FileContext} (step : WorkflowStep) {s : FileState}

lemma orThrow_ends {β : Type} (value : Except StepError β) :
    Ends (orThrow value) s (fun a after => after = s ∧ value = .ok a) fun _ after => after = s := by
  cases value with
  | ok a => exact ends_pure ⟨rfl, rfl⟩
  | error error => exact ends_throw rfl

lemma resolvePath_ends (hfits : lay.Fits ctx) (hplain : lay.Plain s.tree)
    (key : String) :
    Ends (resolvePath ctx step key) s
      (fun path after => after = s ∧ ∃ names ∈ named step key,
        (∀ name ∈ names, Spelled name) ∧ path = render (lay.root ++ names))
      fun _ after => after = s := by
  refine ends_bind ((orThrow_ends _).mono ?_ fun _ _ h => h)
  rintro raw after ⟨rfl, hraw⟩
  refine ends_get_bind ?_
  have hbase : ctx.fsBase = render lay.root := by
    rw [FileContext.fsBase, hfits.scratch, hfits.workspace]
    rfl
  rw [hbase]
  cases hjoin : safeJoin (ctx.host after).view (render lay.root) raw with
  | error error => exact ends_throw rfl
  | ok path =>
    obtain ⟨hallow, rfl⟩ := (hplain.safeJoin_iff ctx.cwd raw path).mp hjoin
    refine ends_pure ⟨rfl, guardNames raw, ?_, spelled_guardNames hallow, rfl⟩
    have hget : (step.args.get key).bind Json.asStr = some raw := by
      unfold requiredStr at hraw
      split at hraw
      · next text htext =>
        cases hraw
        exact htext
      · cases hraw
    simp [named, hget]

lemma requireSource_ends (hplain : lay.Plain s.tree) (src : Place) :
    Ends (requireSource ctx step (render (lay.root ++ src))) s
      (fun _ after => after = s ∧ s.tree.node (lay.root ++ src) ≠ none)
      fun _ after => after = s := by
  refine ends_get_bind ?_
  have hex : (ctx.host s).pathExists (render (lay.root ++ src)) =
      (s.tree.node (lay.root ++ src)).isSome := Host.pathExists_render (hplain.noLinks src)
  rw [hex]
  by_cases hsome : (s.tree.node (lay.root ++ src)).isSome = true
  · rw [if_pos hsome]
    exact ends_pure ⟨rfl, Option.isSome_iff_ne_none.mp hsome⟩
  · rw [if_neg hsome]
    exact ends_throw rfl

lemma makeDirs_ends (msg : String) {p : Place} (hlinks : s.tree.NoLinks p) :
    Ends (makeDirs ctx step msg (render p)) s
      (fun _ after => s.tree.fileAbove p = false ∧ after.backups = s.backups ∧
        ∀ k, after.tree.node k = if k <+: p then some .dir else s.tree.node k)
      fun _ after => after = s := by
  refine ends_get_bind ?_
  have hcreate : (ctx.host s).createDirAll (render p) =
      s.tree.createDirAll ctx.cwd (wayTo p) := Host.createDirAll_render
  rcases createDirAll_wayTo ctx.cwd hlinks with
    ⟨-, error, herr⟩ | ⟨hfile, made, hmade, hnodes⟩
  · rw [hcreate, herr]
    exact ends_bind (ends_set (ends_throw rfl))
  · rw [hcreate, hmade]
    exact ends_set ⟨hfile, rfl, hnodes⟩

lemma changeTree_ends (msg : String)
    (change : Host → Except IoError (Tree FileName ByteArray)) :
    Ends (changeTree ctx step msg change) s
      (fun _ after => ∃ tree, change (ctx.host s) = .ok tree ∧ after = { s with tree })
      fun _ after => after = s := by
  refine ends_get_bind ?_
  cases hchange : change (ctx.host s) with
  | ok tree => exact ends_set ⟨tree, rfl, rfl⟩
  | error error => exact ends_throw rfl

lemma changeTree_copy_ends (msg : String) {src tgt : Place}
    (hsrc : s.tree.NoLinks src) (htgt : s.tree.NoLinks tgt) :
    Ends (changeTree ctx step msg fun host => host.copy (render src) (render tgt)) s
      (fun _ after => ∃ v, s.tree.node src = some (.file v) ∧
        s.tree.takesFile tgt = true ∧
        after = { s with tree := s.tree.putFile tgt (if tgt = src then ∅ else v) })
      fun _ after => after = s := by
  refine (changeTree_ends step msg _).mono ?_ fun _ _ h => h
  rintro - after ⟨tree, hcopy, rfl⟩
  have hroute : (ctx.host s).copy (render src) (render tgt) =
      s.tree.copy ctx.cwd (wayTo src) (wayTo tgt) := by
    rw [Host.copy, Host.onPath_render, Host.onPath_render]
    rfl
  rw [hroute] at hcopy
  rcases copy_wayTo_cases ctx.cwd hsrc htgt with
    ⟨v, hcont, htakes, hok⟩ | ⟨error, herr⟩
  · rw [hok] at hcopy
    cases hcopy
    exact ⟨v, hcont, htakes, rfl⟩
  · rw [herr] at hcopy
    cases hcopy

/-- The workspace itself cannot be copied. -/
lemma changeTree_copyRoot_ends (hplain : lay.Plain s.tree) (msg tgt : String) :
    Ends (changeTree ctx step msg fun host => host.copy (render lay.root) tgt) s
      (fun _ _ => False) fun _ after => after = s := by
  refine (changeTree_ends step msg _).mono ?_ fun _ _ h => h
  rintro - after ⟨tree, hcopy, -⟩
  have hlinks : s.tree.NoLinks lay.root := by simpa using hplain.noLinks []
  have hfound := canonicalize_wayTo ctx.cwd hlinks (by rw [hplain.rootDir]; simp)
  have hcont : s.tree.content lay.root = none := by simp [content, hplain.rootDir]
  rw [Host.copy, Host.onPath_render] at hcopy
  unfold Host.onPath at hcopy
  cases htgt : parsePath tgt with
  | none =>
    rw [htgt] at hcopy
    cases hcopy
  | some route =>
    rw [htgt] at hcopy
    have herr : s.tree.copy ctx.cwd (wayTo lay.root) route = .error .notARegularFile := by
      simp only [copy, hfound, hcont]
    exact absurd (herr.symm.trans hcopy) (by simp)

/-- Writing at a place of the workspace, once the directories above it are made. -/
lemma changeTree_write_ends (h : lay.Plain s.tree) (names : Place) (msg : String)
    (update : Option ByteArray → ByteArray) :
    Ends (changeTree ctx step msg fun host =>
        host.writeFile (render (lay.root ++ names)) update) s
      (fun _ after => s.tree.takesFile (lay.root ++ names) = true ∧
        after = { s with
          tree := s.tree.putFile (lay.root ++ names)
            (update (s.tree.content (lay.root ++ names))) })
      fun _ after => after = s := by
  refine (changeTree_ends step msg _).mono ?_ fun _ _ h => h
  rintro - after ⟨tree, hwrite, rfl⟩
  have hroute : (ctx.host s).writeFile (render (lay.root ++ names)) update =
      s.tree.writeFile ctx.cwd (wayTo (lay.root ++ names)) update := by
    rw [Host.writeFile, Host.onPath_render]
    rfl
  rw [hroute] at hwrite
  cases htakes : s.tree.takesFile (lay.root ++ names) with
  | true =>
    rw [writeFile_wayTo ctx.cwd (h.noLinks names) htakes] at hwrite
    cases hwrite
    exact ⟨rfl, rfl⟩
  | false =>
    obtain ⟨error, herr⟩ :=
      writeFile_wayTo_error ctx.cwd (h.noLinks names) htakes update
    rw [herr] at hwrite
    cases hwrite

lemma changeTree_rename_ends (h : lay.Plain s.tree) (src tgt : Place)
    (msg : String) :
    Ends (changeTree ctx step msg fun host =>
        host.rename (render (lay.root ++ src)) (render (lay.root ++ tgt))) s
      (fun _ after => (src = tgt ∧ after = s) ∨
        (s.tree.movable (lay.root ++ src) (lay.root ++ tgt) = true ∧
          (∀ below, below ≠ [] → s.tree.node (lay.root ++ (tgt ++ below)) = none) ∧
          after = { s with
            tree := s.tree.move (lay.root ++ src) (lay.root ++ tgt) }))
      fun _ after => after = s := by
  refine (changeTree_ends step msg _).mono ?_ fun _ _ h => h
  rintro - after ⟨tree, hrename, rfl⟩
  have hroute : (ctx.host s).rename (render (lay.root ++ src))
      (render (lay.root ++ tgt)) =
      s.tree.rename ctx.cwd (wayTo (lay.root ++ src))
        (wayTo (lay.root ++ tgt)) := by
    rw [Host.rename, Host.onPath_render, Host.onPath_render]
    rfl
  rw [hroute] at hrename
  rcases rename_wayTo_cases ctx.cwd (h.noLinks src) (h.noLinks tgt) with
    ⟨hplace, hsame⟩ | ⟨hmov, -, -, hfree, hmoved⟩ | ⟨error, herr⟩
  · rw [hsame] at hrename
    cases hrename
    exact .inl ⟨append_cancel_left hplace, rfl⟩
  · rw [hmoved] at hrename
    cases hrename
    refine .inr ⟨hmov, ?_, rfl⟩
    intro below hbelow
    rw [← append_assoc]
    exact hfree below hbelow
  · rw [herr] at hrename
    cases hrename

lemma removeTarget_ends (h : lay.Plain s.tree) (names : Place) :
    Ends (removeTarget ctx step (render (lay.root ++ names))) s
      (fun _ after => (s.tree.node (lay.root ++ names) = none ∧ after = s) ∨
        ∃ v, s.tree.node (lay.root ++ names) = some (.file v) ∧
          after = { s with tree := s.tree.removeNode (lay.root ++ names) })
      fun _ after => after = s := by
  have hlinks := h.noLinks names
  have hex : (ctx.host s).pathExists (render (lay.root ++ names)) =
      (s.tree.node (lay.root ++ names)).isSome := Host.pathExists_render hlinks
  refine ends_get_bind ?_
  rw [hex]
  cases hnode : s.tree.node (lay.root ++ names) with
  | none => exact ends_pure (.inl ⟨rfl, rfl⟩)
  | some node =>
    rw [Option.isSome_some, if_pos rfl]
    refine (changeTree_ends step _ _).mono ?_ fun _ _ h => h
    rintro - after ⟨tree, hremove, rfl⟩
    have hroute : (ctx.host s).removeFile (render (lay.root ++ names)) =
        s.tree.removeFile ctx.cwd (wayTo (lay.root ++ names)) := by
      rw [Host.removeFile, Host.onPath_render]
      rfl
    rw [hroute] at hremove
    cases node with
    | dir =>
      rw [removeFile_wayTo_dir ctx.cwd hlinks hnode] at hremove
      cases hremove
    | file v =>
      rw [removeFile_wayTo ctx.cwd hlinks hnode] at hremove
      cases hremove
      exact .inr ⟨v, rfl, rfl⟩
    | link tgt =>
      have hlink := h.work names
      rw [isLink_iff.mpr ⟨tgt, hnode⟩] at hlink
      cases hlink

/-- What happens outside the workspace when a backup is made: files stay. -/
structure Aside (layout : Layout) (s after : FileState) : Prop where
  plain : layout.Plain after.tree
  work : ∀ k, after.tree.node (layout.root ++ k) = s.tree.node (layout.root ++ k)
  files : ∀ k content, s.tree.node k = some (.file content) →
    after.tree.node k = some (.file content)
  backups : after.backups = s.backups

lemma Aside.refl (h : lay.Plain s.tree) : Aside lay s s :=
  ⟨h, fun _ => rfl, fun _ _ hnode => hnode, rfl⟩

lemma makeDirs_outside_ends (h : lay.Plain s.tree) (msg : String) {p : Place}
    (hlinks : s.tree.NoLinks p) (hp : ¬ lay.root <+: p) :
    Ends (makeDirs ctx step msg (render p)) s (fun _ after => Aside lay s after)
      fun _ after => after = s := by
  refine (makeDirs_ends step msg hlinks).mono ?_ fun _ _ h => h
  rintro - after ⟨hfile, hbackups, hnodes⟩
  refine ⟨h.makeDirs hnodes, ?_, ?_, hbackups⟩
  · intro k
    rw [hnodes, if_neg fun hbeg => hp ((prefix_append _ _).trans hbeg)]
  · intro k content hcont
    rw [hnodes, if_neg]
    · exact hcont
    · intro hbeg
      rw [fileAbove_iff.mpr ⟨_, content, hbeg, hcont⟩] at hfile
      cases hfile

lemma makeDirs_work_ends (h : lay.Plain s.tree) (msg : String) (l : Place) :
    Ends (makeDirs ctx step msg (render (lay.root ++ l))) s
      (fun _ after => after.backups = s.backups ∧ lay.Plain after.tree ∧
        (∀ b ∈ lay.backup, ∀ k, after.tree.node (b ++ k) = s.tree.node (b ++ k)) ∧
        (∀ k, k <+: l → s.tree.node (lay.root ++ k) = none ∨
          s.tree.node (lay.root ++ k) = some .dir) ∧
        ∀ k, after.tree.node (lay.root ++ k) =
          if k <+: l then some .dir else s.tree.node (lay.root ++ k))
      fun _ after => after = s := by
  refine (makeDirs_ends step msg (h.noLinks l)).mono ?_ fun _ _ h => h
  rintro - after ⟨hfile, hbackups, hnodes⟩
  refine ⟨hbackups, h.makeDirs hnodes, ?_, ?_, ?_⟩
  · intro b hb k
    rw [hnodes, if_neg (lay.not_begins_work hb k l)]
  · intro k hk
    cases hnode : s.tree.node (lay.root ++ k) with
    | none => exact .inl rfl
    | some node =>
      cases node with
      | dir => exact .inr rfl
      | file content =>
        have hbeg := (prefix_append_right_inj lay.root).mpr hk
        rw [fileAbove_iff.mpr ⟨_, content, hbeg, hnode⟩] at hfile
        cases hfile
      | link tgt =>
        have hlink := h.work k
        rw [isLink_iff.mpr ⟨tgt, hnode⟩] at hlink
        cases hlink
  · intro k
    rw [hnodes]
    simp only [prefix_append_right_inj]

/-- The copy of an existing path: a file is copied, and anything else fails. -/
lemma copyToBackup_ends {b : Place} (hb : b ∈ lay.backup) (h : lay.Plain s.tree)
    (names : Place) :
    Ends (copyToBackup ctx step (render b) (relText names) (render (lay.root ++ names)) true)
      s
      (fun path after => path = some (render (b ++ names)) ∧ names ≠ [] ∧
        ∃ mid content, Aside lay s mid ∧
          s.tree.node (lay.root ++ names) = some (.file content) ∧
          mid.tree.takesFile (b ++ names) = true ∧
          after = { mid with tree := mid.tree.putFile (b ++ names) content })
      fun _ after => Aside lay s after := by
  have hapart := lay.apart b hb
  by_cases hnames : names = []
  · subst hnames
    obtain ⟨above, last, rfl⟩ : ∃ above last, b = above ++ [last] := by
      rcases eq_nil_or_concat b with rfl | ⟨above, last, rfl⟩
      · exact absurd nil_prefix hapart.2
      · exact ⟨above, last, concat_eq_append⟩
    have hjoin : pathJoin (render (above ++ [last])) (relText []) =
        render (above ++ [last]) ++ "/" := by
      have hstarts : startsWith (relText []) "/" = false := by decide +kernel
      rw [pathJoin, hstarts, render_ne_empty, endsWith_render (by simp)]
      simp [relText]
    have hpar : pathParent (render (above ++ [last]) ++ "/") = some (render above) := by
      rw [pathParent, pathComponents_render_slash (by simp), componentsParent_render,
        Option.map_some, ofComponents_root]
    unfold copyToBackup
    rw [if_pos rfl, hjoin]
    simp only [hpar, append_nil]
    refine ends_bind ((makeDirs_outside_ends step h _
      ((h.backup _ hb).1.above (prefix_append above [last])) ?_).mono ?_ ?_)
    · exact fun hbeg => hapart.1 (hbeg.trans (prefix_append _ _))
    · intro _ mid hmid
      refine ends_bind ((changeTree_copyRoot_ends step hmid.plain _ _).mono ?_ ?_)
      · rintro - after hfalse
        exact hfalse.elim
      · rintro - after rfl
        exact hmid
    · rintro - after rfl
      exact .refl h
  · obtain ⟨above, last, rfl⟩ := (eq_nil_or_concat' names).resolve_left hnames
    have hpar : pathParent (render (b ++ (above ++ [last]))) = some (render (b ++ above)) := by
      rw [← append_assoc, pathParent_render]
    unfold copyToBackup
    rw [if_pos rfl, pathJoin_relText b hnames]
    simp only [hpar]
    refine ends_bind ((makeDirs_outside_ends step h _ (h.noLinks_backup hb above) ?_).mono ?_ ?_)
    · simpa using lay.not_begins_backup hb [] above
    · intro _ mid hmid
      refine ends_bind ((changeTree_copy_ends step _ (hmid.plain.noLinks _)
        (hmid.plain.noLinks_backup hb _)).mono ?_ ?_)
      · rintro - after ⟨content, hcont, htakes, rfl⟩
        have hne : b ++ (above ++ [last]) ≠ lay.root ++ (above ++ [last]) := by
          intro heq
          exact lay.not_begins_work hb (above ++ [last]) (above ++ [last])
            (by rw [heq])
        rw [if_neg hne]
        rw [hmid.work] at hcont
        exact ends_pure ⟨rfl, hnames, mid, content, hmid, hcont, htakes, rfl⟩
      · rintro - after rfl
        exact hmid
    · rintro - after rfl
      exact .refl h

/-- A file that is put under the backup root is not seen in the workspace. -/
lemma work_putCopy {t : Tree FileName ByteArray} {b names : Place} (hb : b ∈ lay.backup)
    (htakes : t.takesFile (b ++ names) = true) (v : ByteArray) (k : Place) :
    (t.putFile (b ++ names) v).node (lay.root ++ k) = t.node (lay.root ++ k) := by
  rw [node_putFile htakes, if_neg]
  intro heq
  exact lay.not_begins_backup hb k names (by rw [heq])

lemma readFile_ends (hfits : lay.Fits ctx) (hplain : lay.Plain s.tree) :
    Ends (readFile ctx step) s (fun _ after => after = s) fun _ after => after = s := by
  unfold readFile
  refine ends_bind ((resolvePath_ends step hfits hplain "path").mono ?_ fun _ _ h => h)
  rintro path after ⟨rfl, -⟩
  refine ends_get_bind ?_
  dsimp only
  split
  · exact ends_throw rfl
  · split_ifs
    · exact ends_throw rfl
    · split
      · exact ends_throw rfl
      · exact ends_pure rfl

end

/-- The state after a step, whether it succeeds or fails. -/
def stepFiles (spawner : Spawner) (context : FileContext) (s : FileState) (step : WorkflowStep) :
    FileState :=
  finalState (performStep spawner context step) s

/-- The context of the small workspace, in which files may be deleted. -/
def smallContext : FileContext where
  canonicalWorkspace := render smallLayout.root
  policy := { fsDelete := fsWriteWorkspaceOnly }
  cwd := []
  backup := smallLayout.backup.map render
  shownText _ := ""

lemma smallContext_fits : smallLayout.Fits smallContext := ⟨rfl, rfl, rfl⟩

/-- The step that writes a text to a path. -/
def writeStep (path content : String) : WorkflowStep where
  action := "write_file"
  args := .object [("path", .string path), ("content", .string content)]

end ExperienceCodex
