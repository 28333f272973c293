import ExperienceCodex.FileStepsJournal
import ExperienceCodex.Manifest
import ExperienceCodex.Runs

/-!
# Backup and restore

A run of file steps is undone by its manifest: every file has its first content again and no other
file is left.  This fails when a file of the start has become a directory, which restoring does not
remove, and when the manifest itself gets in the way, because it is kept beside the copies and under
a name that a file of the workspace may have.
-/

namespace ExperienceCodex

open List Text FileTree Programs Tree

section
variable {layout : Layout} {cwd : Place} {t : Tree FileName ByteArray} {b : Place}

lemma applyChange_ends (change : Host → Except IoError (Tree FileName ByteArray)) :
    Ends (applyChange cwd change) t (fun _ after => change { tree := t, cwd } = .ok after)
      fun _ _ => ∃ error, change { tree := t, cwd } = .error error := by
  refine ends_get_bind ?_
  cases hchange : change { tree := t, cwd } with
  | ok tree => exact ends_set rfl
  | error error => exact ends_throw ⟨error, rfl⟩

lemma createDirs_ends {p : Place} (hlinks : t.NoLinks p) :
    Ends (createDirs cwd (render p)) t
      (fun _ after => t.fileAbove p = false ∧
        ∀ k, after.node k = if k <+: p then some .dir else t.node k)
      fun _ _ => t.fileAbove p = true := by
  refine ends_get_bind ?_
  rw [Host.createDirAll_render]
  rcases createDirAll_wayTo cwd hlinks with ⟨hfile, error, herr⟩ | ⟨hfile, made, hmade, hnodes⟩
  · rw [herr]
    exact ends_bind (ends_set (ends_throw hfile))
  · rw [hmade]
    exact ends_set ⟨hfile, hnodes⟩

/-- The name of the manifest. -/
def manifestName : FileName := ⟨backupManifestFile, by decide⟩

/-- The bytes of the manifest of a run. -/
def manifestBytes (text : ManifestText) (now : UInt64) (workspace : String)
    (sessionId : Option String) (entries : List BackupEntry) : ByteArray :=
  (text.print (Codec.backupManifest.encode
    { schemaVersion := backupSchemaVersion, workspace, sessionId, createdAt := now,
      entries })).toUTF8

/-- The manifest can be written. -/
def ManifestFits (b : Place) (t : Tree FileName ByteArray) : Prop :=
  t.fileAbove b = false ∧ t.node (b ++ [manifestName]) ≠ some .dir

/-- The files once the manifest is written. -/
structure ManifestWritten (layout : Layout) (b : Place) (bytes : ByteArray)
    (t after : Tree FileName ByteArray) : Prop where
  plain : layout.Plain after
  work : ∀ k, after.node (layout.root ++ k) = t.node (layout.root ++ k)
  manifest : after.node (b ++ [manifestName]) = some (.file bytes)
  copies : ∀ k, k ≠ [] → k ≠ [manifestName] → after.node (b ++ k) = t.node (b ++ k)

lemma writeBackupManifest_ends (text : ManifestText) (hb : b ∈ layout.backup)
    (hplain : layout.Plain t) (now : UInt64) (workspace : String) (sessionId : Option String)
    (es : List BackupEntry) :
    Ends (writeBackupManifest text cwd now (render b) workspace sessionId es) t
      (fun path after => path = render (b ++ [manifestName]) ∧ ManifestFits b t ∧
        ManifestWritten layout b (manifestBytes text now workspace sessionId es) t after)
      fun _ _ => ¬ ManifestFits b t := by
  have hpath : pathJoin (render b) backupManifestFile = render (b ++ [manifestName]) :=
    pathJoin_relText b (cons_ne_nil manifestName [])
  unfold writeBackupManifest createParentOf
  simp only [hpath, pathParent_render]
  have hlinks : t.NoLinks b := by simpa using hplain.noLinks_backup hb []
  refine ends_bind ((createDirs_ends hlinks).mono ?_ ?_)
  · rintro - mid ⟨hfile, hnodes⟩
    have hmidPlain := hplain.makeDirs hnodes
    have hmidLinks := hmidPlain.noLinks_backup hb [manifestName]
    have hnode : mid.node (b ++ [manifestName]) = t.node (b ++ [manifestName]) := by
      rw [hnodes, if_neg]
      intro hbeg
      simpa using hbeg.length_le
    have hdir : mid.node b = some .dir := by rw [hnodes, if_pos prefix_rfl]
    have htakes := takesFile_iff_not_dir hdir ((hmidPlain.backup b hb).2 [manifestName])
    rw [hnode] at htakes
    have hroute : Host.writeFile { tree := mid, cwd } (render (b ++ [manifestName])) =
        mid.writeFile cwd (wayTo (b ++ [manifestName])) := by
      funext update
      rw [Host.writeFile, Host.onPath_render]
    refine ends_bind ((applyChange_ends _).mono ?_ ?_)
    · intro _ after hwrite
      rw [hroute] at hwrite
      have hfits : mid.takesFile (b ++ [manifestName]) = true := by
        by_contra hfull
        obtain ⟨error, herr⟩ :=
          writeFile_wayTo_error cwd hmidLinks (Bool.eq_false_iff.mpr hfull) _
        rw [herr] at hwrite
        cases hwrite
      rw [writeFile_wayTo cwd hmidLinks hfits] at hwrite
      cases hwrite
      refine ends_pure ⟨rfl, ⟨hfile, htakes.mp hfits⟩, hmidPlain.putFile hfits _, ?_, ?_, ?_⟩
      · intro k
        have hne : layout.root ++ k ≠ b ++ [manifestName] := by
          intro heq
          exact layout.not_begins_backup hb k [manifestName] (by rw [heq])
        have habove : ¬ layout.root ++ k <+: b := by
          simpa using layout.not_begins_backup hb k []
        rw [node_putFile hfits, if_neg hne, hnodes, if_neg habove]
      · rw [node_putFile hfits, if_pos rfl]
        rfl
      · intro k hk hkm
        have hne : b ++ k ≠ b ++ [manifestName] := by simpa using hkm
        have habove : ¬ b ++ k <+: b := by
          intro hbeg
          have hlen := hbeg.length_le
          rw [length_append] at hlen
          have hpos := length_pos_of_ne_nil hk
          omega
        rw [node_putFile hfits, if_neg hne, hnodes, if_neg habove]
    · rintro - - ⟨error, herr⟩ ⟨-, hnotDir⟩
      rw [hroute, writeFile_wayTo cwd hmidLinks (htakes.mpr hnotDir)] at herr
      cases herr
  · rintro - - hfile hfits
    rw [hfits.1] at hfile
    cases hfile

lemma readText_of_node {p : Place} {json : String} (hlinks : t.NoLinks p)
    (hnode : t.node p = some (.file json.toUTF8)) :
    (readText cwd (render p)).run t = .ok json t := by
  have hread : Host.readFile { tree := t, cwd } (render p) = .ok json.toUTF8 := by
    have hfound := Tree.canonicalize_wayTo cwd hlinks (by rw [hnode]; simp)
    rw [Host.readFile, Host.onPath_render, Tree.readFile]
    simp only [hfound, Tree.content_eq_some_iff.mpr hnode]
  have hutf8 : String.fromUTF8? json.toUTF8 = some json := dif_pos json.isValidUTF8
  unfold readText
  simp only [bind, EStateM.bind, EStateM.run, MonadState.get, getThe, MonadStateOf.get, EStateM.get,
    hread, hutf8]
  rfl

/-- Restoring reads the manifest that was written. -/
lemma restoreFromManifest_run (text : ManifestText) (hb : b ∈ layout.backup)
    (hplain : layout.Plain t) {now : UInt64} {workspace : String} {sessionId : Option String}
    {es : List BackupEntry}
    (hnode : t.node (b ++ [manifestName]) =
      some (.file (manifestBytes text now workspace sessionId es))) :
    (restoreFromManifest text cwd (render (b ++ [manifestName]))).run t =
      (restoreEntries cwd workspace es.reverse {}).run t := by
  have hread : (readText cwd (render (b ++ [manifestName]))).run t = .ok _ t :=
    readText_of_node (hplain.noLinks_backup hb [manifestName]) hnode
  unfold restoreFromManifest
  rw [EStateM.run_bind, hread]
  simp [text.parse_print, pathParent_render, backupSchemaVersion]

/-- Nothing has become a link, and the copies are what they were. -/
structure Tidy (layout : Layout) (b : Place) (t after : Tree FileName ByteArray) : Prop where
  plain : layout.Plain after
  copies : ∀ k, after.node (b ++ k) = t.node (b ++ k)

/-- The tree without all that stands at a place of the workspace. -/
lemma Layout.Plain.tidy_of_removed (hb : b ∈ layout.backup) (h : layout.Plain t) {names : Place}
    (hnames : names ≠ []) {after : Tree FileName ByteArray}
    (hnodes : ∀ k, after.node k = if layout.root ++ names <+: k then none else t.node k) :
    Tidy layout b t after := by
  refine ⟨h.of_links ?_ ?_, ?_⟩
  · rw [hnodes, if_neg]
    · exact h.rootDir
    · intro hbeg
      have hlen := hbeg.length_le
      rw [length_append] at hlen
      have hpos := length_pos_of_ne_nil hnames
      omega
  · intro k hlink
    rw [isLink, hnodes] at hlink
    split_ifs at hlink
    · cases hlink
    · exact .inl hlink
  · intro k
    rw [hnodes, if_neg (layout.not_begins_backup hb names k)]

lemma clearPath_ends (hb : b ∈ layout.backup) (h : layout.Plain t) {names : Place}
    (hnames : names ≠ []) :
    Ends (clearPath cwd (render (layout.root ++ names))) t
      (fun _ after => Tidy layout b t after ∧
        ∀ k, after.node k = if layout.root ++ names <+: k then none else t.node k)
      fun _ _ => False := by
  have hlinks := h.noLinks names
  have hne : layout.root ++ names ≠ [] := by simp [hnames]
  -- What stands below a place that is no directory is nothing.
  have hbelow (hdir : t.node (layout.root ++ names) ≠ some .dir) (k : Place)
      (hk : k ≠ layout.root ++ names) :
      t.node k = if layout.root ++ names <+: k then none else t.node k := by
    by_cases hbeg : layout.root ++ names <+: k
    · obtain ⟨below, rfl⟩ := hbeg
      rw [if_pos (prefix_append _ _)]
      exact node_below (by rintro rfl; simp at hk) hdir
    · rw [if_neg hbeg]
  have hex : Host.pathExists { tree := t, cwd } (render (layout.root ++ names)) =
      (t.node (layout.root ++ names)).isSome := Host.pathExists_render hlinks
  have hisDir : Host.pathIsDir { tree := t, cwd } (render (layout.root ++ names)) =
      t.isDir (layout.root ++ names) := Host.pathIsDir_render hlinks
  unfold clearPath
  refine ends_get_bind ?_
  dsimp only
  rw [hex, hisDir]
  have hsuffices (after : Tree FileName ByteArray)
      (hnodes : ∀ k, after.node k = if layout.root ++ names <+: k then none else t.node k) :
      Tidy layout b t after ∧
        ∀ k, after.node k = if layout.root ++ names <+: k then none else t.node k :=
    ⟨h.tidy_of_removed hb hnames hnodes, hnodes⟩
  cases hnode : t.node (layout.root ++ names) with
  | none =>
    refine ends_pure (hsuffices t ?_)
    intro k
    by_cases hk : k = layout.root ++ names
    · rw [hk, if_pos prefix_rfl, hnode]
    · exact hbelow (by rw [hnode]; simp) k hk
  | some node =>
    cases node with
    | link tgt =>
      have hlink := h.work names
      rw [isLink_iff.mpr ⟨tgt, hnode⟩] at hlink
      cases hlink
    | dir =>
      rw [Option.isSome_some, if_pos rfl, if_pos (isDir_iff.mpr hnode)]
      refine (applyChange_ends _).mono ?_ ?_
      · intro _ after hremove
        rw [Host.removeDirAll, Host.onPath_render, removeDirAll_wayTo cwd hlinks hnode]
          at hremove
        cases hremove
        exact hsuffices _ (node_removeTree hne)
      · rintro - - ⟨error, herr⟩
        rw [Host.removeDirAll, Host.onPath_render, removeDirAll_wayTo cwd hlinks hnode]
          at herr
        cases herr
    | file v =>
      have hdir : t.isDir (layout.root ++ names) = false := by simp [isDir, hnode, Node.isDir]
      rw [Option.isSome_some, if_pos rfl, hdir, if_neg Bool.false_ne_true]
      refine (applyChange_ends _).mono ?_ ?_
      · intro _ after hremove
        rw [Host.removeFile, Host.onPath_render, removeFile_wayTo cwd hlinks hnode] at hremove
        cases hremove
        refine hsuffices _ ?_
        intro k
        rw [node_removeNode hdir]
        by_cases hk : k = layout.root ++ names
        · rw [hk, if_pos rfl, if_pos prefix_rfl]
        · rw [if_neg hk]
          exact hbelow (by rw [hnode]; simp) k hk
      · rintro - - ⟨error, herr⟩
        rw [Host.removeFile, Host.onPath_render, removeFile_wayTo cwd hlinks hnode] at herr
        cases herr

/-- What keeps a copy from being put back. -/
def Blocked (layout : Layout) (b names : Place) (t : Tree FileName ByteArray) : Prop :=
  (∀ content, t.node (b ++ names) ≠ some (.file content)) ∨
    t.node (layout.root ++ names) = some .dir ∨
    ∃ k content, k <+: names ∧ k ≠ names ∧ t.node (layout.root ++ k) = some (.file content)

section
variable (hb : b ∈ layout.backup)
include hb

/-- The last part of putting a copy back, when the directories above its place are there. -/
lemma applyChange_copyBack_ends (h : layout.Plain t) {above : Place}
    {last : FileName} (hdir : t.node (layout.root ++ above) = some .dir) :
    Ends (applyChange cwd fun host => host.copy (render (b ++ (above ++ [last])))
        (render (layout.root ++ (above ++ [last])))) t
      (fun _ after => Tidy layout b t after ∧
        ∃ content, t.node (b ++ (above ++ [last])) = some (.file content) ∧
          t.node (layout.root ++ (above ++ [last])) ≠ some .dir ∧
          ∀ k, after.node (layout.root ++ k) =
            if k = above ++ [last] then some (.file content) else t.node (layout.root ++ k))
      fun _ _ => Blocked layout b (above ++ [last]) t := by
  have htakes : t.takesFile (layout.root ++ (above ++ [last])) = true ↔
      t.node (layout.root ++ (above ++ [last])) ≠ some .dir := by
    have hlink := h.work (above ++ [last])
    rw [← append_assoc] at hlink ⊢
    exact takesFile_iff_not_dir hdir hlink
  have hroute : Host.copy { tree := t, cwd } (render (b ++ (above ++ [last])))
      (render (layout.root ++ (above ++ [last]))) =
      t.copy cwd (wayTo (b ++ (above ++ [last]))) (wayTo (layout.root ++ (above ++ [last]))) := by
    rw [Host.copy, Host.onPath_render, Host.onPath_render]
  have hsrc := h.noLinks_backup hb (above ++ [last])
  have htgt := h.noLinks (above ++ [last])
  have hne : layout.root ++ (above ++ [last]) ≠ b ++ (above ++ [last]) := by
    intro heq
    exact layout.not_begins_backup hb (above ++ [last]) (above ++ [last]) (by rw [heq])
  refine (applyChange_ends _).mono ?_ ?_
  · intro _ after hcopy
    rw [hroute] at hcopy
    rcases copy_wayTo_cases cwd hsrc htgt with
      ⟨content, hcont, hfits, hok⟩ | ⟨error, herr⟩
    · rw [hok, if_neg hne] at hcopy
      cases hcopy
      refine ⟨⟨h.putFile hfits _, ?_⟩, content, hcont, htakes.mp hfits, ?_⟩
      · intro k
        rw [node_putFile hfits, if_neg]
        intro heq
        exact layout.not_begins_work hb k (above ++ [last]) (by rw [heq])
      · intro k
        rw [node_putFile hfits]
        simp only [append_cancel_left_eq]
    · rw [herr] at hcopy
      cases hcopy
  · rintro - - ⟨error, herr⟩
    by_contra hblocked
    unfold Blocked at hblocked
    push Not at hblocked
    obtain ⟨⟨content, hcont⟩, hnotDir, -⟩ := hblocked
    rw [hroute, copy_wayTo cwd hsrc htgt hcont (htakes.mpr hnotDir)] at herr
    cases herr

lemma copyBack_ends (h : layout.Plain t) {names : Place}
    (hnames : names ≠ []) (record : BackupEntry) :
    Ends (copyBack cwd record (render (b ++ names)) (render (layout.root ++ names))) t
      (fun _ after => Tidy layout b t after ∧
        UndoLog.Undone (fun k => t.node (b ++ k)) ⟨names, true⟩
          (fun k => t.node (layout.root ++ k)) fun k => after.node (layout.root ++ k))
      fun _ _ => Blocked layout b names t := by
  obtain ⟨above, last, rfl⟩ := (eq_nil_or_concat' names).resolve_left hnames
  have hex : Host.pathExists { tree := t, cwd } (render (b ++ (above ++ [last]))) =
      (t.node (b ++ (above ++ [last]))).isSome := Host.pathExists_render (h.noLinks_backup hb _)
  unfold copyBack
  refine ends_get_bind ?_
  rw [hex]
  split_ifs with hsome
  · have hpar : pathParent (render (layout.root ++ (above ++ [last]))) =
        some (render (layout.root ++ above)) := by
      rw [← append_assoc, pathParent_render]
    unfold createParentOf
    simp only [hpar]
    refine ends_bind ((createDirs_ends (h.noLinks above)).mono ?_ ?_)
    · rintro - mid ⟨hfile, hnodes⟩
      have hcopies (k : Place) : mid.node (b ++ k) = t.node (b ++ k) := by
        rw [hnodes, if_neg (layout.not_begins_work hb k above)]
      have hwork (k : Place) : mid.node (layout.root ++ k) =
          if k <+: above then some .dir else t.node (layout.root ++ k) := by
        rw [hnodes]
        simp only [prefix_append_right_inj]
      have hlast : ¬ above ++ [last] <+: above := fun hbeg => by simpa using hbeg.length_le
      have hstr (k : Place) (hk : k <+: above ++ [last]) (hne : k ≠ above ++ [last]) :
          k <+: above := (prefix_concat_iff.mp hk).resolve_left hne
      refine (applyChange_copyBack_ends hb (h.makeDirs hnodes) ?_).mono ?_ ?_
      · rw [hwork, if_pos prefix_rfl]
      · rintro - after ⟨htidy, content, hcont, hnotDir, hafter⟩
        rw [hcopies] at hcont
        rw [hwork, if_neg hlast] at hnotDir
        refine ⟨⟨htidy.plain, fun k => (htidy.copies k).trans (hcopies k)⟩, ?_⟩
        refine ⟨content, hcont, hnotDir, ?_, ?_⟩
        · intro k hk hne
          rw [Option.eq_none_iff_forall_ne_some]
          intro other hother
          have hbeg := (prefix_append_right_inj layout.root).mpr (hstr k hk hne)
          rw [fileAbove_iff.mpr ⟨_, other, hbeg, UndoLog.contentAt_eq_some_iff.mp hother⟩]
            at hfile
          cases hfile
        · funext k
          rw [hafter, hwork]
          by_cases hname : k = above ++ [last]
          · simp [hname]
          · by_cases hk : k <+: above
            · simp [hname, hk, hk.trans (prefix_append above [last])]
            · simp [hname, hk, mt (hstr k · hname) hk]
      · rintro - - (hnone | hdir | ⟨k, content, hk, hne, hnode⟩)
        · exact .inl fun content => by rw [← hcopies]; exact hnone content
        · rw [hwork, if_neg hlast] at hdir
          exact .inr (.inl hdir)
        · rw [hwork, if_pos (hstr k hk hne)] at hnode
          cases hnode
    · intro _ _ hfile
      obtain ⟨p, content, hp, hnode⟩ := fileAbove_iff.mp hfile
      obtain habove | ⟨k, rfl⟩ := prefix_or_prefix_of_prefix hp (prefix_append layout.root _)
      · rw [node_of_above_dir h.rootDir habove] at hnode
        cases hnode
      have hk := (prefix_append_right_inj _).mp hp
      refine .inr (.inr ⟨k, content, hk.trans (prefix_append _ _), ?_, hnode⟩)
      rintro rfl
      simpa using hk.length_le
  · refine ends_throw (.inl ?_)
    intro content hnode
    rw [hnode] at hsome
    exact hsome rfl

lemma restoreEntry_ends (h : layout.Plain t)
    {e : UndoLog.Entry FileName} {record : BackupEntry} (hrecs : EntryRecord b e record)
    (hplace : e.place ≠ []) (hspell : ∀ name ∈ e.place, Spelled name)
    (report : RestoreReport) :
    Ends (restoreEntry cwd (render layout.root) record report) t
      (fun _ after => Tidy layout b t after ∧
        UndoLog.Undone (fun k => t.node (b ++ k)) e (fun k => t.node (layout.root ++ k))
          fun k => after.node (layout.root ++ k))
      fun _ _ => e.existed = true ∧ Blocked layout b e.place t := by
  have hjoin : safeJoin (Host.view { tree := t, cwd }) (render layout.root) record.relPath =
      .ok (render (layout.root ++ e.place)) := by
    rw [hrecs.relPath, h.safeJoin_iff cwd]
    exact ⟨allowedText_relText hspell hplace, by rw [guardNames_relText hspell hplace]⟩
  obtain ⟨place, existed⟩ := e
  unfold restoreEntry
  refine ends_get_bind ?_
  rw [hjoin]
  dsimp only
  cases existed with
  | true =>
    have hbackup : record.backupPath = some (render (b ++ place)) := hrecs.backupPath
    rw [hbackup, hrecs.existed]
    refine ends_bind ((copyBack_ends hb h hplace record).mono ?_ ?_)
    · exact fun _ after hdone => ends_pure hdone
    · exact fun _ _ hblocked => ⟨rfl, hblocked⟩
  | false =>
    have hbackup : record.backupPath = none := hrecs.backupPath
    rw [hbackup, hrecs.existed]
    refine ends_bind ((clearPath_ends hb h hplace).mono ?_ ?_)
    · rintro - after ⟨htidy, hnodes⟩
      refine ends_pure ⟨htidy, ?_⟩
      funext k
      rw [hnodes]
      simp only [prefix_append_right_inj]
    · exact fun _ _ hfalse => hfalse.elim

end

lemma restoreEntries_undone (hb : b ∈ layout.backup) (h : layout.Plain t)
    {es : List (UndoLog.Entry FileName)} {records : List BackupEntry}
    (hrecs : List.Forall₂ (EntryRecord b) es records)
    (hspell : ∀ e ∈ es, e.place ≠ [] ∧ ∀ name ∈ e.place, Spelled name)
    (report : RestoreReport) :
    Ends (restoreEntries cwd (render layout.root) records report) t
      (fun _ after => UndoLog.UndoneAll (fun k => t.node (b ++ k)) es
        (fun k => t.node (layout.root ++ k)) fun k => after.node (layout.root ++ k))
      fun _ _ => True := by
  induction hrecs generalizing t report with
  | nil => exact ends_pure rfl
  | @cons e record rest records hrec hrest ih =>
    obtain ⟨hplace, hnames⟩ := hspell e mem_cons_self
    unfold restoreEntries
    refine ends_bind ((restoreEntry_ends hb h hrec hplace hnames report).mono ?_ ?_)
    · rintro report' mid ⟨htidy, hundone⟩
      refine (ih htidy.plain (forall_mem_of_forall_mem_cons hspell)
        report').mono ?_ fun _ _ _ => trivial
      intro _ after hrestUndone
      simp only [htidy.copies] at hrestUndone
      exact ⟨_, hundone, hrestUndone⟩
    · exact fun _ _ _ => trivial

/-- Where no first file has become a directory, undoing all entries succeeds and gives every place
its first content back. -/
lemma restoreEntries_restores (hb : b ∈ layout.backup) (h : layout.Plain t)
    {start : UndoLog.Nodes FileName ByteArray} (hrooted : UndoLog.Rooted start)
    {es : List (UndoLog.Entry FileName)} {records : List BackupEntry}
    (hrecs : List.Forall₂ (EntryRecord b) es records)
    (hspell : ∀ e ∈ es, e.place ≠ [] ∧ ∀ name ∈ e.place, Spelled name)
    (hundoing : UndoLog.Undoing start (fun k => t.node (b ++ k)) es.reverse
      fun k => t.node (layout.root ++ k)) (report : RestoreReport) :
    Ends (restoreEntries cwd (render layout.root) records report) t
      (fun _ after => ∀ l, UndoLog.contentAt (fun k => after.node (layout.root ++ k)) l =
        UndoLog.contentAt start l)
      fun _ _ => False := by
  induction hrecs generalizing t report with
  | nil => exact ends_pure fun l => hundoing.kept l (forall_mem_nil _)
  | @cons e record rest records hrec hrest ih =>
    obtain ⟨hplace, hnames⟩ := hspell e mem_cons_self
    rw [reverse_cons] at hundoing
    unfold restoreEntries
    refine ends_bind ((restoreEntry_ends hb h hrec hplace hnames report).mono ?_ ?_)
    · rintro report' mid ⟨htidy, hundone⟩
      refine ih htidy.plain (forall_mem_of_forall_mem_cons hspell)
        ?_ report'
      simp only [htidy.copies]
      exact hundoing.undone hrooted hundone
    · rintro - - ⟨hexist, hblocked⟩
      obtain ⟨⟨v, hcopy⟩, hnotDir, hdirs⟩ := hundoing.ready hrooted hexist
      rcases hblocked with hnone | hdir | ⟨k, other, hk, hne, hnode⟩
      · exact hnone v hcopy
      · exact hnotDir hdir
      · have habove := hdirs k hk hne
        rw [hnode] at habove
        cases habove

end

/-- A step that works on files only. -/
def IsFileStep (step : WorkflowStep) : Prop :=
  step.action ∈ ["write_file", "append_file", "mkdir", "copy_file", "move_file", "delete_file"]

/-- No file that a step is about to record stands below a recorded path. -/
def StandsClear (layout : Layout) (s : FileState) (step : WorkflowStep) : Prop :=
  ∀ names ∈ backupTargets step, ∀ content,
    s.tree.node (layout.root ++ names) = some (.file content) →
    (∀ entry ∈ s.backups, entry.relPath ≠ relText names) →
    ∀ above, above <+: names → ∀ entry ∈ s.backups, entry.relPath ≠ relText above

lemma spawnsNothing_of_isFileStep {step : WorkflowStep} (hstep : IsFileStep step)
    (context : FileContext) : SpawnsNothing context step := by
  intro fs req hspawn
  rcases (exec_of_spawn hspawn).2 with hact | hact
  · simp [IsFileStep, hact] at hstep
  · simp [IsFileStep, hact] at hstep

section
variable {layout : Layout} {context : FileContext} {b : Place} {s : FileState}
  {log : List (UndoLog.Entry FileName)}

lemma run_doing {spawner : Spawner} (hfits : layout.Fits context) (hb : b ∈ layout.backup)
    {start : Tree FileName ByteArray} (hplain : layout.Plain start) {steps : List WorkflowStep}
    (hsteps : Runs.Along (stepFiles spawner context)
      (fun s step => IsFileStep step ∧ StandsClear layout s step) { tree := start } steps) :
    ∃ log, Doing layout b (journal layout.root b [] start) log
      (Runs.run (stepFiles spawner context) { tree := start } steps) := by
  have hreached := hsteps.invariant
    (Q := fun s => ∃ log, Doing layout b (journal layout.root b [] start) log s) ?_ ?_ steps.length
  · rwa [take_length] at hreached
  · rintro s step ⟨log, hdoing⟩ ⟨hstep, hclear⟩
    have hiff (l : Place) : (∃ record ∈ s.backups, record.relPath = relText l) ↔
        ∃ e ∈ log, e.place = l := by
      rw [← any_relPath_iff hdoing.records l]
      simp
    have hends := hdoing.performStep_ends spawner hfits hb
      (spawnsNothing_of_isFileStep hstep context)
      fun names hmem v hfile hunlogged e hentry hbeg => by
        obtain ⟨record, hrec, hpath⟩ := (hiff e.place).mpr ⟨e, hentry, rfl⟩
        refine hclear names hmem v hfile ?_ e.place hbeg record hrec hpath
        intro other hother heq
        obtain ⟨logged, hlog, hplace⟩ := (hiff names).mp ⟨other, hother, heq⟩
        exact hunlogged logged hlog hplace
    obtain ⟨new, hdone, -⟩ := hends.final
    exact ⟨log ++ new, hdone⟩
  · exact ⟨[], hplain, .nil, forall_mem_nil _, .refl⟩

variable (text : ManifestText) (now : UInt64) (sessionId : Option String)

/-- Writing the manifest of a run and restoring from it succeeds, and then the workspace has the
files that it had at the start, with their contents, and no others. -/
def Restores (cwd : Place) (layout : Layout) (b : Place) (start : Tree FileName ByteArray)
    (s : FileState) : Prop :=
  ∃ path written report after,
    (writeBackupManifest text cwd now (render b) (render layout.root) sessionId s.backups).run
        s.tree = .ok path written ∧
      (restoreFromManifest text cwd path).run written = .ok report after ∧
      ∀ l, after.content (layout.root ++ l) = start.content (layout.root ++ l)

/-- What a restore needs of the state that a run has led to. -/
structure Restorable (layout : Layout) (b : Place) (start : Tree FileName ByteArray)
    (s : FileState) : Prop where
  /-- The manifest can be written. -/
  manifest : ManifestFits b s.tree
  /-- No file of the start has become a directory. -/
  files : ∀ l content, start.node (layout.root ++ l) = some (.file content) →
    s.tree.node (layout.root ++ l) ≠ some .dir
  /-- The manifest does not replace the copy of a file, unless it is the same. -/
  clash : ∀ record ∈ s.backups, record.relPath = backupManifestFile → record.existed = true →
    start.node (layout.root ++ [manifestName]) =
      some (.file (manifestBytes text now (render layout.root) sessionId s.backups))

variable {text now sessionId} {start : Tree FileName ByteArray}

lemma exists_of_forall₂ {α β : Type} {R : α → β → Prop} {as : List α} {bs : List β}
    (h : List.Forall₂ R as bs) {a : α} (ha : a ∈ as) : ∃ b ∈ bs, R a b := by
  induction h with
  | nil => cases ha
  | @cons first other as bs hfst _ ih =>
    rcases mem_cons.mp ha with rfl | ha
    · exact ⟨other, mem_cons_self, hfst⟩
    · obtain ⟨b, hb, hR⟩ := ih ha
      exact ⟨b, mem_cons_of_mem _ hb, hR⟩

lemma Restorable.undoing (hplain : layout.Plain start)
    (hdoing : Doing layout b (journal layout.root b [] start) log s)
    (h : Restorable text now sessionId layout b start s) {written : Tree FileName ByteArray}
    (hwritten : ManifestWritten layout b
      (manifestBytes text now (render layout.root) sessionId s.backups) s.tree written) :
    UndoLog.Undoing (fun k => start.node (layout.root ++ k)) (fun k => written.node (b ++ k)) log
      fun k => written.node (layout.root ++ k) := by
  have hinv := (UndoLog.inv_start rfl).changes hplain.linkFree (work_rooted _ start)
    hdoing.changes
  have hundoing := hinv.undoing (work_rooted _ s.tree) h.files
  have hwork : (fun k => written.node (layout.root ++ k)) =
      fun k => s.tree.node (layout.root ++ k) := funext hwritten.work
  rw [hwork]
  refine ⟨hundoing.rooted, hundoing.kept, hundoing.dirs, hundoing.files, ?_, hundoing.fresh⟩
  intro e hentry hexist
  obtain ⟨v, hstart, hcopy⟩ := hundoing.saved e hentry hexist
  refine ⟨v, hstart, ?_⟩
  by_cases hname : e.place = [manifestName]
  · -- The manifest has replaced this copy, and it is the same.
    obtain ⟨record, hrec, hmatch⟩ := exists_of_forall₂ hdoing.records hentry
    have hpath : record.relPath = backupManifestFile := by
      rw [hmatch.relPath, hname]
      rfl
    have hsame := h.clash record hrec hpath (hmatch.existed.trans hexist)
    rw [hname] at hstart ⊢
    rw [hwritten.manifest, ← hsame]
    exact hstart
  · exact (hwritten.copies _ (hdoing.spelled e hentry).1 hname).trans hcopy

lemma Restores.restorable {cwd : Place} (hb : b ∈ layout.backup) (hplain : layout.Plain start)
    (hdoing : Doing layout b (journal layout.root b [] start) log s)
    (h : Restores text now sessionId cwd layout b start s) :
    Restorable text now sessionId layout b start s := by
  obtain ⟨path, written, report, after, hrun, hrestore, hcontents⟩ := h
  obtain ⟨rfl, hfits, hwritten⟩ :=
    (writeBackupManifest_ends text hb hdoing.plain now _ sessionId s.backups).of_ok hrun
  rw [restoreFromManifest_run text hb hwritten.plain hwritten.manifest] at hrestore
  have hundone := (restoreEntries_undone hb hwritten.plain (rel_reverse hdoing.records)
    (fun e hentry => hdoing.spelled e (mem_reverse.mp hentry)) {}).of_ok hrestore
  have hinv := (UndoLog.inv_start rfl).changes hplain.linkFree (work_rooted _ start)
    hdoing.changes
  have hnodup : (log.reverse.map UndoLog.Entry.place).Nodup := by
    rw [map_reverse, nodup_reverse]
    exact hinv.nodup
  -- What the restore did to a file that was entered as one.
  have hsaved {e : UndoLog.Entry FileName} (hentry : e ∈ log)
      (hexist : e.existed = true) {v : ByteArray}
      (hstart : start.node (layout.root ++ e.place) = some (.file v)) :=
    hundone.saved hnodup (mem_reverse.mpr hentry) hexist fun other hother hfresh =>
      hinv.fresh_not_above (work_rooted _ start) (mem_reverse.mp hother) hfresh hstart
  refine ⟨hfits, ?_, ?_⟩
  · intro l v hstart hdir
    have hlost : s.tree.node (layout.root ++ l) ≠ some (.file v) := by
      rw [hdir]
      simp
    obtain ⟨e, hentry, rfl, hexist⟩ :=
      hinv.entered_of_lost (work_rooted _ start) hstart hlost
    refine (hsaved hentry hexist hstart).1 ?_
    rw [hwritten.work]
    exact hdir
  · intro record hrec hpath hexist
    obtain ⟨e, hentry, hmatch⟩ := exists_of_forall₂ hdoing.records.flip hrec
    have hplace : e.place = [manifestName] :=
      relText_injective (hmatch.relPath.symm.trans hpath)
    have hentered : e.existed = true := hmatch.existed.symm.trans hexist
    obtain ⟨v, hstart, -⟩ := hinv.saved e hentry hentered
    have hafter := (hsaved hentry hentered hstart).2
    rw [contentAt_work, contentAt_work, hcontents, hplace,
      content_eq_some_iff.mpr hwritten.manifest] at hafter
    exact content_eq_some_iff.mp hafter

/-- After every run of file steps, none of which is about to record a file that stands below a
recorded path, the manifest undoes the run exactly when the state is restorable. -/
theorem run_restores_iff {spawner : Spawner} (hfits : layout.Fits context) (hb : b ∈ layout.backup)
    (hplain : layout.Plain start) {steps : List WorkflowStep}
    (hsteps : Runs.Along (stepFiles spawner context)
      (fun s step => IsFileStep step ∧ StandsClear layout s step) { tree := start } steps) :
    Restores text now sessionId context.cwd layout b start
        (Runs.run (stepFiles spawner context) { tree := start } steps) ↔
      Restorable text now sessionId layout b start
        (Runs.run (stepFiles spawner context) { tree := start } steps) := by
  obtain ⟨log, hdoing⟩ := run_doing hfits hb hplain hsteps
  generalize Runs.run (stepFiles spawner context) { tree := start } steps = s at hdoing ⊢
  refine ⟨fun h => h.restorable hb hplain hdoing, fun h => ?_⟩
  have hwrites : Ends (writeBackupManifest text context.cwd now (render b) (render layout.root)
      sessionId s.backups) s.tree _ fun _ _ => False :=
    (writeBackupManifest_ends text hb hdoing.plain now _ sessionId s.backups).mono
      (fun _ _ hok => hok) fun _ _ hnot => hnot h.manifest
  obtain ⟨path, written, hrun, rfl, -, hwritten⟩ := hwrites.exists_ok
  have hreverse := h.undoing hplain hdoing hwritten
  rw [← reverse_reverse log] at hreverse
  have hrest : Ends (restoreEntries context.cwd (render layout.root) s.backups.reverse {}) written _
      fun _ _ => False :=
    restoreEntries_restores hb hwritten.plain (work_rooted layout.root start)
      (rel_reverse hdoing.records)
      (fun e hentry => hdoing.spelled e (mem_reverse.mp hentry)) hreverse {}
  obtain ⟨report, after, hrestore, hcontents⟩ := hrest.exists_ok
  refine ⟨_, written, report, after, hrun, ?_, ?_⟩
  · rw [restoreFromManifest_run text hb hwritten.plain hwritten.manifest]
    exact hrestore
  · intro l
    rw [← contentAt_work, ← contentAt_work]
    exact hcontents l

end

/-- The state after some steps in the small workspace. -/
def smallState (steps : List WorkflowStep) : FileState :=
  Runs.run (stepFiles noSpawner smallContext) { tree := smallTree } steps

/-- A file step with a path. -/
def pathStep (action path : String) : WorkflowStep where
  action := action
  args := .object [("path", .string path), ("content", .string "new")]

/-! There are texts for manifests: a manifest has a number, and is written in as many strokes. -/

instance countableChar : Countable Char := Function.Injective.countable fun _ _ h => Char.ext h

instance countableString : Countable String :=
  Function.Injective.countable fun _ _ h => String.toList_inj.mp h

deriving instance Countable for BackupEntry
deriving instance Countable for BackupManifest

/-- What is asked of the JSON text of a manifest can be met: manifests can be numbered, and a text
may show the number in strokes. -/
lemma manifestText_nonempty : Nonempty ManifestText := by
  classical
  obtain ⟨number, hnum⟩ := exists_injective_nat BackupManifest
  let print (value : Json) : String :=
    match Codec.backupManifest.decode value with
    | .ok manifest => String.ofList (replicate (number manifest) '|')
    | .error _ => ""
  let parse (text : String) : Except String Json :=
    if h : ∃ manifest, number manifest = text.length then
      .ok (Codec.backupManifest.encode h.choose)
    else .error "no manifest"
  refine ⟨⟨print, parse, ?_⟩⟩
  intro manifest
  have hlen : (print (Codec.backupManifest.encode manifest)).length = number manifest := by
    simp [print]
  have hex : ∃ other, number other =
      (print (Codec.backupManifest.encode manifest)).length := ⟨manifest, hlen.symm⟩
  have hsame : hex.choose = manifest := hnum (hex.choose_spec.trans hlen)
  simp only [parse, dif_pos hex, hsame]

/-- A run of two steps whose second one names a path where there is no file. -/
lemma along_small {first second : WorkflowStep} {l : Place} (hfst : IsFileStep first)
    (hsnd : IsFileStep second) (htgts : backupTargets second = [l])
    (hnone : (stepFiles noSpawner smallContext { tree := smallTree } first).tree.content
      (smallLayout.root ++ l) = none) :
    Runs.Along (stepFiles noSpawner smallContext)
      (fun s step => IsFileStep step ∧ StandsClear smallLayout s step) { tree := smallTree }
      [first, second] := by
  refine ⟨⟨hfst, ?_⟩, ⟨hsnd, ?_⟩, trivial⟩
  · exact fun _ _ _ _ _ _ _ record hrec => absurd hrec not_mem_nil
  · intro names hnames v hfile
    rw [htgts, mem_singleton] at hnames
    rw [← hnames, content_eq_some_iff.mpr hfile] at hnone
    cases hnone

/-- A file that is deleted and then replaced by a directory is not restored. -/
theorem directory_keeps_file_from_restore :
    Nonempty ManifestText ∧ ∀ text : ManifestText,
      ¬ Restores text 0 none [] smallLayout [⟨"backup", by decide⟩] smallTree
        (smallState [pathStep "delete_file" "f", pathStep "mkdir" "f"]) := by
  refine ⟨manifestText_nonempty, fun text hrestores => ?_⟩
  have htargets : backupTargets (pathStep "mkdir" "f") = [[⟨"f", by decide⟩]] := by decide
  have hnone : (stepFiles noSpawner smallContext { tree := smallTree }
      (pathStep "delete_file" "f")).tree.content (smallLayout.root ++ [⟨"f", by decide⟩]) =
        none := by
    decide +kernel
  have hsteps := along_small (by simp [IsFileStep, pathStep]) (by simp [IsFileStep, pathStep])
    htargets hnone
  have hb : [⟨"backup", by decide⟩] ∈ smallLayout.backup := rfl
  obtain ⟨log, hdoing⟩ := run_doing smallContext_fits hb smallTree_plain hsteps
  have hrestorable := hrestores.restorable hb smallTree_plain hdoing
  refine hrestorable.files [⟨"f", by decide⟩] "old".toUTF8
    (content_eq_some_iff.mp (by decide)) (isDir_iff.mp ?_)
  decide +kernel

/-- A file that is written, and another one that is made, are restored. -/
theorem run_restores_small :
    Nonempty ManifestText ∧ ∀ text : ManifestText,
      Restores text 0 none [] smallLayout [⟨"backup", by decide⟩] smallTree
        (smallState [pathStep "write_file" "f", pathStep "write_file" "d/g"]) := by
  refine ⟨manifestText_nonempty, fun text => ?_⟩
  have htargets : backupTargets (pathStep "write_file" "d/g") =
      [[⟨"d", by decide⟩, ⟨"g", by decide⟩]] := by decide
  have hnone : (stepFiles noSpawner smallContext { tree := smallTree }
      (pathStep "write_file" "f")).tree.content
        (smallLayout.root ++ [⟨"d", by decide⟩, ⟨"g", by decide⟩]) = none := by
    decide +kernel
  have hsteps := along_small (by simp [IsFileStep, pathStep]) (by simp [IsFileStep, pathStep])
    htargets hnone
  have hb : [⟨"backup", by decide⟩] ∈ smallLayout.backup := rfl
  refine (run_restores_iff smallContext_fits hb smallTree_plain hsteps).mpr ⟨⟨?_, ?_⟩, ?_, ?_⟩
  · decide +kernel
  · rw [ne_eq, ← isDir_iff]
    decide +kernel
  · intro l content hfile
    rw [smallTree_file hfile, ne_eq, ← isDir_iff]
    decide +kernel
  · intro record hrecord hpath
    have hother : (smallState [pathStep "write_file" "f", pathStep "write_file" "d/g"]).backups.all
        (fun record => record.relPath != backupManifestFile) = true := by decide +kernel
    have hne := all_eq_true.mp hother record hrecord
    rw [hpath, bne_self_eq_false] at hne
    cases hne

end ExperienceCodex
