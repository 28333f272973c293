import ExperienceCodex.FileStepsPlain

/-!
# File steps under the undo log

In a workspace without links, whatever a file step does with a backup root is a sequence of changes
under the discipline of the undo log, whether the step succeeds or fails midway: the files of the
workspace, the copies under the backup root and the recorded entries are the state of the log.
-/

namespace ExperienceCodex

open List Text FileTree Programs

variable {names : Place}

/-- The recorded entry of a place. -/
structure EntryRecord (b : Place) (entry : UndoLog.Entry FileName) (record : BackupEntry) :
    Prop where
  relPath : record.relPath = relText entry.place
  existed : record.existed = entry.existed
  backupPath : record.backupPath =
    if entry.existed then some (render (b ++ entry.place)) else none

/-- The workspace and the copies under the backup root, as the undo log sees them. -/
def journal (root b : Place) (log : List (UndoLog.Entry FileName))
    (t : Tree FileName ByteArray) : UndoLog.State FileName ByteArray where
  work l := t.node (root ++ l)
  copies l := t.node (b ++ l)
  log := log

/-- A state that changes under the discipline have led to. -/
structure Doing (layout : Layout) (b : Place) (start : UndoLog.State FileName ByteArray)
    (log : List (UndoLog.Entry FileName)) (s : FileState) : Prop where
  plain : layout.Plain s.tree
  records : List.Forall₂ (EntryRecord b) log s.backups
  spelled : ∀ entry ∈ log, entry.place ≠ [] ∧ ∀ name ∈ entry.place, Spelled name
  changes : UndoLog.Changes start (journal layout.root b log s.tree)

section
variable {lay : Layout} {b : Place} {start : UndoLog.State FileName ByteArray}
  {log : List (UndoLog.Entry FileName)} {s : FileState}

lemma Layout.Plain.linkFree {t : Tree FileName ByteArray} (h : lay.Plain t) :
    UndoLog.LinkFree (journal lay.root b log t).work := by
  intro l tgt hlink
  have hnot := h.work l
  rw [Tree.isLink_iff.mpr ⟨tgt, hlink⟩] at hnot
  cases hnot

variable {tree : Tree FileName ByteArray}

/-- A change of the workspace that the log allows. -/
lemma Doing.setWork (h : Doing lay b start log s)
    (hplain : lay.Plain tree) (hcopies : ∀ k, tree.node (b ++ k) = s.tree.node (b ++ k))
    (hchange : UndoLog.Change (journal lay.root b log s.tree)
      { journal lay.root b log s.tree with work := fun k => tree.node (lay.root ++ k) }) :
    Doing lay b start log { s with tree } := by
  have hjournal : journal lay.root b log tree =
      { journal lay.root b log s.tree with work := fun k => tree.node (lay.root ++ k) } := by
    simp only [journal, hcopies]
  refine ⟨hplain, h.records, h.spelled, h.changes.tail ?_⟩
  rw [hjournal]
  exact hchange

end

section
variable {lay : Layout} {ctx : FileContext} (hfits : lay.Fits ctx)
  (step : WorkflowStep) {s : FileState}

variable {b : Place} {start : UndoLog.State FileName ByteArray}
  {log : List (UndoLog.Entry FileName)}

/-- What happens outside the workspace for a backup keeps the files among the copies. -/
lemma Doing.aside {after : FileState} (h : Doing lay b start log s)
    (haside : Aside lay s after) : Doing lay b start log after := by
  have hafter : after = { s with tree := after.tree } := by
    cases after
    cases haside.backups
    rfl
  rw [hafter]
  have hjournal : journal lay.root b log after.tree =
      { journal lay.root b log s.tree with copies := fun k => after.tree.node (b ++ k) } := by
    simp only [journal, haside.work]
  refine ⟨haside.plain, h.records, h.spelled, h.changes.tail ?_⟩
  rw [hjournal]
  exact .copies fun k v => haside.files (b ++ k) v

lemma Doing.makeDirs_work (hb : b ∈ lay.backup) (h : Doing lay b start log s)
    (msg : String) (l : Place) :
    Ends (makeDirs ctx step msg (render (lay.root ++ l))) s
      (fun _ after => Doing lay b start log after)
      fun _ after => after = s := by
  refine (makeDirs_work_ends step h.plain msg l).mono ?_ fun _ _ h => h
  rintro - after ⟨hbackups, hplain, hcopies, hfree, hnodes⟩
  have hafter : after = { s with tree := after.tree } := by
    cases after
    cases hbackups
    rfl
  rw [hafter]
  refine h.setWork hplain (hcopies b hb) ?_
  have hwork : (fun k => after.tree.node (lay.root ++ k)) =
      fun k => if k <+: l then some .dir else s.tree.node (lay.root ++ k) := funext hnodes
  rw [hwork]
  exact .makeDirs hfree

lemma any_relPath_iff {backups : List BackupEntry}
    (hrecs : List.Forall₂ (EntryRecord b) log backups)
    (names : Place) :
    (backups.any fun e => e.relPath == relText names) = true ↔
      ∃ e ∈ log, e.place = names := by
  induction hrecs with
  | nil => simp
  | cons hrec _ ih =>
    rw [any_cons, Bool.or_eq_true, ih, hrec.relPath, beq_iff_eq, relText_injective.eq_iff]
    simp

/-- Entering a place in the log and in the records. -/
lemma Doing.record {e : UndoLog.Entry FileName} {record : BackupEntry}
    (h : Doing lay b start log s)
    (hplain : lay.Plain tree) (hrec : EntryRecord b e record)
    (hplace : e.place ≠ []) (hspelled : ∀ name ∈ e.place, Spelled name)
    (hchange : UndoLog.Change (journal lay.root b log s.tree)
      (journal lay.root b (log ++ [e]) tree)) :
    Doing lay b start (log ++ [e]) { tree, backups := s.backups ++ [record] } := by
  refine ⟨hplain, ?_, ?_, h.changes.tail hchange⟩
  · exact rel_append h.records (List.Forall₂.cons hrec List.Forall₂.nil)
  · intro other hother
    rcases mem_append.mp hother with hother | hother
    · exact h.spelled other hother
    · rw [mem_singleton.mp hother]
      exact ⟨hplace, hspelled⟩

include hfits in
/-- Backing up a place: it has an entry afterwards, and the workspace is as before. -/
lemma Doing.ensureBackup_ends (hb : b ∈ lay.backup) (h : Doing lay b start log s)
    (hspelled : ∀ name ∈ names, Spelled name)
    (hclear : ∀ content, s.tree.node (lay.root ++ names) = some (.file content) →
      (∀ e ∈ log, e.place ≠ names) → ∀ e ∈ log, ¬ e.place <+: names) :
    Ends (ensureBackup ctx step (render (lay.root ++ names))) s
      (fun _ after => ∃ new, Doing lay b start (log ++ new) after ∧
        (∀ e ∈ new, e.place = names ∧
          s.tree.node (lay.root ++ names) ≠ some .dir) ∧
        (∃ e ∈ log ++ new, e.place = names) ∧
        ∀ k, after.tree.node (lay.root ++ k) = s.tree.node (lay.root ++ k))
      fun _ after => Doing lay b start log after := by
  have hbackup : ctx.backup = some (render b) := by rw [hfits.backup, Option.mem_def.mp hb]; rfl
  have hrelative : relativeTo ctx.canonicalWorkspace (render (lay.root ++ names)) =
      some (relText names) := by rw [hfits.workspace, relativeTo_render]
  unfold ensureBackup
  simp only [hbackup, hrelative, withSlashes_relText hspelled]
  refine ends_get_bind ?_
  by_cases hrecorded : (s.backups.any fun e => e.relPath == relText names) = true
  · rw [if_pos hrecorded]
    refine ends_pure ⟨[], by rwa [append_nil], by simp, ?_, fun _ => rfl⟩
    rw [append_nil]
    exact (any_relPath_iff h.records names).mp hrecorded
  · rw [if_neg hrecorded]
    have hnew : ∀ e ∈ log, e.place ≠ names := fun e hentry heq =>
      hrecorded ((any_relPath_iff h.records names).mpr ⟨e, hentry, heq⟩)
    have hexists : (ctx.host s).pathExists (render (lay.root ++ names)) =
        (s.tree.node (lay.root ++ names)).isSome := Host.pathExists_render (h.plain.noLinks names)
    rw [hexists]
    have hlast : ∀ existed, ∃ e ∈ log ++ [(⟨names, existed⟩ : UndoLog.Entry FileName)],
        e.place = names := fun existed => ⟨⟨names, existed⟩, by simp, rfl⟩
    cases hnode : s.tree.node (lay.root ++ names) with
    | none =>
      have hplace : names ≠ [] := by
        rintro rfl
        rw [append_nil, h.plain.rootDir] at hnode
        cases hnode
      refine ends_bind (ends_pure (ends_bind (ends_modify (ends_pure ?_))))
      refine ⟨[⟨names, false⟩], h.record h.plain ⟨rfl, rfl, rfl⟩ hplace hspelled ?_,
        by simp, hlast false, fun _ => rfl⟩
      refine .note ?_ hnode
      rintro ⟨e, hentry, heq⟩
      exact hnew e hentry heq
    | some node =>
      refine ends_bind ((copyToBackup_ends step hb h.plain names).mono ?_ fun _ _ => h.aside)
      rintro path after ⟨rfl, hplace, mid, content, haside, hfile, htakes, rfl⟩
      have hmid := h.aside haside
      have hplain := hmid.plain.putFile htakes content
      refine ends_bind (ends_modify (ends_pure ?_))
      have hworkAfter := work_putCopy hb htakes content
      refine ⟨[⟨names, true⟩], hmid.record hplain ⟨rfl, rfl, rfl⟩ hplace hspelled ?_,
        by simp [← hnode, hfile], hlast true, fun k => (hworkAfter k).trans (haside.work k)⟩
      have hjournal : journal lay.root b (log ++ [⟨names, true⟩])
          (mid.tree.putFile (b ++ names) content) =
          { journal lay.root b log mid.tree with
            copies := fun k => (mid.tree.putFile (b ++ names) content).node (b ++ k)
            log := log ++ [⟨names, true⟩] } := by
        simp only [journal, hworkAfter]
      rw [hjournal]
      refine .save (hclear content hfile hnew) ((haside.work names).trans hfile) ?_ ?_
      · rw [Tree.node_putFile htakes, if_pos rfl]
      · intro k hk
        rw [Tree.node_putFile htakes, if_neg fun heq => hk (append_cancel_left heq)]
        rfl

section
variable (hb : b ∈ lay.backup)
include hb

lemma Doing.createParents_ends (h : Doing lay b start log s)
    (hnames : names ≠ []) :
    Leads (createParents ctx step (render (lay.root ++ names))) s
      (Doing lay b start log) := by
  obtain ⟨above, last, rfl⟩ := (eq_nil_or_concat' names).resolve_left hnames
  unfold createParents
  rw [← append_assoc, pathParent_render]
  simp only [render_ne_empty, Bool.false_eq_true, if_false]
  exact (h.makeDirs_work step hb _ above).leads h fun _ _ h => h

lemma Doing.putFile (h : Doing lay b start log s)
    (hlogged : ∃ e ∈ log, e.place = names)
    (htakes : s.tree.takesFile (lay.root ++ names) = true) (v : ByteArray) :
    Doing lay b start log
      { s with tree := s.tree.putFile (lay.root ++ names) v } := by
  refine h.setWork (h.plain.putFile htakes v) ?_ ?_
  · intro k
    rw [Tree.node_putFile htakes, if_neg]
    intro heq
    exact lay.not_begins_work hb k names (by rw [heq])
  · have hwork := funext (work_putFile htakes v)
    rw [hwork]
    refine .write v hlogged ?_
    intro hdir
    change s.tree.node (lay.root ++ names) = some .dir at hdir
    simp [Tree.takesFile, hdir, Node.isFile] at htakes

lemma Doing.removeNode (h : Doing lay b start log s)
    (hlogged : ∃ e ∈ log, e.place = names) {v : ByteArray}
    (hfile : s.tree.node (lay.root ++ names) = some (.file v)) :
    Doing lay b start log { s with tree := s.tree.removeNode (lay.root ++ names) } := by
  have hdir : s.tree.isDir (lay.root ++ names) = false := by
    simp [Tree.isDir, hfile, Node.isDir]
  refine h.setWork (h.plain.removeNode hdir) ?_ ?_
  · intro k
    rw [Tree.node_removeNode hdir, if_neg]
    intro heq
    exact lay.not_begins_work hb k names (by rw [heq])
  · have hwork := funext (work_removeNode hdir)
    rw [hwork]
    refine .remove hlogged ?_
    change s.tree.node (lay.root ++ names) ≠ some .dir
    rw [hfile]
    simp

lemma Doing.move (h : Doing lay b start log s)
    {src tgt : Place} (hsrc : ∃ e ∈ log, e.place = src)
    (htgt : ∃ e ∈ log, e.place = tgt)
    (hmov : s.tree.movable (lay.root ++ src) (lay.root ++ tgt) = true) :
    Doing lay b start log
      { s with tree := s.tree.move (lay.root ++ src) (lay.root ++ tgt) } := by
  refine h.setWork (h.plain.move hmov) ?_ ?_
  · intro k
    have htargetBackup : ¬ lay.root ++ tgt <+: b ++ k := lay.not_begins_backup hb _ _
    have hsourceBackup : ¬ lay.root ++ src <+: b ++ k := lay.not_begins_backup hb _ _
    rw [Tree.node_move hmov, if_neg htargetBackup, if_neg hsourceBackup]
  · have hwork := funext (work_move hmov)
    rw [hwork]
    exact .move hsrc htgt

end

end

/-- Where an action may have led: new entries are for its targets. -/
def Reached (layout : Layout) (b : Place) (start : UndoLog.State FileName ByteArray)
    (log : List (UndoLog.Entry FileName)) (targets : List Place) (after : FileState) : Prop :=
  ∃ new, Doing layout b start (log ++ new) after ∧ ∀ entry ∈ new, entry.place ∈ targets

/-- No file that is about to be recorded stands below a recorded place. -/
def Clearable (layout : Layout) (log : List (UndoLog.Entry FileName))
    (t : Tree FileName ByteArray) (targets : List Place) : Prop :=
  ∀ names ∈ targets, ∀ content, t.node (layout.root ++ names) = some (.file content) →
    (∀ entry ∈ log, entry.place ≠ names) → ∀ entry ∈ log, ¬ entry.place <+: names

lemma Clearable.single {lay : Layout} {log : List (UndoLog.Entry FileName)}
    {t : Tree FileName ByteArray} {targets : List Place} (h : Clearable lay log t targets)
    (hnames : names ∈ targets) : Clearable lay log t [names] := by
  intro other hother
  rw [mem_singleton.mp hother]
  exact h names hnames

section
variable {lay : Layout} {ctx : FileContext} (hfits : lay.Fits ctx)
  (step : WorkflowStep) {s : FileState} {b : Place} {start : UndoLog.State FileName ByteArray}
  {log : List (UndoLog.Entry FileName)} (hb : b ∈ lay.backup)
  (h : Doing lay b start log s)

lemma Doing.reached {targets : List Place} (h : Doing lay b start log s) :
    Reached lay b start log targets s :=
  ⟨[], by rwa [append_nil], by simp⟩

lemma Doing.ne_nil_of_logged (h : Doing lay b start log s)
    (hlogged : ∃ e ∈ log, e.place = names) : names ≠ [] := by
  obtain ⟨e, hentry, rfl⟩ := hlogged
  exact (h.spelled e hentry).1

include hfits hb h in
/-- The part of an action from the backup of its target on: the target is recorded, the directories
above it are made, and then it is changed. -/
lemma Doing.change_ends {targets : List Place} (hmem : names ∈ targets)
    (hspelled : ∀ name ∈ names, Spelled name) (hclear : Clearable lay log s.tree [names])
    {change : FileAction Unit} {execution : Bool → StepExecution}
    (hchange : ∀ log' after, Doing lay b start log' after →
      (∃ e ∈ log', e.place = names) →
      Leads change after (Doing lay b start log')) :
    Leads (do
        let backedUp ← ensureBackup ctx step (render (lay.root ++ names))
        createParents ctx step (render (lay.root ++ names))
        change
        return execution backedUp) s (Reached lay b start log targets) := by
  refine (h.ensureBackup_ends hfits step hb hspelled
    (hclear names (mem_singleton_self _))).leads_bind (fun _ hdone => hdone.reached) ?_
  rintro backedUp after ⟨new, hdoing, hnew, hlogged, -⟩
  have hreached : ∀ after, Doing lay b start (log ++ new) after →
      Reached lay b start log targets after :=
    fun _ hdone => ⟨new, hdone, fun e hentry => (hnew e hentry).1 ▸ hmem⟩
  refine (hdoing.createParents_ends step hb (hdoing.ne_nil_of_logged hlogged)).leads_bind
    hreached fun _ after hparents => ?_
  exact (hchange _ after hparents hlogged).leads_bind hreached
    fun _ after hdone => ends_pure (hreached after hdone)

include hfits in
/-- Recording a directory that is about to be made. -/
lemma Doing.recordCreatedDir_ends (hb : b ∈ lay.backup) (h : Doing lay b start log s)
    (hspelled : ∀ name ∈ names, Spelled name) :
    Ends (recordCreatedDir ctx (render (lay.root ++ names))) s
      (fun _ after => ∃ new, Doing lay b start (log ++ new) after ∧
        ∀ e ∈ new, e.place = names)
      fun _ _ => False := by
  have hbackup : ctx.backup = some (render b) := by rw [hfits.backup, Option.mem_def.mp hb]; rfl
  have hrelative : relativeTo ctx.canonicalWorkspace (render (lay.root ++ names)) =
      some (relText names) := by rw [hfits.workspace, relativeTo_render]
  have hkept : ∃ new, Doing lay b start (log ++ new) s ∧ ∀ e ∈ new, e.place = names :=
    ⟨[], by rwa [append_nil], by simp⟩
  refine ends_get_bind ?_
  have hexists : (ctx.host s).pathExists (render (lay.root ++ names)) =
      (s.tree.node (lay.root ++ names)).isSome := Host.pathExists_render (h.plain.noLinks names)
  rw [hexists]
  cases hnode : s.tree.node (lay.root ++ names) with
  | some node => exact ends_pure hkept
  | none =>
    have hplace : names ≠ [] := by
      rintro rfl
      rw [append_nil, h.plain.rootDir] at hnode
      cases hnode
    simp only [Option.isSome_none, Bool.false_eq_true, if_false, hbackup, hrelative,
      withSlashes_relText hspelled]
    by_cases hrecorded : (s.backups.any fun e => e.relPath == relText names) = true
    · rw [if_pos hrecorded]
      exact ends_pure hkept
    · rw [if_neg hrecorded]
      refine ends_set ⟨[⟨names, false⟩], h.record h.plain ⟨rfl, rfl, rfl⟩ hplace hspelled ?_,
        by simp⟩
      refine .note ?_ hnode
      rintro ⟨e, hentry, heq⟩
      exact hrecorded ((any_relPath_iff h.records names).mpr ⟨e, hentry, heq⟩)

include hfits hb h

lemma Doing.writeFile_ends (append : Bool)
    (hclear : Clearable lay log s.tree (named step "path")) :
    Leads (writeFile ctx step append) s (Reached lay b start log (named step "path")) := by
  unfold writeFile
  refine (resolvePath_ends step hfits h.plain "path").guards h.reached ?_
  rintro path after ⟨rfl, names, hmem, hspelled, rfl⟩
  refine (orThrow_ends _).guards h.reached ?_
  rintro v after ⟨rfl, -⟩
  refine h.change_ends hfits step hb hmem hspelled (hclear.single hmem) ?_
  intro log' after hdoing hlogged
  refine (changeTree_write_ends step hdoing.plain names _ _).leads hdoing ?_
  rintro - done ⟨htakes, rfl⟩
  exact hdoing.putFile hb hlogged htakes _

lemma Doing.copyFile_ends (hclear : Clearable lay log s.tree (named step "target")) :
    Leads (copyFile ctx step) s (Reached lay b start log (named step "target")) := by
  unfold copyFile
  refine (resolvePath_ends step hfits h.plain "source").guards h.reached ?_
  rintro path after ⟨rfl, source, -, -, rfl⟩
  refine (resolvePath_ends step hfits h.plain "target").guards h.reached ?_
  rintro path after ⟨rfl, names, hmem, hspelled, rfl⟩
  refine (requireSource_ends step h.plain source).guards h.reached ?_
  rintro - after ⟨rfl, -⟩
  refine h.change_ends hfits step hb hmem hspelled (hclear.single hmem) ?_
  intro log' after hdoing hlogged
  refine (changeTree_copy_ends step _ (hdoing.plain.noLinks source)
    (hdoing.plain.noLinks names)).leads hdoing ?_
  rintro - after ⟨v, -, htakes, rfl⟩
  exact hdoing.putFile hb hlogged htakes _

lemma Doing.mkdir_ends :
    Leads (mkdir ctx step) s (Reached lay b start log (named step "path")) := by
  unfold mkdir
  refine (resolvePath_ends step hfits h.plain "path").guards h.reached ?_
  rintro path after ⟨rfl, names, hmem, hspelled, rfl⟩
  refine (h.recordCreatedDir_ends hfits hb hspelled).leads_bind (fun _ => False.elim) ?_
  rintro - after ⟨new, hdoing, hnew⟩
  have htgts : ∀ e ∈ new, e.place ∈ named step "path" :=
    fun e hentry => hnew e hentry ▸ hmem
  refine (hdoing.makeDirs_work step hb _ names).guards ⟨new, hdoing, htgts⟩ ?_
  exact fun _ after hdone => ends_pure ⟨new, hdone, htgts⟩

lemma Doing.moveFile_ends
    (hclear : Clearable lay log s.tree (named step "source" ++ named step "target")) :
    Leads (moveFile ctx step) s
      (Reached lay b start log (named step "source" ++ named step "target")) := by
  unfold moveFile
  refine (resolvePath_ends step hfits h.plain "source").guards h.reached ?_
  rintro path after ⟨rfl, source, hsourceMem, hsourceSpelled, rfl⟩
  refine (resolvePath_ends step hfits h.plain "target").guards h.reached ?_
  rintro path after ⟨rfl, target, htargetMem, htargetSpelled, rfl⟩
  refine (requireSource_ends step h.plain source).guards h.reached ?_
  rintro - after ⟨rfl, -⟩
  have hsourceIn := mem_append_left (named step "target") hsourceMem
  have htargetIn := mem_append_right (named step "source") htargetMem
  refine (h.ensureBackup_ends hfits step hb hsourceSpelled (hclear source hsourceIn)).leads_bind
    (fun _ hdone => hdone.reached) ?_
  rintro - mid ⟨new, hmid, hnew, hsourceLogged, hwork⟩
  have hnewIn : ∀ e ∈ new, e.place ∈ named step "source" ++ named step "target" :=
    fun e hentry => (hnew e hentry).1 ▸ hsourceIn
  refine (hmid.ensureBackup_ends hfits step hb htargetSpelled ?_).leads_bind
    (fun _ hdone => ⟨new, hdone, hnewIn⟩) ?_
  · intro v hcont hunlogged e hentry hbeg
    rw [hwork] at hcont
    rcases mem_append.mp hentry with hold | hnewEntry
    · exact hclear target htargetIn v hcont
        (fun other hother => hunlogged other (mem_append_left _ hother)) e hold hbeg
    · -- The source was no directory, so there is nothing below it.
      obtain ⟨hplace, hnotDir⟩ := hnew e hnewEntry
      obtain ⟨below, rfl⟩ := hbeg
      have hbelow : below ≠ [] := by
        rintro rfl
        exact hunlogged e hentry (append_nil _).symm
      refine hnotDir ?_
      rw [hplace, ← append_assoc] at hcont
      exact Tree.node_above hbelow (by rw [hcont]; simp)
  · rintro - ready ⟨more, hready, hmore, htargetLogged, -⟩
    rw [append_assoc] at hready htargetLogged
    have hsourceLogged' : ∃ e ∈ log ++ (new ++ more), e.place = source := by
      obtain ⟨e, hentry, heq⟩ := hsourceLogged
      exact ⟨e, by rw [← append_assoc]; exact mem_append_left _ hentry, heq⟩
    have hreached : ∀ after, Doing lay b start (log ++ (new ++ more)) after →
        Reached lay b start log (named step "source" ++ named step "target") after := by
      refine fun after hdone => ⟨_, hdone, forall_mem_append.mpr ⟨hnewIn, ?_⟩⟩
      exact fun e hentry => (hmore e hentry).1 ▸ htargetIn
    refine (hready.createParents_ends step hb (hready.ne_nil_of_logged htargetLogged)).leads_bind
      hreached fun _ after hparents => ?_
    refine ((changeTree_rename_ends step hparents.plain _ _ _).leads hparents ?_).leads_bind
      hreached
      fun _ after hdone => ends_pure (hreached after hdone)
    rintro - done (⟨-, rfl⟩ | ⟨hmov, -, rfl⟩)
    · exact hparents
    · exact hparents.move hb hsourceLogged' htargetLogged hmov

lemma Doing.deleteFile_ends (hclear : Clearable lay log s.tree (named step "path")) :
    Leads (deleteFile ctx step) s (Reached lay b start log (named step "path")) := by
  unfold deleteFile
  refine (resolvePath_ends step hfits h.plain "path").guards h.reached ?_
  rintro path after ⟨rfl, names, hmem, hspelled, rfl⟩
  refine (h.ensureBackup_ends hfits step hb hspelled (hclear names hmem)).leads_bind
    (fun _ hdone => hdone.reached) ?_
  rintro - after ⟨new, hdoing, hnew, hlogged, -⟩
  have hreached : ∀ after, Doing lay b start (log ++ new) after →
      Reached lay b start log (named step "path") after :=
    fun _ hdone => ⟨new, hdone, fun e hentry => (hnew e hentry).1 ▸ hmem⟩
  refine ((removeTarget_ends step hdoing.plain names).leads hdoing ?_).leads_bind hreached
    fun _ after hdone => ends_pure (hreached after hdone)
  rintro - done (⟨-, rfl⟩ | ⟨v, hnode, rfl⟩)
  · exact hdoing
  · exact hdoing.removeNode hb hlogged hnode

end

/-- A step that starts no process does what it does under the discipline of the log. -/
lemma Doing.performStep_ends {lay : Layout} {ctx : FileContext} {step : WorkflowStep}
    {s : FileState} {b : Place} {start : UndoLog.State FileName ByteArray}
    {log : List (UndoLog.Entry FileName)} (spawner : Spawner) (hfits : lay.Fits ctx)
    (hb : b ∈ lay.backup) (h : Doing lay b start log s)
    (hspawns : SpawnsNothing ctx step)
    (hclear : Clearable lay log s.tree (backupTargets step)) :
    Leads (performStep spawner ctx step) s (Reached lay b start log (backupTargets step)) := by
  unfold performStep
  refine ends_get_bind ?_
  split
  · exact ends_throw h.reached
  · -- whatever a file action does, it does under the discipline of the log
    unfold fileAction
    unfold backupTargets at hclear ⊢
    by_cases hwrite : step.action = "write_file"
    · simp only [hwrite, if_true, String.reduceEq, if_false] at hclear ⊢
      exact h.writeFile_ends hfits step hb false hclear
    by_cases happend : step.action = "append_file"
    · simp only [happend, if_true, String.reduceEq, if_false] at hclear ⊢
      exact h.writeFile_ends hfits step hb true hclear
    by_cases hmkdir : step.action = "mkdir"
    · simp only [hmkdir, if_true, String.reduceEq, if_false]
      exact h.mkdir_ends hfits step hb
    by_cases hcopy : step.action = "copy_file"
    · simp only [hcopy, if_true, String.reduceEq, if_false] at hclear ⊢
      exact h.copyFile_ends hfits step hb hclear
    by_cases hmove : step.action = "move_file"
    · simp only [hmove, if_true, String.reduceEq, if_false] at hclear ⊢
      exact h.moveFile_ends hfits step hb hclear
    by_cases hdel : step.action = "delete_file"
    · simp only [hdel, if_true, String.reduceEq, if_false] at hclear ⊢
      exact h.deleteFile_ends hfits step hb hclear
    · simp only [hwrite, happend, hmkdir, hcopy, hmove, hdel, if_false]
      refine (readFile_ends step hfits h.plain).leads h.reached ?_
      rintro - after rfl
      exact h.reached
  · exact ends_pure h.reached
  · next req hspawn => exact absurd hspawn (hspawns _ req)

end ExperienceCodex
