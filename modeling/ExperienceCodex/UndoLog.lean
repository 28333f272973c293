import ExperienceCodex.FileTree

/-!
# Undo logs

Files are changed under a discipline: before the file at a place is changed, the place is entered
in a log, and if there is a file its content is copied to a safe place first.  The library says what
the log and the copies are worth after any number of such changes, and that undoing the entries from
the last to the first gives every file its first content back.

Undoing an entry puts the copy back or, where there was nothing, removes what is there.  It does not
turn a directory back into a file, so the result assumes that no first file has become one.
-/

namespace ExperienceCodex.UndoLog

open List FileTree

variable {N α : Type}

/-- What stands at every place. -/
abbrev Nodes (N α : Type) := Loc N → Option (Node N α)

/-- The content of the file at a place. -/
def contentAt (nodes : Nodes N α) (l : Loc N) : Option α :=
  match nodes l with
  | some (.file content) => some content
  | _ => none

/-- Everything stands in directories. -/
def Rooted (nodes : Nodes N α) : Prop :=
  ∀ l below, below ≠ [] → nodes (l ++ below) ≠ none → nodes l = some .dir

/-- Nothing is a link. -/
def LinkFree (nodes : Nodes N α) : Prop := ∀ l target, nodes l ≠ some (.link target)

/-- A place that is about to be changed, and whether there is a file. -/
structure Entry (N : Type) where
  place : Loc N
  existed : Bool

/-- The files, the copies and the log. -/
structure State (N α : Type) where
  work : Nodes N α
  copies : Nodes N α
  log : List (Entry N)

/-- The place has an entry. -/
def State.Logged (s : State N α) (l : Loc N) : Prop := ∃ entry ∈ s.log, entry.place = l

/-- The files among some nodes stay. -/
def KeepsFiles (before after : Nodes N α) : Prop :=
  ∀ k content, before k = some (.file content) → after k = some (.file content)

/-- No place at or above this one has an entry. -/
def State.Clear (s : State N α) (l : Loc N) : Prop := ∀ entry ∈ s.log, ¬ entry.place <+: l

/-- One change under the discipline. -/
inductive Change [DecidableEq N] : State N α → State N α → Prop
  /-- Something happens among the copies that leaves the files there. -/
  | copies {s : State N α} {copies : Nodes N α} (hkeeps : KeepsFiles s.copies copies) :
      Change s { s with copies }
  /-- A file is copied and entered. -/
  | save {s : State N α} {l : Loc N} {content : α} {copies : Nodes N α} (hclear : s.Clear l)
      (hfile : s.work l = some (.file content)) (hcopy : copies l = some (.file content))
      (hothers : ∀ k, k ≠ l → copies k = s.copies k) :
      Change s { s with copies, log := s.log ++ [⟨l, true⟩] }
  /-- A place where there is nothing is entered. -/
  | note {s : State N α} {l : Loc N} (hnew : ¬ s.Logged l) (hnone : s.work l = none) :
      Change s { s with log := s.log ++ [⟨l, false⟩] }
  /-- A directory is made, with those above it. -/
  | makeDirs {s : State N α} {l : Loc N}
      (hfree : ∀ k, k <+: l → s.work k = none ∨ s.work k = some .dir) :
      Change s { s with work := fun k => if k <+: l then some .dir else s.work k }
  /-- A file is written at an entered place. -/
  | write {s : State N α} {l : Loc N} (content : α) (hlogged : s.Logged l)
      (hdir : s.work l ≠ some .dir) :
      Change s { s with work := fun k => if k = l then some (.file content) else s.work k }
  /-- A file is removed from an entered place. -/
  | remove {s : State N α} {l : Loc N} (hlogged : s.Logged l) (hdir : s.work l ≠ some .dir) :
      Change s { s with work := fun k => if k = l then none else s.work k }
  /-- All that stands at an entered place goes to another one. -/
  | move {s : State N α} {source target : Loc N} (hsource : s.Logged source)
      (htarget : s.Logged target) :
      Change s { s with
        work := fun k =>
          if target <+: k then s.work (source ++ k.drop target.length)
          else if source <+: k then none
          else s.work k }

/-- Any number of changes. -/
abbrev Changes [DecidableEq N] : State N α → State N α → Prop := Relation.ReflTransGen Change

/-- What holds of a state, compared with the one at the start, in which the log was empty. -/
structure Inv (start : State N α) (s : State N α) : Prop where
  /-- A place has its first content unless it or one above it has an entry. -/
  kept : ∀ l, s.Clear l → contentAt s.work l = contentAt start.work l
  /-- Directories stay. -/
  dirs : ∀ l, start.work l = some .dir → s.work l = some .dir
  /-- Places entered as files had the content that their copies have. -/
  saved : ∀ entry ∈ s.log, entry.existed = true →
    ∃ content, start.work entry.place = some (.file content) ∧
      s.copies entry.place = some (.file content)
  /-- At the other entered places there was nothing. -/
  fresh : ∀ entry ∈ s.log, entry.existed = false → start.work entry.place = none
  /-- No place is entered twice. -/
  nodup : (s.log.map Entry.place).Nodup
  /-- The copies of places that are not entered as files stay. -/
  copies : ∀ l content, start.copies l = some (.file content) →
    (∀ entry ∈ s.log, entry.existed = true → entry.place ≠ l) → s.copies l = some (.file content)

variable {l : Loc N} {content : α}

lemma contentAt_eq_some_iff {nodes : Nodes N α} :
    contentAt nodes l = some content ↔ nodes l = some (.file content) := by
  unfold contentAt
  cases nodes l with
  | none => simp
  | some node => cases node <;> simp

lemma inv_start {start : State N α} (hlog : start.log = []) : Inv start start where
  kept _ _ := rfl
  dirs _ h := h
  saved entry h := by
    rw [hlog] at h
    cases h
  fresh entry h := by
    rw [hlog] at h
    cases h
  nodup := by simp [hlog]
  copies _ _ h _ := h

lemma State.Clear.of_append {s : State N α} {copies : Nodes N α} {entry : Entry N}
    (h : State.Clear { s with copies, log := s.log ++ [entry] } l) : s.Clear l :=
  fun other hother => h other (mem_append_left _ hother)

lemma State.Clear.not_logged {s : State N α} (h : s.Clear l) : ¬ s.Logged l := by
  rintro ⟨entry, hentry, rfl⟩
  exact h entry hentry prefix_rfl

lemma nodup_append {s : State N α} {existed : Bool}
    (h : (s.log.map Entry.place).Nodup) (hnew : ¬ s.Logged l) :
    ((s.log ++ [(⟨l, existed⟩ : Entry N)]).map Entry.place).Nodup := by
  rw [List.map_append, List.map_singleton, List.nodup_append]
  refine ⟨h, List.nodup_singleton _, ?_⟩
  intro place hplace other hother
  rw [mem_singleton.mp hother]
  rintro rfl
  obtain ⟨entry, hentry, rfl⟩ := mem_map.mp hplace
  exact hnew ⟨entry, hentry, rfl⟩

lemma Rooted.none_below {nodes : Nodes N α} (hrooted : Rooted nodes) {k : Loc N}
    (hnone : nodes l ≠ some .dir) (hk : l <+: k) (hne : l ≠ k) : nodes k = none := by
  obtain ⟨below, rfl⟩ := hk
  by_contra hex
  refine hnone (hrooted l below ?_ hex)
  rintro rfl
  exact hne (append_nil l).symm

section
variable [DecidableEq N] {start s s' : State N α}

omit [DecidableEq N] in
lemma Inv.not_dir (h : Inv start s) (hlog : s.Logged l) :
    start.work l ≠ some .dir := by
  obtain ⟨entry, hentry, rfl⟩ := hlog
  intro hdir
  cases hexist : entry.existed with
  | true =>
    obtain ⟨content, hfile, -⟩ := h.saved entry hentry hexist
    rw [hdir] at hfile
    cases hfile
  | false =>
    rw [h.fresh entry hentry hexist] at hdir
    cases hdir

lemma Inv.not_dir_below (hrooted : Rooted start.work) (h : Inv start s) {k : Loc N}
    (hlog : s.Logged l) (hk : l <+: k) : start.work k ≠ some .dir := by
  intro hdir
  by_cases hlk : l = k
  · exact h.not_dir hlog (hlk ▸ hdir)
  · rw [hrooted.none_below (h.not_dir hlog) hk hlk] at hdir
    cases hdir

omit [DecidableEq N] in
lemma Inv.none_of_new (hlinks : LinkFree start.work) (hrooted : Rooted start.work)
    (h : Inv start s) (hnew : ¬ s.Logged l) (hnone : s.work l = none) :
    start.work l = none := by
  by_cases hclear : s.Clear l
  · -- A file would still be there, and so would a directory.
    cases hstart : start.work l with
    | none => rfl
    | some node =>
      cases node with
      | link target => exact absurd hstart (hlinks l target)
      | dir =>
        rw [h.dirs l hstart] at hnone
        cases hnone
      | file content =>
        have hcont := h.kept l hclear
        rw [contentAt_eq_some_iff.mpr hstart] at hcont
        rw [contentAt_eq_some_iff.mp hcont] at hnone
        cases hnone
  · unfold State.Clear at hclear
    push Not at hclear
    obtain ⟨entry, hentry, hbelow⟩ := hclear
    have hlog : s.Logged entry.place := ⟨entry, hentry, rfl⟩
    refine hrooted.none_below (h.not_dir hlog) hbelow ?_
    rintro rfl
    exact hnew hlog

omit [DecidableEq N] in
/-- Entering a new place keeps what is said about the log. -/
lemma Inv.enter {existed : Bool} {copies : Nodes N α} (h : Inv start s)
    (hnew : ¬ s.Logged l) (hothers : ∀ k, k ≠ l → copies k = s.copies k)
    (hsaved : existed = true → ∃ content, start.work l = some (.file content) ∧
      copies l = some (.file content))
    (hfresh : existed = false → start.work l = none ∧ copies = s.copies) :
    Inv start { s with copies, log := s.log ++ [⟨l, existed⟩] } where
  kept k hk := h.kept k hk.of_append
  dirs := h.dirs
  saved entry hentry hexist := by
    rcases mem_append.mp hentry with hentry | hentry
    · obtain ⟨content, hstart, hcopy⟩ := h.saved entry hentry hexist
      have hne : entry.place ≠ l := fun heq => hnew ⟨entry, hentry, heq⟩
      exact ⟨content, hstart, (hothers _ hne).trans hcopy⟩
    · rw [mem_singleton.mp hentry] at hexist ⊢
      exact hsaved hexist
  fresh entry hentry hexist := by
    rcases mem_append.mp hentry with hentry | hentry
    · exact h.fresh entry hentry hexist
    · rw [mem_singleton.mp hentry] at hexist ⊢
      exact (hfresh hexist).1
  nodup := nodup_append h.nodup hnew
  copies k content hk hnot := by
    have hcopy := h.copies k content hk fun entry hentry =>
      hnot entry (mem_append_left _ hentry)
    cases hexist : existed with
    | true =>
      have hne := hnot ⟨l, existed⟩ (mem_append_right _ (mem_singleton_self _)) hexist
      exact (hothers k fun heq => hne heq.symm).trans hcopy
    | false =>
      rw [(hfresh hexist).2]
      exact hcopy

omit [DecidableEq N] in
/-- Changing the files keeps what is said about them, if it happens at and below entered places and
no first directory is lost. -/
lemma Inv.setWork {work : Nodes N α} (h : Inv start s)
    (hkept : ∀ l, s.Clear l → contentAt work l = contentAt s.work l)
    (hdirs : ∀ l, start.work l = some .dir → work l = some .dir) :
    Inv start { s with work } where
  kept l hl := (hkept l hl).trans (h.kept l hl)
  dirs := hdirs
  saved := h.saved
  fresh := h.fresh
  nodup := h.nodup
  copies := h.copies

/-- So does another node at an entered place that is no directory. -/
lemma Inv.setNode {l : Loc N} {node : Option (Node N α)} (h : Inv start s)
    (hlog : s.Logged l) (hdir : s.work l ≠ some .dir) :
    Inv start { s with work := fun k => if k = l then node else s.work k } := by
  refine h.setWork ?_ ?_
  · intro k hk
    have hne : k ≠ l := by
      rintro rfl
      exact hk.not_logged hlog
    simp [contentAt, hne]
  · intro k hk
    have hne : k ≠ l := by
      rintro rfl
      exact hdir (h.dirs k hk)
    exact (if_neg hne).trans (h.dirs k hk)

/-- Every change keeps the invariant. -/
lemma Inv.change (hlinks : LinkFree start.work) (hrooted : Rooted start.work) (h : Inv start s)
    (hchange : Change s s') : Inv start s' := by
  cases hchange with
  | copies hkeeps =>
    refine ⟨h.kept, h.dirs, ?_, h.fresh, h.nodup, ?_⟩
    · intro entry hentry hexist
      obtain ⟨content, hstart, hcopy⟩ := h.saved entry hentry hexist
      exact ⟨content, hstart, hkeeps _ _ hcopy⟩
    · exact fun l content hl hlog => hkeeps _ _ (h.copies l content hl hlog)
  | @save l content copies hclear hfile hcopy hothers =>
    refine h.enter hclear.not_logged hothers (fun _ => ⟨content, ?_, hcopy⟩) (fun hfalse => ?_)
    · have hcont := h.kept l hclear
      rw [contentAt_eq_some_iff.mpr hfile] at hcont
      exact contentAt_eq_some_iff.mp hcont.symm
    · cases hfalse
  | @note l hnew hnone =>
    refine h.enter hnew (fun _ _ => rfl) (fun htrue => ?_) fun _ => ?_
    · cases htrue
    · exact ⟨h.none_of_new hlinks hrooted hnew hnone, rfl⟩
  | @makeDirs l hfree =>
    refine h.setWork ?_ ?_
    · intro k _
      by_cases hkl : k <+: l
      · rcases hfree k hkl with hnone | hdir
        · simp [contentAt, hkl, hnone]
        · simp [contentAt, hkl, hdir]
      · simp [contentAt, hkl]
    · intro k hk
      by_cases hkl : k <+: l
      · exact if_pos hkl
      · exact (if_neg hkl).trans (h.dirs k hk)
  | @write l content hlog hdir =>
    exact h.setNode hlog hdir
  | @remove l hlog hdir =>
    exact h.setNode hlog hdir
  | @move source target hsrc htgt =>
    refine h.setWork ?_ ?_
    · intro k hk
      have hfrom : ¬ source <+: k := by
        obtain ⟨entry, hentry, rfl⟩ := hsrc
        exact hk entry hentry
      have hto : ¬ target <+: k := by
        obtain ⟨entry, hentry, rfl⟩ := htgt
        exact hk entry hentry
      simp [contentAt, hfrom, hto]
    · intro k hk
      have hfrom : ¬ source <+: k := fun hbelow => h.not_dir_below hrooted hsrc hbelow hk
      have hto : ¬ target <+: k := fun hbelow => h.not_dir_below hrooted htgt hbelow hk
      exact (if_neg hto).trans ((if_neg hfrom).trans (h.dirs k hk))

lemma Inv.changes (hlinks : LinkFree start.work) (hrooted : Rooted start.work) (h : Inv start s)
    (hchanges : Changes s s') : Inv start s' := by
  induction hchanges with
  | refl => exact h
  | tail _ hchange ih => exact ih.change hlinks hrooted hchange

/-- A file that is no longer what it was at the start has been entered as one. -/
lemma Inv.entered_of_lost (hrooted : Rooted start.work) (h : Inv start s)
    (hstart : start.work l = some (.file content)) (hlost : s.work l ≠ some (.file content)) :
    ∃ entry ∈ s.log, entry.place = l ∧ entry.existed = true := by
  have hentered : ∃ entry ∈ s.log, entry.place <+: l := by
    by_contra hnone
    push Not at hnone
    have hkept := h.kept l hnone
    rw [contentAt_eq_some_iff.mpr hstart] at hkept
    exact hlost (contentAt_eq_some_iff.mp hkept)
  obtain ⟨entry, hentry, habove⟩ := hentered
  have hplace : entry.place = l := by
    by_contra hne
    rw [hrooted.none_below (h.not_dir ⟨entry, hentry, rfl⟩) habove hne] at hstart
    cases hstart
  refine ⟨entry, hentry, hplace, ?_⟩
  by_contra hexist
  have hfresh := h.fresh entry hentry (Bool.eq_false_iff.mpr hexist)
  rw [hplace, hstart] at hfresh
  cases hfresh

lemma Inv.fresh_not_above (hrooted : Rooted start.work) (h : Inv start s) {entry : Entry N}
    (hentry : entry ∈ s.log) (hexist : entry.existed = false)
    (hstart : start.work l = some (.file content)) : ¬ entry.place <+: l := by
  intro habove
  have hfresh := h.fresh entry hentry hexist
  by_cases hplace : entry.place = l
  · rw [hplace, hstart] at hfresh
    cases hfresh
  · rw [hrooted.none_below (by rw [hfresh]; simp) habove hplace] at hstart
    cases hstart

/-- A copy stays what it is if the file at an entered place, where there is one, has its content. -/
lemma Inv.copy_stays (h : Inv start s)
    (hstart : start.copies l = some (.file content))
    (hsame : s.Logged l → ∀ other, start.work l = some (.file other) → other = content) :
    s.copies l = some (.file content) := by
  by_cases hentered : ∃ entry ∈ s.log, entry.existed = true ∧ entry.place = l
  · obtain ⟨entry, hentry, hexist, rfl⟩ := hentered
    obtain ⟨first, hfst, hcopy⟩ := h.saved entry hentry hexist
    rwa [hsame ⟨entry, hentry, rfl⟩ first hfst] at hcopy
  · push Not at hentered
    exact h.copies l content hstart hentered

/-- The files after an entry is undone. -/
def undoEntry (copies : Nodes N α) (entry : Entry N) (work : Nodes N α) : Nodes N α :=
  if entry.existed then fun k => if k = entry.place then copies k else work k
  else fun k => if entry.place <+: k then none else work k

/-- What holds of the files while the entries of a log are still to be undone. -/
structure Undoing (start copies : Nodes N α) (log : List (Entry N)) (work : Nodes N α) :
    Prop where
  rooted : Rooted work
  kept : ∀ l, (∀ entry ∈ log, ¬ entry.place <+: l) → contentAt work l = contentAt start l
  dirs : ∀ l, start l = some .dir → work l = some .dir
  files : ∀ l content, start l = some (.file content) → work l ≠ some .dir
  saved : ∀ entry ∈ log, entry.existed = true →
    ∃ content, start entry.place = some (.file content) ∧ copies entry.place = some (.file content)
  fresh : ∀ entry ∈ log, entry.existed = false → start entry.place = none

omit [DecidableEq N] in
/-- Undoing starts where no first file has become a directory. -/
lemma Inv.undoing (h : Inv start s) (hrooted : Rooted s.work)
    (hfiles : ∀ l content, start.work l = some (.file content) → s.work l ≠ some .dir) :
    Undoing start.work s.copies s.log s.work where
  rooted := hrooted
  kept := h.kept
  dirs := h.dirs
  files := hfiles
  saved := h.saved
  fresh := h.fresh

end

section
variable [DecidableEq N] {start copies work : Nodes N α} {log : List (Entry N)} {entry : Entry N}

lemma Undoing.undoSaved (hrooted : Rooted start)
    (h : Undoing start copies (log ++ [entry]) work) (hexist : entry.existed = true) :
    Undoing start copies log (undoEntry copies entry work) := by
  have hlast : entry ∈ log ++ [entry] := mem_append_right _ (mem_singleton_self _)
  obtain ⟨content, hstart, hcopy⟩ := h.saved entry hlast hexist
  have hwork : undoEntry copies entry work =
      fun k => if k = entry.place then some (.file content) else work k := by
    funext k
    by_cases hk : k = entry.place
    · simp [undoEntry, hexist, hk, hcopy]
    · simp [undoEntry, hexist, hk]
  have hnotDir := h.files entry.place content hstart
  rw [hwork]
  refine ⟨?_, ?_, ?_, ?_, fun other hother => h.saved other (mem_append_left _ hother),
    fun other hother => h.fresh other (mem_append_left _ hother)⟩
  · intro l below hbelow hex
    beta_reduce at hex ⊢
    by_cases hplace : l ++ below = entry.place
    · -- Above a first file there are first directories.
      have hl : start l = some .dir := hrooted l below hbelow (by rw [hplace, hstart]; simp)
      have hne : l ≠ entry.place := by
        rintro rfl
        rw [hstart] at hl
        cases hl
      exact (if_neg hne).trans (h.dirs l hl)
    · rw [if_neg hplace] at hex
      have hl := h.rooted l below hbelow hex
      have hne : l ≠ entry.place := by
        rintro rfl
        exact hnotDir hl
      exact (if_neg hne).trans hl
  · intro l hl
    by_cases hplace : entry.place <+: l
    · by_cases hlplace : l = entry.place
      · simp [contentAt, hlplace, hstart]
      · have hnow := h.rooted.none_below hnotDir hplace fun heq => hlplace heq.symm
        have hthen := hrooted.none_below (by rw [hstart]; simp) hplace fun heq => hlplace heq.symm
        simp [contentAt, hlplace, hnow, hthen]
    · have hkept : contentAt work l = contentAt start l := by
        exact h.kept l (forall_mem_append.mpr ⟨hl, forall_mem_singleton.mpr hplace⟩)
      have hlplace : l ≠ entry.place := by
        rintro rfl
        exact hplace prefix_rfl
      rw [← hkept]
      simp [contentAt, hlplace]
  · intro l hl
    have hne : l ≠ entry.place := by
      rintro rfl
      rw [hstart] at hl
      cases hl
    exact (if_neg hne).trans (h.dirs l hl)
  · intro l other hl
    by_cases hlplace : l = entry.place
    · simp [hlplace]
    · rw [if_neg hlplace]
      exact h.files l other hl

lemma Undoing.undoFresh (hrooted : Rooted start)
    (h : Undoing start copies (log ++ [entry]) work) (hexist : entry.existed = false) :
    Undoing start copies log (undoEntry copies entry work) := by
  have hlast : entry ∈ log ++ [entry] := mem_append_right _ (mem_singleton_self _)
  have hnone := h.fresh entry hlast hexist
  have hbelowNone : ∀ l, entry.place <+: l → start l = none := by
    intro l hl
    by_cases heq : entry.place = l
    · rwa [← heq]
    · exact hrooted.none_below (by rw [hnone]; simp) hl heq
  have hwork : undoEntry copies entry work =
      fun k => if entry.place <+: k then none else work k := by
    simp [undoEntry, hexist]
  rw [hwork]
  refine ⟨?_, ?_, ?_, ?_, fun other hother => h.saved other (mem_append_left _ hother),
    fun other hother => h.fresh other (mem_append_left _ hother)⟩
  · intro l below hbelow hex
    beta_reduce at hex ⊢
    by_cases hplace : entry.place <+: l ++ below
    · rw [if_pos hplace] at hex
      exact absurd rfl hex
    · rw [if_neg hplace] at hex
      rw [if_neg fun hl => hplace (hl.trans (prefix_append _ _))]
      exact h.rooted l below hbelow hex
  · intro l hl
    by_cases hbelow : entry.place <+: l
    · simp [contentAt, hbelow, hbelowNone l hbelow]
    · have hkept : contentAt work l = contentAt start l := by
        exact h.kept l (forall_mem_append.mpr ⟨hl, forall_mem_singleton.mpr hbelow⟩)
      rw [← hkept]
      simp [contentAt, hbelow]
  · intro l hl
    have hbelow : ¬ entry.place <+: l := by
      intro hbelow
      rw [hbelowNone l hbelow] at hl
      cases hl
    exact (if_neg hbelow).trans (h.dirs l hl)
  · intro l content hl
    by_cases hbelow : entry.place <+: l
    · simp [hbelow]
    · rw [if_neg hbelow]
      exact h.files l content hl

lemma Undoing.undoEntry (hrooted : Rooted start)
    (h : Undoing start copies (log ++ [entry]) work) :
    Undoing start copies log (undoEntry copies entry work) := by
  cases hexist : entry.existed with
  | true => exact h.undoSaved hrooted hexist
  | false => exact h.undoFresh hrooted hexist

/-- What an undoing that may fail has done with an entry: a file was put back, with the directories
above it, or all that stood at the place was removed. -/
def Undone (copies : Nodes N α) (entry : Entry N) (work after : Nodes N α) : Prop :=
  if entry.existed then
    ∃ content, copies entry.place = some (.file content) ∧ work entry.place ≠ some .dir ∧
      (∀ k, k <+: entry.place → k ≠ entry.place → contentAt work k = none) ∧
      after = fun k =>
        if k = entry.place then some (.file content)
        else if k <+: entry.place then some .dir
        else work k
  else after = fun k => if entry.place <+: k then none else work k

/-- The same for some entries, in the order in which they are undone. -/
def UndoneAll (copies : Nodes N α) : List (Entry N) → Nodes N α → Nodes N α → Prop
  | [], work, after => after = work
  | entry :: rest, work, after =>
    ∃ mid, Undone copies entry work mid ∧ UndoneAll copies rest mid after

/-- An entry leaves other places alone: it is for another file, or for nothing that this place is
in. -/
def Entry.Spares (entry : Entry N) (l : Loc N) : Prop :=
  (entry.existed = true → entry.place ≠ l) ∧ (entry.existed = false → ¬ entry.place <+: l)

variable {after : Nodes N α}

lemma Undone.untouched (h : Undone copies entry work after)
    (hspares : entry.Spares l) : contentAt after l = contentAt work l := by
  unfold Undone at h
  cases hexist : entry.existed with
  | true =>
    rw [hexist, if_pos rfl] at h
    obtain ⟨content, -, -, habove, rfl⟩ := h
    have hne : l ≠ entry.place := fun heq => hspares.1 hexist heq.symm
    by_cases hl : l <+: entry.place
    · rw [habove l hl hne]
      simp [contentAt, hne, hl]
    · simp [contentAt, hne, hl]
  | false =>
    rw [hexist, if_neg Bool.false_ne_true] at h
    subst h
    simp [contentAt, hspares.2 hexist]

lemma Undone.dir_stays (h : Undone copies entry work after)
    (hspares : entry.Spares l) (hdir : work l = some .dir) : after l = some .dir := by
  unfold Undone at h
  cases hexist : entry.existed with
  | true =>
    rw [hexist, if_pos rfl] at h
    obtain ⟨content, -, -, -, rfl⟩ := h
    have hne : l ≠ entry.place := fun heq => hspares.1 hexist heq.symm
    simp [hne, hdir]
  | false =>
    rw [hexist, if_neg Bool.false_ne_true] at h
    subst h
    simp [hspares.2 hexist, hdir]

lemma UndoneAll.untouched {entries : List (Entry N)}
    (h : UndoneAll copies entries work after) (hspares : ∀ entry ∈ entries, entry.Spares l) :
    contentAt after l = contentAt work l := by
  induction entries generalizing work with
  | nil =>
    cases h
    rfl
  | cons entry rest ih =>
    obtain ⟨mid, hentry, hrest⟩ := h
    rw [ih hrest (forall_mem_of_forall_mem_cons hspares)]
    exact hentry.untouched (hspares entry mem_cons_self)

/-- A file whose entry is undone has the content of the copy in the end, and there was no directory
in its place. -/
lemma UndoneAll.saved {entries : List (Entry N)}
    (h : UndoneAll copies entries work after) (hnodup : (entries.map Entry.place).Nodup)
    (hmem : entry ∈ entries) (hexist : entry.existed = true)
    (hfresh : ∀ other ∈ entries, other.existed = false → ¬ other.place <+: entry.place) :
    work entry.place ≠ some .dir ∧ contentAt after entry.place = contentAt copies entry.place := by
  induction entries generalizing work with
  | nil => cases hmem
  | cons first rest ih =>
    obtain ⟨mid, hfst, hrest⟩ := h
    rw [map_cons, nodup_cons] at hnodup
    have hrestFresh := forall_mem_of_forall_mem_cons hfresh
    rcases mem_cons.mp hmem with rfl | hmem
    · -- The other entries are for other places.
      have hspares : ∀ other ∈ rest, other.Spares entry.place := by
        intro other hother
        refine ⟨fun _ heq => hnodup.1 ?_, hrestFresh other hother⟩
        exact mem_map.mpr ⟨other, hother, heq⟩
      rw [hrest.untouched hspares]
      unfold Undone at hfst
      rw [hexist, if_pos rfl] at hfst
      obtain ⟨content, hcopy, hdir, -, rfl⟩ := hfst
      exact ⟨hdir, by simp [contentAt, hcopy]⟩
    · have hspares : first.Spares entry.place := by
        refine ⟨fun _ heq => hnodup.1 ?_, hfresh first mem_cons_self⟩
        exact mem_map.mpr ⟨entry, hmem, heq.symm⟩
      obtain ⟨hdir, hcont⟩ := ih hrest hnodup.2 hmem hrestFresh
      exact ⟨fun hwork => hdir (hfst.dir_stays hspares hwork), hcont⟩

omit [DecidableEq N] in
/-- What an undoing needs that puts a file back. -/
lemma Undoing.ready (hrooted : Rooted start) (h : Undoing start copies (log ++ [entry]) work)
    (hexist : entry.existed = true) :
    (∃ content, copies entry.place = some (.file content)) ∧ work entry.place ≠ some .dir ∧
      ∀ k, k <+: entry.place → k ≠ entry.place → work k = some .dir := by
  obtain ⟨content, hstart, hcopy⟩ :=
    h.saved entry (mem_append_right _ (mem_singleton_self _)) hexist
  refine ⟨⟨content, hcopy⟩, h.files _ _ hstart, ?_⟩
  rintro k ⟨below, hbelow⟩ hne
  refine h.dirs k (hrooted k below ?_ (by rw [hbelow, hstart]; simp))
  rintro rfl
  exact hne (by rw [← hbelow, append_nil])

/-- Undoing an entry in this way is undoing it: the directories above a first file are there. -/
lemma Undoing.undone (hrooted : Rooted start)
    (h : Undoing start copies (log ++ [entry]) work) (hundone : Undone copies entry work after) :
    Undoing start copies log after := by
  have hafter : after = UndoLog.undoEntry copies entry work := by
    unfold Undone at hundone
    unfold UndoLog.undoEntry
    cases hexist : entry.existed with
    | true =>
      rw [hexist, if_pos rfl] at hundone
      obtain ⟨content, hcopy, -, -, rfl⟩ := hundone
      obtain ⟨-, -, hdirs⟩ := h.ready hrooted hexist
      funext k
      by_cases hk : k = entry.place
      · simp [hk, hcopy]
      · by_cases habove : k <+: entry.place
        · simp [hk, habove, hdirs k habove hk]
        · simp [hk, habove]
    | false =>
      rw [hexist, if_neg Bool.false_ne_true] at hundone
      simpa using hundone
  rw [hafter]
  exact h.undoEntry hrooted

end

end ExperienceCodex.UndoLog
