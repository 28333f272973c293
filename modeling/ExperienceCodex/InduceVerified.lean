import ExperienceCodex.InduceBind

/-!
# An induced template and the runs it was induced from

Binding an induced template to one of its two requests captures the observed values again and puts
them back in place.  Three things can come in between: a captured value is refused by the constraint
of its kind, two parameters have the same name, or a text that both runs share has a placeholder in
it.  If none of them happens, both runs are reproduced, and if one does, some run is not.
-/

namespace ExperienceCodex

open List Text Entry

variable {entry : Entry} {log : List Entry}

section
variable {isAlphanumeric : Char → Bool} {taskA taskB : String}

lemma covers_iff {valueA valueB : String} :
    entry.covers valueA valueB = true ↔ entry.valueA = valueA ∧ entry.valueB = valueB := by
  rw [covers, Bool.and_eq_true, beq_iff_eq, beq_iff_eq]

lemma exists_leaf_of_mem_logLeaves {pairs : List Leaf}
    (h : entry ∈ logLeaves isAlphanumeric taskA taskB log pairs) :
    entry ∈ log ∨ ∃ leaf ∈ pairs, leaf.valueA ≠ leaf.valueB ∧
      entry.covers leaf.valueA leaf.valueB = true := by
  induction pairs generalizing log with
  | nil => exact .inl h
  | cons leaf rest ih =>
    obtain hlog | ⟨other, hother, hrest⟩ := ih h
    · unfold logLeaf at hlog
      split_ifs at hlog with hknown
      · exact .inl hlog
      · obtain hold | hnew := mem_append.mp hlog
        · exact .inl hold
        · rw [mem_singleton.mp hnew]
          refine .inr ⟨leaf, mem_cons_self, (not_or.mp hknown).1, ?_⟩
          exact covers_iff.mpr ⟨rfl, rfl⟩
    · exact .inr ⟨other, mem_cons_of_mem _ hother, hrest⟩

lemma exists_entry_of_mem {pairs : List Leaf} {leaf : Leaf} (h : leaf ∈ pairs)
    (hdiff : leaf.valueA ≠ leaf.valueB) :
    ∃ entry ∈ logLeaves isAlphanumeric taskA taskB log pairs,
      entry.covers leaf.valueA leaf.valueB = true := by
  induction pairs generalizing log with
  | nil => cases h
  | cons first rest ih =>
    obtain rfl | hrest := mem_cons.mp h
    · have hlog : ∃ entry ∈ logLeaf isAlphanumeric taskA taskB log leaf,
          entry.covers leaf.valueA leaf.valueB = true := by
        unfold logLeaf
        split_ifs with hknown
        · exact any_eq_true.mp (hknown.resolve_left hdiff)
        · exact ⟨_, mem_append_right _ mem_cons_self, covers_iff.mpr ⟨rfl, rfl⟩⟩
      obtain ⟨entry, hentry, hcov⟩ := hlog
      exact ⟨entry, (logLeaves_grows _ _ _ _ rest).subset hentry, hcov⟩
    · exact ih hrest

/-- What holds for every entry holds for every pair that differs, and the other way round. -/
lemma forall_entries_iff (isAlphanumeric : Char → Bool) (a b : ObservedTask)
    (motive : String → String → Prop) :
    (∀ entry ∈ observedEntries isAlphanumeric a b, motive entry.valueA entry.valueB) ↔
      ∀ leaf ∈ observedTexts a b, leaf.valueA ≠ leaf.valueB →
        motive leaf.valueA leaf.valueB := by
  constructor
  · intro h leaf hleaf hdiff
    obtain ⟨entry, hentry, hcov⟩ := exists_entry_of_mem hleaf hdiff
    obtain ⟨hA, hB⟩ := covers_iff.mp hcov
    rw [← hA, ← hB]
    exact h entry hentry
  · intro h entry hentry
    obtain hnone | ⟨leaf, hleaf, hdiff, hcov⟩ := exists_leaf_of_mem_logLeaves hentry
    · cases hnone
    · obtain ⟨hA, hB⟩ := covers_iff.mp hcov
      rw [hA, hB]
      exact h leaf hleaf hdiff

end

lemma boundValues_of_notMem (second : Bool) {es : List Entry} {name : String}
    (h : name ∉ es.map Entry.name) (bs : Bindings) :
    (boundValues second es bs)[name]? = bs[name]? := by
  induction es generalizing bs with
  | nil => rfl
  | cons entry rest ih =>
    rw [map_cons, mem_cons, not_or] at h
    rw [boundValues, foldl_cons, ← boundValues, ih h.2, Std.ExtTreeMap.getElem?_insert]
    simp [Ne.symm h.1]

lemma boundValues_of_mem (second : Bool) {es : List Entry}
    (hnames : (es.map Entry.name).Nodup) (hmem : entry ∈ es) (bs : Bindings) :
    (boundValues second es bs)[entry.name]? =
      some (pick second entry.valueA entry.valueB) := by
  induction es generalizing bs with
  | nil => cases hmem
  | cons first rest ih =>
    rw [map_cons, nodup_cons] at hnames
    rw [boundValues, foldl_cons, ← boundValues]
    obtain rfl | hrest := mem_cons.mp hmem
    · rw [boundValues_of_notMem second hnames.1, Std.ExtTreeMap.getElem?_insert_self]
    · exact ih hnames.2 hrest _

lemma uniqueKeysArray_args (steps : List ObservedStep) :
    Json.uniqueKeysArray (steps.map ObservedStep.args) = true := by
  induction steps with
  | nil => rfl
  | cons step rest ih =>
    rw [map_cons, Json.uniqueKeysArray, step.unique, ih]
    rfl

/-- Values that look like paths are workspace-relative paths in both runs. -/
def PathsAllowed (a b : ObservedTask) : Prop :=
  ∀ leaf ∈ observedTexts a b, leaf.valueA ≠ leaf.valueB →
    looksLikePath leaf.valueA leaf.valueB = true →
      pathValueError leaf.valueA = none ∧ pathValueError leaf.valueB = none

/-- No base name of a parameter is another base name with a number that this one is given. -/
def NamesApart (isAlphanumeric : Char → Bool) (a b : ObservedTask) : Prop :=
  Numbering.Apart ((observedEntries isAlphanumeric a b).map Entry.base)

/-- The texts that both runs share stay as they are when the values of either run are put in. -/
def TextsKept (isAlphanumeric : Char → Bool) (a b : ObservedTask) : Prop :=
  ∀ leaf ∈ observedTexts a b, leaf.valueA = leaf.valueB → ∀ second,
    renderString leaf.valueA (boundValues second (observedEntries isAlphanumeric a b) ∅) =
      .ok leaf.valueA

section
variable {isAlphanumeric : Char → Bool} {taskA taskB : String} {log : List Entry}
  {inducer : Inducer}

/-- The place of a recorded pair renders to the value that its name is bound to. -/
lemma Logged.renderString_holeText_iff (h : Logged isAlphanumeric taskA taskB log inducer)
    (bs : Bindings) (second : Bool) (hentry : entry ∈ log)
    (hdiff : entry.valueA ≠ entry.valueB) :
    renderString (holeText log entry.valueA entry.valueB) bs =
        .ok (pick second entry.valueA entry.valueB) ↔
      bs[entry.name]? = some (pick second entry.valueA entry.valueB) := by
  have hbrace : '\x7d' ∉ entry.name.toList :=
    fun hmem => absurd (h.nameChars entry hentry _ hmem) (by decide)
  have hfound : log.find? (covers entry.valueA entry.valueB) = some entry := by
    cases hfind : log.find? (covers entry.valueA entry.valueB) with
    | none => exact absurd (covers_iff.mpr ⟨rfl, rfl⟩) (find?_eq_none.mp hfind entry hentry)
    | some other =>
      have hsame := covers_iff.mp (find?_some hfind)
      have hother := mem_of_find?_eq_some hfind
      exact congrArg some (inj_on_of_nodup_map h.distinct hother hentry
        (Prod.ext hsame.1 hsame.2))
  rw [holeText, if_neg hdiff, hfound]
  exact renderString_placeholder bs _ hbrace

/-- Distinct names are what it takes for each name to be bound to the values of its pair in both
runs. -/
lemma Logged.names_nodup_iff (h : Logged isAlphanumeric taskA taskB log inducer) :
    (log.map name).Nodup ↔
      ∀ second, ∀ entry ∈ log, (boundValues second log ∅)[entry.name]? =
        some (pick second entry.valueA entry.valueB) := by
  constructor
  · exact fun hnames second entry hentry => boundValues_of_mem second hnames hentry ∅
  · intro hbound
    refine List.Nodup.map_on (fun entry hentry other hother hname => ?_) h.distinct.of_map
    -- Two entries of one name have the same values in both runs, so they are one pair.
    have hsame : ∀ second, pick second entry.valueA entry.valueB =
        pick second other.valueA other.valueB := by
      intro second
      have hboth := (hbound second entry hentry).symm.trans
        (hname ▸ hbound second other hother)
      exact Option.some.inj hboth
    exact inj_on_of_nodup_map h.distinct hentry hother (Prod.ext (hsame false) (hsame true))

end

lemma leafRenders_of_same {bs : Bindings} {second : Bool} {leaf : Leaf}
    (h : leaf.valueA = leaf.valueB) :
    LeafRenders log bs second leaf ↔
      renderString leaf.valueA bs = .ok leaf.valueA := by
  have hpick : pick second leaf.valueA leaf.valueB = leaf.valueA := by
    cases second
    · rfl
    · exact h.symm
  rw [LeafRenders, holeText, if_pos h, hpick]

section
variable {isAlphanumeric : Char → Bool} {a b : ObservedTask}

variable (isAlphanumeric) in
lemma pathsAllowed_iff :
    PathsAllowed a b ↔ ∀ second, ∀ entry ∈ observedEntries isAlphanumeric a b,
      looksLikePath entry.valueA entry.valueB = true →
        pathValueError (pick second entry.valueA entry.valueB) = none := by
  have hentries := forall_entries_iff isAlphanumeric a b fun valueA valueB =>
    looksLikePath valueA valueB = true →
      pathValueError valueA = none ∧ pathValueError valueB = none
  rw [PathsAllowed, ← hentries]
  constructor
  · intro hallowed second entry hentry hpath
    cases second
    · exact (hallowed entry hentry hpath).1
    · exact (hallowed entry hentry hpath).2
  · intro hallowed entry hentry hpath
    exact ⟨hallowed false entry hentry hpath, hallowed true entry hentry hpath⟩

/-- All texts of the workflow render to those of the two runs exactly when the names are distinct
and the shared texts are kept. -/
lemma leavesRender_iff {inducer : Inducer}
    (h : Logged isAlphanumeric a.task b.task (observedEntries isAlphanumeric a b) inducer) :
    (∀ second, ∀ leaf ∈ observedTexts a b, LeafRenders (observedEntries isAlphanumeric a b)
        (boundValues second (observedEntries isAlphanumeric a b) ∅) second leaf) ↔
      NamesApart isAlphanumeric a b ∧ TextsKept isAlphanumeric a b := by
  have hdiff : ∀ entry ∈ observedEntries isAlphanumeric a b, entry.valueA ≠ entry.valueB :=
    (forall_entries_iff isAlphanumeric a b (· ≠ ·)).mpr fun _ _ hdiff => hdiff
  have hentries (second : Bool) := forall_entries_iff isAlphanumeric a b fun valueA valueB =>
    renderString (holeText (observedEntries isAlphanumeric a b) valueA valueB)
      (boundValues second (observedEntries isAlphanumeric a b) ∅) = .ok (pick second valueA valueB)
  rw [NamesApart, ← Numbering.numberAll_nodup_iff, ← h.numbered, h.names_nodup_iff]
  constructor
  · intro hrender
    refine ⟨fun second entry hentry => ?_, fun leaf hleaf hsame second => ?_⟩
    · rw [← h.renderString_holeText_iff _ second hentry (hdiff entry hentry)]
      exact (hentries second).mpr (fun leaf hleaf _ => hrender second leaf hleaf) entry hentry
    · exact (leafRenders_of_same hsame).mp (hrender second leaf hleaf)
  · rintro ⟨hbound, hkept⟩ second leaf hleaf
    by_cases hsame : leaf.valueA = leaf.valueB
    · exact (leafRenders_of_same hsame).mpr (hkept leaf hleaf hsame second)
    · refine (hentries second).mp (fun entry hentry => ?_) leaf hleaf hsame
      exact (h.renderString_holeText_iff _ second hentry (hdiff entry hentry)).mpr
        (hbound second entry hentry)

end

/-- An induced template reproduces both of the runs it was induced from exactly when the values
that look like paths are allowed as paths, the names of the parameters stay distinct, and the texts
that the runs share are kept. -/
theorem induce_reproduces_iff (isAlphanumeric : Char → Bool) (floatText : F64 → String)
    (tool cwd : String) {a b : ObservedTask} {template : ExperienceTemplate}
    (h : induce isAlphanumeric a b = .ok template) :
    (Reproduces floatText tool cwd template a ∧ Reproduces floatText tool cwd template b) ↔
      PathsAllowed a b ∧ NamesApart isAlphanumeric a b ∧ TextsKept isAlphanumeric a b := by
  have hinduced := induced_of_induce h
  obtain ⟨inducer, hlogged⟩ := hinduced.logged
  have hboth : (Reproduces floatText tool cwd template a ∧
      Reproduces floatText tool cwd template b) ↔
        ∀ second, Reproduces floatText tool cwd template (pick second a b) := by
    rw [Bool.forall_bool]
    rfl
  rw [hboth, pathsAllowed_iff isAlphanumeric, ← leavesRender_iff hlogged, ← forall_and]
  refine forall_congr' fun second => ?_
  -- a run is reproduced where its values are allowed and every text renders to that of the run
  have hacts : template.workflow.map WorkflowStep.action = (pick second a b).actions := by
    cases second
    · exact hinduced.actions
    · exact hinduced.actions.trans hinduced.sameActions
  have hcaptured : ∀ entry ∈ observedEntries isAlphanumeric a b,
      captureParameter (pick second a b).task entry.before entry.after =
        some (pick second entry.valueA entry.valueB) := by
    intro entry hentry
    obtain ⟨hA, hB, -, -⟩ := captureRule_spec (hlogged.rule entry hentry)
    cases second
    · exact hA
    · exact hB
  have hne : ∀ entry ∈ observedEntries isAlphanumeric a b,
      pick second entry.valueA entry.valueB ≠ "" := by
    intro entry hentry
    obtain ⟨hA, hB⟩ := hlogged.nonblank entry hentry
    cases second
    · exact ne_empty_of_not_isBlank hA
    · exact ne_empty_of_not_isBlank hB
  have hlen : a.args.length = b.args.length := by
    have hsame := congrArg List.length hinduced.sameActions
    simpa [ObservedTask.actions, ObservedTask.args] using hsame
  have hargs : (pick second a b).args = pick second a.args b.args :=
    (pick_map ObservedTask.args a b).symm
  rw [reproduces_iff_items hinduced.effects hacts, hinduced.parameters, hinduced.args, hargs]
  simp only [captureParameters_entries floatText tool cwd _ second hcaptured hne,
    render_withHolesItems_iff a.args b.args hlen hinduced.alike (uniqueKeysArray_args a.steps)]
  constructor
  · rintro ⟨bs, ⟨hallowed, rfl⟩, hleaves⟩
    exact ⟨hallowed, hleaves⟩
  · rintro ⟨hallowed, hleaves⟩
    exact ⟨_, ⟨hallowed, rfl⟩, hleaves⟩

/-- A run that moves one file. -/
def moveRun (task source target : String) : ObservedTask where
  task := task
  steps := [{
    action := "move_file"
    args := .object [("source", .string source), ("target", .string target)]
    unique := rfl }]
  succeeded := true

def moveAlpha : ObservedTask :=
  moveRun "Move inbox reports into the library: inbox/alpha.pdf -> library/alpha.pdf"
    "inbox/alpha.pdf" "library/alpha.pdf"

def moveBeta : ObservedTask :=
  moveRun "Move inbox reports into the library: inbox/beta.pdf -> library/beta.pdf"
    "inbox/beta.pdf" "library/beta.pdf"

/-- The template of two moves reproduces both. -/
theorem induce_reproduces_moves :
    ∃ template, induce Char.isAlphanum moveAlpha moveBeta = .ok template ∧
      Reproduces (fun _ => "") "task" "/workspace" template moveAlpha ∧
      Reproduces (fun _ => "") "task" "/workspace" template moveBeta := by
  have hok : (induce Char.isAlphanum moveAlpha moveBeta).toOption.isSome = true := by
    decide +kernel
  cases hinduce : induce Char.isAlphanum moveAlpha moveBeta with
  | error reject =>
    rw [hinduce] at hok
    cases hok
  | ok template =>
    refine ⟨template, rfl, (induce_reproduces_iff _ _ _ _ hinduce).mpr ⟨?_, ?_, ?_⟩⟩
    · unfold PathsAllowed
      decide +kernel
    · have hbases : (observedEntries Char.isAlphanum moveAlpha moveBeta).map base =
          ["source", "target"] := by decide +kernel
      rw [NamesApart, hbases]
      intro base _ other k htwo hcount
      have hone := nodup_iff_count_le_one.mp
        (show ["source", "target"].Nodup by decide) other
      omega
    · have hplain : ∀ leaf ∈ observedTexts moveAlpha moveBeta, leaf.valueA = leaf.valueB →
          contains leaf.valueA "$\x7b" = false := by
        decide +kernel
      exact fun leaf hleaf hsame _ => renderString_literal _ (hplain leaf hleaf hsame)

def moveOutsideA : ObservedTask :=
  moveRun "Please move ../in/a.txt into the report folder" "../in/a.txt" "report.txt"

def moveOutsideB : ObservedTask :=
  moveRun "Please move ../in/b.txt into the report folder" "../in/b.txt" "report.txt"

/-- The template of two moves out of the parent directory refuses the request of its own first
run. -/
theorem induce_refuses_own_request :
    ∃ template, induce Char.isAlphanum moveOutsideA moveOutsideB = .ok template ∧
      ¬ Reproduces (fun _ => "") "task" "/workspace" template moveOutsideA := by
  have hrefused : (match induce Char.isAlphanum moveOutsideA moveOutsideB with
      | .ok template =>
        match template.bind (fun _ => "") (requestProposal "task" moveOutsideA.task)
            "/workspace" with
        | .ok _ => false
        | .error error => decide (error =
            .invalidParameter "source" "path must not contain a '..' component")
      | .error _ => false) = true := by decide +kernel
  split at hrefused
  next template hinduce =>
    refine ⟨template, hinduce, ?_⟩
    rintro ⟨experience, bindings, hbind, -⟩
    rw [hbind] at hrefused
    cases hrefused
  next => cases hrefused

end ExperienceCodex
