import ExperienceCodex.InduceLog

/-!
# The walk over two runs

What the inducer does on its way through the arguments of two runs: it records their texts in order,
the values agree in everything else, and the result has a hole for each pair of texts that differ.
-/

namespace ExperienceCodex

open Text ObservedStep Inducer

variable {ind : Inducer} {log : List Entry} {i : ℕ}

section
variable {alnum : Char → Bool} {taskA taskB : String}

/-- What the record says about a pair stays when it grows. -/
lemma holeText_of_grows {final : List Entry} (h : log <+: final) {valueA valueB name : String}
    (hdiff : valueA ≠ valueB)
    (hname : (log.find? (Entry.covers valueA valueB)).map Entry.name = some name) :
    holeText final valueA valueB = placeholder name := by
  obtain ⟨more, rfl⟩ := h
  obtain ⟨e, hentry, rfl⟩ := Option.map_eq_some_iff.mp hname
  rw [holeText, if_neg hdiff, List.find?_append, hentry]
  rfl

lemma logLeaves_append (log : List Entry) (first second : List Leaf) :
    logLeaves alnum taskA taskB log (first ++ second) =
      logLeaves alnum taskA taskB (logLeaves alnum taskA taskB log first)
        second :=
  List.foldl_append

end

/-- The outcome of a walk over the texts of two values: the record has grown by them, and the result
has the holes of every record that this one grows into. -/
structure Walked (isAlphanumeric : Char → Bool) (taskA taskB : String) (log : List Entry)
    (pairs : List Leaf) (inducer : Inducer) {α : Type} (result : α) (holes : List Entry → α) :
    Prop where
  logged :
    Logged isAlphanumeric taskA taskB (logLeaves isAlphanumeric taskA taskB log pairs) inducer
  holes : ∀ final, logLeaves isAlphanumeric taskA taskB log pairs <+: final → result = holes final

section
variable {alnum : Char → Bool} {taskA taskB : String}

lemma Walked.nil
    (h : Logged alnum taskA taskB log ind) {α : Type} (result : α) :
    Walked alnum taskA taskB log [] ind result fun _ => result :=
  ⟨h, fun _ _ => rfl⟩

lemma Walked.trans {first second : List Leaf} {middle last : Inducer}
    {α β γ : Type} (f : α → β → γ) {x : α} {y : β} {holesX : List Entry → α}
    {holesY : List Entry → β}
    (hx : Walked alnum taskA taskB log first middle x holesX)
    (hy : Walked alnum taskA taskB (logLeaves alnum taskA taskB log first) second
      last y holesY) :
    Walked alnum taskA taskB log (first ++ second) last (f x y)
      fun final => f (holesX final) (holesY final) := by
  constructor
  · rw [logLeaves_append]
    exact hy.logged
  · intro final hfinal
    rw [logLeaves_append] at hfinal
    have hfst := (logLeaves_grows alnum taskA taskB _ second).trans hfinal
    rw [hx.holes final hfst, hy.holes final hfinal]

lemma Walked.map {pairs : List Leaf} {α β : Type} (f : α → β)
    {x : α} {holes : List Entry → α}
    (h : Walked alnum taskA taskB log pairs ind x holes) :
    Walked alnum taskA taskB log pairs ind (f x) fun final => f (holes final) :=
  ⟨h.logged, fun final hfinal => congrArg f (h.holes final hfinal)⟩

lemma walked_string {inducer' : Inducer}
    (h : Logged alnum taskA taskB log ind) {hint : Option String}
    {textA textB : String} {r : Json}
    (hres : parameterize alnum taskA taskB i ind hint (.string textA)
      (.string textB) = .ok (r, inducer')) :
    Walked alnum taskA taskB log [{ hint, valueA := textA, valueB := textB }] inducer' r
      fun final => .string (holeText final textA textB) := by
  rw [parameterize] at hres
  split_ifs at hres with hsame
  · cases hres
    have hlog : logLeaves alnum taskA taskB log
        [{ hint, valueA := textA, valueB := textB }] = log := if_pos (.inl hsame)
    constructor
    · rw [hlog]
      exact h
    · intro final _
      rw [holeText, if_pos hsame]
  · obtain ⟨⟨name, rec⟩, hinduce, heq⟩ := bind_eq_ok_iff.mp hres
    cases heq
    unfold induceParameter at hinduce
    split_ifs at hinduce with hlong hephemeral hblank
    rw [Bool.or_eq_true, not_or, Bool.not_eq_true, Bool.not_eq_true] at hblank
    cases hrule : captureRule alnum taskA taskB textA textB with
    | none =>
      rw [hrule] at hinduce
      cases hinduce
    | some rule =>
      rw [hrule] at hinduce
      have hlogged := h.recordParameter
        (show ({ hint, valueA := textA, valueB := textB } : Leaf).valueA ≠ textB from hsame)
        hrule hblank
      simp only [Except.ok.inj hinduce] at hlogged
      constructor
      · exact hlogged.1
      · intro final hfinal
        rw [holeText_of_grows hfinal hsame hlogged.2]

/-- Values that are not both texts, both arrays or both objects have to be equal. -/
lemma walked_scalar {inducer' : Inducer}
    (h : Logged alnum taskA taskB log ind) {hint : Option String}
    {left right r : Json}
    (hscalar : parameterize alnum taskA taskB i ind hint left right =
      if left.jsonEq right then .ok (left, ind)
      else .error (.unstableShape i "non-string value differs between runs"))
    (hleaves : leaves hint left right = []) (hholes : ∀ final, withHoles final left right = left)
    (halike : alike left right = left.jsonEq right)
    (hres : parameterize alnum taskA taskB i ind hint left right =
      .ok (r, inducer')) :
    Walked alnum taskA taskB log (leaves hint left right) inducer' r
        (withHoles · left right) ∧ alike left right = true := by
  rw [hscalar] at hres
  split_ifs at hres with hequal
  cases hres
  rw [hleaves, halike]
  exact ⟨⟨h, fun final _ => (hholes final).symm⟩, hequal⟩

mutual
/-- What `parameterize` does: it records the texts of the two values, and the values are alike. -/
theorem walked_parameterize {log : List Entry} {ind inducer' : Inducer}
    (h : Logged alnum taskA taskB log ind) {i : ℕ} {hint : Option String}
    {r : Json} : (left right : Json) →
    parameterize alnum taskA taskB i ind hint left right =
      .ok (r, inducer') →
    Walked alnum taskA taskB log (leaves hint left right) inducer' r
        (withHoles · left right) ∧ alike left right = true
  | .string textA, .string textB => fun hres => ⟨walked_string h hres, rfl⟩
  | .array itemsA, .array itemsB => by
    intro hres
    rw [parameterize] at hres
    split_ifs at hres with hlen
    obtain ⟨⟨items, middle⟩, hitems, heq⟩ := bind_eq_ok_iff.mp hres
    cases heq
    obtain ⟨hwalked, halike⟩ := walked_parameterizeItems h itemsA itemsB hitems
    refine ⟨hwalked.map Json.array, ?_⟩
    simp [alike, not_not.mp hlen, halike]
  | .object membersA, .object membersB => by
    intro hres
    rw [parameterize] at hres
    split_ifs at hres with hlen
    obtain ⟨⟨members, middle⟩, hmembers, heq⟩ := bind_eq_ok_iff.mp hres
    cases heq
    obtain ⟨hwalked, halike⟩ := walked_parameterizeMembers h membersB membersA hmembers
    refine ⟨hwalked.map Json.object, ?_⟩
    simp [alike, not_not.mp hlen, halike]
  | .null, right => by
    intro hres
    cases right <;> exact walked_scalar h rfl rfl (fun _ => rfl) rfl hres
  | .bool _, right => by
    intro hres
    cases right <;> exact walked_scalar h rfl rfl (fun _ => rfl) rfl hres
  | .number _, right => by
    intro hres
    cases right <;> exact walked_scalar h rfl rfl (fun _ => rfl) rfl hres
  | .string _, .null | .string _, .bool _ | .string _, .number _ | .string _, .array _
  | .string _, .object _ | .array _, .null | .array _, .bool _ | .array _, .number _
  | .array _, .string _ | .array _, .object _ | .object _, .null
  | .object _, .bool _ | .object _, .number _ | .object _, .string _ | .object _, .array _ => by
    intro hres
    exact walked_scalar h rfl rfl (fun _ => rfl) rfl hres
termination_by structural left => left
theorem walked_parameterizeItems {log : List Entry} {ind inducer' : Inducer}
    (h : Logged alnum taskA taskB log ind) {i : ℕ} {results : List Json} :
    (itemsA itemsB : List Json) →
    parameterizeItems alnum taskA taskB i ind itemsA itemsB =
      .ok (results, inducer') →
    Walked alnum taskA taskB log (leavesItems itemsA itemsB) inducer' results
        (withHolesItems · itemsA itemsB) ∧ alikeItems itemsA itemsB = true
  | itemA :: restA, itemB :: restB => by
    intro hres
    rw [parameterizeItems] at hres
    obtain ⟨⟨item, middle⟩, hitem, hres⟩ := bind_eq_ok_iff.mp hres
    obtain ⟨⟨rest, last⟩, hrest, heq⟩ := bind_eq_ok_iff.mp hres
    cases heq
    obtain ⟨hfst, halike⟩ := walked_parameterize h itemA itemB hitem
    obtain ⟨hothers, hothersAlike⟩ := walked_parameterizeItems hfst.logged restA restB hrest
    refine ⟨hfst.trans List.cons hothers, ?_⟩
    simp [alikeItems, halike, hothersAlike]
  | [], _ => by
    intro hres
    cases hres
    exact ⟨.nil h [], rfl⟩
  | _ :: _, [] => by
    intro hres
    cases hres
    exact ⟨.nil h [], rfl⟩
termination_by structural itemsA => itemsA
theorem walked_parameterizeMembers {log : List Entry} {ind inducer' : Inducer}
    (h : Logged alnum taskA taskB log ind) {i : ℕ}
    {results : List (String × Json)} (membersB : List (String × Json)) :
    (membersA : List (String × Json)) →
    parameterizeMembers alnum taskA taskB i ind membersB membersA =
      .ok (results, inducer') →
    Walked alnum taskA taskB log (leavesMembers membersB membersA) inducer' results
        (withHolesMembers · membersB membersA) ∧ alikeMembers membersB membersA = true
  | [] => by
    intro hres
    cases hres
    exact ⟨.nil h [], rfl⟩
  | (key, itemA) :: restA => by
    intro hres
    rw [parameterizeMembers] at hres
    rw [leavesMembers, alikeMembers]
    simp only [withHolesMembers]
    cases hlook : membersB.lookup key with
    | none =>
      rw [hlook] at hres
      cases hres
    | some itemB =>
      rw [hlook] at hres
      obtain ⟨⟨item, middle⟩, hitem, hres⟩ := bind_eq_ok_iff.mp hres
      obtain ⟨⟨rest, last⟩, hrest, heq⟩ := bind_eq_ok_iff.mp hres
      cases heq
      obtain ⟨hfst, halike⟩ := walked_parameterize h itemA itemB hitem
      obtain ⟨hothers, hothersAlike⟩ :=
        walked_parameterizeMembers hfst.logged membersB restA hrest
      refine ⟨hfst.trans (fun item rest => (key, item) :: rest) hothers, ?_⟩
      simp [halike, hothersAlike]
termination_by structural membersA => membersA
end

/-- The loop over the steps walks over their arguments. -/
theorem walked_parameterizeSteps {inducer' : Inducer}
    (h : Logged alnum taskA taskB log ind) {workflow : List WorkflowStep}
    {stepsA stepsB : List ObservedStep} (hlen : stepsA.length = stepsB.length)
    (hres : parameterizeSteps alnum taskA taskB i ind stepsA stepsB =
      .ok (workflow, inducer')) :
    Walked alnum taskA taskB log
        (leavesItems (stepsA.map args) (stepsB.map args)) inducer'
        (workflow.map WorkflowStep.args)
        (withHolesItems · (stepsA.map args) (stepsB.map args)) ∧
      alikeItems (stepsA.map args) (stepsB.map args) = true ∧
      workflow.map WorkflowStep.action = stepsA.map action := by
  induction stepsA generalizing stepsB log ind i workflow with
  | nil =>
    cases hres
    exact ⟨.nil h [], rfl, rfl⟩
  | cons stepA restA ih =>
    cases stepsB with
    | nil => cases hlen
    | cons stepB restB =>
      rw [parameterizeSteps] at hres
      obtain ⟨⟨args, middle⟩, hargs, hres⟩ := bind_eq_ok_iff.mp hres
      obtain ⟨⟨rest, last⟩, hrest, heq⟩ := bind_eq_ok_iff.mp hres
      cases heq
      obtain ⟨hfst, halike⟩ := walked_parameterize h stepA.args stepB.args hargs
      obtain ⟨hothers, hothersAlike, hacts⟩ :=
        ih hfst.logged (Nat.succ.inj hlen) hrest
      refine ⟨hfst.trans List.cons hothers, ?_, ?_⟩
      · simp [alikeItems, halike, hothersAlike]
      · rw [List.map_cons, List.map_cons, hacts]

end

lemma actions_eq_of_checkActions {stepsA stepsB : List ObservedStep}
    (hlen : stepsA.length = stepsB.length) (h : checkActions i stepsA stepsB = .ok ()) :
    stepsA.map action = stepsB.map action := by
  induction stepsA generalizing stepsB i with
  | nil => rw [List.length_eq_zero_iff.mp hlen.symm]
  | cons stepA restA ih =>
    cases stepsB with
    | nil => cases hlen
    | cons stepB restB =>
      rw [checkActions] at h
      split_ifs at h with hact hknown
      rw [List.map_cons, List.map_cons, not_not.mp hact, ih (Nat.succ.inj hlen) h]

namespace ObservedTask

def args (task : ObservedTask) : List Json := task.steps.map ObservedStep.args

def actions (task : ObservedTask) : List String := task.steps.map ObservedStep.action

end ObservedTask

/-- The texts that two runs have in the same places. -/
def observedTexts (a b : ObservedTask) : List Leaf := leavesItems a.args b.args

/-- The pairs of texts that differ between two runs, each once and in order, with the rules and
names that induction gives them. -/
def observedEntries (isAlphanumeric : Char → Bool) (a b : ObservedTask) : List Entry :=
  logLeaves isAlphanumeric a.task b.task [] (observedTexts a b)

/-- What a template that was induced from two runs has to do with them. -/
structure Induced (isAlphanumeric : Char → Bool) (a b : ObservedTask)
    (template : ExperienceTemplate) : Prop where
  logged : ∃ inducer,
    Logged isAlphanumeric a.task b.task (observedEntries isAlphanumeric a b) inducer
  parameters : template.parameters = (observedEntries isAlphanumeric a b).map Entry.parameter
  args : template.workflow.map WorkflowStep.args =
    withHolesItems (observedEntries isAlphanumeric a b) a.args b.args
  actions : template.workflow.map WorkflowStep.action = a.actions
  sameActions : a.actions = b.actions
  alike : alikeItems a.args b.args = true
  effects : (template.preconditions, template.postconditions, template.verification) =
    effectsFor template.workflow

theorem induced_of_induce {alnum : Char → Bool} {a b : ObservedTask}
    {template : ExperienceTemplate} (h : induce alnum a b = .ok template) :
    Induced alnum a b template := by
  unfold induce at h
  split_ifs at h with hfailedA hfailedB hempty hcount
  obtain ⟨⟨⟩, hacts, h⟩ := bind_eq_ok_iff.mp h
  obtain ⟨⟨workflow, ind⟩, hsteps, h⟩ := bind_eq_ok_iff.mp h
  obtain ⟨hworkflow, hparams, heffects⟩ :
      template.workflow = workflow ∧ template.parameters = ind.parameters ∧
        (template.preconditions, template.postconditions, template.verification) =
          effectsFor workflow := by
    simp only [inducedTemplate] at h
    split_ifs at h with hsome hmany hverifiable
    obtain ⟨commandPattern, -, h⟩ := bind_eq_ok_iff.mp h
    split_ifs at h with hvalid
    cases h
    exact ⟨rfl, rfl, rfl⟩
  obtain ⟨hwalked, halike, hkept⟩ :=
    walked_parameterizeSteps logged_nil (not_not.mp hcount) hsteps
  constructor
  · exact ⟨ind, hwalked.logged⟩
  · rw [hparams]
    exact hwalked.logged.parameters
  · rw [hworkflow]
    exact hwalked.holes _ List.prefix_rfl
  · rw [hworkflow]
    exact hkept
  · exact actions_eq_of_checkActions (not_not.mp hcount) hacts
  · exact halike
  · rw [hworkflow]
    exact heffects

end ExperienceCodex
