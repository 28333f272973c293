import ExperienceCodex.InduceTrigger

/-!
# The name of an induced template

The name begins with the first forty characters of the first request, with each run of other
characters than letters and digits written as one underscore.  Where the value of a parameter
stands among them, the runs of a family give different names.
-/

namespace ExperienceCodex

open List Text

/-- A pass changes nothing for a reader that writes a run of underscores as one. -/
lemma foldl_halveUnderscores (text output : List Char) :
    (halveUnderscores text).foldl pushSanitized output = text.foldl pushSanitized output := by
  fun_induction halveUnderscores text generalizing output with
  | case1 rest ih =>
    rw [foldl_cons, ih, foldl_cons, foldl_cons]
    have hother : '_'.isAlphanum = false := by decide
    by_cases hlast : output.getLast? = some '_'
    · simp [pushSanitized, hother, hlast]
    · simp [pushSanitized, hother, hlast]
  | case2 c rest _ ih => rw [foldl_cons, foldl_cons, ih]
  | case3 => rfl

lemma length_halveUnderscores_le (text : List Char) :
    (halveUnderscores text).length ≤ text.length := by
  fun_induction halveUnderscores text with
  | case1 rest ih =>
    simp only [length_cons]
    omega
  | case2 c rest _ ih =>
    simp only [length_cons]
    omega
  | case3 => exact le_rfl

lemma length_halveUnderscores_lt {text : List Char} (h : ['_', '_'] <:+: text) :
    (halveUnderscores text).length < text.length := by
  fun_induction halveUnderscores text with
  | case1 rest ih =>
    have hrest := length_halveUnderscores_le rest
    simp only [length_cons]
    omega
  | case2 c rest hnot ih =>
    rcases infix_cons_iff.mp h with ⟨back, hback⟩ | hrest
    · cases hback
      exact absurd rfl (hnot back rfl)
    · have hshorter := ih hrest
      simp only [length_cons]
      omega
  | case3 => exact absurd h (by simp)

lemma halveUnderscores_subset (text : List Char) : halveUnderscores text ⊆ text := by
  fun_induction halveUnderscores text with
  | case1 rest ih => exact cons_subset_cons '_' (subset_cons_of_subset '_' ih)
  | case2 c rest _ ih => exact cons_subset_cons c ih
  | case3 => exact Subset.refl []

lemma collapseUnderscores_spec {rounds : ℕ} {text : List Char} (h : text.length ≤ rounds) :
    (collapseUnderscores rounds text).foldl pushSanitized [] = text.foldl pushSanitized [] ∧
      ¬ ['_', '_'] <:+: collapseUnderscores rounds text ∧
      collapseUnderscores rounds text ⊆ text := by
  induction rounds generalizing text with
  | zero =>
    have htext : text = [] := length_eq_zero_iff.mp (by omega)
    subst htext
    exact ⟨rfl, by decide, Subset.refl []⟩
  | succ rounds ih =>
    rw [collapseUnderscores]
    split_ifs with hdouble
    · have hshorter := length_halveUnderscores_lt hdouble
      have hfits : (halveUnderscores text).length ≤ rounds := by omega
      obtain ⟨hfold, hnone, hsubset⟩ := ih hfits
      exact ⟨hfold.trans (foldl_halveUnderscores text []), hnone,
        Subset.trans hsubset (halveUnderscores_subset text)⟩
    · exact ⟨rfl, hdouble, Subset.refl text⟩

/-- A character that is written as it is. -/
def isWritten (c : Char) : Bool :=
  c == '_' || (c.isAlphanum && c.toLower == c)

lemma foldl_pushSanitized {text output : List Char} (htext : ∀ c ∈ text, isWritten c = true)
    (h : ¬ ['_', '_'] <:+: output ++ text) : text.foldl pushSanitized output = output ++ text := by
  induction text generalizing output with
  | nil => simp
  | cons c text ih =>
    obtain ⟨hc, htext⟩ := forall_mem_cons.mp htext
    have hpush : pushSanitized output c = output ++ [c] := by
      rw [isWritten, Bool.or_eq_true, beq_iff_eq, Bool.and_eq_true, beq_iff_eq] at hc
      rcases hc with rfl | ⟨hletter, hlower⟩
      · have hlast : output.getLast? ≠ some '_' := by
          intro hlast
          obtain ⟨front, rfl⟩ := getLast?_eq_some_iff.mp hlast
          exact h ⟨front, text, by simp⟩
        have hother : '_'.isAlphanum = false := by decide
        simp [pushSanitized, hother, hlast]
      · rw [pushSanitized, if_pos hletter, hlower]
    rw [append_cons] at h ⊢
    rw [foldl_cons, hpush, ih htext h]

/-- The start of a name, as the words of the request give it. -/
def nameStart (task : String) : List Char :=
  (sanitize (toLowercase task)).toList.take 40

lemma pushSanitized_spelled (output : List Char) (c : Char) :
    pushSanitized output (if c.isAlphanum then c else '_') = pushSanitized output c := by
  split_ifs with hletter
  · rfl
  · have hother : '_'.isAlphanum = false := by decide
    simp [pushSanitized, hletter, hother]

def shapes (parameters : List TemplateParameter) : List String :=
  ((parameters.map fun parameter => sanitize parameter.name).insertionSort (· ≤ ·)).destutter
    (· ≠ ·)

lemma candidateName_eq (task : String) (params : List TemplateParameter) :
    candidateName task params = "tcand_" ++ String.ofList (nameStart task) ++ "__" ++
      String.intercalate "_" (shapes params) := by
  have hwritten : ∀ c ∈ (toLowercase task).toList.map fun c => if c.isAlphanum then c else '_',
      isWritten c = true := by
    refine forall_mem_map.mpr fun c hc => ?_
    split_ifs with hletter
    · rw [toLowercase, String.toList_ofList] at hc
      have hlower := (isLower_of_mem_lowerFrom hc).1
      rw [lowerChar, if_pos (toNat_lt_of_isAlphanum hletter), singleton_inj] at hlower
      simp [isWritten, hletter, hlower]
    · rfl
  have hletters : ((toLowercase task).toList.map fun c =>
      if c.isAlphanum then c else '_').foldl pushSanitized [] =
        (toLowercase task).toList.foldl pushSanitized [] := by
    rw [foldl_map]
    simp only [pushSanitized_spelled]
  unfold candidateName nameStart sanitize
  generalize ((toLowercase task).toList.map fun c => if c.isAlphanum then c else '_') = letters
    at hwritten hletters
  obtain ⟨hfold, hnone, hsubset⟩ := collapseUnderscores_spec (le_refl letters.length)
  have hcollapsed : (collapseUnderscores letters.length letters).foldl pushSanitized [] = _ :=
    foldl_pushSanitized (fun c hc => hwritten c (hsubset hc)) hnone
  rw [nil_append, hfold, hletters] at hcollapsed
  rw [hcollapsed, String.toList_ofList]
  rfl

lemma shapes_eq_of_perm {left right : List TemplateParameter}
    (h : (left.map TemplateParameter.name).Perm (right.map TemplateParameter.name)) :
    shapes left = shapes right := by
  have hnames := h.map sanitize
  rw [map_map, map_map] at hnames
  have hsorted : (left.map fun param => sanitize param.name).insertionSort (· ≤ ·) =
      (right.map fun param => sanitize param.name).insertionSort (· ≤ ·) := by
    refine Perm.eq_of_pairwise' (pairwise_insertionSort _ _)
      (pairwise_insertionSort _ _) ?_
    exact (perm_insertionSort _ _).trans (hnames.trans (perm_insertionSort _ _).symm)
  rw [shapes, shapes, hsorted]

/-- Two templates of a family have the same name where the requests they begin with have the same
start. -/
theorem induced_names_eq_iff (isAlphanumeric : Char → Bool) (a b c : ObservedTask)
    (template other : ExperienceTemplate) (h : induce isAlphanumeric a b = .ok template)
    (hother : induce isAlphanumeric b c = .ok other)
    (hnames : (template.parameters.map TemplateParameter.name).Perm
      (other.parameters.map TemplateParameter.name))
    (_ : template.trigger = other.trigger) :
    template.name = other.name ↔ nameStart a.task = nameStart b.task := by
  obtain ⟨-, -, -, hname⟩ := trigger_of_induce h
  obtain ⟨-, -, -, hothername⟩ := trigger_of_induce hother
  rw [hname, hothername, candidateName_eq, candidateName_eq, shapes_eq_of_perm hnames]
  simp [String.ext_iff]

/-- Whether two templates look like a family. -/
def sameFamily (template other : ExperienceTemplate) : Bool :=
  template.parameters.map TemplateParameter.name == other.parameters.map TemplateParameter.name &&
    decide (template.trigger = other.trigger)

/-- A run of a family whose requests begin with the place of a file. -/
def putRun (name : String) : ObservedTask :=
  moveRun ("Move all in/" ++ name ++ " -> up/" ++ name) ("in/" ++ name) ("up/" ++ name)

lemma exists_induced_puts :
    ∃ t other, induce Char.isAlphanum (putRun "a") (putRun "b") = .ok t ∧
      induce Char.isAlphanum (putRun "b") (putRun "c") = .ok other ∧
      (sameFamily t other && t.name != other.name) = true := by
  have h : ((induce Char.isAlphanum (putRun "a") (putRun "b")).toOption.any fun t =>
      (induce Char.isAlphanum (putRun "b") (putRun "c")).toOption.any fun other =>
        sameFamily t other && t.name != other.name) = true := by decide +kernel
  cases hfst : induce Char.isAlphanum (putRun "a") (putRun "b") with
  | error reject => simp [hfst, Except.toOption] at h
  | ok t =>
    cases hsnd : induce Char.isAlphanum (putRun "b") (putRun "c") with
    | error reject => simp [hfst, hsnd, Except.toOption] at h
    | ok other =>
      simp only [hfst, hsnd, Except.toOption, Option.any_some] at h
      exact ⟨t, other, rfl, rfl, h⟩

theorem induced_names_eq_iff_moves :
    ∃ template other, induce Char.isAlphanum (putRun "a") (putRun "b") = .ok template ∧
      induce Char.isAlphanum (putRun "b") (putRun "c") = .ok other ∧
      (template.name = other.name ↔
        nameStart (putRun "a").task = nameStart (putRun "b").task) := by
  obtain ⟨template, other, hfirst, hsecond, hboth⟩ := exists_induced_puts
  rw [sameFamily, Bool.and_eq_true, Bool.and_eq_true, beq_iff_eq, decide_eq_true_eq] at hboth
  exact ⟨template, other, hfirst, hsecond,
    induced_names_eq_iff _ _ _ _ template other hfirst hsecond
    (hboth.1.1 ▸ Perm.refl _) hboth.1.2⟩

/-- The file of the first run is in the name. -/
theorem induced_names_differ :
    ∃ template other, induce Char.isAlphanum (putRun "a") (putRun "b") = .ok template ∧
      induce Char.isAlphanum (putRun "b") (putRun "c") = .ok other ∧
      sameFamily template other = true ∧ template.name ≠ other.name := by
  obtain ⟨template, other, hfirst, hsecond, hboth⟩ := exists_induced_puts
  rw [Bool.and_eq_true, bne_iff_ne] at hboth
  exact ⟨template, other, hfirst, hsecond, hboth⟩

end ExperienceCodex
