import ExperienceCodex.ShellQuotes

/-!
# Operands of a translated command

A translated segment should say all that the segment says: each operand should occur in the step,
and no operator should be lost.  A program that runs gets all its operands, and so does `echo`.  The
other programs pick the operands they look for and leave the rest out without notice, and an
operator within a segment is read as a part of a word.
-/

namespace ExperienceCodex.ShellTranslate

open List ApplyPatch

/-- The words of a text; a quote that is left open ends with the text. -/
def wordsFrom : List Line → Line → Option Char → Line → List Line
  | words, current, _, [] => endToken words current
  | words, current, some active, c :: rest =>
    if c = active then wordsFrom words current none rest
    else wordsFrom words (current ++ [c]) (some active) rest
  | words, current, none, c :: rest =>
    if c = '"' ∨ c = '\'' then wordsFrom words current (some c) rest
    else if Text.isWhitespace c then wordsFrom (endToken words current) [] none rest
    else wordsFrom words (current ++ [c]) none rest

def words (text : Line) : List Line :=
  wordsFrom [] [] none text

/-- The words that are no flags. -/
def noFlags (tokens : List Line) : List Line :=
  tokens.filter fun token => !startsWithDash token

/-- The operands of a segment: its words but for the program and the flags. -/
def operands (segment : Line) : List Line :=
  match splitRedirect segment with
  | some (left, right) => noFlags (words left).tail ++ noFlags (words right)
  | none => noFlags (words segment).tail

/-- What may follow the sign of an expansion. -/
def startsExpansion (c : Char) : Bool :=
  c.isAlphanum || "_\x7b@#?-$!".toList.contains c

/-- Outside of quotes there is an ampersand, an appending redirection, the end of a line, or the
expansion of a variable. -/
def hasOperatorFrom : Option Char → Line → Bool
  | _, [] => false
  | quote, c :: rest =>
    quote.isNone &&
        (c == '&' || c == '\n' || c == '>' && rest.head? == some '>' ||
          c == '$' && rest.head?.any startsExpansion) ||
      hasOperatorFrom (quoteStep quote c) rest

def hasOperator (segment : Line) : Bool :=
  hasOperatorFrom none segment

/-- A run of whole words of a text. -/
def IsRun (operand text : Line) : Prop :=
  ∃ front back : List Line, text = [' '].intercalate (front ++ operand :: back)

/-- The texts of an argument: its own, or those of its items. -/
def argumentTexts : Json → List Line
  | .string text => [text.toList]
  | .array items => (items.filterMap Json.asStr).map String.toList
  | _ => []

/-- The operand is an argument of the step, or stands in the content that it writes. -/
def Occurs (operand : Line) (step : ObservedStep) : Prop :=
  (∃ key argument, step.args.get key = some argument ∧ operand ∈ argumentTexts argument) ∨
    ∃ content, step.args.get "content" = some (.string content) ∧ IsRun operand content.toList

/-- A step that says all of a segment. -/
def SaysAll (segment : Line) (step : ObservedStep) : Prop :=
  (∀ operand ∈ operands segment, Occurs operand step) ∧ hasOperator segment = false

/-- The text of a target without the quotes around it. -/
def bareTarget (right : Line) : Line :=
  trimMatches '\'' (trimMatches '"' (trim right))

/-- The operands are the ones that the program looks for. -/
def LooksForAll (program : Line) (rest : List Line) : Prop :=
  let isOne (names : List String) : Bool := names.any fun name => name.toList == program
  let all (wanted : Line → Prop) : Prop := ∀ operand ∈ noFlags rest, wanted operand
  if isOne ["git", "python", "python3", "py", "node", "cargo", "go", "npm", "npx"] then True
  else if isOne ["mv", "move"] then all (· ∈ (noFlags rest).take 2)
  else if isOne ["move-item"] then
    all fun operand =>
      flagValue rest pathFlags = .ok operand ∨ flagValue rest ["-destination"] = .ok operand
  else if isOne ["cp", "copy"] then all (· ∈ (noFlags rest).take 2)
  else if isOne ["copy-item"] then
    all fun operand =>
      flagValue rest pathFlags = .ok operand ∨ flagValue rest ["-destination"] = .ok operand
  else if isOne ["mkdir", "md"] then all (some · = (noFlags rest).getLast?)
  else if isOne ["new-item"] then all (flagValue rest pathFlags = .ok ·)
  else if isOne ["rm", "del", "erase"] then all (some · = (noFlags rest).getLast?)
  else if isOne ["remove-item"] then all (flagValue rest pathFlags = .ok ·)
  else if isOne ["set-content"] then
    all fun operand => flagValue rest pathFlags = .ok operand ∨
      ∃ value, flagValue rest ["-value"] = .ok value ∧ IsRun operand value
  else True

/-- Behind a redirection there is nothing but its target, or what is written anyway. -/
def Covered (segment : Line) : Prop :=
  match splitRedirect segment with
  | some (left, right) =>
    ∀ operand ∈ noFlags (words right),
      operand = bareTarget right ∨ IsRun operand ([' '].intercalate (words left).tail)
  | none =>
    match words segment with
    | [] => True
    | first :: rest => LooksForAll (lowercase first) rest

variable {tokens : List Line}

lemma wordsFrom_of_ok {result : List Line} {cur text : Line} {quote : Option Char}
    (h : tokenizeFrom tokens cur quote text = .ok result) :
    wordsFrom tokens cur quote text = result := by
  induction text generalizing tokens cur quote with
  | nil =>
    cases quote with
    | none =>
      cases h
      rfl
    | some active => cases h
  | cons c rest ih =>
    cases quote with
    | none =>
      rw [tokenizeFrom] at h
      rw [wordsFrom]
      split_ifs at h ⊢
      · exact ih h
      · exact ih h
      · exact ih h
    | some active =>
      rw [tokenizeFrom] at h
      rw [wordsFrom]
      split_ifs at h ⊢
      · exact ih h
      · exact ih h

lemma words_of_ok {text : Line} (h : tokenize text = .ok tokens) :
    words text = tokens :=
  wordsFrom_of_ok h

lemma ne_nil_of_mem_endToken {cur token : Line}
    (htokens : ∀ token ∈ tokens, token ≠ []) (h : token ∈ endToken tokens cur) :
    token ≠ [] := by
  rw [endToken] at h
  split at h
  · exact htokens token h
  · next hcur =>
    rcases mem_append.mp h with hmem | hmem
    · exact htokens token hmem
    · rw [mem_singleton.mp hmem]
      exact fun hnil => hcur (isEmpty_iff.mpr hnil)

lemma ne_nil_of_mem_wordsFrom {cur text token : Line} {quote : Option Char}
    (htokens : ∀ token ∈ tokens, token ≠ []) (h : token ∈ wordsFrom tokens cur quote text) :
    token ≠ [] := by
  induction text generalizing tokens cur quote with
  | nil => exact ne_nil_of_mem_endToken htokens h
  | cons c rest ih =>
    cases quote with
    | none =>
      rw [wordsFrom] at h
      split_ifs at h
      · exact ih htokens h
      · exact ih (fun _ hmem => ne_nil_of_mem_endToken htokens hmem) h
      · exact ih htokens h
    | some active =>
      rw [wordsFrom] at h
      split_ifs at h
      · exact ih htokens h
      · exact ih htokens h

/-- No word is empty. -/
lemma ne_nil_of_mem_words {text token : Line} (h : token ∈ words text) : token ≠ [] :=
  ne_nil_of_mem_wordsFrom (forall_mem_nil _) h

lemma isRun_self (text : Line) : IsRun text text :=
  ⟨[], [], (intercalate_singleton ..).symm⟩

lemma occurs_execStep {x program : Line} {args : List Line} (h : x ∈ args) :
    Occurs x (execStep program args) := by
  refine .inl ⟨"args", _, rfl, ?_⟩
  simp only [argumentTexts, filterMap_map, mem_map, mem_filterMap]
  exact ⟨String.ofList x, ⟨x, h, rfl⟩, String.toList_ofList⟩

lemma occurs_pathStep {x path : Line} {action : String} :
    Occurs x (pathStep action path) ↔ x = path := by
  constructor
  · rintro (⟨key, argument, hget, hmem⟩ | ⟨v, hget, -⟩)
    · simp only [pathStep, Json.get, List.lookup] at hget
      split at hget
      · cases hget
        simpa [argumentTexts] using hmem
      · cases hget
    · cases hget
  · rintro rfl
    refine .inl ⟨"path", _, rfl, ?_⟩
    simp [argumentTexts]

lemma occurs_transferFile {x src target : Line} {action : String} :
    Occurs x (transferFile action src target) ↔ x = src ∨ x = target := by
  constructor
  · rintro (⟨key, argument, hget, hmem⟩ | ⟨v, hget, -⟩)
    · simp only [transferFile, Json.get, List.lookup] at hget
      split at hget
      · cases hget
        left
        simpa [argumentTexts] using hmem
      · split at hget
        · cases hget
          right
          simpa [argumentTexts] using hmem
        · cases hget
    · cases hget
  · rintro (rfl | rfl)
    · refine .inl ⟨"source", _, rfl, ?_⟩
      simp [argumentTexts]
    · refine .inl ⟨"target", _, rfl, ?_⟩
      simp [argumentTexts]

lemma occurs_writeFile {x path content : Line} :
    Occurs x (writeFile path content) ↔ x = path ∨ IsRun x content := by
  constructor
  · rintro (⟨key, argument, hget, hmem⟩ | ⟨text, hget, hrun⟩)
    · simp only [writeFile, Json.get, List.lookup] at hget
      split at hget
      · cases hget
        have hcont : x = content := by simpa [argumentTexts] using hmem
        rw [hcont]
        exact .inr (isRun_self content)
      · split at hget
        · cases hget
          left
          simpa [argumentTexts] using hmem
        · cases hget
    · cases hget
      rw [String.toList_ofList] at hrun
      exact .inr hrun
  · rintro (rfl | hrun)
    · refine .inl ⟨"path", _, rfl, ?_⟩
      simp [argumentTexts]
    · refine .inr ⟨_, rfl, ?_⟩
      rwa [String.toList_ofList]

/-- An operand is not found in a content that is missing. -/
lemma not_isRun_nil {x : Line} (h : x ≠ []) : ¬ IsRun x [] := by
  rintro ⟨front, back, hnil⟩
  have hpart : x <:+: [' '].intercalate (front ++ x :: back) :=
    Lines.part_of_intercalate (mem_append_right front mem_cons_self)
  rw [← hnil, infix_nil] at hpart
  exact h hpart

section
variable {rest : List Line} {step : ObservedStep} {action : String}

lemma occurs_of_twoPaths
    (h : (do let (src, tgt) ← twoPaths rest
             return transferFile action src tgt) = .ok step) :
    (∀ x ∈ noFlags rest, Occurs x step) ↔
      ∀ x ∈ noFlags rest, x ∈ (noFlags rest).take 2 := by
  obtain ⟨paths, hpaths, hstep⟩ := bind_eq_ok_iff.mp h
  cases hstep
  rw [twoPaths] at hpaths
  split at hpaths
  · next src tgt more heq =>
    cases hpaths
    rw [noFlags, heq]
    refine forall₂_congr fun x _ => ?_
    simp [occurs_transferFile]
  · cases hpaths

lemma occurs_of_flagValues
    (h : (do let src ← flagValue rest pathFlags
             let tgt ← flagValue rest ["-destination"]
             return transferFile action src tgt) = .ok step) :
    (∀ operand ∈ noFlags rest, Occurs operand step) ↔
      ∀ operand ∈ noFlags rest, flagValue rest pathFlags = .ok operand ∨
        flagValue rest ["-destination"] = .ok operand := by
  obtain ⟨src, hsrc, h⟩ := bind_eq_ok_iff.mp h
  obtain ⟨tgt, htgt, hstep⟩ := bind_eq_ok_iff.mp h
  cases hstep
  rw [hsrc, htgt]
  refine forall₂_congr fun operand _ => ?_
  simp [occurs_transferFile, eq_comm]

lemma occurs_of_lastPath {reason : String}
    (h : (do let path ← lastPath rest reason
             return pathStep action path) = .ok step) :
    (∀ x ∈ noFlags rest, Occurs x step) ↔
      ∀ x ∈ noFlags rest, some x = (noFlags rest).getLast? := by
  obtain ⟨path, hpath, hstep⟩ := bind_eq_ok_iff.mp h
  cases hstep
  rw [lastPath] at hpath
  split at hpath
  · next last heq =>
    cases hpath
    rw [noFlags, ← head?_reverse, ← filter_reverse, head?_filter, heq]
    refine forall₂_congr fun x _ => ?_
    simp [occurs_pathStep]
  · cases hpath

lemma occurs_of_flagPath
    (h : (do let path ← flagValue rest pathFlags
             return pathStep action path) = .ok step) :
    (∀ operand ∈ noFlags rest, Occurs operand step) ↔
      ∀ operand ∈ noFlags rest, flagValue rest pathFlags = .ok operand := by
  obtain ⟨path, hpath, hstep⟩ := bind_eq_ok_iff.mp h
  cases hstep
  rw [hpath]
  refine forall₂_congr fun operand _ => ?_
  simp [occurs_pathStep, eq_comm]

end

/-- A program says all of its operands if and only if it looks for them all. -/
lemma occurs_translateCommand {seg program : Line} {rest : List Line} {step : ObservedStep}
    (hne : ∀ x ∈ noFlags rest, x ≠ [])
    (h : translateCommand seg program rest = .ok step) :
    (∀ x ∈ noFlags rest, Occurs x step) ↔ LooksForAll program rest := by
  rw [translateCommand] at h
  rw [LooksForAll]
  dsimp only at h ⊢
  by_cases hruns : (["git", "python", "python3", "py", "node", "cargo", "go", "npm", "npx"].any
      fun name => name.toList == program) = true
  · rw [if_pos hruns] at h ⊢
    cases h
    refine iff_of_true (fun x hmem => ?_) trivial
    exact occurs_execStep (mem_of_mem_filter hmem)
  rw [if_neg hruns] at h ⊢
  by_cases hmoves : (["mv", "move"].any fun name => name.toList == program) = true
  · rw [if_pos hmoves] at h ⊢
    exact occurs_of_twoPaths h
  rw [if_neg hmoves] at h ⊢
  by_cases hmovesItem : (["move-item"].any fun name => name.toList == program) = true
  · rw [if_pos hmovesItem] at h ⊢
    exact occurs_of_flagValues h
  rw [if_neg hmovesItem] at h ⊢
  by_cases hcopies : (["cp", "copy"].any fun name => name.toList == program) = true
  · rw [if_pos hcopies] at h ⊢
    exact occurs_of_twoPaths h
  rw [if_neg hcopies] at h ⊢
  by_cases hcopiesItem : (["copy-item"].any fun name => name.toList == program) = true
  · rw [if_pos hcopiesItem] at h ⊢
    exact occurs_of_flagValues h
  rw [if_neg hcopiesItem] at h ⊢
  by_cases hmakes : (["mkdir", "md"].any fun name => name.toList == program) = true
  · rw [if_pos hmakes] at h ⊢
    exact occurs_of_lastPath h
  rw [if_neg hmakes] at h ⊢
  by_cases hmakesItem : (["new-item"].any fun name => name.toList == program) = true
  · rw [if_pos hmakesItem] at h ⊢
    split at h
    · cases h
    · exact occurs_of_flagPath h
  rw [if_neg hmakesItem] at h ⊢
  by_cases hremoves : (["rm", "del", "erase"].any fun name => name.toList == program) = true
  · rw [if_pos hremoves] at h ⊢
    exact occurs_of_lastPath h
  rw [if_neg hremoves] at h ⊢
  by_cases hremovesItem : (["remove-item"].any fun name => name.toList == program) = true
  · rw [if_pos hremovesItem] at h ⊢
    exact occurs_of_flagPath h
  rw [if_neg hremovesItem] at h ⊢
  by_cases hwrites : (["set-content"].any fun name => name.toList == program) = true
  · rw [if_pos hwrites] at h ⊢
    obtain ⟨path, hpath, hstep⟩ := bind_eq_ok_iff.mp h
    cases hstep
    rw [hpath]
    refine forall₂_congr fun x hmem => ?_
    rw [occurs_writeFile]
    refine or_congr ?_ ?_
    · simp [eq_comm]
    · cases hval : flagValue rest ["-value"] with
      | ok value => simp [Except.toOption]
      | error reason =>
        refine iff_of_false (not_isRun_nil (hne x hmem)) ?_
        rintro ⟨value, hval, -⟩
        cases hval
  · rw [if_neg hwrites] at h
    cases h

/-- A step says all operands of its segment if and only if the segment is covered. -/
lemma occurs_translateSegment {segment : Line} {step : ObservedStep}
    (h : translateSegment segment = .ok step) :
    (∀ x ∈ operands segment, Occurs x step) ↔ Covered segment := by
  rw [translateSegment] at h
  rw [operands, Covered]
  cases hredir : splitRedirect segment with
  | some parts =>
    rw [hredir] at h
    obtain ⟨left, right⟩ := parts
    dsimp only at h ⊢
    rw [translateRedirect] at h
    obtain ⟨tokens, htokens, h⟩ := bind_eq_ok_iff.mp h
    dsimp only at h
    rw [words_of_ok htokens]
    split at h
    · cases h
    · split at h
      · cases h
        simp only [forall_mem_append, occurs_writeFile]
        refine and_iff_right fun x hmem => ?_
        obtain ⟨front, back, heq⟩ := append_of_mem (mem_of_mem_filter hmem)
        exact .inr ⟨front, back, by rw [heq]⟩
      · cases h
  | none =>
    rw [hredir] at h
    obtain ⟨tokens, htokens, h⟩ := bind_eq_ok_iff.mp h
    have hwords := words_of_ok htokens
    cases tokens with
    | nil => cases h
    | cons first rest =>
      have hne : ∀ x ∈ noFlags rest, x ≠ [] := by
        intro x hmem
        apply ne_nil_of_mem_words
        rw [hwords]
        exact mem_cons_of_mem first (mem_of_mem_filter hmem)
      dsimp only
      rw [hwords]
      exact occurs_translateCommand hne h

/-- The segments that are not blank. -/
def spoken (pieces : List Line) : List Line :=
  (pieces.map trim).filter fun segment => !segment.isEmpty

/-- One step for each segment that is not blank. -/
lemma forall₂_translateSegments {pieces : List Line} {steps : List ObservedStep}
    (h : translateSegments pieces = .ok steps) :
    List.Forall₂ (fun seg step => translateSegment seg = .ok step) (spoken pieces) steps := by
  induction pieces generalizing steps with
  | nil =>
    cases h
    exact .nil
  | cons piece pieces ih =>
    rw [translateSegments] at h
    rw [spoken, map_cons, filter_cons]
    by_cases hempty : (trim piece).isEmpty = true
    · rw [if_pos hempty] at h
      rw [hempty]
      exact ih h
    · rw [if_neg hempty] at h
      rw [Bool.eq_false_iff.mpr hempty]
      split at h
      · cases h
      · obtain ⟨step, hstep, h⟩ := bind_eq_ok_iff.mp h
        obtain ⟨more, hmore, h⟩ := bind_eq_ok_iff.mp h
        cases h
        exact .cons hstep (ih hmore)

end ExperienceCodex.ShellTranslate
