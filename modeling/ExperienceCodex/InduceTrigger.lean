import ExperienceCodex.InduceVerified
import ExperienceCodex.Lowercase

/-!
# The trigger of an induced template

The pattern of the trigger is cut out of the two lowercase requests.  It is searched for in the
lowercase JSON text of the proposal, where quotes, backslashes and control characters are escaped.
A pattern without such a character is found in both proposals, unless the escape of a control
character before it changes the form of its first sigma; a pattern with a control character is found
in none.
-/

namespace ExperienceCodex

open List hiding contains
open Text

variable {text : List Char}

/-- A character that a JSON text shows as it is. -/
def isShown (c : Char) : Bool :=
  Json.escapeChar c == [c]

/-- Neither a letter nor a character that letters are looked for behind. -/
def isBarrier (c : Char) : Bool :=
  !inRanges caseIgnorableRanges c && !inRanges casedRanges c

lemma inRanges_of_isWhitespace {c : Char} (h : isWhitespace c = true) :
    inRanges unletteredRanges c = true := by
  simp only [isWhitespace, unletteredRanges, inRanges, any_cons, any_nil, Bool.or_eq_true,
    Bool.and_eq_true, decide_eq_true_eq, Bool.false_eq_true, or_false] at h ⊢
  omega

lemma inRanges_of_control {c : Char} (h : c.toNat < 32) : inRanges unletteredRanges c = true := by
  simp only [unletteredRanges, inRanges, any_cons, Bool.or_eq_true, Bool.and_eq_true,
    decide_eq_true_eq]
  omega

lemma mem_codes_of_inRanges {ranges : List (ℕ × ℕ)} {c : Char} (h : inRanges ranges c = true) :
    c.toNat ∈ ranges.flatMap fun range => List.range' range.1 (range.2 + 1 - range.1) := by
  obtain ⟨range, hrange, hin⟩ := any_eq_true.mp h
  simp only [Bool.and_eq_true, decide_eq_true_eq] at hin
  exact mem_flatMap.mpr ⟨range, hrange, mem_range'_1.mpr (by omega)⟩

lemma lowerChar_of_unlettered {c : Char} (h : inRanges unletteredRanges c = true) :
    lowerChar c = [c] ∧ c ≠ 'Σ' ∧ isBarrier c = true := by
  have hcodes : ∀ n ∈ unletteredRanges.flatMap fun range =>
      List.range' range.1 (range.2 + 1 - range.1), lowerChar (Char.ofNat n) = [Char.ofNat n] ∧
        Char.ofNat n ≠ 'Σ' ∧ isBarrier (Char.ofNat n) = true := by
    decide +kernel
  have hc := hcodes c.toNat (mem_codes_of_inRanges h)
  rwa [Char.ofNat_toNat] at hc

lemma lowerChar_of_isWhitespace {c : Char} (h : isWhitespace c = true) :
    lowerChar c = [c] ∧ c ≠ 'Σ' ∧ isBarrier c = true :=
  lowerChar_of_unlettered (inRanges_of_isWhitespace h)

lemma escapeChar_of_not_shown {c : Char} (h : isShown c = false) :
    (∃ rest, Json.escapeChar c = '\\' :: rest) ∧ lowerChar c = [c] ∧ c ≠ 'Σ' ∧
      isBarrier c = true := by
  have hcases : (∃ rest, Json.escapeChar c = '\\' :: rest) ∧
      (c = '"' ∨ c = '\\' ∨ c.toNat < 32) := by
    rw [isShown, beq_eq_false_iff_ne] at h
    unfold Json.escapeChar at h ⊢
    split_ifs at h ⊢ with hquote hbackslash
    · exact ⟨⟨_, rfl⟩, .inl hquote⟩
    · exact ⟨⟨_, rfl⟩, .inr (.inl hbackslash)⟩
    all_goals first
      | exact absurd rfl h
      | exact ⟨⟨_, rfl⟩, .inr (.inr (by omega))⟩
  refine ⟨hcases.1, lowerChar_of_unlettered ?_⟩
  rcases hcases.2 with rfl | rfl | hcontrol
  · rfl
  · rfl
  · exact inRanges_of_control hcontrol

lemma caseIgnorableThenCased_of_not_shown
    (h : ∀ c ∈ text.head?, isShown c = false) : caseIgnorableThenCased text = false := by
  cases text with
  | nil => rfl
  | cons c text =>
    have hbarrier := (escapeChar_of_not_shown (h c rfl)).2.2.2
    rw [isBarrier, Bool.and_eq_true, Bool.not_eq_true', Bool.not_eq_true'] at hbarrier
    rw [caseIgnorableThenCased, dropWhile_cons_of_neg (by simp [hbarrier.1])]
    exact hbarrier.2

lemma caseIgnorableThenCased_escaped
    (h : ∀ c ∈ text.head?, isShown c = false) (tail : List Char) :
    caseIgnorableThenCased (text.flatMap Json.escapeChar ++ '"' :: tail) = false := by
  cases text with
  | nil => exact caseIgnorableThenCased_of_not_shown fun c hc => by cases hc; rfl
  | cons c text =>
    obtain ⟨rest, hesc⟩ := (escapeChar_of_not_shown (h c rfl)).1
    rw [flatMap_cons, hesc, append_assoc, cons_append]
    exact caseIgnorableThenCased_of_not_shown fun c hc => by cases hc; rfl

lemma flatMap_escapeChar_of_shown (h : ∀ c ∈ text, isShown c = true) :
    text.flatMap Json.escapeChar = text := by
  induction text with
  | nil => rfl
  | cons c text ih =>
    obtain ⟨hc, htext⟩ := forall_mem_cons.mp h
    rw [flatMap_cons, beq_iff_eq.mp hc, ih htext, singleton_append]

lemma prefix_of_not_mem {common front back : List Char} {c : Char}
    (h : common <+: front ++ c :: back) (hc : c ∉ common) : common <+: front := by
  have hfront : front ++ [c] <+: front ++ c :: back := ⟨back, by simp⟩
  rcases prefix_or_prefix_of_prefix h hfront with hshort | hlong
  · rcases prefix_concat_iff.mp hshort with rfl | hshort
    · exact absurd (by simp) hc
    · exact hshort
  · exact absurd (hlong.subset (by simp)) hc

/-- Whitespace before a text stays as it is, and comes from nothing else. -/
lemma exists_of_append_prefix_lowerFrom {spaces pattern before : List Char}
    (hspaces : ∀ c ∈ spaces, isWhitespace c = true)
    (h : spaces ++ pattern <+: lowerFrom before text) :
    ∃ rest, text = spaces ++ rest ∧ pattern <+: lowerFrom (spaces.reverse ++ before) rest := by
  induction spaces generalizing text before with
  | nil => exact ⟨text, rfl, h⟩
  | cons space spaces ih =>
    obtain ⟨hspace, hspaces⟩ := forall_mem_cons.mp hspaces
    cases text with
    | nil => exact absurd h (by simp [lowerFrom])
    | cons c text =>
      have hc : c ≠ 'Σ' ∧ space ∈ lowerChar c := by
        rw [lowerFrom, cons_append] at h
        split_ifs at h with hsigma
        · obtain ⟨heq, -⟩ := cons_prefix_cons.mp h
          rw [heq, mapUppercaseSigma] at hspace
          split_ifs at hspace <;> exact absurd hspace (by decide)
        · refine ⟨hsigma, ?_⟩
          cases hlower : lowerChar c with
          | nil => exact absurd hlower (lowerChar_ne_nil c)
          | cons first others =>
            rw [hlower] at h
            rw [(cons_prefix_cons.mp h).1]
            exact mem_cons_self
      obtain rfl := eq_of_mem_lowerChar hc.2 (inRanges_of_isWhitespace hspace)
      rw [lowerFrom, if_neg hc.1, (lowerChar_of_isWhitespace hspace).1] at h
      obtain ⟨rest, rfl, hrest⟩ := ih hspaces (cons_prefix_cons.mp h).2
      exact ⟨rest, rfl, by simpa using hrest⟩

/-- No escape stands before a request that begins with a sigma: the letter of the escape would make
it a final one. -/
def SigmaSettled (request : List Char) : Prop :=
  (request.takeWhile isWhitespace).all isShown = true ∨
    ((request.dropWhile isWhitespace).dropWhile (inRanges caseIgnorableRanges)).head? ≠ some 'Σ'
deriving Decidable

section
variable {spaces rest : List Char}

/-- Behind the whitespace before it, a text is lowercased as behind the escapes of that. -/
lemma lowerWithin_escaped {before front after after' : List Char}
    (hspaces : ∀ c ∈ spaces, isWhitespace c = true)
    (hbefore : caseIgnorableThenCased before.reverse = false)
    (hafter : caseIgnorableThenCased after = caseIgnorableThenCased after')
    (h : (∀ c ∈ spaces, isShown c = true) ∨
      (front.dropWhile (inRanges caseIgnorableRanges)).head? ≠ some 'Σ') :
    lowerWithin spaces.reverse front after =
      lowerWithin (before ++ spaces.flatMap Json.escapeChar).reverse front after' := by
  rcases h with hshown | hsigma
  · apply lowerWithin_congr _ hafter
    rw [flatMap_escapeChar_of_shown hshown, reverse_append]
    cases hrev : spaces.reverse with
    | nil => exact hbefore.symm
    | cons c others =>
      have hc := hspaces c (mem_reverse.mp (by rw [hrev]; exact mem_cons_self))
      have hbarrier := (lowerChar_of_isWhitespace hc).2.2
      rw [isBarrier, Bool.and_eq_true, Bool.not_eq_true', Bool.not_eq_true'] at hbarrier
      rw [caseIgnorableThenCased, caseIgnorableThenCased, cons_append,
        dropWhile_cons_of_neg (by simp [hbarrier.1]), dropWhile_cons_of_neg (by simp [hbarrier.1])]
  · exact (lowerWithin_of_head_ne_sigma hsigma).trans (lowerWithin_congr rfl hafter front)

lemma SigmaSettled.behind (h : SigmaSettled (spaces ++ rest))
    (hspaces : ∀ c ∈ spaces, isWhitespace c = true) :
    (∀ c ∈ spaces, isShown c = true) ∨
      (rest.dropWhile (inRanges caseIgnorableRanges)).head? ≠ some 'Σ' := by
  rcases h with hshown | hsigma
  · refine .inl fun c hc => all_eq_true.mp hshown c ?_
    rw [takeWhile_append_of_pos hspaces]
    exact mem_append_left _ hc
  · right
    rw [dropWhile_append_of_pos hspaces] at hsigma
    cases rest with
    | nil => simp
    | cons c rest =>
      by_cases hc : isWhitespace c = true
      · obtain ⟨-, hne, hbarrier⟩ := lowerChar_of_isWhitespace hc
        rw [isBarrier, Bool.and_eq_true, Bool.not_eq_true', Bool.not_eq_true'] at hbarrier
        rw [dropWhile_cons_of_neg (by simp [hbarrier.1]), head?_cons]
        exact fun heq => hne (Option.some.inj heq)
      · rwa [dropWhile_cons_of_neg hc] at hsigma

lemma head?_dropWhile_append_ne {front back : List Char} {p : Char → Bool}
    (h : ((front ++ back).dropWhile p).head? ≠ some 'Σ') :
    (front.dropWhile p).head? ≠ some 'Σ' := by
  intro hsigma
  refine h ?_
  rw [dropWhile_append]
  cases hdrop : front.dropWhile p with
  | nil => simp [hdrop] at hsigma
  | cons c others =>
    rw [hdrop] at hsigma
    simpa using hsigma

/-- A start of a lowercase text that shows every character is found in every lowercase text that
quotes it. -/
lemma infix_lowerFrom_quoted {pattern before : List Char}
    (hspaces : ∀ c ∈ spaces, isWhitespace c = true)
    (hpattern : pattern <+: lowerFrom spaces.reverse rest)
    (hshown : ∀ c ∈ pattern, isShown c = true)
    (hsettled : SigmaSettled (spaces ++ rest))
    (hbefore : caseIgnorableThenCased before.reverse = false) (tail : List Char) :
    pattern <:+:
      lowerFrom [] (before ++ ((spaces ++ rest).flatMap Json.escapeChar ++ '"' :: tail)) := by
  -- The text is cut before its first escaped character, which the start cannot reach.
  obtain ⟨front, back, rfl, hfront, hback⟩ : ∃ front back, rest = front ++ back ∧
      (∀ c ∈ front, isShown c = true) ∧ ∀ c ∈ back.head?, isShown c = false := by
    refine ⟨rest.takeWhile isShown, rest.dropWhile isShown, by simp, ?_, ?_⟩
    · intro c hc
      exact mem_takeWhile_imp hc
    · intro c hc
      have hdropped := head?_dropWhile_not isShown rest
      rw [Option.mem_def.mp hc] at hdropped
      simpa using hdropped
  rw [lowerFrom_append] at hpattern
  have hstart : pattern <+: lowerWithin spaces.reverse front back := by
    cases back with
    | nil => simpa [lowerFrom] using hpattern
    | cons c back =>
      obtain ⟨-, hlower, hsigma, -⟩ := escapeChar_of_not_shown (hback c rfl)
      rw [lowerFrom, if_neg hsigma, hlower, singleton_append] at hpattern
      refine prefix_of_not_mem hpattern fun hc => ?_
      exact Bool.false_ne_true ((hback c rfl).symm.trans (hshown c hc))
  have hsame : lowerWithin spaces.reverse front back =
      lowerWithin (before ++ spaces.flatMap Json.escapeChar).reverse front
        (back.flatMap Json.escapeChar ++ '"' :: tail) :=
    lowerWithin_escaped hspaces hbefore ((caseIgnorableThenCased_of_not_shown hback).trans
      (caseIgnorableThenCased_escaped hback tail).symm)
      ((hsettled.behind hspaces).imp_right head?_dropWhile_append_ne)
  have htext : before ++ ((spaces ++ (front ++ back)).flatMap Json.escapeChar ++ '"' :: tail) =
      (before ++ spaces.flatMap Json.escapeChar) ++
        (front ++ (back.flatMap Json.escapeChar ++ '"' :: tail)) := by
    simp [flatMap_escapeChar_of_shown hfront]
  rw [htext, lowerFrom_append, lowerFrom_append, append_nil, ← hsame]
  exact hstart.isInfix.trans (infix_append' _ _ _)

end

/-- The proposal that the task gate makes of a request. -/
def gateProposal (task : String) : ActionProposal :=
  { tool := "task", args := .object [("task", .string task), ("text", .string task)] }

lemma argsText_gateProposal (floatText : F64 → String) (task : String) :
    ((gateProposal task).argsText floatText).toList =
      "\x7b\"task\":\"".toList ++ (task.toList.flatMap Json.escapeChar ++ '"' ::
        (",\"text\":\"".toList ++ (task.toList.flatMap Json.escapeChar ++ ['"', '\x7d']))) := by
  have hkey : Json.quote "task" = "\"task\"" := by decide
  have hkey' : Json.quote "text" = "\"text\"" := by decide
  simp only [gateProposal, ActionProposal.argsText, Json.text, Json.membersText, hkey, hkey']
  simp [Json.quote]

lemma toNat_of_mem_escapeChar {c d : Char} (h : d ∈ Json.escapeChar c) : 32 ≤ d.toNat := by
  by_cases hc : c.toNat < 32
  · have hall : (Json.escapeChar c).all (fun d => decide (32 ≤ d.toNat)) = true :=
      of_toNat_lt hc (by decide)
    exact of_decide_eq_true (all_eq_true.mp hall d h)
  · unfold Json.escapeChar at h
    split_ifs at h
    all_goals first
      | omega
      | rw [mem_singleton.mp h]; omega
      | rcases mem_pair.mp h with rfl | rfl <;> decide

/-- A proposal has no control characters. -/
lemma toNat_of_mem_argsText (floatText : F64 → String) {task : String} {c : Char}
    (h : c ∈ (toLowercase ((gateProposal task).argsText floatText)).toList) : 32 ≤ c.toNat := by
  by_contra hlt
  rw [toLowercase, String.toList_ofList] at h
  have hmem := mem_of_mem_lowerFrom h (inRanges_of_control (by omega))
  have hescaped : c ∉ task.toList.flatMap Json.escapeChar := fun hc => by
    obtain ⟨d, -, hc⟩ := mem_flatMap.mp hc
    exact hlt (toNat_of_mem_escapeChar hc)
  have hplain : ("\x7b\"task\":\"".toList ++ '"' :: (",\"text\":\"".toList ++ ['"', '\x7d'])).all
      (fun d => decide (32 ≤ d.toNat)) = true := by
    decide
  rw [argsText_gateProposal] at hmem
  refine hlt (of_decide_eq_true (all_eq_true.mp hplain c ?_))
  simp only [mem_append, mem_cons, hescaped, false_or] at hmem ⊢
  exact hmem

lemma matches_gateProposal (floatText : F64 → String) (task : String) {pattern : String}
    (h : ∀ c ∈ pattern.toList, IsLower c) :
    ActionPattern.matches floatText { tool := "task", commandPattern := some pattern }
        (gateProposal task) = true ↔
      pattern.toList <:+: (toLowercase ((gateProposal task).argsText floatText)).toList := by
  show (if "task" ≠ "task" then _ else _) = true ↔ _
  rw [if_neg (not_not.mpr rfl)]
  dsimp only
  rw [toLowercase_of_isLower h, contains]
  split_ifs <;> simp_all

lemma prefixes_commonPrefix (left right : List Char) :
    commonPrefix left right <+: left ∧ commonPrefix left right <+: right := by
  fun_induction commonPrefix left right with
  | case1 => simpa
  | case2 | case3 => simp

/-- The pattern of a trigger stands in the shared start of the requests, behind whitespace. -/
lemma exists_of_taskSignaturePrefix {a b pattern : String}
    (h : taskSignaturePrefix a b = .ok pattern) :
    ∃ spaces, (∀ c ∈ spaces, isWhitespace c = true) ∧
      spaces ++ pattern.toList <+: commonPrefix (toLowercase a).toList (toLowercase b).toList := by
  have htrim (words : String) : ∃ spaces, (∀ c ∈ spaces, isWhitespace c = true) ∧
      spaces ++ (trim words).toList <+: words.toList := by
    refine ⟨words.toList.takeWhile isWhitespace, fun c hc => mem_takeWhile_imp hc, ?_⟩
    rw [trim, String.toList_ofList]
    nth_rewrite 3 [← @takeWhile_append_dropWhile _ isWhitespace words.toList]
    exact (prefix_append_right_inj _).mpr (List.rdropWhile_prefix _ _)
  unfold taskSignaturePrefix at h
  dsimp only at h
  split_ifs at h with hwords hshort
  all_goals
    rw [← Except.ok.inj h]
    obtain ⟨spaces, hspaces, htrimmed⟩ := htrim _
    refine ⟨spaces, hspaces, htrimmed.trans ?_⟩
    rw [String.toList_ofList]
  exact (List.dropLast_prefix _).trans (List.rdropWhile_prefix _ _)

lemma trigger_of_induce {isAlphanumeric : Char → Bool} {a b : ObservedTask}
    {template : ExperienceTemplate} (h : induce isAlphanumeric a b = .ok template) :
    ∃ pattern, template.trigger = { tool := "task", commandPattern := some pattern } ∧
      taskSignaturePrefix a.task b.task = .ok pattern ∧
      template.name = candidateName a.task template.parameters := by
  unfold induce at h
  split_ifs at h with hfailedA hfailedB hempty hcount
  obtain ⟨⟨⟩, hacts, h⟩ := bind_eq_ok_iff.mp h
  obtain ⟨⟨workflow, inducer⟩, hsteps, h⟩ := bind_eq_ok_iff.mp h
  simp only [inducedTemplate] at h
  split_ifs at h with hsome hmany hverifiable
  obtain ⟨pattern, hpat, h⟩ := bind_eq_ok_iff.mp h
  split_ifs at h with hvalid
  cases h
  exact ⟨pattern, rfl, hpat, rfl⟩

/-- Whether a pattern that stands at the start of a request is found in its proposal: if it shows
every character, and not if it has a control character. -/
lemma matches_of_taskSignature (floatText : F64 → String) {task pattern : String}
    {spaces : List Char} (hspaces : ∀ c ∈ spaces, isWhitespace c = true)
    (hstart : spaces ++ pattern.toList <+: (toLowercase task).toList) :
    let trigger : ActionPattern := { tool := "task", commandPattern := some pattern }
    (SigmaSettled task.toList → (∀ c ∈ pattern.toList, Json.escapeChar c = [c]) →
        trigger.matches floatText (gateProposal task) = true) ∧
      (trigger.matches floatText (gateProposal task) = true →
        ∀ c ∈ pattern.toList, 32 ≤ c.toNat) := by
  rw [toLowercase, String.toList_ofList] at hstart
  have hlower : ∀ c ∈ pattern.toList, IsLower c := fun c hc =>
    isLower_of_mem_lowerFrom (hstart.subset (mem_append_right _ hc))
  intro trigger
  rw [matches_gateProposal floatText task hlower]
  refine ⟨fun hsettled hshown => ?_, fun hfound c hc => ?_⟩
  · obtain ⟨rest, htask, hpattern⟩ := exists_of_append_prefix_lowerFrom hspaces hstart
    rw [append_nil] at hpattern
    rw [toLowercase, String.toList_ofList, argsText_gateProposal, htask]
    rw [htask] at hsettled
    exact infix_lowerFrom_quoted hspaces hpattern (fun c hc => beq_iff_eq.mpr (hshown c hc))
      hsettled (caseIgnorableThenCased_of_not_shown fun c hc => by cases hc; rfl) _
  · exact toNat_of_mem_argsText floatText (hfound.subset hc)

lemma escapeChar_eq_of_plain {c : Char} (hquote : c ≠ '"') (hbackslash : c ≠ '\\')
    (h : 32 ≤ c.toNat) : Json.escapeChar c = [c] := by
  unfold Json.escapeChar
  split_ifs <;> first | rfl | omega | contradiction

/-- The trigger that is induced from two requests accepts the proposals of both if JSON shows every
character of its pattern as it is.  If the pattern has no quote and no backslash, it accepts neither
otherwise. -/
theorem induced_trigger_matches (isAlphanumeric : Char → Bool) (floatText : F64 → String)
    (a b : ObservedTask) (template : ExperienceTemplate)
    (h : induce isAlphanumeric a b = .ok template) :
    ∃ pattern, template.trigger = { tool := "task", commandPattern := some pattern } ∧
      ∀ task ∈ [a.task, b.task], SigmaSettled task.toList →
        ((∀ c ∈ pattern.toList, Json.escapeChar c = [c]) →
          template.trigger.matches floatText (gateProposal task) = true) ∧
        ('"' ∉ pattern.toList → '\\' ∉ pattern.toList →
          (template.trigger.matches floatText (gateProposal task) = true ↔
            ∀ c ∈ pattern.toList, Json.escapeChar c = [c])) := by
  obtain ⟨pattern, htrigger, hpattern, -⟩ := trigger_of_induce h
  obtain ⟨spaces, hspaces, hstart⟩ := exists_of_taskSignaturePrefix hpattern
  refine ⟨pattern, htrigger, fun task htask hsettled => ?_⟩
  have hfront : spaces ++ pattern.toList <+: (toLowercase task).toList := by
    rcases mem_pair.mp htask with rfl | rfl
    · exact hstart.trans (prefixes_commonPrefix _ _).1
    · exact hstart.trans (prefixes_commonPrefix _ _).2
  obtain ⟨hshown, hcontrol⟩ := matches_of_taskSignature floatText hspaces hfront
  rw [htrigger]
  refine ⟨hshown hsettled, fun hquote hbackslash => ⟨fun hmatches c hc => ?_, hshown hsettled⟩⟩
  exact escapeChar_eq_of_plain (fun heq => hquote (heq ▸ hc)) (fun heq => hbackslash (heq ▸ hc))
    (hcontrol hmatches c hc)

/-- The line feed behind the pattern is no part of it. -/
theorem induced_trigger_matches_moves :
    ∃ template,
      induce Char.isAlphanum (moveRun "Move all files\nin/a -> up/a" "in/a" "up/a")
        (moveRun "Move all files\nin/b -> up/b" "in/b" "up/b") = .ok template ∧
      template.trigger.matches (fun _ => "")
        (gateProposal "Move all files\nin/a -> up/a") = true ∧
      template.trigger.matches (fun _ => "")
        (gateProposal "Move all files\nin/b -> up/b") = true := by
  generalize hinduced : induce Char.isAlphanum _ _ = induced
  have hok : induced.toOption.any (fun template =>
      (template.trigger.commandPattern.getD "").toList.all isShown) = true := by
    rw [← hinduced]
    decide +kernel
  cases induced with
  | error reject => cases hok
  | ok template =>
    obtain ⟨pattern, htrigger, hmatches⟩ :=
      induced_trigger_matches _ (fun _ => "") _ _ template hinduced
    simp only [Except.toOption, Option.any_some, htrigger, Option.getD_some] at hok
    have hshown : ∀ c ∈ pattern.toList, Json.escapeChar c = [c] := fun c hc =>
      beq_iff_eq.mp (all_eq_true.mp hok c hc)
    refine ⟨template, rfl, ?_, ?_⟩
    · exact (hmatches _ mem_cons_self (by decide +kernel)).1 hshown
    · exact (hmatches _ (mem_cons_of_mem _ mem_cons_self) (by decide +kernel)).1 hshown

/-- The quotes of the requests are escaped in the proposals, but not in the pattern. -/
theorem induced_trigger_misses_quotes :
    ∃ template,
      induce Char.isAlphanum
        (moveRun "Put \"in\" x in/a -> up/a" "in/a" "up/a")
        (moveRun "Put \"in\" x in/b -> up/b" "in/b" "up/b") = .ok template ∧
      template.trigger.matches (fun _ => "")
        (gateProposal "Put \"in\" x in/a -> up/a") = false ∧
      template.trigger.matches (fun _ => "")
        (gateProposal "Put \"in\" x in/b -> up/b") = false := by
  generalize hinduced : induce Char.isAlphanum _ _ = induced
  have hok : induced.toOption.any (fun template =>
      !template.trigger.matches (fun _ => "")
        (gateProposal "Put \"in\" x in/a -> up/a") &&
      !template.trigger.matches (fun _ => "")
        (gateProposal "Put \"in\" x in/b -> up/b")) = true := by
    rw [← hinduced]
    decide +kernel
  cases induced with
  | error reject => cases hok
  | ok template =>
    simp only [Except.toOption, Option.any_some, Bool.and_eq_true, Bool.not_eq_true'] at hok
    exact ⟨template, rfl, hok⟩

end ExperienceCodex
