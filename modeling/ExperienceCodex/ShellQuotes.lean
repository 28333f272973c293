import ExperienceCodex.ShellTranslate

/-!
# Quotes and the segments of a command

A shell command is cut at each `&&` and each semicolon, without regard to quotes.  A segment with
an open quote does not pass the tokenizer, and so a cut within quotes would be noticed.  The target
of a redirection, however, is never tokenized: a quote that is opened there goes unnoticed.
-/

namespace ExperienceCodex.ShellTranslate

open List ApplyPatch

variable {quote : Option Char}

/-- The quote that is open after a character. -/
def quoteStep : Option Char → Char → Option Char
  | some active, c => if c = active then none else some active
  | none, c => if c = '"' ∨ c = '\'' then some c else none

/-- The quote that is open behind a text. -/
def quoteAfter (quote : Option Char) (text : Line) : Option Char :=
  text.foldl quoteStep quote

/-- The segments of a command that is cut outside of quotes only. -/
def splitOutside : Option Char → Line → List Line
  | _, [] => [[]]
  | none, '&' :: '&' :: rest => [] :: splitOutside none rest
  | none, ';' :: rest => [] :: splitOutside none rest
  | quote, c :: rest => (splitOutside (quoteStep quote c) rest).modifyHead (c :: ·)

/-- The segments of a command in one pass. -/
def splitAll : Line → List Line
  | [] => [[]]
  | '&' :: '&' :: rest => [] :: splitAll rest
  | ';' :: rest => [] :: splitAll rest
  | c :: rest => (splitAll rest).modifyHead (c :: ·)

variable (text : Line)

lemma splitAnd_ne_nil : splitAnd text ≠ [] := by
  fun_induction splitAnd text with
  | case1 => exact cons_ne_nil _ _
  | case2 rest ih => exact cons_ne_nil _ _
  | case3 c rest _ ih =>
    cases hsplit : splitAnd rest with
    | nil => exact absurd hsplit ih
    | cons first more => exact cons_ne_nil _ _

lemma splitAll_ne_nil : splitAll text ≠ [] := by
  fun_induction splitAll text with
  | case1 => exact cons_ne_nil _ _
  | case2 rest ih => exact cons_ne_nil _ _
  | case3 rest ih => exact cons_ne_nil _ _
  | case4 c rest _ _ ih =>
    cases hsplit : splitAll rest with
    | nil => exact absurd hsplit ih
    | cons first more => exact cons_ne_nil _ _

/-- A character in front of the first part. -/
lemma flatMap_modifyHead (c : Char) (parts : List Line) (h : parts ≠ []) :
    (parts.modifyHead (c :: ·)).flatMap (fun part => part.splitOn ';') =
      if c = ';' then [] :: parts.flatMap fun part => part.splitOn ';'
      else (parts.flatMap fun part => part.splitOn ';').modifyHead (c :: ·) := by
  cases parts with
  | nil => exact absurd rfl h
  | cons first more =>
    rw [modifyHead_cons, flatMap_cons, flatMap_cons, splitOn_cons_eq_if_modifyHead]
    cases hsplit : first.splitOn ';' with
    | nil => exact absurd hsplit (splitOn_ne_nil _ _)
    | cons piece pieces =>
      by_cases hc : c = ';'
      · rw [if_pos (by simp [hc]), if_pos hc]
        rfl
      · rw [if_neg (by simp [hc]), if_neg hc]
        rfl

lemma segments_eq (command : Line) : segments command = splitAll command := by
  fun_induction splitAll command with
  | case1 => rfl
  | case2 rest ih =>
    rw [segments, splitAnd, flatMap_cons, ← ih]
    rfl
  | case3 rest ih =>
    rw [segments, splitAnd, flatMap_modifyHead _ _ (splitAnd_ne_nil rest), if_pos rfl, ← ih]
    · rfl
    · intro more h
      cases h
  | case4 c rest hand hsemicolon ih =>
    rw [segments, splitAnd, flatMap_modifyHead _ _ (splitAnd_ne_nil rest),
      if_neg fun h => hsemicolon h, ← ih]
    · rfl
    · exact hand

/-- Each cut is outside of quotes. -/
def Closed : Option Char → List Line → Prop
  | quote, piece :: next :: more => quoteAfter quote piece = none ∧ Closed none (next :: more)
  | _, _ => True

/-- No quote, or one of the two quote characters. -/
def IsQuote (quote : Option Char) : Prop :=
  ∀ active, quote = some active → active = '"' ∨ active = '\''

lemma isQuote_none : IsQuote none :=
  fun _ h => (by cases h)

lemma IsQuote.step (h : IsQuote quote) (c : Char) :
    IsQuote (quoteStep quote c) := by
  intro active hactive
  cases quote with
  | none =>
    rw [quoteStep] at hactive
    split_ifs at hactive with hc
    cases hactive
    exact hc
  | some open' =>
    rw [quoteStep] at hactive
    split_ifs at hactive
    exact h active hactive

lemma closed_cons {piece : Line} {pieces : List Line} (h : pieces ≠ []) :
    Closed quote (piece :: pieces) ↔ quoteAfter quote piece = none ∧ Closed none pieces := by
  cases pieces with
  | nil => exact absurd rfl h
  | cons next more => exact Iff.rfl

lemma closed_modifyHead {c : Char} {pieces : List Line} :
    Closed quote (pieces.modifyHead (c :: ·)) ↔ Closed (quoteStep quote c) pieces := by
  match pieces with
  | [] => exact Iff.rfl
  | [_] => exact Iff.rfl
  | _ :: _ :: _ => exact Iff.rfl

/-- A character that is no quote does not close one. -/
lemma splitOutside_quoted {active c : Char} (hactive : active = '"' ∨ active = '\'')
    (hc : c = '&' ∨ c = ';') (rest : Line) :
    splitOutside (some active) (c :: rest) =
      (splitOutside (some active) rest).modifyHead (c :: ·) := by
  have hne : c ≠ active := by
    rcases hactive with rfl | rfl <;> rcases hc with rfl | rfl <;> decide
  rw [splitOutside, quoteStep, if_neg hne]
  all_goals intros; contradiction

/-- The pieces of a command that is cut outside of quotes, compared to all its pieces. -/
structure Fewer (quote : Option Char) (outside all : List Line) : Prop where
  length_le : outside.length ≤ all.length
  eq_of_closed : Closed quote all → outside = all
  length_lt : ¬Closed quote all → outside.length < all.length

/-- A separator: it is a cut if no quote is open, and no cut is lost before it. -/
lemma Fewer.cut {outside outsideRest all : List Line} (hne : all ≠ [])
    (h : Fewer quote outsideRest all) (hnone : quote = none → outside = [] :: outsideRest)
    (hsome : ∀ active, quote = some active → outside.length = outsideRest.length) :
    Fewer quote outside ([] :: all) := by
  cases quote with
  | none =>
    have hclosed : Closed none ([] :: all) ↔ Closed none all := by
      rw [closed_cons hne]
      exact and_iff_right rfl
    rw [hnone rfl]
    refine ⟨Nat.succ_le_succ h.length_le, fun hc => ?_, fun hc => ?_⟩
    · rw [h.eq_of_closed (hclosed.mp hc)]
    · exact Nat.succ_lt_succ (h.length_lt (mt hclosed.mpr hc))
  | some active =>
    have hlt : outside.length < ([] :: all).length := by
      rw [hsome active rfl, length_cons]
      exact Nat.lt_succ_of_le h.length_le
    refine ⟨Nat.le_of_lt hlt, fun hc => ?_, fun _ => hlt⟩
    rw [closed_cons hne] at hc
    cases hc.1

/-- The cuts outside of quotes are among all cuts, and they are all if no cut is within quotes. -/
lemma fewer_splitOutside (hquote : IsQuote quote) :
    Fewer quote (splitOutside quote text) (splitAll text) := by
  fun_induction splitAll text generalizing quote with
  | case1 =>
    have hnil : splitOutside quote [] = [[]] := by cases quote <;> rfl
    rw [hnil]
    exact ⟨Nat.le_refl _, fun _ => rfl, fun h => absurd trivial h⟩
  | case2 rest ih =>
    refine (ih hquote).cut (splitAll_ne_nil rest) ?_ ?_
    · rintro rfl
      rw [splitOutside]
    · rintro active rfl
      rw [splitOutside_quoted (hquote active rfl) (.inl rfl),
        splitOutside_quoted (hquote active rfl) (.inl rfl), length_modifyHead, length_modifyHead]
  | case3 rest ih =>
    refine (ih hquote).cut (splitAll_ne_nil rest) ?_ ?_
    · rintro rfl
      rw [splitOutside]
    · rintro active rfl
      rw [splitOutside_quoted (hquote active rfl) (.inr rfl), length_modifyHead]
  | case4 c rest hand hsemicolon ih =>
    have hstep : splitOutside quote (c :: rest) =
        (splitOutside (quoteStep quote c) rest).modifyHead (c :: ·) := by
      rw [splitOutside]
      · exact fun more _ hc => hand more hc
      · exact fun _ hc => hsemicolon hc
    have hrest := ih (hquote.step c)
    rw [hstep]
    refine ⟨?_, fun h => ?_, fun h => ?_⟩
    · rw [length_modifyHead, length_modifyHead]
      exact hrest.length_le
    · rw [hrest.eq_of_closed (closed_modifyHead.mp h)]
    · rw [length_modifyHead, length_modifyHead]
      exact hrest.length_lt (mt closed_modifyHead.mpr h)

lemma splitOutside_eq_iff (cmd : Line) :
    segments cmd = splitOutside none cmd ↔ Closed none (segments cmd) := by
  have hfewer := fewer_splitOutside cmd isQuote_none
  rw [segments_eq]
  constructor
  · intro heq
    by_contra hopen
    have hlt := hfewer.length_lt hopen
    rw [← heq] at hlt
    exact Nat.lt_irrefl _ hlt
  · intro hclosed
    exact (hfewer.eq_of_closed hclosed).symm

lemma closed_none_iff (pieces : List Line) :
    Closed none pieces ↔ ∀ piece ∈ pieces.dropLast, quoteAfter none piece = none := by
  induction pieces with
  | nil => simp [Closed]
  | cons piece pieces ih =>
    cases pieces with
    | nil => simp [Closed]
    | cons next more =>
      rw [closed_cons (cons_ne_nil next more), ih, dropLast_cons_cons, forall_mem_cons]

lemma tokenizeFrom_ok_iff (tokens : List Line) (cur : Line) (quote : Option Char)
    (text : Line) :
    (∃ r, tokenizeFrom tokens cur quote text = .ok r) ↔
      quoteAfter quote text = none := by
  induction text generalizing tokens cur quote with
  | nil =>
    cases quote with
    | none => exact ⟨fun _ => rfl, fun _ => ⟨_, rfl⟩⟩
    | some active => exact ⟨fun ⟨_, h⟩ => (by cases h), fun h => (by cases h)⟩
  | cons c text ih =>
    rw [quoteAfter, foldl_cons, ← quoteAfter]
    cases quote with
    | none =>
      rw [tokenizeFrom, quoteStep]
      split_ifs
      · exact ih ..
      · exact ih ..
      · exact ih ..
    | some active =>
      rw [tokenizeFrom, quoteStep]
      split_ifs
      · exact ih ..
      · exact ih ..

lemma tokenize_ok_iff :
    (∃ tokens, tokenize text = .ok tokens) ↔ quoteAfter none text = none :=
  tokenizeFrom_ok_iff [] [] none text

/-- The open quote as the redirection scan keeps it. -/
def openQuote (inSingle inDouble : Bool) : Option Char :=
  if inSingle then some '\'' else if inDouble then some '"' else none

lemma splitRedirectFrom_eq_some {inSingle inDouble : Bool} {text left right : Line}
    (hone : ¬(inSingle = true ∧ inDouble = true))
    (h : splitRedirectFrom inSingle inDouble text = some (left, right)) :
    text = left ++ '>' :: right ∧ quoteAfter (openQuote inSingle inDouble) left = none := by
  induction text generalizing inSingle inDouble left with
  | nil => cases h
  | cons c text ih =>
    -- The character is kept, and the scan goes on with the quote that is open behind it.
    have hkeep : ∀ {single double : Bool}, ¬(single = true ∧ double = true) →
        quoteStep (openQuote inSingle inDouble) c = openQuote single double →
        (splitRedirectFrom single double text).map (fun parts => (c :: parts.1, parts.2)) =
          some (left, right) →
        c :: text = left ++ '>' :: right ∧
          quoteAfter (openQuote inSingle inDouble) left = none := by
      intro single double hone hstep h
      obtain ⟨⟨left', right'⟩, hparts, heq⟩ := Option.map_eq_some_iff.mp h
      cases heq
      obtain ⟨rfl, hquote⟩ := ih hone hparts
      refine ⟨rfl, ?_⟩
      rw [quoteAfter, foldl_cons, hstep]
      exact hquote
    rw [splitRedirectFrom] at h
    split_ifs at h with hsingle hdouble hredir
    · simp only [Bool.and_eq_true, beq_iff_eq, Bool.not_eq_true'] at hsingle
      obtain ⟨rfl, rfl⟩ := hsingle
      exact hkeep (by simp) (by cases inSingle <;> rfl) h
    · simp only [Bool.and_eq_true, beq_iff_eq, Bool.not_eq_true'] at hdouble
      obtain ⟨rfl, rfl⟩ := hdouble
      exact hkeep (by simp) (by cases inDouble <;> rfl) h
    · simp only [Bool.and_eq_true, beq_iff_eq, Bool.not_eq_true'] at hredir
      obtain ⟨⟨rfl, rfl⟩, rfl⟩ := hredir
      cases h
      exact ⟨rfl, rfl⟩
    · simp only [Bool.and_eq_true, beq_iff_eq, Bool.not_eq_true', not_and,
        Bool.not_eq_false] at hsingle hdouble
      refine hkeep hone ?_ h
      cases inSingle with
      | true =>
        have hc : c ≠ '\'' := fun hc => hone ⟨rfl, hsingle hc⟩
        exact if_neg hc
      | false =>
        have hc : c ≠ '"' := fun hc => (by cases hdouble hc)
        cases inDouble with
        | true => exact if_neg hc
        | false =>
          have hc' : c ≠ '\'' := fun hc => (by cases hsingle hc)
          exact if_neg (by simp [hc, hc'])

lemma quoteAfter_append (quote : Option Char) (front back : Line) :
    quoteAfter quote (front ++ back) = quoteAfter (quoteAfter quote front) back :=
  foldl_append

/-- White space does not open or close a quote. -/
lemma quoteAfter_blank (hquote : IsQuote quote) {blank : Line}
    (h : ∀ c ∈ blank, Text.isWhitespace c = true) : quoteAfter quote blank = quote := by
  induction blank with
  | nil => rfl
  | cons c blank ih =>
    have hc : ∀ e, e = '"' ∨ e = '\'' → c ≠ e := by
      rintro e he rfl
      have hspace := h c mem_cons_self
      rcases he with rfl | rfl <;> exact absurd hspace (by decide)
    have hstep : quoteStep quote c = quote := by
      cases quote with
      | none =>
        rw [quoteStep, if_neg]
        rintro (hquote | hquote)
        · exact hc '"' (.inl rfl) hquote
        · exact hc '\'' (.inr rfl) hquote
      | some active => rw [quoteStep, if_neg (hc active (hquote active rfl))]
    rw [quoteAfter, foldl_cons, hstep]
    exact ih (forall_mem_of_forall_mem_cons h)

lemma IsQuote.after (h : IsQuote quote) (text : Line) :
    IsQuote (quoteAfter quote text) := by
  induction text generalizing quote with
  | nil => exact h
  | cons c text ih => exact ih (h.step c)

lemma quoteAfter_trim : quoteAfter none (trim text) = quoteAfter none text := by
  have hfront : text = text.takeWhile Text.isWhitespace ++ text.dropWhile Text.isWhitespace :=
    takeWhile_append_dropWhile.symm
  have hback : text.dropWhile Text.isWhitespace =
      trim text ++ (text.dropWhile Text.isWhitespace).rtakeWhile Text.isWhitespace :=
    (rdropWhile_append_rtakeWhile ..).symm
  rw [hfront, quoteAfter_append, quoteAfter_blank isQuote_none fun c hc => mem_takeWhile_imp hc,
    ← hfront, hback, quoteAfter_append,
    quoteAfter_blank (isQuote_none.after _) fun c hc => mem_rtakeWhile_imp hc]

/-- The target of a redirection opens no quote that it does not close. -/
def TargetBalanced (segment : Line) : Prop :=
  ∀ left right, splitRedirect (trim segment) = some (left, right) →
    ∃ tokens, tokenize right = .ok tokens

lemma translated_of_mem {pieces : List Line} {steps : List ObservedStep}
    (h : translateSegments pieces = .ok steps) {seg : Line} (hmem : seg ∈ pieces) :
    trim seg = [] ∨ ∃ step, translateSegment (trim seg) = .ok step := by
  induction pieces generalizing steps with
  | nil => exact absurd hmem not_mem_nil
  | cons piece pieces ih =>
    rw [translateSegments] at h
    by_cases hempty : (trim piece).isEmpty = true
    · rw [if_pos hempty] at h
      rcases mem_cons.mp hmem with rfl | hmem
      · exact .inl (isEmpty_iff.mp hempty)
      · exact ih h hmem
    · rw [if_neg hempty] at h
      split_ifs at h
      cases hstep : translateSegment (trim piece) with
      | error reason =>
        rw [hstep] at h
        cases h
      | ok step =>
        cases hrest : translateSegments pieces with
        | error reason =>
          rw [hstep, hrest] at h
          cases h
        | ok rest =>
          rcases mem_cons.mp hmem with rfl | hmem
          · exact .inr ⟨step, hstep⟩
          · exact ih hrest hmem

lemma translateShell_eq_ok {ft : F64 → String} {step : ObservedStep} {cmd : String}
    {steps : List ObservedStep} (hcommand : commandText step = some cmd)
    (h : translateShell ft step = .ok steps) :
    isCompound cmd.toList = false ∧ translateSegments (segments cmd.toList) = .ok steps := by
  rw [translateShell, hcommand] at h
  dsimp only at h
  rw [translateCommandText] at h
  cases hcompound : isCompound cmd.toList with
  | true =>
    rw [hcompound] at h
    cases h
  | false =>
    refine ⟨rfl, ?_⟩
    rw [hcompound] at h
    cases hpieces : translateSegments (segments cmd.toList) with
    | error reason =>
      rw [hpieces] at h
      cases h
    | ok translated =>
      rw [hpieces] at h
      cases translated with
      | nil => cases h
      | cons first more =>
        cases h
        rfl

/-- A translated command is cut as it would be outside of quotes only, if and only if no
redirection before the last segment leaves a quote of its target open. -/
theorem segments_outside_quotes_iff {floatText : F64 → String} {step : ObservedStep}
    {command : String} {steps : List ObservedStep} (hcommand : commandText step = some command)
    (h : translateShell floatText step = .ok steps) :
    segments command.toList = splitOutside none command.toList ↔
      ∀ segment ∈ (segments command.toList).dropLast, TargetBalanced segment := by
  obtain ⟨-, htranslated⟩ := translateShell_eq_ok hcommand h
  rw [splitOutside_eq_iff, closed_none_iff]
  refine forall₂_congr fun segment hmem => ?_
  have h := translated_of_mem htranslated ((dropLast_sublist _).subset hmem)
  -- in a translated segment, only the target of a redirection can leave a quote open
  rw [← quoteAfter_trim]
  cases hredir : splitRedirect (trim segment) with
  | none =>
    have hbalanced : quoteAfter none (trim segment) = none := by
      rcases h with h | ⟨step, hstep⟩
      · rw [h]
        rfl
      · rw [translateSegment, hredir] at hstep
        rw [← tokenize_ok_iff]
        cases htokens : tokenize (trim segment) with
        | error reason =>
          rw [htokens] at hstep
          cases hstep
        | ok tokens => exact ⟨tokens, rfl⟩
    refine iff_of_true hbalanced fun left right hsome => ?_
    rw [hredir] at hsome
    cases hsome
  | some parts =>
    obtain ⟨left, right⟩ := parts
    obtain ⟨htext, hleft⟩ := splitRedirectFrom_eq_some (by simp) hredir
    have hright : quoteAfter none (trim segment) = quoteAfter none right := by
      rw [htext, quoteAfter_append]
      exact congrArg (fun quote => quoteAfter (quoteStep quote '>') right) hleft
    rw [hright, ← tokenize_ok_iff]
    constructor
    · intro htokens left' right' hsome
      rw [hredir] at hsome
      cases hsome
      exact htokens
    · intro hbalanced
      exact hbalanced left right hredir

def shellStep (command : String) : ObservedStep where
  action := "shell"
  args := .object [("command", .string command)]
  unique := rfl

theorem segments_outside_quotes_small :
    segments "echo a > \"b\"; mv b c".toList =
      splitOutside none "echo a > \"b\"; mv b c".toList := by
  have hok : (translateShell (fun _ => "") (shellStep "echo a > \"b\"; mv b c")).isOk = true := by
    decide +kernel
  have hpieces : (segments "echo a > \"b\"; mv b c".toList).dropLast =
      ["echo a > \"b\"".toList] := by
    decide +kernel
  have hsplit : splitRedirect (trim "echo a > \"b\"".toList) =
      some ("echo a ".toList, " \"b\"".toList) := by decide +kernel
  cases haccepted : translateShell (fun _ => "") (shellStep "echo a > \"b\"; mv b c") with
  | error reject =>
    rw [haccepted] at hok
    cases hok
  | ok steps =>
    refine (segments_outside_quotes_iff rfl haccepted).mpr fun segment hmem => ?_
    rw [hpieces, mem_singleton] at hmem
    intro left right hsome
    rw [hmem, hsplit] at hsome
    cases hsome
    exact ⟨[['b']], by decide +kernel⟩

/-- A quote that is opened in the target of a redirection and closed in a later one: the code finds
two segments, and the command is one. -/
theorem segments_within_quotes :
    (translateShell (fun _ => "") (shellStep "echo a > \"b;echo x > c\"")).isOk = true ∧
      segments "echo a > \"b;echo x > c\"".toList =
        ["echo a > \"b".toList, "echo x > c\"".toList] ∧
      splitOutside none "echo a > \"b;echo x > c\"".toList =
        ["echo a > \"b;echo x > c\"".toList] := by
  decide +kernel

end ExperienceCodex.ShellTranslate
