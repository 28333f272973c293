import ExperienceCodex.PatchParser

/-!
# Patches that only add files

The parser begins a hunk at a line that is a header but for the white space around it, and adds one
line to the contents of the file for each line that begins with a plus sign.  So the hunks of a
patch that only adds files name the paths of its header lines, and their contents have as many line
feeds as the patch has lines that begin with a plus sign.
-/

namespace ExperienceCodex.ApplyPatch

open List Lines

lemma head_trim {line : Line} {c : Char} (hc : Text.isWhitespace c = false)
    (h : line.head? = some c) : (trim line).head? = some c := by
  cases line with
  | nil => cases h
  | cons first rest =>
    obtain rfl : first = c := by simpa using h
    rw [trim, trimEnd, dropWhile_cons_of_neg (by simp [hc])]
    cases hdrop : rdropWhile Text.isWhitespace (first :: rest) with
    | nil =>
      have := (rdropWhile_eq_nil_iff (p := Text.isWhitespace)).mp hdrop first (by simp)
      simp [hc] at this
    | cons head tail =>
      obtain ⟨suffix, hsuf⟩ := rdropWhile_prefix Text.isWhitespace (l := first :: rest)
      rw [hdrop] at hsuf
      simpa using (cons.inj hsuf).1

lemma head_of_isPrefix {marker text : Line} {c : Char} (h : marker <+: text)
    (hc : marker.head? = some c) : text.head? = some c := by
  obtain ⟨rest, rfl⟩ := h
  rw [head?_append, hc, Option.some_or]

/-- A trimmed text with the white space that was around it. -/
lemma exists_trim (text : Line) :
    ∃ before after, Blank Text.isWhitespace before ∧ Blank Text.isWhitespace after ∧
      before ++ trim text ++ after = text ∧
      (∀ c ∈ (trim text).head?, Text.isWhitespace c = false) ∧
      ∀ c ∈ (trim text).getLast?, Text.isWhitespace c = false := by
  refine ⟨text.takeWhile Text.isWhitespace,
    (text.dropWhile Text.isWhitespace).rtakeWhile Text.isWhitespace, ?_, ?_, ?_, ?_, ?_⟩
  · exact fun c hc => mem_takeWhile_imp hc
  · exact fun c hc => mem_rtakeWhile_imp hc
  · rw [append_assoc, trim, trimEnd, rdropWhile_append_rtakeWhile, takeWhile_append_dropWhile]
  · exact head_dropped _ _
  · exact getLast_dropped _ _

lemma strip_eq_some_iff {marker : String} {text rest : Line} :
    strip marker text = some rest ↔ text = marker.toList ++ rest := by
  rw [strip]
  constructor
  · intro h
    split_ifs at h with hbeg
    obtain ⟨tail, rfl⟩ := hbeg
    simpa using h
  · rintro rfl
    simp

lemma strip_eq_none_iff {marker : String} {text : Line} :
    strip marker text = none ↔ ¬ marker.toList <+: text := by
  rw [strip]
  split_ifs with hbeg <;> simp [hbeg]

/-- A text does not begin with two markers, neither of which begins with the other. -/
lemma not_isPrefix_of_isPrefix {marker other text : Line} (hmark : marker <+: text)
    (h : ¬ marker <+: other ∧ ¬ other <+: marker) : ¬ other <+: text := by
  intro hother
  rcases prefix_or_prefix_of_prefix hmark hother with hle | hle
  · exact h.1 hle
  · exact h.2 hle

lemma trim_stripCarriageReturn (line : Line) : trim (stripCarriageReturn line) = trim line := by
  rw [stripCarriageReturn]
  split_ifs with hlast
  · obtain ⟨text, rfl⟩ : ∃ text, line = text ++ ['\r'] := by
      have hne : line ≠ [] := by
        rintro rfl
        simp at hlast
      refine ⟨line.dropLast, ?_⟩
      rw [getLast?_eq_some_getLast hne, Option.some_inj] at hlast
      rw [← hlast, dropLast_append_getLast hne]
    rw [dropLast_concat, trim, trim, trimEnd, trimEnd]
    rw [dropWhile_append]
    split_ifs with hempty
    · rw [isEmpty_iff.mp hempty]
      decide
    · rw [rdropWhile_concat_pos _ _ _ (by decide)]
  · rfl

namespace Hunk

def isAdd : Hunk → Bool
  | addFile .. => true
  | _ => false

/-- The contents of an added file. -/
def contents : Hunk → Line
  | addFile _ contents => contents
  | _ => []

end Hunk

namespace StreamingPatchParser

variable {parser parser' : StreamingPatchParser} {line : Line}

/-- A hunk that does not add a file. -/
def HasOther (parser : StreamingPatchParser) : Prop :=
  ∃ hunk ∈ parser.hunks, hunk.isAdd = false

/-- The parser has seen no hunk but those that add files. -/
structure Plain (parser : StreamingPatchParser) : Prop where
  adds : ∀ hunk ∈ parser.hunks, hunk.isAdd = true
  not_delete : parser.mode ≠ .deleteFile
  not_update : ∀ number, parser.mode ≠ .updateFile number

/-- What a header line does. -/
lemma handleHunkHeadersAndEndPatch_cases {trimmed : Line}
    (h : parser.handleHunkHeadersAndEndPatch trimmed = .ok (some parser')) :
    (parser'.hunks = parser.hunks ∧ (parser'.mode = parser.mode ∨ parser'.mode = .endedPatch) ∧
      (environmentIdMarker.toList <+: trimmed ∨ trimmed = endPatchMarker.toList)) ∨
    (∃ path, strip addFileMarker trimmed = some path ∧
      parser'.hunks = parser.hunks ++ [.addFile path []] ∧ parser'.mode = .addFile) ∨
    ∃ hunk, hunk.isAdd = false ∧ parser'.hunks = parser.hunks ++ [hunk] := by
  rw [handleHunkHeadersAndEndPatch] at h
  split at h
  next environmentId hid =>
    split_ifs at h
    cases h
    refine .inl ⟨rfl, .inl rfl, .inl ?_⟩
    split_ifs at hid
    exact ⟨environmentId, (strip_eq_some_iff.mp hid).symm⟩
  next =>
    split_ifs at h with hend
    · obtain ⟨-, -, h⟩ := bind_eq_ok_iff.mp h
      cases h
      exact .inl ⟨rfl, .inr rfl, .inr hend⟩
    · split at h
      next _ _ _ path hpath =>
        obtain ⟨-, -, h⟩ := bind_eq_ok_iff.mp h
        cases h
        exact .inr (.inl ⟨path, hpath, rfl, rfl⟩)
      next =>
        obtain ⟨-, -, h⟩ := bind_eq_ok_iff.mp h
        cases h
        exact .inr (.inr ⟨_, rfl, rfl⟩)
      next =>
        obtain ⟨-, -, h⟩ := bind_eq_ok_iff.mp h
        cases h
        exact .inr (.inr ⟨_, rfl, rfl⟩)
      next => cases h

/-- A line that is no header changes the last hunk. -/
lemma processHunkLine_cases (h : parser.processHunkLine line = .ok parser') :
    parser'.mode = parser.mode ∧
    ((∃ hunks path contents text, line = '+' :: text ∧ parser.mode = .addFile ∧
      parser.hunks = hunks ++ [.addFile path contents] ∧
      parser'.hunks = hunks ++ [.addFile path (contents ++ text ++ ['\n'])]) ∨
    ∃ hunks hunk hunk', hunk.isAdd = false ∧ hunk'.isAdd = false ∧
      parser.hunks = hunks ++ [hunk] ∧ parser'.hunks = hunks ++ [hunk']) := by
  have hlast : ∀ hunk, parser.hunks.getLast? = some hunk →
      parser.hunks = parser.hunks.dropLast ++ [hunk] := by
    intro hunk hhunk
    exact (dropLast_append_getLast? hunk hhunk).symm
  rw [processHunkLine] at h
  split at h
  next path contents hmode hhunk =>
    split at h
    next text =>
      cases h
      exact ⟨rfl, .inl ⟨_, path, contents, text, rfl, hmode, hlast _ hhunk, rfl⟩⟩
    next => cases h
  next path movePath chunks hmode hhunk =>
    obtain ⟨⟨movePath', chunks'⟩, -, h⟩ := bind_eq_ok_iff.mp h
    cases h
    exact ⟨rfl, .inr ⟨_, _, _, rfl, rfl, hlast _ hhunk, rfl⟩⟩
  next => cases h
  next => cases h

/-- A line is a header, the end of the patch or part of the last hunk, or changes no hunk. -/
lemma processLine_cases (h : parser.processLine line = .ok parser') :
    (parser'.hunks = parser.hunks ∧
      ((parser'.mode = .startedPatch ∧ trim line = beginPatchMarker.toList) ∨
        (parser'.mode = .endedPatch ∧ trim line = []))) ∨
    (∃ trimmed, (parser.Plain → trimmed = trim line) ∧
      parser.handleHunkHeadersAndEndPatch trimmed = .ok (some parser')) ∨
    parser.processHunkLine line = .ok parser' := by
  rw [processLine] at h
  split at h
  next hmode =>
    split_ifs at h with hbegin
    cases h
    exact .inl ⟨rfl, .inl ⟨rfl, hbegin⟩⟩
  next hmode =>
    split_ifs at h with hblank
    cases h
    exact .inl ⟨rfl, .inr ⟨hmode, isEmpty_iff.mp hblank⟩⟩
  next hmode =>
    obtain ⟨handled, hhandled, h⟩ := bind_eq_ok_iff.mp h
    cases handled with
    | none => exact .inr (.inr h)
    | some handled =>
      cases h
      refine .inr (.inl ⟨_, fun hplain => ?_, hhandled⟩)
      split
      next hnum => exact absurd hnum (hplain.not_update _)
      next => rfl

/-- A hunk that does not add a file stays such a hunk. -/
lemma HasOther.processLine (hother : parser.HasOther) (h : parser.processLine line = .ok parser') :
    parser'.HasOther := by
  obtain ⟨hunk, hmem, hhunk⟩ := hother
  rcases processLine_cases h with ⟨hhunks, -⟩ | ⟨trimmed, -, hheader⟩ | hline
  · exact ⟨hunk, hhunks ▸ hmem, hhunk⟩
  · rcases handleHunkHeadersAndEndPatch_cases hheader with
      ⟨hhunks, -⟩ | ⟨path, -, hhunks, -⟩ | ⟨other, -, hhunks⟩
    · exact ⟨hunk, hhunks ▸ hmem, hhunk⟩
    · exact ⟨hunk, by simp [hhunks, hmem], hhunk⟩
    · exact ⟨hunk, by simp [hhunks, hmem], hhunk⟩
  · obtain ⟨-, ⟨hunks, path, contents, text, -, -, hbefore, hafter⟩ |
      ⟨hunks, last, last', -, hlast, hbefore, hafter⟩⟩ := processHunkLine_cases hline
    · rw [hbefore, mem_append, mem_singleton] at hmem
      rcases hmem with hmem | rfl
      · exact ⟨hunk, by simp [hafter, hmem], hhunk⟩
      · cases hhunk
    · exact ⟨last', by simp [hafter], hlast⟩

/-- The line begins with a plus sign. -/
def isAddition (line : Line) : Bool :=
  line.head? = some '+'

/-- The path in a line that is the header of an added file, but for the white space around it. -/
def headerPath (line : Line) : Option Line :=
  strip addFileMarker (trim line)

lemma isAddition_eq_false (h : (trim line).head? ≠ some '+') : isAddition line = false := by
  rw [isAddition, decide_eq_false_iff_not]
  exact fun hplus => h (head_trim (by decide) hplus)

lemma headerPath_of_isAddition (h : isAddition line = true) : headerPath line = none := by
  rw [isAddition, decide_eq_true_iff] at h
  rw [headerPath, strip_eq_none_iff]
  intro hmark
  have hhead := head_trim (by decide) h
  rw [head_of_isPrefix hmark (c := '*') (by decide)] at hhead
  exact absurd hhead (by decide)

/-- What a line does to a parser that has seen no hunk but those that add files. -/
inductive Adds (parser : StreamingPatchParser) (line : Line) (parser' : StreamingPatchParser) :
    Prop where
  | quiet (hunks : parser'.hunks = parser.hunks) (hpath : headerPath line = none)
    (hline : isAddition line = false)
  | header (path : Line) (hpath : headerPath line = some path)
    (hunks : parser'.hunks = parser.hunks ++ [.addFile path []])
  | addition (earlier : List Hunk) (path contents text : Line) (hline : line = '+' :: text)
    (before : parser.hunks = earlier ++ [.addFile path contents])
    (after : parser'.hunks = earlier ++ [.addFile path (contents ++ text ++ ['\n'])])

lemma Plain.processLine (hplain : parser.Plain) (h : parser.processLine line = .ok parser') :
    parser'.HasOther ∨ parser'.Plain ∧ Adds parser line parser' := by
  rcases processLine_cases h with ⟨hhunks, hmode⟩ | ⟨trimmed, htrimmed, hheader⟩ | hline
  · refine .inr ⟨⟨hhunks ▸ hplain.adds, ?_, ?_⟩, .quiet hhunks ?_ (isAddition_eq_false ?_)⟩
    · rcases hmode with ⟨hmode, -⟩ | ⟨hmode, -⟩ <;> simp [hmode]
    · rcases hmode with ⟨hmode, -⟩ | ⟨hmode, -⟩ <;> simp [hmode]
    · rw [headerPath, strip_eq_none_iff]
      rcases hmode with ⟨-, hline⟩ | ⟨-, hline⟩ <;> rw [hline] <;> decide
    · rcases hmode with ⟨-, hline⟩ | ⟨-, hline⟩ <;> rw [hline] <;> decide
  · obtain rfl := htrimmed hplain
    rcases handleHunkHeadersAndEndPatch_cases hheader with
      ⟨hhunks, hmode, hmark⟩ | ⟨path, hpath, hhunks, hmode⟩ | ⟨other, hother, hhunks⟩
    · refine .inr ⟨⟨hhunks ▸ hplain.adds, ?_, ?_⟩, .quiet hhunks ?_ (isAddition_eq_false ?_)⟩
      · rcases hmode with hmode | hmode <;> simp [hmode, hplain.not_delete]
      · rcases hmode with hmode | hmode <;> simp [hmode, hplain.not_update]
      · rw [headerPath, strip_eq_none_iff]
        rcases hmark with hmark | hmark
        · exact not_isPrefix_of_isPrefix hmark (by decide)
        · rw [hmark]
          decide
      · rcases hmark with hmark | hmark
        · rw [head_of_isPrefix hmark (c := '*') (by decide)]
          decide
        · rw [hmark]
          decide
    · refine .inr ⟨⟨?_, by simp [hmode], by simp [hmode]⟩, .header path hpath hhunks⟩
      intro hunk hmem
      rw [hhunks, mem_append, mem_singleton] at hmem
      rcases hmem with hmem | rfl
      · exact hplain.adds hunk hmem
      · rfl
    · exact .inl ⟨other, by simp [hhunks], hother⟩
  · obtain ⟨hmode, ⟨hunks, path, contents, text, hline, -, hbefore, hafter⟩ |
      ⟨hunks, last, last', -, hlast, -, hafter⟩⟩ := processHunkLine_cases hline
    · refine .inr ⟨⟨?_, hmode ▸ hplain.not_delete, hmode ▸ hplain.not_update⟩,
        .addition hunks path contents text hline hbefore hafter⟩
      intro hunk hmem
      rw [hafter, mem_append, mem_singleton] at hmem
      rcases hmem with hmem | rfl
      · exact hplain.adds hunk (by simp [hbefore, hmem])
      · rfl
    · exact .inl ⟨last', by simp [hafter], hlast⟩

/-- A line with the line feed that ends it. -/
def feedLine (parser : StreamingPatchParser) (line : Line) :
    Except ParseError StreamingPatchParser :=
  { parser with lineBuffer := [], lineNumber := parser.lineNumber + 1 }.processLine
    (stripCarriageReturn line)

lemma lineBuffer_processHunkLine (h : parser.processHunkLine line = .ok parser') :
    parser'.lineBuffer = parser.lineBuffer := by
  rw [processHunkLine] at h
  split at h
  next =>
    split at h
    · cases h
      rfl
    · cases h
  next =>
    obtain ⟨⟨movePath, chunks⟩, -, h⟩ := bind_eq_ok_iff.mp h
    cases h
    rfl
  next => cases h
  next => cases h

lemma lineBuffer_processLine (h : parser.processLine line = .ok parser') :
    parser'.lineBuffer = parser.lineBuffer := by
  rw [processLine] at h
  split at h
  next =>
    split_ifs at h
    cases h
    rfl
  next =>
    split_ifs at h
    cases h
    rfl
  next =>
    obtain ⟨handled, hhandled, h⟩ := bind_eq_ok_iff.mp h
    cases handled with
    | some handled =>
      cases h
      rw [handleHunkHeadersAndEndPatch] at hhandled
      split at hhandled
      next =>
        split_ifs at hhandled
        cases hhandled
        rfl
      next =>
        split_ifs at hhandled
        · obtain ⟨-, -, hhandled⟩ := bind_eq_ok_iff.mp hhandled
          cases hhandled
          rfl
        · split at hhandled
          case h_4 => cases hhandled
          all_goals
            obtain ⟨-, -, hhandled⟩ := bind_eq_ok_iff.mp hhandled
            cases hhandled
            rfl
    | none => exact lineBuffer_processHunkLine h

lemma pushDelta_append (parser : StreamingPatchParser) (text rest : Line) :
    parser.pushDelta (text ++ rest) = parser.pushDelta text >>= (·.pushDelta rest) := by
  simp [pushDelta, foldlM_append]

/-- A text without line feeds stays in the buffer. -/
lemma pushDelta_of_not_mem (parser : StreamingPatchParser) {text : Line} (h : '\n' ∉ text) :
    parser.pushDelta text = .ok { parser with lineBuffer := parser.lineBuffer ++ text } := by
  induction text generalizing parser with
  | nil => simp [pushDelta, pure, Except.pure]
  | cons c text ih =>
    obtain ⟨hc, htext⟩ := not_or.mp (mt mem_cons.mpr h)
    have hpush : parser.pushChar c =
        .ok { parser with lineBuffer := parser.lineBuffer ++ [c] } := by
      rw [pushChar, if_neg fun heq => hc heq.symm]
    rw [pushDelta, foldlM_cons, hpush, ok_bind, ← pushDelta, ih _ htext]
    simp

lemma pushDelta_newline (parser : StreamingPatchParser) :
    parser.pushDelta ['\n'] = parser.feedLine parser.lineBuffer := by
  simp [pushDelta, pushChar, feedLine]

/-- Lines that line feeds separate are fed one by one, but for the last one. -/
lemma pushDelta_intercalate {earlier : List Line} {last : Line} (hbuffer : parser.lineBuffer = [])
    (hlines : ∀ line ∈ earlier ++ [last], '\n' ∉ line)
    (h : parser.pushDelta (['\n'].intercalate (earlier ++ [last])) = .ok parser') :
    ∃ fed, earlier.foldlM feedLine parser = .ok fed ∧
      parser' = { fed with lineBuffer := last } := by
  induction earlier generalizing parser with
  | nil =>
    rw [nil_append, intercalate_singleton, pushDelta_of_not_mem _ (hlines last (by simp)),
      hbuffer, nil_append] at h
    exact ⟨parser, rfl, (Except.ok.inj h).symm⟩
  | cons line earlier ih =>
    have hcons : ['\n'].intercalate (line :: earlier ++ [last]) =
        line ++ (['\n'] ++ ['\n'].intercalate (earlier ++ [last])) := by
      cases earlier <;> simp [intercalate]
    rw [hcons, pushDelta_append, pushDelta_of_not_mem _ (hlines line (by simp)), ok_bind,
      pushDelta_append, pushDelta_newline, hbuffer, nil_append] at h
    obtain ⟨next, hnext, h⟩ := bind_eq_ok_iff.mp h
    have hempty : next.lineBuffer = [] := lineBuffer_processLine hnext
    obtain ⟨fed, hfed, hparser⟩ := ih hempty (fun line hline => hlines line (by simp_all)) h
    refine ⟨fed, ?_, hparser⟩
    have hfst : parser.feedLine line = .ok next := hnext
    rw [foldlM_cons, hfst, ok_bind, hfed]

lemma isAddition_stripCarriageReturn (line : Line) :
    isAddition (stripCarriageReturn line) = isAddition line := by
  rw [isAddition, isAddition, decide_eq_decide]
  exact head_stripCarriageReturn (by decide)

/-- The line feeds in the contents of the added files. -/
def lineFeeds (hunks : List Hunk) : ℕ :=
  (hunks.map fun hunk => hunk.contents.count '\n').sum

/-- Contents that are not empty end with a line feed. -/
def Terminated (hunk : Hunk) : Prop :=
  hunk.contents = [] ∨ hunk.contents.getLast? = some '\n'

/-- The hunks of a parser after some lines. -/
structure AddsLines (hunks : List Hunk) (lines : List Line) (hunks' : List Hunk) : Prop where
  paths : hunks'.map Hunk.source = hunks.map Hunk.source ++ lines.filterMap headerPath
  lineFeeds : lineFeeds hunks' = lineFeeds hunks + lines.countP isAddition
  terminated : (∀ hunk ∈ hunks, Terminated hunk) → ∀ hunk ∈ hunks', Terminated hunk

lemma Adds.addsLines (h : Adds parser line parser') (hline : '\n' ∉ line) :
    AddsLines parser.hunks [line] parser'.hunks := by
  cases h with
  | quiet hunks hpath hplus =>
    exact ⟨by simp [hunks, hpath], by simp [hunks, hplus], fun h => hunks ▸ h⟩
  | header path hpath hunks =>
    have hplus : isAddition line = false := by
      rw [Bool.eq_false_iff]
      intro hplus
      rw [headerPath_of_isAddition hplus] at hpath
      cases hpath
    refine ⟨by simp [hunks, hpath, Hunk.source], by simp [hunks, hplus, lineFeeds, Hunk.contents],
      ?_⟩
    intro hterm hunk hmem
    rw [hunks, mem_append, mem_singleton] at hmem
    rcases hmem with hmem | rfl
    · exact hterm hunk hmem
    · exact .inl rfl
  | addition earlier path contents text heq before after =>
    have hplus : isAddition line = true := by simp [heq, isAddition]
    have htext : text.count '\n' = 0 := by
      rw [count_eq_zero]
      exact fun hmem => hline (by simp [heq, hmem])
    refine ⟨by simp [before, after, Hunk.source, headerPath_of_isAddition hplus], ?_, ?_⟩
    · simp [before, after, lineFeeds, Hunk.contents, htext, hplus]
      omega
    · intro hterm hunk hmem
      rw [after, mem_append, mem_singleton] at hmem
      rcases hmem with hmem | rfl
      · exact hterm hunk (by simp [before, hmem])
      · exact .inr (by simp [Hunk.contents])

lemma AddsLines.trans {hunks hunks' hunks'' : List Hunk} {lines lines' : List Line}
    (h : AddsLines hunks lines hunks') (h' : AddsLines hunks' lines' hunks'') :
    AddsLines hunks (lines ++ lines') hunks'' where
  paths := by rw [h'.paths, h.paths, filterMap_append, append_assoc]
  lineFeeds := by rw [h'.lineFeeds, h.lineFeeds, countP_append, Nat.add_assoc]
  terminated hterm := h'.terminated (h.terminated hterm)

lemma HasOther.run {lines : List Line} (hother : parser.HasOther)
    (h : lines.foldlM feedLine parser = .ok parser') : parser'.HasOther := by
  induction lines generalizing parser with
  | nil =>
    cases h
    exact hother
  | cons line lines ih =>
    rw [foldlM_cons] at h
    obtain ⟨next, hnext, h⟩ := bind_eq_ok_iff.mp h
    have hstart : HasOther { parser with lineBuffer := [], lineNumber := parser.lineNumber + 1 } :=
      hother
    exact ih (hstart.processLine hnext) h

/-- The hunks of a run that only adds files. -/
lemma Plain.run {lines : List Line} (hplain : parser.Plain)
    (hlines : ∀ line ∈ lines, '\n' ∉ line) (hadds : ∀ hunk ∈ parser'.hunks, hunk.isAdd = true)
    (h : lines.foldlM feedLine parser = .ok parser') :
    AddsLines parser.hunks lines parser'.hunks := by
  induction lines generalizing parser with
  | nil =>
    cases h
    exact ⟨by simp, by simp, id⟩
  | cons line lines ih =>
    rw [foldlM_cons] at h
    obtain ⟨next, hnext, h⟩ := bind_eq_ok_iff.mp h
    have hstart : Plain
        { parser with lineBuffer := [], lineNumber := parser.lineNumber + 1 } :=
      ⟨hplain.adds, hplain.not_delete, hplain.not_update⟩
    rcases hstart.processLine hnext with hother | ⟨hnextPlain, hstep⟩
    · -- the run keeps a hunk that does not add a file
      obtain ⟨hunk, hmem, hhunk⟩ := hother.run h
      rw [hadds hunk hmem] at hhunk
      cases hhunk
    · have hfst := hstep.addsLines fun hmem =>
        hlines line (by simp) ((stripCarriageReturn_sublist line).subset hmem)
      have hsame : AddsLines parser.hunks [line] next.hunks := by
        refine ⟨?_, ?_, hfst.terminated⟩
        · simpa [filterMap_cons, headerPath, trim_stripCarriageReturn] using hfst.paths
        · simpa [countP_cons, isAddition_stripCarriageReturn] using hfst.lineFeeds
      exact hsame.trans (ih hnextPlain (fun line hline => hlines line (by simp [hline])) h)

end StreamingPatchParser

open StreamingPatchParser

/-- The lines of a patch without those of a here-document around it. -/
def patchLines (patch : Line) : List Line :=
  match checkPatchBoundariesLenient (lines (trim patch)) with
  | .ok lines => lines
  | .error _ => []

lemma checkPatchBoundariesStrict_eq_ok_iff {lines acc : List Line} :
    checkPatchBoundariesStrict lines = .ok acc ↔
      acc = lines ∧ lines.head?.map trim = some beginPatchMarker.toList ∧
        lines.getLast?.map trim = some endPatchMarker.toList := by
  rw [checkPatchBoundariesStrict]
  split
  next first last hfst hlast =>
    rw [hfst, hlast, Option.some_inj, Option.some_inj]
    split_ifs <;> simp_all [eq_comm]
  next hnone =>
    simp only [reduceCtorEq, false_iff, not_and]
    intro _ hfst hlast
    exact hnone _ _ hfst hlast

/-- The lines around a patch. -/
inductive Framed (lines accepted : List Line) : Prop where
  | bare (h : accepted = lines)
  | heredoc (opening closing : Line) (hopening : opening ∈ heredocMarkers)
    (hclosing : "EOF".toList <:+ closing) (h : lines = opening :: (accepted ++ [closing]))

lemma checkPatchBoundariesLenient_ok {lines accepted : List Line}
    (h : checkPatchBoundariesLenient lines = .ok accepted) :
    Framed lines accepted ∧ checkPatchBoundariesStrict accepted = .ok accepted := by
  rw [checkPatchBoundariesLenient] at h
  split at h
  next strict hstr =>
    cases h
    obtain ⟨rfl, -⟩ := checkPatchBoundariesStrict_eq_ok_iff.mp hstr
    exact ⟨.bare rfl, hstr⟩
  next =>
    split at h
    next first last hfst hlast =>
      split_ifs at h with hframe
      obtain ⟨hopening, hclosing, hlen⟩ := hframe
      obtain ⟨rfl, -⟩ := checkPatchBoundariesStrict_eq_ok_iff.mp h
      refine ⟨.heredoc first last hopening hclosing ?_, h⟩
      obtain ⟨rest, rfl⟩ := head?_eq_some_iff.mp hfst
      have hne : rest ≠ [] := by
        rintro rfl
        simp at hlen
      rw [getLast?_cons_of_ne_nil hne] at hlast
      rw [tail_cons, dropLast_append_getLast? last hlast]
    next => cases h

lemma Framed.subset {lines acc : List Line} (h : Framed lines acc) :
    ∀ line ∈ acc, line ∈ lines := by
  cases h with
  | bare h => exact fun line hline => h ▸ hline
  | heredoc opening closing _ _ h =>
    intro line hline
    simp [h, hline]

/-- The end of the patch is no part of a hunk. -/
lemma finish_hunks {parser parser' : StreamingPatchParser}
    (hend : trim parser.lineBuffer = endPatchMarker.toList) (h : parser.finish = .ok parser') :
    parser'.hunks = parser.hunks := by
  have hne : parser.lineBuffer.isEmpty = false := by
    rw [Bool.eq_false_iff]
    intro hempty
    rw [isEmpty_iff.mp hempty] at hend
    exact absurd hend (by decide)
  rw [finish, finishLine, hne, if_neg Bool.false_ne_true, if_pos hend] at h
  obtain ⟨ended, hended, h⟩ := bind_eq_ok_iff.mp h
  obtain ⟨-, -, hended⟩ := bind_eq_ok_iff.mp hended
  cases hended
  cases h
  rfl

/-- The hunks of a patch that only adds files are those of its lines. -/
theorem parsePatch_adds {patch : Line} {args : ApplyPatchArgs} (h : parsePatch patch = .ok args)
    (hadds : ∀ hunk ∈ args.hunks, hunk.isAdd = true) :
    Framed (lines (trim patch)) (patchLines patch) ∧
      ∃ first middle last, patchLines patch = first :: (middle ++ [last]) ∧
        trim first = beginPatchMarker.toList ∧ trim last = endPatchMarker.toList ∧
        AddsLines [] (first :: middle) args.hunks := by
  obtain ⟨acc, haccepted, h⟩ := bind_eq_ok_iff.mp h
  obtain ⟨pushed, hpushed, h⟩ := bind_eq_ok_iff.mp h
  obtain ⟨finished, hfinished, h⟩ := bind_eq_ok_iff.mp h
  cases h
  obtain ⟨hframed, hstr⟩ := checkPatchBoundariesLenient_ok haccepted
  obtain ⟨-, hfst, hlast⟩ := checkPatchBoundariesStrict_eq_ok_iff.mp hstr
  -- a patch begins and ends with different markers, so it has two lines
  obtain ⟨first, rest, rfl⟩ := exists_cons_of_ne_nil (l := acc) (by rintro rfl; cases hfst)
  rw [head?_cons, Option.map_some, Option.some_inj] at hfst
  rcases eq_nil_or_concat' rest with rfl | ⟨middle, last, rfl⟩
  · rw [getLast?_singleton, Option.map_some, Option.some_inj, hfst] at hlast
    exact absurd hlast (by decide)
  rw [← cons_append, getLast?_concat, Option.map_some, Option.some_inj] at hlast
  have hlines : patchLines patch = first :: (middle ++ [last]) := by
    rw [patchLines, haccepted]
  rw [hlines]
  refine ⟨hframed, first, middle, last, rfl, hfst, hlast, ?_⟩
  have hnl : ∀ line ∈ (first :: middle) ++ [last], '\n' ∉ line := fun line hline =>
    newline_not_mem_lines (hframed.subset line hline)
  obtain ⟨fed, hfed, rfl⟩ := pushDelta_intercalate rfl hnl hpushed
  have hhunks : finished.hunks = { fed with lineBuffer := last }.hunks :=
    finish_hunks hlast hfinished
  have hplain : Plain {} := ⟨by simp, by simp, by simp⟩
  have hrun := hplain.run (fun line hline => hnl line (mem_append_left _ hline))
    (fun hunk hhunk => hadds hunk (hhunks ▸ hhunk)) hfed
  rw [hhunks]
  exact hrun

end ExperienceCodex.ApplyPatch
