import Mathlib

/-!
# Lines of a text

A text is split at its line feeds.  Each line that a line feed ends loses one carriage return
before it, and what follows the last line feed is a line unless it is empty.

White space around a text adds lines of white space, and white space to its first and last line.
-/

namespace ExperienceCodex.Lines

open List

section
variable {α : Type} [BEq α] [LawfulBEq α] {separator : α}

omit [LawfulBEq α] in
lemma exists_splitOn_eq (separator : α) (text : List α) :
    ∃ before last, text.splitOn separator = before ++ [last] :=
  ⟨_, _, (dropLast_append_getLast (splitOn_ne_nil separator text)).symm⟩

section
variable {xs ys : List α} {before after : List (List α)} {x y : List α}

omit [BEq α] [LawfulBEq α] in
lemma splitOnP_append {sep : α → Bool} (hxs : xs.splitOnP sep = before ++ [x])
    (hys : ys.splitOnP sep = y :: after) :
    (xs ++ ys).splitOnP sep = before ++ (x ++ y) :: after := by
  induction xs generalizing before x with
  | nil =>
    obtain ⟨rfl, hx⟩ := append_inj' (show [] ++ [[]] = before ++ [x] from hxs) rfl
    cases hx
    exact hys
  | cons c xs ih =>
    obtain ⟨pieces, last, hrest⟩ : ∃ pieces last, xs.splitOnP sep = pieces ++ [last] :=
      ⟨_, _, (dropLast_append_getLast (splitOnP_ne_nil sep xs)).symm⟩
    rw [splitOnP_cons_eq_if_modifyHead, hrest] at hxs
    rw [cons_append, splitOnP_cons_eq_if_modifyHead, ih hrest]
    split_ifs at hxs ⊢
    · obtain ⟨rfl, hx⟩ := append_inj' (show ([] :: pieces) ++ [last] = before ++ [x] from hxs) rfl
      cases hx
      rfl
    · cases pieces with
      | nil =>
        obtain ⟨rfl, hx⟩ := append_inj' (show [] ++ [c :: last] = before ++ [x] from hxs) rfl
        cases hx
        rfl
      | cons first pieces =>
        obtain ⟨rfl, hx⟩ :=
          append_inj' (show ((c :: first) :: pieces) ++ [last] = before ++ [x] from hxs) rfl
        cases hx
        rfl

omit [LawfulBEq α] in
lemma splitOn_append (hxs : xs.splitOn separator = before ++ [x])
    (hys : ys.splitOn separator = y :: after) :
    (xs ++ ys).splitOn separator = before ++ (x ++ y) :: after :=
  splitOnP_append hxs hys

end

omit [BEq α] [LawfulBEq α] in
lemma part_of_intercalate {separator piece : List α} {pieces : List (List α)} (h : piece ∈ pieces) :
    piece <:+: separator.intercalate pieces := by
  obtain ⟨before, after, rfl⟩ := append_of_mem h
  induction before with
  | nil =>
    cases after with
    | nil => simp
    | cons next after =>
      rw [nil_append, intercalate_cons_cons, append_assoc]
      exact (prefix_append piece _).isInfix
  | cons first before ih =>
    rw [cons_append, intercalate_cons_of_ne_nil (by simp)]
    exact (ih (by simp)).trans (suffix_append _ _).isInfix

/-- The pieces hold the elements of the text that do not separate them. -/
lemma mem_of_mem_splitOnP {α : Type} {sep : α → Bool} {text piece : List α}
    (h : piece ∈ text.splitOnP sep) : ∀ c ∈ piece, c ∈ text ∧ sep c = false := by
  induction text generalizing piece with
  | nil => simp_all
  | cons first text ih =>
    intro c hc
    rw [splitOnP_cons_eq_if_modifyHead] at h
    split_ifs at h with hfst
    · rcases mem_cons.mp h with rfl | h
      · exact absurd hc not_mem_nil
      · exact (ih h c hc).imp_left (mem_cons_of_mem first)
    · cases hsplit : text.splitOnP sep with
      | nil => exact absurd hsplit (splitOnP_ne_nil _ _)
      | cons head rest =>
        rw [hsplit, modifyHead_cons, mem_cons] at h
        rcases h with rfl | h
        · rcases mem_cons.mp hc with rfl | hc
          · exact ⟨mem_cons_self, Bool.eq_false_iff.mpr hfst⟩
          · exact (ih (by simp [hsplit]) c hc).imp_left (mem_cons_of_mem first)
        · exact (ih (by simp [hsplit, h]) c hc).imp_left (mem_cons_of_mem first)

lemma mem_of_mem_splitOn {text piece : List α} (h : piece ∈ text.splitOn separator) :
    ∀ c ∈ piece, c ∈ text ∧ c ≠ separator := fun c hc =>
  (mem_of_mem_splitOnP h c hc).imp_right beq_eq_false_iff_ne.mp

end

lemma head_dropped {α : Type} (p : α → Bool) (text : List α) :
    ∀ c ∈ ((text.dropWhile p).rdropWhile p).head?, p c = false := by
  intro c hc
  obtain ⟨rest, hrest⟩ := rdropWhile_prefix p (text.dropWhile p)
  have hhead := head?_dropWhile_not p text
  rw [← hrest, head?_append, hc] at hhead
  simpa using hhead

lemma getLast_dropped {α : Type} (p : α → Bool) (text : List α) :
    ∀ c ∈ (text.rdropWhile p).getLast?, p c = false := by
  intro c hc
  obtain ⟨hne, hlast⟩ := mem_getLast?_eq_getLast hc
  have hnot := rdropWhile_last_not p _ hne
  rw [← hlast] at hnot
  exact Bool.eq_false_iff.mpr hnot

/-- A line without the carriage return at its end. -/
def stripCarriageReturn (line : List Char) : List Char :=
  if line.getLast? = some '\r' then line.dropLast else line

/-- The last piece of a text is a line unless it is empty. -/
def lastLine (piece : List Char) : List (List Char) :=
  if piece.isEmpty then [] else [piece]

/-- `str::lines`. -/
def lines (text : List Char) : List (List Char) :=
  let pieces := text.splitOn '\n'
  pieces.dropLast.map stripCarriageReturn ++ lastLine (pieces.getLastD [])

lemma lines_eq {text : List Char} {before : List (List Char)} {last : List Char}
    (h : text.splitOn '\n' = before ++ [last]) :
    lines text = before.map stripCarriageReturn ++ lastLine last := by
  simp [lines, h]

variable {line : List Char}

lemma stripCarriageReturn_append {rest : List Char} (h : rest ≠ []) :
    stripCarriageReturn (line ++ rest) = line ++ stripCarriageReturn rest := by
  rw [stripCarriageReturn, stripCarriageReturn, getLast?_append_of_ne_nil _ h]
  split_ifs with hlast
  · exact dropLast_append_of_ne_nil h
  · rfl

lemma stripCarriageReturn_sublist (line : List Char) :
    (stripCarriageReturn line).Sublist line := by
  rw [stripCarriageReturn]
  split_ifs
  · exact dropLast_sublist line
  · exact Sublist.refl line

lemma head_stripCarriageReturn {c : Char} (hc : c ≠ '\r') :
    (stripCarriageReturn line).head? = some c ↔ line.head? = some c := by
  rw [stripCarriageReturn]
  split_ifs with hlast
  · cases line with
    | nil => simp
    | cons first rest =>
      cases rest with
      | nil =>
        have hfst : first = '\r' := by simpa using hlast
        simp [hfst, hc.symm]
      | cons second rest => simp
  · rfl

lemma mem_of_mem_lines {text : List Char} (h : line ∈ lines text) :
    ∀ c ∈ line, c ∈ text ∧ c ≠ '\n' := by
  obtain ⟨before, last, hpieces⟩ := exists_splitOn_eq '\n' text
  have hpiece : ∀ piece ∈ before ++ [last], ∀ c ∈ piece, c ∈ text ∧ c ≠ '\n' :=
    fun piece hmem => mem_of_mem_splitOn (hpieces ▸ hmem)
  rw [lines_eq hpieces, mem_append, mem_map] at h
  intro c hc
  rcases h with ⟨piece, hmem, rfl⟩ | h
  · exact hpiece piece (by simp [hmem]) c ((stripCarriageReturn_sublist piece).subset hc)
  · rw [lastLine] at h
    split_ifs at h
    · exact absurd h not_mem_nil
    · rw [mem_singleton.mp h] at hc
      exact hpiece last (by simp) c hc

lemma newline_not_mem_lines {text : List Char} (h : line ∈ lines text) : '\n' ∉ line :=
  fun hnewline => (mem_of_mem_lines h _ hnewline).2 rfl

/-- A line that a line feed ends. -/
lemma lines_cons {rest : List Char} (h : '\n' ∉ line) :
    lines (line ++ '\n' :: rest) = stripCarriageReturn line :: lines rest := by
  obtain ⟨before, last, hbefore⟩ := exists_splitOn_eq '\n' rest
  have hwhole : (line ++ '\n' :: rest).splitOn '\n' = (line :: before) ++ [last] := by
    rw [splitOn_append_cons_self_of_not_mem h, hbefore]
    rfl
  rw [lines_eq hwhole, lines_eq hbefore]
  rfl

/-- A last line that no line feed ends. -/
lemma lines_of_ne_nil (h : '\n' ∉ line) (hne : line ≠ []) :
    lines line = [line] := by
  have hline : line.splitOn '\n' = [] ++ [line] := splitOn_eq_singleton h
  rw [lines_eq hline, lastLine, if_neg (by simpa using hne)]
  rfl

/-- Whole lines in front of a text. -/
lemma lines_append {front rest : List Char} (h : front = [] ∨ front.getLast? = some '\n') :
    lines (front ++ rest) = lines front ++ lines rest := by
  rcases h with rfl | h
  · rfl
  obtain ⟨start, rfl⟩ : ∃ start, front = start ++ ['\n'] := by
    obtain ⟨start, hstart⟩ := getLast?_eq_some_iff.mp h
    exact ⟨start, hstart⟩
  obtain ⟨before, last, hbefore⟩ := exists_splitOn_eq '\n' start
  obtain ⟨after, final, hafter⟩ := exists_splitOn_eq '\n' rest
  have hfront : (start ++ ['\n']).splitOn '\n' = (before ++ [last]) ++ [[]] := by
    rw [splitOn_append_cons_self, hbefore, splitOn_nil]
  have hwhole : (start ++ ['\n'] ++ rest).splitOn '\n' =
      (before ++ [last] ++ after) ++ [final] := by
    rw [append_assoc, singleton_append, splitOn_append_cons_self, hbefore, hafter]
    simp
  rw [lines_eq hfront, lines_eq hwhole, lines_eq hafter, map_append]
  simp [lastLine]

section
variable {space : Char → Bool}

/-- A text that holds white space only. -/
abbrev Blank (space : Char → Bool) (text : List Char) : Prop := ∀ c ∈ text, space c = true

lemma blank_nil : Blank space [] :=
  forall_mem_nil _

lemma blank_stripCarriageReturn (h : Blank space line) :
    Blank space (stripCarriageReturn line) :=
  fun c hc => h c ((stripCarriageReturn_sublist line).subset hc)

lemma blank_lastLine (h : Blank space line) :
    ∀ piece ∈ lastLine line, Blank space piece := by
  intro piece hpiece
  rw [lastLine] at hpiece
  split_ifs at hpiece
  · exact absurd hpiece not_mem_nil
  · rwa [mem_singleton.mp hpiece]

/-- The first line of a text behind white space. -/
lemma lines_blank_append {blank text first : List Char} {rest : List (List Char)}
    (hblank : Blank space blank) (hfst : first ≠ [])
    (hpieces : text.splitOn '\n' = first :: rest) (hrest : rest ≠ []) :
    ∃ above indent, (∀ line ∈ above, Blank space line) ∧ Blank space indent ∧
      lines (blank ++ text) = above ++ (indent ++ stripCarriageReturn first) ::
        (rest.dropLast.map stripCarriageReturn ++ lastLine (rest.getLastD [])) := by
  obtain ⟨before, last, hbefore⟩ := exists_splitOn_eq '\n' blank
  have hspaces : ∀ piece ∈ before ++ [last], Blank space piece := by
    intro piece hpiece c hc
    exact hblank c (mem_of_mem_splitOn (hbefore ▸ hpiece) c hc).1
  obtain ⟨middle, final, rfl⟩ : ∃ middle final, rest = middle ++ [final] :=
    ⟨_, _, (dropLast_append_getLast hrest).symm⟩
  refine ⟨before.map stripCarriageReturn, last, ?_, hspaces last (by simp), ?_⟩
  · intro line hline
    obtain ⟨piece, hpiece, rfl⟩ := mem_map.mp hline
    exact blank_stripCarriageReturn (hspaces piece (by simp [hpiece]))
  · have hsplit : (blank ++ text).splitOn '\n' =
        (before ++ (last ++ first) :: middle) ++ [final] := by
      rw [splitOn_append hbefore hpieces]
      simp
    rw [lines_eq hsplit]
    simp [stripCarriageReturn_append hfst]

variable (hnewline : space '\n' = true) (hreturn : space '\r' = true)
include hnewline hreturn

/-- White space around a text changes its first and last line only, and adds blank lines. -/
theorem lines_surrounded {before text after first last : List Char} {middle : List (List Char)}
    (hbefore : Blank space before) (hafter : Blank space after)
    (hhead : ∀ c ∈ text.head?, space c = false) (hlast : ∀ c ∈ text.getLast?, space c = false)
    (hlines : lines text = first :: (middle ++ [last])) :
    ∃ above indent trail below, (∀ line ∈ above, Blank space line) ∧ Blank space indent ∧
      Blank space trail ∧ (∀ line ∈ below, Blank space line) ∧
      lines (before ++ text ++ after) =
        above ++ (indent ++ first) :: (middle ++ (last ++ trail) :: below) := by
  have hne : text ≠ [] := by
    rintro rfl
    simp [lines, lastLine] at hlines
  obtain ⟨c, start, rfl⟩ := exists_cons_of_ne_nil hne
  have hc : c ≠ '\n' := by
    rintro rfl
    simp [hnewline] at hhead
  obtain ⟨initial, d, htext⟩ : ∃ initial d, c :: start = initial ++ [d] :=
    ⟨_, _, (dropLast_append_getLast hne).symm⟩
  have hd : space d = false := hlast d (by simp [htext])
  have hdn : d ≠ '\n' := by
    rintro rfl
    simp [hnewline] at hd
  have hdr : d ≠ '\r' := by
    rintro rfl
    simp [hreturn] at hd
  obtain ⟨piece, rest, hsplit⟩ := exists_cons_of_ne_nil (splitOn_ne_nil '\n' start)
  have hpieces : (c :: start).splitOn '\n' = (c :: piece) :: rest := by
    rw [splitOn_cons_eq_if_modifyHead, hsplit, if_neg (by simpa using hc), modifyHead_cons]
  obtain ⟨pieces, final, hinitial⟩ := exists_splitOn_eq '\n' initial
  have hsingle : [d].splitOn '\n' = [[d]] := splitOn_eq_singleton (by simpa using hdn.symm)
  have hfinal := splitOn_append hinitial hsingle
  rw [← htext, hpieces] at hfinal
  -- the text has a line feed, for it has two lines
  cases pieces with
  | nil =>
    obtain ⟨-, rfl⟩ : (c :: piece) = final ++ [d] ∧ rest = [] := by simpa using hfinal
    have hsingle : (c :: start).splitOn '\n' = [] ++ [c :: piece] := hpieces
    rw [lines_eq hsingle, lastLine] at hlines
    simp at hlines
  | cons head pieces =>
    obtain ⟨rfl, rfl⟩ : (c :: piece) = head ∧ rest = pieces ++ [final ++ [d]] := by
      simpa using hfinal
    have hsplit : (c :: start).splitOn '\n' = (c :: piece) :: pieces ++ [final ++ [d]] := hpieces
    rw [lines_eq hsplit, lastLine, if_neg (by simp), map_cons, cons_append,
      cons.injEq] at hlines
    obtain ⟨hfst, hrest⟩ := hlines
    obtain ⟨rfl, hlastLine⟩ := append_inj' hrest rfl
    rw [← singleton_inj.mp hlastLine, ← hfst]
    obtain ⟨tail, ending, hending⟩ := exists_cons_of_ne_nil (splitOn_ne_nil '\n' after)
    have hspaces : ∀ piece ∈ tail :: ending, Blank space piece := by
      intro piece hpiece c hc
      exact hafter c (mem_of_mem_splitOn (hending ▸ hpiece) c hc).1
    have hwhole : (c :: start ++ after).splitOn '\n' =
        (c :: piece) :: (pieces ++ (final ++ [d] ++ tail) :: ending) := by
      rw [splitOn_append hsplit hending]
      simp
    obtain ⟨above, indent, habove, hindent, hall⟩ :=
      lines_blank_append hbefore (cons_ne_nil c piece) hwhole (by simp)
    rw [append_assoc, hall]
    rcases eq_nil_or_concat ending with rfl | ⟨ending, line, rfl⟩
    · refine ⟨above, indent, tail, [], habove, hindent, hspaces tail (by simp), by simp, ?_⟩
      simp [lastLine]
    · obtain ⟨trail, htrail, hstrip⟩ : ∃ trail, Blank space trail ∧
          stripCarriageReturn (final ++ [d] ++ tail) = final ++ [d] ++ trail := by
        by_cases hempty : tail = []
        · refine ⟨[], blank_nil, ?_⟩
          simp [stripCarriageReturn, hempty, hdr]
        · exact ⟨_, blank_stripCarriageReturn (hspaces tail (by simp)),
            stripCarriageReturn_append hempty⟩
      refine ⟨above, indent, trail, ending.map stripCarriageReturn ++ lastLine line, habove,
        hindent, htrail, ?_, ?_⟩
      · intro below hbelow
        rcases mem_append.mp hbelow with hbelow | hbelow
        · obtain ⟨piece, hpiece, rfl⟩ := mem_map.mp hbelow
          exact blank_stripCarriageReturn (hspaces piece (by simp [hpiece]))
        · exact blank_lastLine (hspaces line (by simp)) below hbelow
      · have hinitial : pieces ++ (final ++ [d] ++ tail) :: (ending ++ [line]) =
            (pieces ++ (final ++ [d] ++ tail) :: ending) ++ [line] := by
          simp
        rw [concat_eq_append, hinitial, dropLast_concat, getLastD_concat,
          map_append, map_cons, hstrip]
        simp

end

end ExperienceCodex.Lines
