import ExperienceCodex.PatchAdds
import ExperienceCodex.ShellTranslate

/-!
# Patch translation against patch application

A patch that only adds files is applied by one reader of the format and translated by another.  The
translation separates the added lines by line feeds where the application ends each of them with
one, and it knows the headers at the beginning of a line only.
-/

namespace ExperienceCodex.ShellTranslate

open List hiding modifyLast
open ApplyPatch ApplyPatch.StreamingPatchParser Lines

variable {line patch : Line}

/-- The path in a header at the beginning of a line. -/
def columnPath (line : Line) : Option Line :=
  (strip "*** Add File:" line).map trim

/-- A header that the translation refuses. -/
abbrev IsRefused (line : Line) : Prop :=
  "*** Update File:".toList <+: line ∨ "*** Delete File:".toList <+: line

/-- A path with the lines that are added below it. -/
abbrev Block := Line × List Line

def addLine (blocks : List Block) (line : Line) : List Block :=
  match columnPath line with
  | some path => blocks ++ [(path, [])]
  | none =>
    match line with
    | '+' :: text => modifyLast (fun block => (block.1, block.2 ++ [text])) blocks
    | _ => blocks

def blocksOf (lines : List Line) : List Block :=
  lines.foldl addLine []

def Block.step (block : Block) : ObservedStep :=
  writeFile block.1 (['\n'].intercalate block.2)

/-- The scan that has read some blocks. -/
def scanOf (blocks : List Block) : PatchScan where
  translated := blocks.dropLast.map Block.step
  currentPath := blocks.getLast?.map Prod.fst
  content := (blocks.getLast?.map Prod.snd).getD []

variable (blocks : List Block)

lemma flush_scanOf :
    (scanOf blocks).flush.translated = blocks.map Block.step := by
  rcases eq_nil_or_concat blocks with rfl | ⟨blocks, last, rfl⟩
  · rfl
  · simp [scanOf, PatchScan.flush, Block.step]

lemma scanOf_concat (block : Block) :
    scanOf (blocks ++ [block]) =
      { translated := blocks.map Block.step, currentPath := some block.1, content := block.2 } := by
  simp [scanOf]

lemma columnPath_eq_none_iff :
    columnPath line = none ↔ strip "*** Add File:" line = none := by
  rw [columnPath, Option.map_eq_none_iff]

lemma modifyLast_nil {α : Type} (change : α → α) : modifyLast change [] = [] := rfl

lemma modifyLast_concat {α : Type} (change : α → α) (items : List α) (last : α) :
    modifyLast change (items ++ [last]) = items ++ [change last] := by
  simp [modifyLast]

lemma addLine_header {path : Line} (h : columnPath line = some path) (blocks : List Block) :
    addLine blocks line = blocks ++ [(path, [])] := by
  simp only [addLine, h]

lemma not_isPrefix_addition {marker : Line} (h : marker.head? = some '*') (text : Line) :
    ¬ marker <+: '+' :: text := by
  intro hmark
  simpa using head_of_isPrefix hmark h

lemma columnPath_addition (text : Line) : columnPath ('+' :: text) = none := by
  rw [columnPath_eq_none_iff, strip_eq_none_iff]
  exact not_isPrefix_addition (by decide) text

lemma addLine_addition (text : Line) :
    addLine blocks ('+' :: text) =
      modifyLast (fun block => (block.1, block.2 ++ [text])) blocks := by
  simp only [addLine, columnPath_addition]

lemma addLine_other (hpath : columnPath line = none)
    (hline : isAddition line = false) (blocks : List Block) : addLine blocks line = blocks := by
  simp only [addLine, hpath]
  split
  next => simp [isAddition] at hline
  next => rfl

/-- A line is a header, an added line or neither. -/
lemma line_cases (line : Line) :
    (∃ path, columnPath line = some path) ∨ (∃ text, line = '+' :: text) ∨
      (columnPath line = none ∧ isAddition line = false) := by
  cases hpath : columnPath line with
  | some path => exact .inl ⟨path, rfl⟩
  | none =>
    cases hline : isAddition line with
    | false => exact .inr (.inr ⟨rfl, rfl⟩)
    | true =>
      rw [isAddition, decide_eq_true_iff, head?_eq_some_iff] at hline
      exact .inr (.inl hline)

lemma scan_line (h : ¬ IsRefused line) (blocks : List Block) :
    (scanOf blocks).line line = .ok (scanOf (addLine blocks line)) := by
  rcases line_cases line with ⟨path, hpath⟩ | ⟨text, rfl⟩ | ⟨hpath, hline⟩
  · rw [addLine_header hpath, scanOf_concat]
    obtain ⟨rest, hrest, rfl⟩ := Option.map_eq_some_iff.mp hpath
    have hflush := flush_scanOf blocks
    simp only [PatchScan.line, hrest, PatchScan.flush] at hflush ⊢
    rw [hflush]
  · rw [addLine_addition]
    have hnone := columnPath_eq_none_iff.mp (columnPath_addition text)
    have hstars : ¬ "*** ".toList <+: '+' :: text := not_isPrefix_addition (by decide) text
    simp only [PatchScan.line, hnone, if_neg h, if_neg hstars]
    rcases eq_nil_or_concat blocks with rfl | ⟨blocks, last, rfl⟩
    · rfl
    · rw [concat_eq_append, modifyLast_concat, scanOf_concat, scanOf_concat]
      rfl
  · rw [addLine_other hpath hline]
    have hnone := columnPath_eq_none_iff.mp hpath
    simp only [PatchScan.line, hnone, if_neg h]
    split_ifs
    · rfl
    · rfl
    · split
      next => simp [isAddition] at hline
      next => rfl

lemma scan_refused (h : IsRefused line) (scan : PatchScan) :
    scan.line line = .error "only 'Add File' hunks are translatable" := by
  have hnone : strip "*** Add File:" line = none := by
    rw [strip_eq_none_iff]
    rcases h with h | h
    · exact not_isPrefix_of_isPrefix h (by decide)
    · exact not_isPrefix_of_isPrefix h (by decide)
  simp only [PatchScan.line, hnone, if_pos h]

lemma scan_lines (lines : List Line) (blocks : List Block) :
    lines.foldlM PatchScan.line (scanOf blocks) =
      if ∃ line ∈ lines, IsRefused line then .error "only 'Add File' hunks are translatable"
      else .ok (scanOf (lines.foldl addLine blocks)) := by
  induction lines generalizing blocks with
  | nil => simp [pure, Except.pure]
  | cons line lines ih =>
    rw [foldlM_cons]
    by_cases hline : IsRefused line
    · rw [scan_refused hline, error_bind, if_pos ⟨line, by simp, hline⟩]
    · rw [scan_line hline, ok_bind, ih]
      simp [hline]

/-- The steps of a translated patch. -/
lemma translatePatchText_eq_ok_iff {steps : List ObservedStep} :
    translatePatchText patch = .ok steps ↔
      (∀ line ∈ lines patch, ¬ IsRefused line) ∧ blocksOf (lines patch) ≠ [] ∧
        steps = (blocksOf (lines patch)).map Block.step := by
  have hscan := scan_lines (lines patch) []
  rw [show scanOf [] = {} from rfl, ← blocksOf] at hscan
  rw [translatePatchText, hscan]
  split_ifs with hrefused
  · obtain ⟨line, hmem, hline⟩ := hrefused
    rw [error_bind]
    simp only [reduceCtorEq, false_iff, not_and]
    exact fun h => absurd hline (h line hmem)
  · rw [ok_bind, flush_scanOf]
    simp only [not_exists, not_and] at hrefused
    split_ifs with hempty
    · rw [List.isEmpty_iff, List.map_eq_nil_iff] at hempty
      simp [hempty]
    · rw [List.isEmpty_iff, List.map_eq_nil_iff] at hempty
      constructor
      · intro h
        exact ⟨hrefused, hempty, (Except.ok.inj h).symm⟩
      · rintro ⟨-, -, rfl⟩
        rfl

lemma map_fst_addLine (line : Line) :
    (addLine blocks line).map Prod.fst = blocks.map Prod.fst ++ (columnPath line).toList := by
  rcases line_cases line with ⟨path, hpath⟩ | ⟨text, rfl⟩ | ⟨hpath, hline⟩
  · simp [addLine_header hpath, hpath]
  · rw [addLine_addition, columnPath_addition]
    rcases eq_nil_or_concat blocks with rfl | ⟨blocks, last, rfl⟩
    · simp [modifyLast_nil]
    · simp [modifyLast_concat]
  · simp [addLine_other hpath hline, hpath]

lemma map_fst_foldl (lines : List Line) (blocks : List Block) :
    (lines.foldl addLine blocks).map Prod.fst =
      blocks.map Prod.fst ++ lines.filterMap columnPath := by
  induction lines generalizing blocks with
  | nil => simp
  | cons line lines ih =>
    rw [foldl_cons, ih, map_fst_addLine, append_assoc]
    cases hpath : columnPath line <;> simp [hpath]

lemma map_fst_blocksOf (lines : List Line) :
    (blocksOf lines).map Prod.fst = lines.filterMap columnPath := by
  rw [blocksOf, map_fst_foldl, map_nil, nil_append]

/-- The number of lines that are added below the paths. -/
def additions (blocks : List Block) : ℕ :=
  (blocks.map fun block => block.2.length).sum

lemma additions_addLine_le (line : Line) :
    additions (addLine blocks line) ≤ additions blocks + [line].countP isAddition := by
  rcases line_cases line with ⟨path, hpath⟩ | ⟨text, rfl⟩ | ⟨hpath, hline⟩
  · simp [addLine_header hpath, additions]
  · rw [addLine_addition]
    rcases eq_nil_or_concat blocks with rfl | ⟨blocks, last, rfl⟩
    · simp [modifyLast_nil, additions]
    · simp [modifyLast_concat, additions, isAddition]
      omega
  · simp [addLine_other hpath hline]

lemma additions_foldl_le (lines : List Line) (blocks : List Block) :
    additions (lines.foldl addLine blocks) ≤ additions blocks + lines.countP isAddition := by
  induction lines generalizing blocks with
  | nil => simp
  | cons line lines ih =>
    have hline := additions_addLine_le blocks line
    have hlines := ih (addLine blocks line)
    have hcount : (line :: lines).countP isAddition =
        [line].countP isAddition + lines.countP isAddition := by
      rw [← countP_append, singleton_append]
    rw [foldl_cons, hcount]
    omega

lemma additions_blocksOf_le (lines : List Line) :
    additions (blocksOf lines) ≤ lines.countP isAddition := by
  have hle := additions_foldl_le lines []
  rwa [show additions [] = 0 from rfl, zero_add] at hle

/-- The added lines have no line feeds of their own. -/
def Separate (blocks : List Block) : Prop :=
  ∀ block ∈ blocks, ∀ text ∈ block.2, '\n' ∉ text

variable {blocks : List Block}

lemma separate_foldl {lines : List Line} (hlines : ∀ line ∈ lines, '\n' ∉ line)
    (hblocks : Separate blocks) : Separate (lines.foldl addLine blocks) := by
  induction lines generalizing blocks with
  | nil => exact hblocks
  | cons line lines ih =>
    refine ih (fun line hline => hlines line (by simp [hline])) ?_
    rcases line_cases line with ⟨path, hpath⟩ | ⟨text, rfl⟩ | ⟨hpath, hline⟩
    · intro block hmem text htext
      rw [addLine_header hpath, mem_append, mem_singleton] at hmem
      rcases hmem with hmem | rfl
      · exact hblocks block hmem text htext
      · exact absurd htext not_mem_nil
    · rw [addLine_addition]
      rcases eq_nil_or_concat blocks with rfl | ⟨blocks, last, rfl⟩
      · exact hblocks
      · rw [concat_eq_append] at hblocks ⊢
        rw [modifyLast_concat]
        intro block hmem line hline
        rcases mem_append.mp hmem with hmem | hmem
        · exact hblocks block (by simp [hmem]) line hline
        · rw [mem_singleton.mp hmem] at hline
          rcases mem_append.mp hline with hline | hline
          · exact hblocks last (by simp) line hline
          · rw [mem_singleton.mp hline]
            intro hnl
            exact hlines ('+' :: text) (by simp) (by simp [hnl])
    · rw [addLine_other hpath hline]
      exact hblocks

lemma count_intercalate {texts : List Line} (h : ∀ text ∈ texts, '\n' ∉ text) :
    (['\n'].intercalate texts).count '\n' = texts.length - 1 := by
  induction texts with
  | nil => rfl
  | cons text texts ih =>
    have htext : text.count '\n' = 0 := count_eq_zero.mpr (h text (by simp))
    have hrest := ih fun text htext => h text (by simp [htext])
    cases texts with
    | nil => simpa using htext
    | cons next texts =>
      rw [intercalate_cons_cons, count_append, count_append, htext, hrest]
      simp
      omega

/-- Separating lines takes one line feed less than ending them, for each path with lines. -/
lemma eq_nil_of_additions_le
    (h : additions blocks ≤ (blocks.map fun block => block.2.length - 1).sum) :
    ∀ block ∈ blocks, block.2 = [] := by
  induction blocks with
  | nil => simp
  | cons block blocks ih =>
    have hle : (blocks.map fun block => block.2.length - 1).sum ≤ additions blocks :=
      sum_le_sum fun block _ => Nat.sub_le block.2.length 1
    have hcons : additions (block :: blocks) = block.2.length + additions blocks := by
      simp [additions]
    rw [hcons, map_cons, sum_cons] at h
    intro other hother
    rcases mem_cons.mp hother with rfl | hother
    · rw [← length_eq_zero_iff]
      omega
    · exact ih (by omega) other hother

structure Inert (line : Line) : Prop where
  header : columnPath line = none
  addition : isAddition line = false
  accepted : ¬ IsRefused line

lemma foldl_inert {lines : List Line} (h : ∀ line ∈ lines, Inert line) (blocks : List Block) :
    lines.foldl addLine blocks = blocks := by
  induction lines with
  | nil => rfl
  | cons line lines ih =>
    have hline := h line (by simp)
    rw [foldl_cons, addLine_other hline.header hline.addition]
    exact ih fun line hmem => h line (by simp [hmem])

lemma countP_inert {lines : List Line} (h : ∀ line ∈ lines, Inert line) :
    lines.countP isAddition = 0 :=
  countP_eq_zero.mpr fun line hline => by simp [(h line hline).addition]

/-- The beginnings of the lines that the translation reads. -/
def openings : List Line :=
  ["*** Add File:".toList, "*** Update File:".toList, "*** Delete File:".toList, ['+']]

lemma inert_of_openings (h : ∀ opening ∈ openings, ¬ opening <+: line) :
    Inert line where
  header := columnPath_eq_none_iff.mpr (strip_eq_none_iff.mpr (h _ (by simp [openings])))
  addition := by
    rw [isAddition, decide_eq_false_iff_not, head?_eq_some_iff]
    rintro ⟨rest, rfl⟩
    exact h ['+'] (by simp [openings]) ⟨rest, rfl⟩
  accepted := by
    rintro (hline | hline)
    · exact h _ (by simp [openings]) hline
    · exact h _ (by simp [openings]) hline

lemma head_opening {opening : Line} (h : opening ∈ openings) :
    ∃ c, opening.head? = some c ∧ Text.isWhitespace c = false := by
  have hall : ∀ opening ∈ openings, opening.head?.any fun c => !Text.isWhitespace c := by decide
  obtain ⟨c, hc⟩ := Option.isSome_iff_exists.mp
    (Option.isSome_of_any (hall opening h))
  refine ⟨c, hc, ?_⟩
  simpa [hc] using hall opening h

lemma inert_of_blank (h : Blank Text.isWhitespace line) : Inert line := by
  refine inert_of_openings fun opening hopening hline => ?_
  obtain ⟨c, hc, hspace⟩ := head_opening hopening
  have hmem := mem_of_head? (head_of_isPrefix hline hc)
  rw [h c hmem] at hspace
  cases hspace

/-- A line that is known by its beginning, once white space is dropped, is passed over. -/
lemma inert_of_trim {indent marker : Line} (hindent : Blank Text.isWhitespace indent)
    (hmark : marker <+: trim line)
    (hother : ∀ opening ∈ openings, ¬ marker <+: opening ∧ ¬ opening <+: marker) (trail : Line) :
    Inert (indent ++ line ++ trail) := by
  refine inert_of_openings fun opening hopening hline => ?_
  obtain ⟨c, hc, hspace⟩ := head_opening hopening
  have hhead := head_of_isPrefix hline hc
  cases indent with
  | cons first indent =>
    obtain rfl : first = c := by simpa using hhead
    rw [hindent first (by simp)] at hspace
    cases hspace
  | nil =>
    cases line with
    | nil =>
      have hnil : marker = [] := prefix_nil.mp hmark
      exact (hother opening hopening).1 (by simp [hnil])
    | cons first line =>
      obtain rfl : first = c := by simpa using hhead
      have htrim : trim (first :: line) <+: first :: line := by
        rw [trim, trimEnd, dropWhile_cons_of_neg (by simp [hspace])]
        exact rdropWhile_prefix _ _
      have hwhole : marker <+: [] ++ first :: line ++ trail :=
        (hmark.trans htrim).trans (by simp)
      exact not_isPrefix_of_isPrefix hwhole (hother opening hopening) hline

/-- The lines of an accepted patch as the translation sees them.  The line at the end is that of a
here-document, unless it is passed over as well. -/
structure Seen (seen : List Line) (additions : ℕ) : Prop where
  split : ∃ above inside closing below, seen = above ++ inside ++ closing :: below ∧
    (∀ line ∈ above, Inert line) ∧ (∀ line ∈ below, Inert line) ∧
    inside.countP isAddition = additions ∧ (Inert closing ∨ 2 ≤ closing.length)

lemma seen_of_framed {first last : Line} {middle : List Line}
    (hframed : Framed (lines (trim patch)) (first :: (middle ++ [last])))
    (hfst : trim first = beginPatchMarker.toList) (hlast : trim last = endPatchMarker.toList) :
    Seen (lines patch) ((first :: middle).countP isAddition) := by
  obtain ⟨before, after, hbefore, hafter, hpatch, hhead, hend⟩ := exists_trim patch
  have hbegin : ∀ indent, Blank Text.isWhitespace indent → Inert (indent ++ first) := by
    intro indent hindent
    have hmark : beginPatchMarker.toList <+: trim first := by rw [hfst]
    have h := inert_of_trim hindent hmark (by decide) []
    rwa [append_nil] at h
  cases hframed with
  | bare hbare =>
    obtain ⟨above, indent, trail, below, habove, hindent, -, hbelow, hall⟩ :=
      lines_surrounded (by decide) (by decide) hbefore hafter hhead hend hbare.symm
    rw [hpatch] at hall
    refine ⟨above ++ [indent ++ first], middle, last ++ trail, below, by simp [hall], ?_, ?_, ?_,
      .inl ?_⟩
    · intro line hline
      rcases mem_append.mp hline with hline | hline
      · exact inert_of_blank (habove line hline)
      · rw [mem_singleton.mp hline]
        exact hbegin indent hindent
    · exact fun line hline => inert_of_blank (hbelow line hline)
    · rw [countP_cons_of_neg]
      simpa using (hbegin [] blank_nil).addition
    · have hmark : endPatchMarker.toList <+: trim last := by rw [hlast]
      exact inert_of_trim blank_nil hmark (by decide) trail
  | heredoc opening closing hopening hclosing hlines =>
    obtain ⟨above, indent, trail, below, habove, hindent, -, hbelow, hall⟩ :=
      lines_surrounded (by decide) (by decide) hbefore hafter hhead hend hlines
    rw [hpatch] at hall
    refine ⟨above ++ [indent ++ opening], first :: (middle ++ [last]), closing ++ trail, below,
      by simp [hall], ?_, ?_, ?_, .inr ?_⟩
    · intro line hline
      rcases mem_append.mp hline with hline | hline
      · exact inert_of_blank (habove line hline)
      · rw [mem_singleton.mp hline]
        have hmarkers : ∀ opening ∈ heredocMarkers, "<<".toList <+: trim opening := by decide
        have h := inert_of_trim hindent (hmarkers opening hopening) (by decide) []
        rwa [append_nil] at h
    · exact fun line hline => inert_of_blank (hbelow line hline)
    · have hquiet : isAddition last = false :=
        isAddition_eq_false (by rw [hlast]; decide)
      rw [← cons_append, countP_append, countP_singleton, hquiet]
      simp
    · have hlen := hclosing.length_le
      have hthree : "EOF".toList.length = 3 := by decide
      rw [length_append]
      omega

/-- The step that writes what an added file is given by the application. -/
def appliedStep (hunk : Hunk) : ObservedStep :=
  writeFile hunk.source hunk.contents

/-- The patch adds files without contents, at headers that begin a line. -/
structure PlainPatch (patch : Line) : Prop where
  adds : (patchLines patch).filterMap headerPath ≠ []
  headers : (lines patch).filterMap columnPath = (patchLines patch).filterMap headerPath
  empty : ∀ line ∈ lines patch, isAddition line = false
  only : ∀ line ∈ lines patch, ¬ IsRefused line

lemma writeFile_inj {path path' content content' : Line} :
    writeFile path content = writeFile path' content' ↔ path = path' ∧ content = content' := by
  constructor
  · intro h
    have hargs : (writeFile path content).args = (writeFile path' content').args := by rw [h]
    simp only [writeFile, Json.object.injEq, cons.injEq, Prod.mk.injEq, Json.string.injEq,
      String.ofList_inj] at hargs
    exact ⟨hargs.2.1.2, hargs.1.2⟩
  · rintro ⟨rfl, rfl⟩
    rfl

variable {hunks : List Hunk}

lemma map_steps_inj :
    hunks.map appliedStep = blocks.map Block.step ↔
      hunks.map Hunk.source = blocks.map Prod.fst ∧
        hunks.map Hunk.contents = blocks.map fun block => ['\n'].intercalate block.2 := by
  induction hunks generalizing blocks with
  | nil => cases blocks <;> simp
  | cons hunk hunks ih =>
    cases blocks with
    | nil => simp
    | cons block blocks =>
      simp only [map_cons, cons.injEq, ih, appliedStep, Block.step, writeFile_inj]
      tauto

lemma getLast?_intercalate_concat (texts : List Line) {text : Line} (h : text ≠ []) :
    (['\n'].intercalate (texts ++ [text])).getLast? = text.getLast? := by
  induction texts with
  | nil => simp
  | cons first texts ih =>
    have hne : ['\n'].intercalate (texts ++ [text]) ≠ [] := by
      intro hnil
      rw [hnil, getLast?_nil] at ih
      exact h (getLast?_eq_none_iff.mp ih.symm)
    have hcons : ['\n'].intercalate (first :: texts ++ [text]) =
        first ++ ['\n'] ++ ['\n'].intercalate (texts ++ [text]) := by
      cases texts <;> simp [intercalate]
    rw [hcons, getLast?_append_of_ne_nil _ hne, ih]

/-- A line that ends a here-document would be the last line of a file, without a line feed. -/
lemma closing_not_addition {above below inside : List Line} {closing : Line}
    (habove : ∀ line ∈ above, Inert line) (hbelow : ∀ line ∈ below, Inert line)
    (hclosing : Inert closing ∨ 2 ≤ closing.length) (hnl : '\n' ∉ closing)
    (hterm : ∀ hunk ∈ hunks, Terminated hunk)
    (hne : blocksOf (above ++ inside ++ closing :: below) ≠ [])
    (hcontents : hunks.map Hunk.contents =
      (blocksOf (above ++ inside ++ closing :: below)).map fun block =>
        ['\n'].intercalate block.2) :
    isAddition closing = false := by
  rw [Bool.eq_false_iff]
  intro hplus
  rw [isAddition, decide_eq_true_iff, head?_eq_some_iff] at hplus
  obtain ⟨text, rfl⟩ := hplus
  have htext : text ≠ [] := by
    rintro rfl
    rcases hclosing with hinert | hlen
    · exact absurd hinert.addition (by decide)
    · simp at hlen
  have hblocks : blocksOf (above ++ inside ++ ('+' :: text) :: below) =
      modifyLast (fun block => (block.1, block.2 ++ [text])) (inside.foldl addLine []) := by
    rw [blocksOf, foldl_append, foldl_append, foldl_inert habove, foldl_cons,
      foldl_inert hbelow, addLine_addition]
  rw [hblocks] at hne hcontents
  rcases eq_nil_or_concat (inside.foldl addLine []) with hnil | ⟨blocks, last, hlast⟩
  · rw [hnil, modifyLast_nil] at hne
    exact hne rfl
  · rw [hlast, concat_eq_append, modifyLast_concat, map_append, map_singleton]
      at hcontents
    have hmem : ['\n'].intercalate (last.2 ++ [text]) ∈ hunks.map Hunk.contents := by
      rw [hcontents]
      simp
    obtain ⟨hunk, hhunk, heq⟩ := mem_map.mp hmem
    have hfinal := getLast?_intercalate_concat last.2 htext
    rcases hterm hunk hhunk with hempty | hfeed
    · rw [← heq, hempty, getLast?_nil] at hfinal
      exact htext (getLast?_eq_none_iff.mp hfinal.symm)
    · rw [← heq, hfeed] at hfinal
      exact hnl (mem_cons_of_mem _ (mem_of_getLast? hfinal.symm))

lemma exists_parts {args : ApplyPatchArgs} (hparse : parsePatch patch = .ok args)
    (hadds : ∀ hunk ∈ args.hunks, hunk.isAdd = true) :
    args.hunks.map Hunk.source = (patchLines patch).filterMap headerPath ∧
      (∀ hunk ∈ args.hunks, Terminated hunk) ∧ Seen (lines patch) (lineFeeds args.hunks) := by
  obtain ⟨hframed, first, middle, last, hlines, hfst, hlast, hrun⟩ := parsePatch_adds hparse hadds
  rw [hlines] at hframed ⊢
  have hpath : headerPath last = none := by
    rw [headerPath, hlast]
    decide
  refine ⟨?_, hrun.terminated (by simp), ?_⟩
  · rw [hrun.paths, ← cons_append, filterMap_append, filterMap_cons_none hpath]
    simp
  · have hseen := seen_of_framed hframed hfst hlast
    have hfeeds := hrun.lineFeeds
    rw [show lineFeeds [] = 0 from rfl, zero_add] at hfeeds
    rwa [hfeeds]

/-- A translated patch writes what the application writes only if it adds no line. -/
lemma plainPatch_of_translated {args : ApplyPatchArgs}
    (hparse : parsePatch patch = .ok args) (hadds : ∀ hunk ∈ args.hunks, hunk.isAdd = true)
    (h : translatePatchText patch = .ok (args.hunks.map appliedStep)) : PlainPatch patch := by
  obtain ⟨hpaths, hterm, hseen⟩ := exists_parts hparse hadds
  obtain ⟨honly, hne, hsteps⟩ := translatePatchText_eq_ok_iff.mp h
  obtain ⟨hsources, hcontents⟩ := map_steps_inj.mp hsteps
  have hnl : ∀ line ∈ lines patch, '\n' ∉ line := fun line hline =>
    newline_not_mem_lines hline
  have hsep : Separate (blocksOf (lines patch)) := separate_foldl hnl (by simp [Separate])
  refine ⟨?_, ?_, ?_, honly⟩
  · rw [← hpaths, hsources, ne_eq, map_eq_nil_iff]
    exact hne
  · rw [← map_fst_blocksOf, ← hsources, hpaths]
  · obtain ⟨above, inside, closing, below, hsplit, habove, hbelow, hcount, hclosing⟩ := hseen.split
    have hlast : isAddition closing = false :=
      closing_not_addition habove hbelow hclosing (hnl closing (by simp [hsplit])) hterm
        (hsplit ▸ hne) (hsplit ▸ hcontents)
    have hall : (lines patch).countP isAddition = lineFeeds args.hunks := by
      rw [hsplit, countP_append, countP_append, countP_cons_of_neg (by simp [hlast]),
        countP_inert habove, countP_inert hbelow, hcount, zero_add, add_zero]
    -- all the added lines would have to be ended by line feeds that only separate them
    have hsum : ((blocksOf (lines patch)).map fun block => block.2.length - 1).sum =
        lineFeeds args.hunks := by
      have hcounts := congrArg (map (count '\n')) hcontents
      rw [map_map, map_map] at hcounts
      rw [lineFeeds, show (fun hunk : Hunk => hunk.contents.count '\n') =
        count '\n' ∘ Hunk.contents from rfl, hcounts]
      congr 1
      refine map_congr_left fun block hmem => ?_
      exact (count_intercalate (hsep block hmem)).symm
    have hempty : ∀ block ∈ blocksOf (lines patch), block.2 = [] := by
      apply eq_nil_of_additions_le
      rw [hsum, ← hall]
      exact additions_blocksOf_le (lines patch)
    have hzero : (lines patch).countP isAddition = 0 := by
      rw [hall, ← hsum, sum_eq_zero_iff]
      intro count hcount
      obtain ⟨block, hblock, rfl⟩ := mem_map.mp hcount
      rw [hempty block hblock]
      rfl
    intro line hline
    simpa using countP_eq_zero.mp hzero line hline

lemma translated_of_plainPatch {args : ApplyPatchArgs}
    (hparse : parsePatch patch = .ok args) (hadds : ∀ hunk ∈ args.hunks, hunk.isAdd = true)
    (h : PlainPatch patch) : translatePatchText patch = .ok (args.hunks.map appliedStep) := by
  obtain ⟨hpaths, hterm, hseen⟩ := exists_parts hparse hadds
  have hsources : args.hunks.map Hunk.source = (blocksOf (lines patch)).map Prod.fst := by
    rw [hpaths, ← h.headers, map_fst_blocksOf]
  have hnone : (lines patch).countP isAddition = 0 :=
    countP_eq_zero.mpr (by simpa using h.empty)
  refine translatePatchText_eq_ok_iff.mpr ⟨h.only, ?_, map_steps_inj.mpr ⟨hsources, ?_⟩⟩
  · intro hnil
    have hcolumns := map_fst_blocksOf (lines patch)
    rw [hnil, map_nil] at hcolumns
    exact h.adds (h.headers ▸ hcolumns.symm)
  · have hblocks : ∀ block ∈ blocksOf (lines patch), block.2 = [] := by
      have hle := additions_blocksOf_le (lines patch)
      rw [hnone] at hle
      exact eq_nil_of_additions_le (le_trans hle (Nat.zero_le _))
    have hfeeds : lineFeeds args.hunks = 0 := by
      obtain ⟨above, inside, closing, below, hsplit, -, -, hcount, -⟩ := hseen.split
      rw [hsplit, countP_append, countP_append] at hnone
      omega
    have hempty : ∀ hunk ∈ args.hunks, hunk.contents = [] := by
      intro hunk hmem
      rcases hterm hunk hmem with hnil | hlast
      · exact hnil
      · have hcount : hunk.contents.count '\n' = 0 :=
          sum_eq_zero_iff.mp hfeeds _ (mem_map_of_mem hmem)
        exact absurd (mem_of_getLast? hlast) (count_eq_zero.mp hcount)
    rw [map_congr_left hempty, map_congr_left fun block hmem =>
      congrArg (intercalate ['\n']) (hblocks block hmem), map_const', map_const',
      ← length_map Hunk.source, hsources, length_map]
    rfl

/-- The translation writes, hunk for hunk, what the application creates, exactly for the patches
that add files without contents at headers that begin a line. -/
theorem translation_agrees_iff (floatText : F64 → String) {step : ObservedStep} {patch : String}
    (hbody : patchBody step = some patch) {args : ApplyPatchArgs}
    (hparse : parsePatch patch.toList = .ok args)
    (hadds : ∀ hunk ∈ args.hunks, hunk.isAdd = true) :
    translatePatch floatText step = .ok (args.hunks.map appliedStep) ↔ PlainPatch patch.toList := by
  have htext : translatePatch floatText step = .ok (args.hunks.map appliedStep) ↔
      translatePatchText patch.toList = .ok (args.hunks.map appliedStep) := by
    simp only [translatePatch, hbody]
    cases translatePatchText patch.toList with
    | error reason => simp [Except.mapError]
    | ok steps => simp [Except.mapError]
  rw [htext]
  exact ⟨plainPatch_of_translated hparse hadds, translated_of_plainPatch hparse hadds⟩

/-- A call of the tool with the text of a patch. -/
def patchCall (patch : String) : ObservedStep where
  action := "apply_patch"
  args := .object [("input", .string patch)]
  unique := rfl

/-- What the parser makes of a patch that adds one file. -/
def oneFile (patch : String) (contents : Line) : ApplyPatchArgs where
  patch := patch.toList
  hunks := [.addFile "a.txt".toList contents]
  environmentId := none

def emptyFilePatch := "*** Begin Patch\n*** Add File: a.txt\n*** End Patch"

theorem translation_agrees_small :
    translatePatch (fun _ => "") (patchCall emptyFilePatch) =
      .ok ((oneFile emptyFilePatch []).hunks.map appliedStep) := by
  have hbody : patchBody (patchCall emptyFilePatch) = some emptyFilePatch := rfl
  have hparse : parsePatch emptyFilePatch.toList = .ok (oneFile emptyFilePatch []) := by
    decide +kernel
  exact (translation_agrees_iff (fun _ => "") hbody hparse (by decide)).mpr
    ⟨by decide +kernel, by decide +kernel, by decide +kernel, by decide +kernel⟩

def oneLinePatch := "*** Begin Patch\n*** Add File: a.txt\n+hi\n*** End Patch"

/-- The application ends the added line with a line feed, and the translation does not. -/
theorem translation_drops_line_feed :
    parsePatch oneLinePatch.toList = .ok (oneFile oneLinePatch "hi\n".toList) ∧
    translatePatch (fun _ => "") (patchCall oneLinePatch) =
      .ok [writeFile "a.txt".toList "hi".toList] ∧
    [writeFile "a.txt".toList "hi".toList] ≠
      (oneFile oneLinePatch "hi\n".toList).hunks.map appliedStep := by
  refine ⟨by decide +kernel, rfl, ?_⟩
  intro h
  obtain ⟨-, hcontents⟩ := writeFile_inj.mp (singleton_inj.mp h)
  exact absurd hcontents (by decide)

end ExperienceCodex.ShellTranslate
