import ExperienceCodex.PatchUpdate

/-!
# The regions that the chunks of an update replace

The searches of an update go on behind the region that was found last.  A region is found before
that only when line endings are normalized: by a chunk at the end of the file, or where lines are
put in front of an empty last line.
-/

namespace ExperienceCodex.ApplyPatch

open List SourceFile

/-- The replacements lie in a file of so many lines, each behind the one before. -/
structure Separate (count : ℕ) (replacements : List Replacement) : Prop where
  within : ∀ r ∈ replacements, r.start + r.oldLength ≤ count
  apart : replacements.Pairwise fun r r' => r.start + r.oldLength ≤ r'.start

/-- A line that no replacement removes. -/
def isKept (replacements : List Replacement) (i : ℕ) : Bool :=
  replacements.all fun r => decide (i < r.start ∨ r.start + r.oldLength ≤ i)

/-- Where the lines of the result come from: a line of the file, or a new line. -/
def origins (count : ℕ) : List Replacement → ℕ → List (ℕ ⊕ Line)
  | [], index => (List.range' index (count - index)).map .inl
  | r :: replacements, index =>
    (List.range' index (r.start - index)).map .inl ++ r.newLines.map .inr ++
      origins count replacements (r.start + r.oldLength)

section
variable {count index : ℕ} {replacements : List Replacement}

lemma origins_right (count index : ℕ) (replacements : List Replacement) :
    (origins count replacements index).filterMap Sum.getRight? =
      replacements.flatMap Replacement.newLines := by
  induction replacements generalizing index with
  | nil => simp [origins, filterMap_map, Function.comp_def]
  | cons r replacements ih => simp [origins, filterMap_map, Function.comp_def, ih]

lemma Separate.of_cons {r : Replacement} (h : Separate count (r :: replacements)) :
    Separate count replacements :=
  ⟨fun r' hr' => h.within r' (mem_cons_of_mem r hr'), h.apart.of_cons⟩

lemma origins_left (h : Separate count replacements)
    (hindex : ∀ r ∈ replacements, index ≤ r.start) :
    (origins count replacements index).filterMap Sum.getLeft? =
      (List.range' index (count - index)).filter (isKept replacements) := by
  induction replacements generalizing index with
  | nil =>
    have hall : (range' index (count - index)).filter (isKept []) = _ :=
      filter_eq_self.mpr fun _ _ => rfl
    simp [origins, filterMap_map, Function.comp_def, hall]
  | cons r replacements ih =>
    have hstart := hindex r mem_cons_self
    have hend := h.within r mem_cons_self
    have hbehind := (pairwise_cons.mp h.apart).1
    -- the lines before the replacement, the lines that it removes, and the lines behind it
    have hsplit : range' index (count - index) = range' index (r.start - index) ++
        (range' r.start r.oldLength ++
          range' (r.start + r.oldLength) (count - (r.start + r.oldLength))) := by
      obtain ⟨ahead, hahead⟩ := Nat.exists_eq_add_of_le hstart
      rw [range'_append_1, hahead, Nat.add_sub_cancel_left, range'_append_1]
      congr 1
      omega
    have hbefore : (range' index (r.start - index)).filter (isKept (r :: replacements)) =
        range' index (r.start - index) := by
      rw [filter_eq_self]
      intro i hi
      rw [mem_range'_1] at hi
      rw [isKept, all_eq_true]
      intro r' hr'
      rw [decide_eq_true_eq]
      rcases mem_cons.mp hr' with rfl | hr'
      · omega
      · have hnext := hbehind r' hr'
        omega
    have hinside : (range' r.start r.oldLength).filter (isKept (r :: replacements)) = [] := by
      rw [filter_eq_nil_iff]
      intro i hi hkept
      rw [mem_range'_1] at hi
      have hr := all_eq_true.mp hkept r mem_cons_self
      rw [decide_eq_true_eq] at hr
      omega
    have hafter : (range' (r.start + r.oldLength)
        (count - (r.start + r.oldLength))).filter (isKept (r :: replacements)) =
          (range' (r.start + r.oldLength) (count - (r.start + r.oldLength))).filter
            (isKept replacements) := by
      apply filter_congr
      intro i hi
      rw [mem_range'_1] at hi
      rw [isKept, all_cons, decide_eq_true (Or.inr hi.1), Bool.true_and]
      rfl
    rw [hsplit, filter_append, filter_append, hbefore, hinside, hafter, ← ih h.of_cons hbehind]
    simp [origins, filterMap_map, Function.comp_def]

lemma origins_left_zero (h : Separate count replacements) :
    (origins count replacements 0).filterMap Sum.getLeft? =
      (List.range count).filter (isKept replacements) := by
  rw [origins_left h fun _ _ => Nat.zero_le _, range_eq_range']
  rfl

/-- The lines of a stretch of a list. -/
lemma map_range' {α : Type} (lines : List α) (blank : α) (h : index + count ≤ lines.length) :
    (List.range' index count).map (fun i => lines[i]?.getD blank) =
      (lines.drop index).take count := by
  apply ext_getElem
  · simp
    omega
  · intro i hi _
    simp at hi
    simp [getElem?_eq_getElem (show index + i < lines.length by omega)]

/-- Replacing from the last place to the first. -/
lemma applyReplacements_eq {lines : List Line} (h : Separate lines.length replacements)
    (hindex : ∀ r ∈ replacements, index ≤ r.start) (hle : index ≤ lines.length) :
    applyReplacements lines replacements = lines.take index ++
      (origins lines.length replacements index).map
        (Sum.elim (fun i => lines[i]?.getD []) id) := by
  induction replacements generalizing index with
  | nil =>
    have hall := map_range' lines [] (show index + (lines.length - index) ≤ lines.length by omega)
    rw [take_of_length_le (by simp)] at hall
    simp [applyReplacements, origins, Function.comp_def, hall]
  | cons r replacements ih =>
    have hstart := hindex r mem_cons_self
    have hend := h.within r mem_cons_self
    have hrest := ih h.of_cons (pairwise_cons.mp h.apart).1 hend
    have hahead := map_range' lines [] (show index + (r.start - index) ≤ lines.length by omega)
    have happly : applyReplacements lines (r :: replacements) =
        (applyReplacements lines replacements).take r.start ++ r.newLines ++
          (applyReplacements lines replacements).drop (r.start + r.oldLength) := by
      simp [applyReplacements]
    have htake : lines.take r.start =
        lines.take index ++ (lines.drop index).take (r.start - index) := by
      rw [← take_add, Nat.add_sub_cancel' hstart]
    have hfront : (applyReplacements lines replacements).take r.start = lines.take r.start := by
      rw [hrest, take_append_of_le_length (by simp; omega), take_take]
      congr 1
      omega
    have hback : (applyReplacements lines replacements).drop (r.start + r.oldLength) =
        (origins lines.length replacements (r.start + r.oldLength)).map
          (Sum.elim (fun i => lines[i]?.getD []) id) := by
      rw [hrest]
      exact drop_left' (by simpa using hend)
    rw [happly, hfront, hback, htake, ← hahead]
    simp [origins, Function.comp_def]

end

/-- The lines of a region: from a line on, and before another. -/
def InRegion (first last : ℕ) (replacements : List Replacement) : Prop :=
  (∀ r ∈ replacements, first ≤ r.start) ∧ Separate last replacements

lemma inRegion_nil (first last : ℕ) : InRegion first last [] :=
  ⟨by simp, ⟨by simp, .nil⟩⟩

variable {replacements : List Replacement}

/-- A replacement before a region. -/
lemma InRegion.cons {first middle last : ℕ} {r : Replacement}
    (h : InRegion middle last replacements) (hfst : first ≤ r.start)
    (hmid : r.start + r.oldLength ≤ middle) (hlast : r.start + r.oldLength ≤ last) :
    InRegion first last (r :: replacements) := by
  refine ⟨?_, ⟨?_, ?_⟩⟩
  · rw [forall_mem_cons]
    refine ⟨hfst, fun r' hr' => ?_⟩
    have hr := h.1 r' hr'
    omega
  · rw [forall_mem_cons]
    exact ⟨hlast, h.2.within⟩
  · rw [pairwise_cons]
    exact ⟨fun r' hr' => hmid.trans (h.1 r' hr'), h.2.apart⟩

/-- What the searches forget of a line, the strictest first. -/
def levels : List (Line → Line) :=
  [id, trimEnd, trim, normalise]

/-- From a position on, the lines are those of the pattern, up to what `key` forgets. -/
def MatchesAt (lines pattern : List Line) (key : Line → Line) (i : ℕ) : Prop :=
  ((lines.drop i).take pattern.length).map key = pattern.map key
deriving Decidable

/-- Only a search at the end of the file goes back before the line it is asked to start from. -/
lemma seekSequence_bounds {lines pattern : List Line} {start i : ℕ} {eof : Bool}
    {mode : ApplyPatchFileUpdateMode} (h : seekSequence lines pattern start eof mode = some i)
    (hstart : start ≤ lines.length) :
    i + pattern.length ≤ lines.length ∧ start ≤ i + pattern.length ∧
      (start ≤ i ∨ mode = .normalizeToLf ∧ eof = true) ∧
      ∃ key ∈ levels, MatchesAt lines pattern key i := by
  unfold seekSequence at h
  split_ifs at h with hempty hlong
  · rw [isEmpty_iff.mp hempty]
    cases h
    exact ⟨hstart, le_rfl, .inl le_rfl, id, by simp [levels], by simp [MatchesAt]⟩
  · have hmem : ∀ key ∈ levels, ∀ {searchStart}, start ≤ searchStart + pattern.length →
        (start ≤ searchStart ∨ mode = .normalizeToLf ∧ eof = true) →
        seekBy key lines pattern searchStart = some i →
          i + pattern.length ≤ lines.length ∧ start ≤ i + pattern.length ∧
            (start ≤ i ∨ mode = .normalizeToLf ∧ eof = true) ∧
            ∃ key ∈ levels, MatchesAt lines pattern key i := by
      intro key hkey searchStart hbehind hle hfound
      have hrange := mem_range'_1.mp (mem_of_find?_eq_some hfound)
      refine ⟨by omega, by omega, hle.imp_left (·.trans hrange.1), key, hkey, ?_⟩
      simpa [MatchesAt] using find?_some hfound
    simp only [Option.or_eq_some_iff] at h
    rcases h with h | ⟨-, h | ⟨-, h | ⟨-, h⟩⟩⟩
    all_goals
      refine hmem _ (by simp [levels]) ?_ ?_ h
      · split <;> omega
      · split
        · exact .inl le_rfl
        · exact .inr ⟨rfl, rfl⟩
        · exact .inl (le_max_right _ _)

/-- The context lines of a chunk come in the order of both its sides. -/
def Ascending (indices : List (ℕ × ℕ)) : Prop :=
  indices.Pairwise fun p q => p.1 < q.1 ∧ p.2 < q.2
deriving Decidable

lemma splitAtContext_spec {start : ℕ} {pattern new : List Line} {is : List (ℕ × ℕ)}
    {oldStart newStart : ℕ} (h : Ascending is) (hold : oldStart ≤ pattern.length)
    (hindices : ∀ p ∈ is, oldStart ≤ p.1) :
    InRegion (start + oldStart) (start + pattern.length)
      (splitAtContext start pattern new is oldStart newStart) := by
  fun_induction splitAtContext start pattern new is oldStart newStart with
  | case1 oldStart newStart hrest =>
    apply (inRegion_nil (start + pattern.length) _).cons
    · exact le_rfl
    all_goals
      dsimp only
      omega
  | case2 oldStart newStart hrest => exact inRegion_nil _ _
  | case3 oldStart newStart oldContext newContext is hbreak ih =>
    exact ih .nil hold (by simp)
  | case4 oldStart newStart oldContext newContext is hgo ih =>
    obtain ⟨hlater, hindices'⟩ := pairwise_cons.mp h
    have hfst := hindices _ mem_cons_self
    have hrest := ih hindices' (by omega) fun p hp => (hlater p hp).1
    dsimp only at hfst
    split_ifs
    · apply hrest.cons
      · exact le_rfl
      all_goals
        dsimp only
        omega
    · refine ⟨fun r hr => ?_, hrest.2⟩
      have hr' := hrest.1 r hr
      omega

/-- The context lines that stand on both sides. -/
def contextLines (pattern new : List Line) (indices : List (ℕ × ℕ)) : List (ℕ × ℕ) :=
  indices.takeWhile fun p => p.1 < pattern.length ∧ p.2 < new.length

/-- The lines of the pattern but the context are removed, and those of the other side put in. -/
structure KeepsContext (start : ℕ) (pattern new : List Line) (context : List (ℕ × ℕ))
    (oldStart newStart : ℕ) (replacements : List Replacement) : Prop where
  removed : ∀ i, oldStart ≤ i → i < pattern.length →
    (isKept replacements (start + i) = true ↔ i ∈ context.map Prod.fst)
  inserted : replacements.flatMap Replacement.newLines =
    ((List.range' newStart (new.length - newStart)).filter (· ∉ context.map Prod.snd)).map
      fun j => new[j]?.getD []

lemma isKept_append (first second : List Replacement) (i : ℕ) :
    isKept (first ++ second) i = (isKept first i && isKept second i) :=
  all_append

/-- The replacement between two context lines. -/
lemma keepsContext_between {start oldStart newStart oldContext newContext : ℕ} {new : List Line}
    (hold : oldStart ≤ oldContext) (hnew : newStart ≤ newContext) (hlt : newContext < new.length) :
    let between : List Replacement := if oldStart ≠ oldContext ∨ newStart ≠ newContext then
      [⟨start + oldStart, oldContext - oldStart, (new.take newContext).drop newStart⟩] else []
    (∀ i, oldStart ≤ i → (isKept between (start + i) = true ↔ oldContext ≤ i)) ∧
      between.flatMap Replacement.newLines =
        (List.range' newStart (newContext - newStart)).map fun j => new[j]?.getD [] := by
  intro between
  have hlines := map_range' new [] (show newStart + (newContext - newStart) ≤ new.length by omega)
  by_cases hne : oldStart ≠ oldContext ∨ newStart ≠ newContext
  · rw [show between = _ from if_pos hne, hlines]
    refine ⟨fun i hi => ?_, by simp [drop_take]⟩
    simp [isKept]
    omega
  · rw [show between = [] from if_neg hne, show newContext - newStart = 0 by omega]
    exact ⟨fun i hi => by simp [isKept]; omega, rfl⟩

/-- The indices but the dropped ones: those before the first dropped one, and what remains behind
it. -/
lemma filter_range'_cons {first cut stop : ℕ} {dropped : List ℕ} (hfirst : first ≤ cut)
    (hstop : cut < stop) (hdropped : ∀ j ∈ dropped, cut < j) :
    (List.range' first (stop - first)).filter (· ∉ cut :: dropped) =
      List.range' first (cut - first) ++
        (List.range' (cut + 1) (stop - (cut + 1))).filter (· ∉ dropped) := by
  have hsplit : List.range' first (stop - first) =
      List.range' first (cut - first) ++ cut :: List.range' (cut + 1) (stop - (cut + 1)) := by
    rw [← range'_succ]
    obtain ⟨ahead, rfl⟩ := Nat.exists_eq_add_of_le hfirst
    rw [Nat.add_sub_cancel_left, range'_append_1]
    congr 1
    omega
  have hbefore : (List.range' first (cut - first)).filter (· ∉ cut :: dropped) =
      List.range' first (cut - first) := by
    refine filter_eq_self.mpr fun j hj => decide_eq_true fun hmem => ?_
    rw [mem_range'_1] at hj
    rcases mem_cons.mp hmem with rfl | hmem
    · omega
    · have hj' := hdropped j hmem
      omega
  have hafter : (List.range' (cut + 1) (stop - (cut + 1))).filter (· ∉ cut :: dropped) =
      (List.range' (cut + 1) (stop - (cut + 1))).filter (· ∉ dropped) := by
    refine filter_congr fun j hj => ?_
    rw [mem_range'_1] at hj
    simp [show j ≠ cut by omega]
  rw [hsplit, filter_append, hbefore, filter_cons_of_neg (by simp), hafter]

lemma splitAtContext_keepsContext {start : ℕ} {pattern new : List Line} {is : List (ℕ × ℕ)}
    {oldStart newStart : ℕ} (h : Ascending is) (hold : oldStart ≤ pattern.length)
    (hnew : newStart ≤ new.length) (hindices : ∀ p ∈ is, oldStart ≤ p.1 ∧ newStart ≤ p.2) :
    KeepsContext start pattern new (contextLines pattern new is) oldStart newStart
      (splitAtContext start pattern new is oldStart newStart) := by
  fun_induction splitAtContext start pattern new is oldStart newStart with
  | case1 oldStart newStart hrest =>
    refine ⟨fun i hi hlt => ?_, ?_⟩
    · simp [isKept, contextLines]
      omega
    · simp [contextLines, map_range' new [] (show newStart + (new.length - newStart) ≤ _ by omega)]
  | case2 oldStart newStart hrest =>
    refine ⟨fun i hi hlt => ?_, ?_⟩
    · omega
    · simp [show new.length - newStart = 0 by omega]
  | case3 oldContext newContext is oldStart newStart hbreak ih =>
    have hnone : contextLines pattern new ((oldContext, newContext) :: is) = [] := by
      simp [contextLines]
      omega
    rw [hnone]
    exact ih .nil hold hnew (by simp)
  | case4 oldContext newContext is oldStart newStart hgo ih =>
    obtain ⟨hlater, his⟩ := pairwise_cons.mp h
    obtain ⟨hold', hnew'⟩ := hindices _ mem_cons_self
    dsimp only at hold' hnew'
    have hrest := ih his (by omega) (by omega) hlater
    have hregion : InRegion (start + (oldContext + 1)) (start + pattern.length)
        (splitAtContext start pattern new is (oldContext + 1) (newContext + 1)) :=
      splitAtContext_spec his (by omega) fun p hp => (hlater p hp).1
    have hcontext : contextLines pattern new ((oldContext, newContext) :: is) =
        (oldContext, newContext) :: contextLines pattern new is :=
      takeWhile_cons_of_pos (decide_eq_true (by omega))
    have hbehind : ∀ p ∈ contextLines pattern new is, oldContext < p.1 ∧ newContext < p.2 :=
      fun p hp => hlater p ((takeWhile_sublist _).subset hp)
    obtain ⟨hkept, hlines⟩ :=
      keepsContext_between hold' hnew' (show newContext < new.length by omega)
    rw [hcontext]
    refine ⟨fun i hi hlt => ?_, ?_⟩
    · rw [isKept_append, Bool.and_eq_true, hkept i hi, map_cons, mem_cons]
      rcases lt_trichotomy i oldContext with hi' | rfl | hi'
      · refine iff_of_false (by omega) fun hmem => ?_
        rcases hmem with heq | hmem
        · exact hi'.ne heq
        · obtain ⟨p, hp, heq⟩ := mem_map.mp hmem
          have hp' := (hbehind p hp).1
          omega
      · refine iff_of_true ⟨le_rfl, ?_⟩ (.inl rfl)
        rw [isKept, all_eq_true]
        intro r hr
        have hr' := hregion.1 r hr
        exact decide_eq_true (.inl (by omega))
      · rw [hrest.removed i hi' hlt]
        simp [hi'.le, hi'.ne']
    · have hlater' : ∀ j ∈ (contextLines pattern new is).map Prod.snd, newContext < j := by
        intro j hj
        obtain ⟨p, hp, rfl⟩ := mem_map.mp hj
        exact (hbehind p hp).2
      rw [flatMap_append, hlines, hrest.inserted, map_cons,
        filter_range'_cons hnew' (show newContext < new.length by omega) hlater', map_append]

/-- Both sides of a chunk, without an empty last line that stands for the end of the file or with
it. -/
def Sides (chunk : UpdateFileChunk) (pattern new : List Line) : Prop :=
  pattern = chunk.oldLines ∧ new = chunk.newLines ∨
    endsWithEmpty chunk.oldLines = true ∧ pattern = chunk.oldLines.dropLast ∧
      new = if endsWithEmpty chunk.newLines then chunk.newLines.dropLast else chunk.newLines

section
variable (mode : ApplyPatchFileUpdateMode) (path : String) (original : List Line)

/-- What the replacements of a chunk do.  Without old lines, its new lines are put in at the end of
the file.  Otherwise they replace the lines of the file that match its old lines by its new lines,
where with line endings preserved the context lines stay. -/
inductive Edits (chunk : UpdateFileChunk) : List Replacement → Prop
  | insert (hold : chunk.oldLines = []) :
      Edits chunk [⟨insertionIndex mode original, 0, chunk.newLines⟩]
  | replace (hold : chunk.oldLines ≠ []) (hmode : mode = .normalizeToLf) {start : ℕ}
      {pattern new : List Line} (hsides : Sides chunk pattern new)
      (hmatch : ∃ key ∈ levels, MatchesAt original pattern key start) :
      Edits chunk [⟨start, pattern.length, new⟩]
  | split (hold : chunk.oldLines ≠ []) (hmode : mode = .preserveLineEndings) {start : ℕ}
      {pattern new : List Line} {replacements : List Replacement}
      (hsides : Sides chunk pattern new)
      (hmatch : ∃ key ∈ levels, MatchesAt original pattern key start)
      (hregion : InRegion start (start + pattern.length) replacements)
      (hcontext : KeepsContext start pattern new
        (contextLines pattern new chunk.contextLineIndices) 0 0 replacements) :
      Edits chunk replacements

/-- A chunk, the replacements of the chunks before it, and its own. -/
structure Placement where
  chunk : UpdateFileChunk
  earlier : List Replacement
  replacements : List Replacement

def placements (earlier : List Replacement) (lineIndex : ℕ) : List UpdateFileChunk → List Placement
  | [] => []
  | chunk :: chunks =>
    match chunkReplacements mode path original lineIndex chunk with
    | .ok (replacements, next) =>
      ⟨chunk, earlier, replacements⟩ :: placements (earlier ++ replacements) next chunks
    | .error _ => []

/-- A replacement is before another one, or behind it though it was found first. -/
def Apart (r r' : Replacement) : Prop :=
  r.start + r.oldLength ≤ r'.start ∨ r'.start < r.start ∧ r'.start + r'.oldLength ≤ r.start
deriving Decidable

/-- When a chunk may be placed over an earlier replacement: line endings are normalized, and its old
lines are looked for at the end of the file only, or one of the two puts lines in front of an empty
last line. -/
def MayOverlap (chunk : UpdateFileChunk) (r : Replacement) : Prop :=
  mode = .normalizeToLf ∧ (chunk.isEndOfFile = true ∧ chunk.oldLines ≠ [] ∨
    endsWithEmpty original = true ∧ (chunk.oldLines = [] ∨ r.oldLength = 0))
deriving Decidable

/-- Where a chunk may be placed over an earlier replacement, it is not. -/
def Placement.Clear (p : Placement) : Prop :=
  ∀ r ∈ p.earlier, MayOverlap mode original p.chunk r → ∀ r' ∈ p.replacements, Apart r r'
deriving Decidable

/-- The chunks so far replaced lines before the line to go on from, or put lines in at the end. -/
def Behind (lineIndex : ℕ) (replacements : List Replacement) : Prop :=
  ∀ r ∈ replacements, r.start + r.oldLength ≤ lineIndex ∨
    r.start = insertionIndex mode original ∧ r.oldLength = 0

end

section
variable {mode : ApplyPatchFileUpdateMode} {path : String} {original : List Line}

lemma insertionIndex_le : insertionIndex mode original ≤ original.length := by
  cases mode with
  | normalizeToLf =>
    rw [insertionIndex]
    split
    · exact Nat.sub_le _ _
    · exact le_rfl
  | preserveLineEndings => exact le_rfl

lemma insertionIndex_eq (h : mode = .normalizeToLf → endsWithEmpty original = false) :
    insertionIndex mode original = original.length := by
  cases mode with
  | normalizeToLf => rw [insertionIndex, h rfl]; rfl
  | preserveLineEndings => rfl

lemma afterContext_bounds {lineIndex behind : ℕ} {context : Option Line}
    (hindex : lineIndex ≤ original.length)
    (h : afterContext mode path original lineIndex context = .ok behind) :
    lineIndex ≤ behind ∧ behind ≤ original.length := by
  unfold afterContext at h
  split at h
  · cases h
    exact ⟨le_rfl, hindex⟩
  · split at h
    · next index hfound =>
      cases h
      obtain ⟨hend, -, hstart, -⟩ := seekSequence_bounds hfound hindex
      simp only [length_singleton, Bool.false_eq_true, and_false, or_false] at hend hstart
      omega
    · cases h

/-- What a chunk does and where the next one is looked for. -/
lemma chunkReplacements_spec {chunk : UpdateFileChunk} {lineIndex next : ℕ}
    (hcontext : mode = .preserveLineEndings → Ascending chunk.contextLineIndices)
    (hindex : lineIndex ≤ original.length)
    (h : chunkReplacements mode path original lineIndex chunk = .ok (replacements, next)) :
    Edits mode original chunk replacements ∧ lineIndex ≤ next ∧ next ≤ original.length ∧
      (chunk.oldLines ≠ [] → Separate next replacements ∧
        ((mode = .normalizeToLf → chunk.isEndOfFile = false) →
          ∀ r ∈ replacements, lineIndex ≤ r.start)) := by
  unfold chunkReplacements at h
  obtain ⟨behind, hctx, h⟩ := bind_eq_ok_iff.mp h
  obtain ⟨hle, hbehind⟩ := afterContext_bounds hindex hctx
  split_ifs at h with hempty
  · cases h
    have hold := isEmpty_iff.mp hempty
    exact ⟨.insert hold, hle, hbehind, fun hne => absurd hold hne⟩
  · have hold : chunk.oldLines ≠ [] := fun h => hempty (isEmpty_iff.mpr h)
    dsimp only at h
    generalize hretry :
      ((seekSequence original chunk.oldLines behind chunk.isEndOfFile mode).isNone &&
        endsWithEmpty chunk.oldLines) = retry at h
    have hsides : Sides chunk (if retry then chunk.oldLines.dropLast else chunk.oldLines)
        (if retry && endsWithEmpty chunk.newLines then chunk.newLines.dropLast
          else chunk.newLines) := by
      cases retry with
      | false => exact .inl ⟨rfl, rfl⟩
      | true => exact .inr ⟨(Bool.and_eq_true_iff.mp hretry).2, rfl, by simp⟩
    generalize (if retry then chunk.oldLines.dropLast else chunk.oldLines) = pattern at h hsides
    generalize (if retry && endsWithEmpty chunk.newLines then chunk.newLines.dropLast
      else chunk.newLines) = new at h hsides
    split at h
    · next start hfound =>
      obtain ⟨hend, hnext, hstart, hmatch⟩ := seekSequence_bounds hfound hbehind
      have hfirst : (mode = .normalizeToLf → chunk.isEndOfFile = false) → lineIndex ≤ start := by
        intro hmode
        refine hle.trans (hstart.resolve_right fun heof => ?_)
        simp [hmode heof.1] at heof
      cases mode with
      | normalizeToLf =>
        cases h
        refine ⟨.replace hold rfl hsides hmatch, hle.trans hnext, hend, fun _ => ⟨?_, ?_⟩⟩
        · exact ⟨forall_mem_singleton.mpr le_rfl, pairwise_singleton _ _⟩
        · exact fun hmode => forall_mem_singleton.mpr (hfirst hmode)
      | preserveLineEndings =>
        cases h
        have hregion : InRegion start (start + pattern.length)
            (splitAtContext start pattern new chunk.contextLineIndices 0 0) :=
          splitAtContext_spec (hcontext rfl) (Nat.zero_le _) fun _ _ => Nat.zero_le _
        refine ⟨.split hold rfl hsides hmatch hregion ?_, hle.trans hnext, hend, fun _ =>
          ⟨hregion.2, fun hmode r hr => (hfirst hmode).trans (hregion.1 r hr)⟩⟩
        exact splitAtContext_keepsContext (hcontext rfl) (Nat.zero_le _) (Nat.zero_le _)
          fun _ _ => ⟨Nat.zero_le _, Nat.zero_le _⟩
    · cases h

lemma Separate.pairwise_apart {count : ℕ} (h : Separate count replacements) :
    replacements.Pairwise Apart :=
  h.apart.imp .inl

/-- A chunk is placed behind the earlier ones, or where it may overlap them. -/
lemma chunkReplacements_step {chunk : UpdateFileChunk} {lineIndex next : ℕ}
    {earlier : List Replacement}
    (hcontext : mode = .preserveLineEndings → Ascending chunk.contextLineIndices)
    (hindex : lineIndex ≤ original.length) (hearlier : Behind mode original lineIndex earlier)
    (h : chunkReplacements mode path original lineIndex chunk = .ok (replacements, next)) :
    Behind mode original next (earlier ++ replacements) ∧ replacements.Pairwise Apart ∧
      ∀ r ∈ earlier, ¬MayOverlap mode original chunk r → ∀ r' ∈ replacements, Apart r r' := by
  obtain ⟨hedits, hle, hnext, hregion⟩ := chunkReplacements_spec hcontext hindex h
  have hmoved : Behind mode original next earlier := fun r hr =>
    (hearlier r hr).imp_left (·.trans hle)
  by_cases hold : chunk.oldLines = []
  · obtain rfl : replacements = [⟨insertionIndex mode original, 0, chunk.newLines⟩] := by
      cases hedits with
      | insert => rfl
      | replace hne => exact absurd hold hne
      | split hne => exact absurd hold hne
    refine ⟨forall_mem_append.mpr ⟨hmoved, forall_mem_singleton.mpr (.inr ⟨rfl, rfl⟩)⟩,
      pairwise_singleton _ _, fun r hr hno => forall_mem_singleton.mpr (.inl ?_)⟩
    have hend : insertionIndex mode original = original.length := insertionIndex_eq fun hmode => by
      simpa [MayOverlap, hmode, hold] using hno
    rcases hearlier r hr with hr' | ⟨hr', hzero⟩
    · dsimp only
      omega
    · dsimp only
      omega
  · obtain ⟨hsep, hfirst⟩ := hregion hold
    refine ⟨forall_mem_append.mpr ⟨hmoved, fun r hr => .inl (hsep.within r hr)⟩,
      hsep.pairwise_apart, fun r hr hno r' hr' => ?_⟩
    have hstart : lineIndex ≤ r'.start := by
      refine hfirst (fun hmode => ?_) r' hr'
      simp only [MayOverlap, hmode, hold, true_and, ne_eq, not_false_eq_true, and_true, not_or,
        Bool.not_eq_true] at hno
      exact hno.1
    have hwithin := hsep.within r' hr'
    rcases hearlier r hr with hr'' | ⟨hr'', hzero⟩
    · exact .inl (hr''.trans hstart)
    · -- lines put in at the end of the file
      have hend : insertionIndex mode original = original.length :=
        insertionIndex_eq fun hmode => by
          simp only [MayOverlap, hmode, hzero, true_and, or_true, and_true, not_or,
            Bool.not_eq_true] at hno
          exact hno.2
      unfold Apart
      omega

/-- The chunks are placed apart from each other where those that may overlap are. -/
lemma computeReplacementsFrom_spec {chunks : List UpdateFileChunk} {lineIndex : ℕ}
    {earlier : List Replacement}
    (hcontext : mode = .preserveLineEndings → ∀ chunk ∈ chunks, Ascending chunk.contextLineIndices)
    (hindex : lineIndex ≤ original.length) (hearlier : Behind mode original lineIndex earlier)
    (h : computeReplacementsFrom mode path original chunks lineIndex = .ok replacements) :
    let placed := placements mode path original earlier lineIndex chunks
    placed.map Placement.chunk = chunks ∧
      placed.flatMap Placement.replacements = replacements ∧
      (∀ p ∈ placed, Edits mode original p.chunk p.replacements) ∧
      (∀ r ∈ replacements, r.start + r.oldLength ≤ original.length) ∧
      ((earlier ++ replacements).Pairwise Apart ↔
        earlier.Pairwise Apart ∧ ∀ p ∈ placed, p.Clear mode original) := by
  induction chunks generalizing lineIndex earlier replacements with
  | nil =>
    cases h
    simp [placements]
  | cons chunk chunks ih =>
    obtain ⟨⟨first, next⟩, hfst, h⟩ := bind_eq_ok_iff.mp h
    obtain ⟨rest, hrest, h⟩ := bind_eq_ok_iff.mp h
    cases h
    have hchunk := fun hmode => hcontext hmode chunk mem_cons_self
    obtain ⟨hedits, -, hnext, -⟩ := chunkReplacements_spec hchunk hindex hfst
    obtain ⟨hbehind, hown, hfree⟩ := chunkReplacements_step hchunk hindex hearlier hfst
    obtain ⟨hchunks, hflat, hall, hwithin, hiff⟩ :=
      ih (fun hmode c hc => hcontext hmode c (mem_cons_of_mem chunk hc)) hnext hbehind hrest
    have hplaced : placements mode path original earlier lineIndex (chunk :: chunks) =
        ⟨chunk, earlier, first⟩ ::
          placements mode path original (earlier ++ first) next chunks := by
      rw [placements, hfst]
    have hfits : ∀ r ∈ first, r.start + r.oldLength ≤ original.length := by
      intro r hr
      have hinsert : insertionIndex mode original ≤ original.length := insertionIndex_le
      rcases hbehind r (mem_append_right _ hr) with hr' | ⟨hr', hzero⟩ <;> omega
    -- those that cannot overlap are apart anyway
    have hclear : (earlier ++ first).Pairwise Apart ↔
        earlier.Pairwise Apart ∧ Placement.Clear mode original ⟨chunk, earlier, first⟩ := by
      rw [pairwise_append]
      refine ⟨fun h => ⟨h.1, fun r hr _ r' hr' => h.2.2 r hr r' hr'⟩,
        fun h => ⟨h.1, hown, fun r hr r' hr' => ?_⟩⟩
      by_cases hmay : MayOverlap mode original chunk r
      · exact h.2 r hr hmay r' hr'
      · exact hfree r hr hmay r' hr'
    rw [hplaced]
    refine ⟨by simp [hchunks], by simp [hflat], forall_mem_cons.mpr ⟨hedits, hall⟩,
      forall_mem_append.mpr ⟨hfits, hwithin⟩, ?_⟩
    rw [← append_assoc, hiff, hclear, forall_mem_cons, and_assoc]

end

lemma separate_cons_iff {count : ℕ} {r : Replacement} :
    Separate count (r :: replacements) ↔ r.start + r.oldLength ≤ count ∧
      (∀ r' ∈ replacements, r.start + r.oldLength ≤ r'.start) ∧ Separate count replacements := by
  refine ⟨fun h => ⟨h.within r mem_cons_self, (pairwise_cons.mp h.apart).1, h.of_cons⟩,
    fun ⟨hr, hlater, h⟩ => ⟨forall_mem_cons.mpr ⟨hr, h.within⟩, h.apart.cons hlater⟩⟩

lemma separate_orderedInsert_iff {count : ℕ} {r : Replacement} :
    Separate count (replacements.orderedInsert (fun a b => a.start ≤ b.start) r) ↔
      r.start + r.oldLength ≤ count ∧ Separate count replacements ∧
        ∀ r' ∈ replacements, Apart r r' := by
  induction replacements with
  | nil => simp [separate_cons_iff]
  | cons b replacements ih =>
    rw [List.orderedInsert]
    split_ifs with hle
    · -- nothing behind `r` starts before it
      rw [separate_cons_iff]
      refine ⟨fun ⟨hr, hlater, h⟩ => ⟨hr, h, fun r' hr' => .inl (hlater r' hr')⟩,
        fun ⟨hr, h, hapart⟩ => ⟨hr, fun r' hr' => ?_, h⟩⟩
      have hb : b.start ≤ r'.start := by
        rcases mem_cons.mp hr' with rfl | hr'
        · exact le_rfl
        · have hlater := (separate_cons_iff.mp h).2.1 r' hr'
          omega
      exact (hapart r' hr').resolve_right fun hbefore => by omega
    · have hb : Apart r b ↔ b.start + b.oldLength ≤ r.start := by
        unfold Apart
        omega
      rw [separate_cons_iff, separate_cons_iff, ih, forall_mem_cons, hb]
      simp only [mem_orderedInsert, forall_eq_or_imp]
      tauto

lemma separate_insertionSort_iff {count : ℕ} :
    Separate count (replacements.insertionSort fun a b => a.start ≤ b.start) ↔
      (∀ r ∈ replacements, r.start + r.oldLength ≤ count) ∧ replacements.Pairwise Apart := by
  induction replacements with
  | nil => exact iff_of_true ⟨by simp, .nil⟩ ⟨by simp, .nil⟩
  | cons r replacements ih =>
    rw [insertionSort_cons, separate_orderedInsert_iff, ih, forall_mem_cons, pairwise_cons]
    simp only [mem_insertionSort]
    tauto

/-- What replacements apart from each other do to the lines: they remove those of their regions and
put in their new lines, each once. -/
lemma applyReplacements_origins {original : List Line}
    (h : Separate original.length replacements) :
    (origins original.length replacements 0).filterMap Sum.getLeft? =
        (List.range original.length).filter (isKept replacements) ∧
      (origins original.length replacements 0).filterMap Sum.getRight? =
        replacements.flatMap Replacement.newLines ∧
      applyReplacements original replacements = (origins original.length replacements 0).map
        (Sum.elim (fun i => original[i]?.getD []) id) := by
  refine ⟨origins_left_zero h, origins_right _ _ _, ?_⟩
  exact applyReplacements_eq h (fun _ _ => Nat.zero_le _) (Nat.zero_le _)

/-- A chunk that replaces a line of one letter, at the end of the file or not. -/
def letterChunk (old new : Char) (isEndOfFile : Bool) : UpdateFileChunk :=
  { changeContext := none, oldLines := [[old]], newLines := [[new]], contextLineIndices := []
    isEndOfFile }

/-- Replacing from the first place to the last. -/
lemma replaceFrom_eq {lines : List SourceLine} {index : ℕ}
    (ending : LineEnding) (h : Separate lines.length replacements)
    (hindex : ∀ r ∈ replacements, index ≤ r.start) (hle : index ≤ lines.length) :
    replaceFrom ending replacements (lines.drop index) index =
      (origins lines.length replacements index).map
        (Sum.elim (fun i => lines[i]?.getD ⟨[], none⟩) (⟨·, some ending⟩)) := by
  induction replacements generalizing index with
  | nil =>
    have hall := map_range' lines ⟨[], none⟩
      (show index + (lines.length - index) ≤ lines.length by omega)
    rw [take_of_length_le (by simp)] at hall
    simp [replaceFrom, origins, Function.comp_def, hall]
  | cons r replacements ih =>
    have hstart := hindex r mem_cons_self
    have hend := h.within r mem_cons_self
    have hahead := map_range' lines ⟨[], none⟩
      (show index + (r.start - index) ≤ lines.length by omega)
    have hbehind : index + (r.start - index + r.oldLength) = r.start + r.oldLength := by omega
    rw [replaceFrom, drop_drop, hbehind,
      ih h.of_cons (pairwise_cons.mp h.apart).1 hend, ← hahead]
    simp [origins, Function.comp_def]

lemma flatMap_parseLines (line text : Line) :
    (parseLines line text).flatMap (fun line =>
      line.text ++ (line.ending.map LineEnding.text).getD []) = line ++ text := by
  fun_induction parseLines line text with
  | case1 line hempty => simp [isEmpty_iff.mp hempty]
  | case2 line hempty => simp
  | case3 line rest ih => simp [ih, LineEnding.text]
  | case4 line rest _ ih => simp [ih, LineEnding.text]
  | case5 line rest ih => simp [ih, LineEnding.text]
  | case6 line c rest _ _ _ ih => simp [ih]

/-- With line endings preserved, a text is read and written as it is, lines that are not removed
keep their text and their ending, and new lines have the preferred ending. -/
theorem line_endings_preserved (text : Line) (file : SourceFile) (replacements : List Replacement)
    (h : Separate file.lines.length replacements) :
    (SourceFile.parse text).intoContents = text ∧
      (origins file.lines.length replacements 0).filterMap Sum.getLeft? =
        (List.range file.lines.length).filter (isKept replacements) ∧
      (origins file.lines.length replacements 0).filterMap Sum.getRight? =
        replacements.flatMap Replacement.newLines ∧
      (file.applyReplacements replacements).lines =
        (origins file.lines.length replacements 0).map (Sum.elim
          (fun i => ⟨(file.lines[i]?.getD ⟨[], none⟩).text,
            some ((file.lines[i]?.getD ⟨[], none⟩).ending.getD file.preferredEnding)⟩)
          (⟨·, some file.preferredEnding⟩)) := by
  refine ⟨flatMap_parseLines [] text, origins_left_zero h, origins_right _ _ _, ?_⟩
  · have hlines := replaceFrom_eq file.preferredEnding h (fun _ _ => Nat.zero_le _) (Nat.zero_le _)
    rw [drop_zero] at hlines
    rw [SourceFile.applyReplacements, hlines, map_map]
    apply map_congr_left
    intro origin _
    cases origin with
    | inl i => rfl
    | inr line => rfl

/-- The second line is replaced by two: the others keep their endings, and the new lines have the
first. -/
theorem line_endings_preserved_small :
    let file := parse "a\r\nb\nc\n".toList
    let replacements : List Replacement := [⟨1, 1, [['x'], ['y']]⟩]
    file.intoContents = "a\r\nb\nc\n".toList ∧
      (file.applyReplacements replacements).lines =
        [⟨['a'], some .crLf⟩, ⟨['x'], some .crLf⟩, ⟨['y'], some .crLf⟩, ⟨['c'], some .lf⟩] := by
  intro file replacements
  obtain ⟨htext, -, -, hlines⟩ := line_endings_preserved "a\r\nb\nc\n".toList file replacements
    ⟨by decide, pairwise_singleton _ _⟩
  exact ⟨htext, hlines.trans (by decide)⟩

/-- The last line has no ending, nothing follows it, and it is given one. -/
theorem last_line_gains_ending :
    Separate 2 [⟨0, 1, [['x']]⟩] ∧
      ((SourceFile.parse "a\nb".toList).applyReplacements [⟨0, 1, [['x']]⟩]).intoContents =
        "x\nb\n".toList :=
  ⟨⟨by simp, pairwise_singleton _ _⟩, by decide⟩

section
variable (lines pattern : List Line)

/-- The earliest match from a position on at the strictest level that has one. -/
def FoundFrom (start : ℕ) : Option ℕ → Prop
  | none => ∀ key ∈ levels, ∀ j, start ≤ j → ¬MatchesAt lines pattern key j
  | some i => start ≤ i ∧ ∃ stricter key looser, levels = stricter ++ key :: looser ∧
      MatchesAt lines pattern key i ∧ (∀ j, start ≤ j → j < i → ¬MatchesAt lines pattern key j) ∧
      ∀ key' ∈ stricter, ∀ j, start ≤ j → ¬MatchesAt lines pattern key' j

/-- The file ends with the pattern at some level. -/
def EndsInPattern : Prop :=
  pattern ≠ [] ∧ ∃ key ∈ levels, MatchesAt lines pattern key (lines.length - pattern.length)
deriving Decidable

/-- What is promised of a search: at the end of the file first if that is asked for. -/
def SeekContract (start : ℕ) (eof : Bool) (result : Option ℕ) : Prop :=
  if eof = true ∧ EndsInPattern lines pattern ∧ start ≤ lines.length - pattern.length then
    result = some (lines.length - pattern.length)
  else FoundFrom lines pattern start result

end

section
variable {lines pattern : List Line}

lemma add_le_of_matchesAt {key : Line → Line} {i : ℕ} (hne : pattern ≠ [])
    (h : MatchesAt lines pattern key i) : i + pattern.length ≤ lines.length := by
  have hlength := congrArg length h
  have hpos := length_pos_of_ne_nil hne
  simp only [length_map, length_take, length_drop] at hlength
  omega

lemma foundFrom_findSome (hne : pattern ≠ []) (hle : pattern.length ≤ lines.length) (start : ℕ) :
    FoundFrom lines pattern start
      (levels.findSome? fun key => seekBy key lines pattern start) := by
  have hnone : ∀ key, seekBy key lines pattern start = none →
      ∀ j, start ≤ j → ¬MatchesAt lines pattern key j := by
    intro key h j hj hmatch
    have hbound := add_le_of_matchesAt hne hmatch
    have hnot := find?_range'_eq_none.mp h j hj (by omega)
    exact absurd hmatch (by simpa [MatchesAt] using hnot)
  cases h : levels.findSome? fun key => seekBy key lines pattern start with
  | none => exact fun key hkey => hnone key (findSome?_eq_none_iff.mp h key hkey)
  | some i =>
    obtain ⟨stricter, key, looser, hlevels, hfound, hstricter⟩ := findSome?_eq_some_iff.mp h
    obtain ⟨hmatch, hrange, hearlier⟩ := find?_range'_eq_some.mp hfound
    refine ⟨(mem_range'_1.mp hrange).1, stricter, key, looser, hlevels, ?_, fun j hj hlt => ?_,
      fun key' hkey' => hnone key' (hstricter key' hkey')⟩
    · exact of_decide_eq_true hmatch
    · simpa [MatchesAt] using hearlier j hj hlt

lemma seekSequence_eq (hne : pattern ≠ []) (hle : pattern.length ≤ lines.length) (start : ℕ)
    (eof : Bool) (mode : ApplyPatchFileUpdateMode) :
    seekSequence lines pattern start eof mode = levels.findSome? fun key =>
      seekBy key lines pattern (match eof, mode with
        | false, _ => start
        | true, .normalizeToLf => lines.length - pattern.length
        | true, .preserveLineEndings => max (lines.length - pattern.length) start) := by
  rw [seekSequence, if_neg (by simpa using hne), if_neg (by omega)]
  simp only [levels, findSome?_cons, findSome?_nil]
  cases seekBy id lines pattern _ <;> cases seekBy trimEnd lines pattern _ <;>
    cases seekBy trim lines pattern _ <;> cases seekBy normalise lines pattern _ <;> rfl

/-- Nothing but the end of the file is found from there on. -/
lemma FoundFrom.at_end {start : ℕ} {r : Option ℕ} (h : FoundFrom lines pattern start r)
    (hne : pattern ≠ []) (hstart : lines.length - pattern.length ≤ start) :
    r = none ∨ r = some (lines.length - pattern.length) ∧ EndsInPattern lines pattern := by
  cases r with
  | none => exact .inl rfl
  | some i =>
    obtain ⟨hi, stricter, key, looser, hlevels, hmatch, -⟩ := h
    have hbound := add_le_of_matchesAt hne hmatch
    obtain rfl : i = lines.length - pattern.length := by omega
    exact .inr ⟨rfl, hne, key, by rw [hlevels]; simp, hmatch⟩

lemma FoundFrom.eq_end {r : Option ℕ}
    (h : FoundFrom lines pattern (lines.length - pattern.length) r)
    (hends : EndsInPattern lines pattern) : r = some (lines.length - pattern.length) := by
  rcases h.at_end hends.1 le_rfl with rfl | ⟨hend, -⟩
  · obtain ⟨-, key, hkey, hmatch⟩ := hends
    exact absurd hmatch (h key hkey _ le_rfl)
  · exact hend

end

theorem seekSequence_contract_iff (lines pattern : List Line) (start : ℕ) (eof : Bool)
    (mode : ApplyPatchFileUpdateMode) :
    SeekContract lines pattern start eof (seekSequence lines pattern start eof mode) ↔
      (eof = true → pattern ≠ [] →
        (EndsInPattern lines pattern → mode = .normalizeToLf →
          start ≤ lines.length - pattern.length) ∧
        (¬EndsInPattern lines pattern →
          ∀ key ∈ levels, ∀ j, start ≤ j → ¬MatchesAt lines pattern key j)) := by
  by_cases hne : pattern = []
  · -- an empty pattern is found where the search starts
    subst hne
    have hends : ¬EndsInPattern lines [] := fun h => h.1 rfl
    have hfound : FoundFrom lines [] start (some start) :=
      ⟨le_rfl, [], id, _, rfl, by simp [MatchesAt], fun j hj hlt => absurd hj (by omega), by simp⟩
    simpa [SeekContract, hends, seekSequence] using hfound
  by_cases hlong : lines.length < pattern.length
  · have hno : ∀ key j, ¬MatchesAt lines pattern key j := fun key j h => by
      have := add_le_of_matchesAt hne h
      omega
    have hends : ¬EndsInPattern lines pattern := fun ⟨_, key, _, h⟩ => hno key _ h
    simp [SeekContract, hends, seekSequence, hne, hlong, FoundFrom, hno]
  have hfound := foundFrom_findSome hne (not_lt.mp hlong)
  rw [seekSequence_eq hne (not_lt.mp hlong)]
  cases eof with
  | false => simp [SeekContract, hfound]
  | true =>
    by_cases hends : EndsInPattern lines pattern
    · cases mode with
      | normalizeToLf =>
        rw [(hfound _).eq_end hends]
        by_cases hstart : start ≤ lines.length - pattern.length
        · simp [SeekContract, hends, hstart]
        · simp [SeekContract, hends, hstart, FoundFrom, hne]
      | preserveLineEndings =>
        refine iff_of_true ?_ (by simp [hends])
        by_cases hstart : start ≤ lines.length - pattern.length
        · simp [SeekContract, hends, hstart, (hfound _).eq_end hends]
        · simp [SeekContract, hstart, max_eq_right (not_le.mp hstart).le, hfound]
    · have hend := fun searchStart hle =>
        ((hfound searchStart).at_end hne hle).resolve_right (hends ·.2)
      rw [hend _ (by cases mode <;> simp)]
      simp [SeekContract, hends, FoundFrom, hne]

/-- A match before the end of the file is passed over. -/
theorem seekSequence_not_fallback :
    seekSequence ["a".toList, "b".toList] ["a".toList] 0 true .normalizeToLf = none ∧
      MatchesAt ["a".toList, "b".toList] ["a".toList] id 0 ∧
      ¬SeekContract ["a".toList, "b".toList] ["a".toList] 0 true none := by
  refine ⟨by decide, by decide, fun hcontract => ?_⟩
  rw [SeekContract, if_neg (by decide)] at hcontract
  exact hcontract id (by simp [levels]) 0 le_rfl (by decide)

end ExperienceCodex.ApplyPatch
