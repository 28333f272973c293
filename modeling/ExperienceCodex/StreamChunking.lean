import ExperienceCodex.StreamParser

/-!
# Assistant text does not depend on its chunks

Each of the two parsers gives for two chunks what it gives for the two in one: the parser of hidden
tags because what it lets go holds no beginning of a delimiter, and the parser of tag lines because
it reads one character after the other.  Put together they keep this.
-/

namespace ExperienceCodex.StreamParser

open List Slices Chunks StreamTextChunk

section
variable {τ : Type} {spec : InlineTagSpec τ} {pending front back : List Char}

lemma drain_active_of_some {tag : ActiveTag τ}
    (h : cutAt tag.closing pending = some (front, back)) :
    drain [spec] (some tag) pending =
      ({ visibleText := (drain [spec] none back).1.visibleText
         extracted := ⟨tag.tag, tag.content ++ front⟩ :: (drain [spec] none back).1.extracted },
        (drain [spec] none back).2) := by
  rw [drain]
  split
  · next hcut =>
    rw [h] at hcut
    cases hcut
    rfl
  · next hcut =>
    rw [h] at hcut
    cases hcut

/-- A tag with more content. -/
def ActiveTag.extend (tag : ActiveTag τ) (text : List Char) : ActiveTag τ :=
  { tag with content := tag.content ++ text }

lemma drain_active_of_none {tag : ActiveTag τ} (h : cutAt tag.closing pending = none) :
    drain [spec] (some tag) pending =
      ({}, ⟨held tag.closing pending, some (tag.extend (released tag.closing pending))⟩) := by
  rw [drain]
  split
  · next hcut =>
    rw [h] at hcut
    cases hcut
  · rfl

lemma findNextOpen_single (spec : InlineTagSpec τ) (pending : List Char) :
    findNextOpen [spec] pending =
      (cutAt spec.opening pending).map fun parts => (parts.1.length, spec) := by
  rw [findNextOpen, filterMap_cons, filterMap_nil]
  cases cutAt spec.opening pending <;> rfl

lemma drain_open_of_some (h : cutAt spec.opening pending = some (front, back)) :
    drain [spec] none pending =
      let next := drain [spec] (some ⟨spec.tag, spec.closing, [], spec.closing_ne⟩) back
      ({ next.1 with visibleText := front ++ next.1.visibleText }, next.2) := by
  obtain ⟨middle, hpending, hmid⟩ := cutAt_eq_some h
  rw [chars_char] at hmid
  have hfind : findNextOpen [spec] pending = some (front.length, spec) := by
    rw [findNextOpen_single, h]
    rfl
  have htake : pending.take front.length = front := by
    rw [hpending, append_assoc, take_left]
  have hdrop : pending.drop (front.length + spec.opening.length) = back := by
    rw [hpending, ← hmid, ← length_append, drop_left]
  conv_lhs => rw [drain]
  split
  · next hopen =>
    rw [hfind] at hopen
    cases hopen
    rw [htake, hdrop]
  · next hopen =>
    rw [hfind] at hopen
    cases hopen

lemma drain_open_of_none (h : cutAt spec.opening pending = none) :
    drain [spec] none pending =
      ({ visibleText := released spec.opening pending }, ⟨held spec.opening pending, none⟩) := by
  have hfind : findNextOpen [spec] pending = none := by
    rw [findNextOpen_single, h]
    rfl
  have hmax : maxOpenPrefixSuffixLen [spec] pending = longestSuffixPrefixLen pending spec.opening :=
    Nat.zero_max _
  rw [drain]
  split
  · next hopen =>
    rw [hfind] at hopen
    cases hopen
  · rw [hmax]
    rfl

/-- What two outputs of a parser give together. -/
def StreamTextChunk.append {ε : Type} (one two : StreamTextChunk ε) : StreamTextChunk ε where
  visibleText := one.visibleText ++ two.visibleText
  extracted := one.extracted ++ two.extracted

/-- More text behind the pending text: the loop goes on where it stopped. -/
lemma drain_append (spec : InlineTagSpec τ) (active : Option (ActiveTag τ))
    (pending more : List Char) :
    drain [spec] active (pending ++ more) =
      let one := drain [spec] active pending
      let two := drain [spec] one.2.active (one.2.pending ++ more)
      (one.1.append two.1, two.2) := by
  induction hlen : pending.length using Nat.strong_induction_on generalizing active pending with
  | _ n ih =>
    subst hlen
    cases active with
    | some tag =>
      cases hcut : cutAt tag.closing pending with
      | some parts =>
        have hshort := (cutAt_length tag.closing_ne hcut).2
        rw [drain_active_of_some hcut,
          drain_active_of_some (cutAt_append_of_some tag.closing_ne hcut),
          ih _ hshort none parts.2 rfl]
        rfl
      | none =>
        have hwhole := cutAt_append_of_none tag.closing_ne hcut more
        rw [drain_active_of_none hcut]
        dsimp only
        have hclosing : (tag.extend (released tag.closing pending)).closing = tag.closing := rfl
        cases hrest : cutAt (tag.extend (released tag.closing pending)).closing
            (held tag.closing pending ++ more) with
        | some parts =>
          have hplain := hclosing ▸ hrest
          rw [hplain] at hwhole
          rw [drain_active_of_some hwhole, drain_active_of_some hrest]
          simp [append, ActiveTag.extend]
        | none =>
          have hplain := hclosing ▸ hrest
          rw [hplain] at hwhole
          rw [drain_active_of_none hwhole, drain_active_of_none hrest, hclosing,
            held_append tag.closing_ne hcut, released_append tag.closing_ne hcut]
          simp [append, ActiveTag.extend]
    | none =>
      cases hcut : cutAt spec.opening pending with
      | some parts =>
        have hshort := (cutAt_length spec.opening_ne hcut).2
        rw [drain_open_of_some hcut, drain_open_of_some (cutAt_append_of_some spec.opening_ne hcut),
          ih _ hshort _ parts.2 rfl]
        simp [append]
      | none =>
        have hwhole := cutAt_append_of_none spec.opening_ne hcut more
        rw [drain_open_of_none hcut]
        dsimp only
        cases hrest : cutAt spec.opening (held spec.opening pending ++ more) with
        | some parts =>
          rw [hrest] at hwhole
          rw [drain_open_of_some hwhole, drain_open_of_some hrest]
          simp [append]
        | none =>
          rw [hrest] at hwhole
          rw [drain_open_of_none hwhole, drain_open_of_none hrest,
            held_append spec.opening_ne hcut, released_append spec.opening_ne hcut]
          rfl

end

lemma pushCitation_joins {ν : Type} {view : StreamTextChunk (List Char) → List ν}
    (hview : ∀ one two : StreamTextChunk (ExtractedInlineTag CitationTag),
      view (citationChunk (one.append two)) =
        view (citationChunk one) ++ view (citationChunk two)) :
    Joins pushCitation view := by
  intro state front back
  simp only [pushCitation, pushStr]
  rw [← append_assoc, drain_append]
  exact ⟨rfl, hview _ _⟩

lemma pushCitation_joins_visible : Joins pushCitation visibleText :=
  pushCitation_joins fun _ _ => rfl

section
variable {τ : Type} [DecidableEq τ]

/-- A segment character by character. -/
def TaggedLineSegment.split : TaggedLineSegment τ → List (TaggedLineSegment τ)
  | .normal text => text.map fun c => .normal [c]
  | .tagDelta tag text => text.map fun c => .tagDelta tag [c]
  | .tagStart tag => [.tagStart tag]
  | .tagEnd tag => [.tagEnd tag]

omit [DecidableEq τ] in
lemma split_textSegment_append (activeTag : Option τ) (front back : List Char) :
    (textSegment activeTag (front ++ back)).split =
      (textSegment activeTag front).split ++ (textSegment activeTag back).split := by
  cases activeTag <;> exact map_append

omit [DecidableEq τ] in
lemma split_textSegment_nil (activeTag : Option τ) : (textSegment activeTag []).split = [] := by
  cases activeTag <;> rfl

/-- Segments character by character. -/
def atoms (segments : List (TaggedLineSegment τ)) : List (TaggedLineSegment τ) :=
  segments.flatMap TaggedLineSegment.split

omit [DecidableEq τ] in
@[simp]
lemma atoms_nil : atoms ([] : List (TaggedLineSegment τ)) = [] := rfl

omit [DecidableEq τ] in
@[simp]
lemma atoms_append (front back : List (TaggedLineSegment τ)) :
    atoms (front ++ back) = atoms front ++ atoms back :=
  flatMap_append

omit [DecidableEq τ] in
@[simp]
lemma atoms_singleton (seg : TaggedLineSegment τ) : atoms [seg] = seg.split :=
  flatMap_singleton _ _

omit [DecidableEq τ] in
lemma atoms_dropLast {segments : List (TaggedLineSegment τ)} {last : TaggedLineSegment τ}
    (h : segments.getLast? = some last) :
    atoms segments = atoms segments.dropLast ++ last.split := by
  conv_lhs => rw [← dropLast_append_getLast? last h]
  rw [atoms_append, atoms_singleton]

/-- Characters are only ever put behind the characters before. -/
@[simp]
lemma atoms_pushSegment (segments : List (TaggedLineSegment τ)) (seg : TaggedLineSegment τ) :
    atoms (pushSegment segments seg) = atoms segments ++ seg.split := by
  cases seg with
  | normal delta =>
    rw [pushSegment]
    split
    · next h =>
      rw [isEmpty_iff.mp h]
      exact (append_nil _).symm
    · split
      · next old h => simp [atoms_dropLast h, TaggedLineSegment.split]
      · simp
  | tagDelta tag delta =>
    rw [pushSegment]
    split
    · next h =>
      rw [isEmpty_iff.mp h]
      exact (append_nil _).symm
    · split
      · next existingTag old h =>
        split
        · next htag => simp [atoms_dropLast h, htag, TaggedLineSegment.split]
        · simp
      · simp
  | tagStart tag => simp [pushSegment]
  | tagEnd tag => simp [pushSegment]

@[simp]
lemma atoms_flushRun (loop : ParseLoop τ) :
    atoms (flushRun loop) =
      atoms loop.segments ++ (textSegment loop.state.activeTag loop.run).split := by
  rw [flushRun]
  split
  · next h => rw [isEmpty_iff.mp h, split_textSegment_nil, append_nil]
  · exact atoms_pushSegment _ _

variable (specs : List (TagSpec τ))

/-- A step depends on the parser alone, and its characters come behind those before. -/
lemma parseChar_restart (loop : ParseLoop τ) (c : Char) :
    (parseChar specs loop c).state = (parseChar specs { state := loop.state } c).state ∧
      atoms (flushRun (parseChar specs loop c)) =
        atoms (flushRun loop) ++ atoms (flushRun (parseChar specs { state := loop.state } c)) := by
  simp only [parseChar]
  split
  · split
    · simp [split_textSegment_nil]
    · split
      · simp [split_textSegment_nil]
      · simp [split_textSegment_nil]
  · split
    · simp [split_textSegment_nil, split_textSegment_append]
    · simp [split_textSegment_append]

lemma foldl_parseChar_restart (loop : ParseLoop τ) (text : List Char) :
    (text.foldl (parseChar specs) loop).state =
        (text.foldl (parseChar specs) { state := loop.state }).state ∧
      atoms (flushRun (text.foldl (parseChar specs) loop)) =
        atoms (flushRun loop) ++
          atoms (flushRun (text.foldl (parseChar specs) { state := loop.state })) := by
  induction text generalizing loop with
  | nil => simp [split_textSegment_nil]
  | cons c text ih =>
    obtain ⟨hstate, hatoms⟩ := parseChar_restart specs loop c
    obtain ⟨hrest, hrestAtoms⟩ := ih (parseChar specs loop c)
    obtain ⟨hfresh, hfreshAtoms⟩ := ih (parseChar specs { state := loop.state } c)
    simp only [foldl_cons]
    rw [hrest, hfresh, hrestAtoms, hfreshAtoms, hatoms, hstate, append_assoc]
    exact ⟨rfl, rfl⟩

lemma parse_joins : Joins (parse specs) atoms := by
  intro state front back
  obtain ⟨hstate, hatoms⟩ :=
    foldl_parseChar_restart specs (front.foldl (parseChar specs) { state := state }) back
  simp only [parse, foldl_append]
  exact ⟨hstate, hatoms⟩

/-- A segment that is not an empty text. -/
def TaggedLineSegment.Solid : TaggedLineSegment τ → Prop
  | .normal text => text ≠ []
  | .tagDelta _ text => text ≠ []
  | _ => True

lemma solid_pushSegment {segments : List (TaggedLineSegment τ)}
    (h : ∀ seg ∈ segments, seg.Solid) (next : TaggedLineSegment τ) :
    ∀ seg ∈ pushSegment segments next, seg.Solid := by
  have hbehind : ∀ {front : List (TaggedLineSegment τ)} {last : TaggedLineSegment τ},
      (∀ seg ∈ front, seg.Solid) → last.Solid →
        ∀ seg ∈ front ++ [last], seg.Solid := by
    intro front last hfront hlast
    exact forall_mem_append.mpr ⟨hfront, forall_mem_singleton.mpr hlast⟩
  have hinit : ∀ seg ∈ segments.dropLast, seg.Solid :=
    fun seg hmem => h seg (mem_of_mem_dropLast hmem)
  cases next with
  | normal delta =>
    rw [pushSegment]
    split
    · exact h
    · next hdelta =>
      have hne : delta ≠ [] := fun hnil => hdelta (isEmpty_iff.mpr hnil)
      split
      · exact hbehind hinit (append_ne_nil_of_right_ne_nil _ hne)
      · exact hbehind h hne
  | tagDelta tag delta =>
    rw [pushSegment]
    split
    · exact h
    · next hdelta =>
      have hne : delta ≠ [] := fun hnil => hdelta (isEmpty_iff.mpr hnil)
      split
      · split
        · exact hbehind hinit (append_ne_nil_of_right_ne_nil _ hne)
        · exact hbehind h hne
      · exact hbehind h hne
  | tagStart tag => exact hbehind h trivial
  | tagEnd tag => exact hbehind h trivial

lemma solid_flushRun {loop : ParseLoop τ} (h : ∀ seg ∈ loop.segments, seg.Solid) :
    ∀ seg ∈ flushRun loop, seg.Solid := by
  rw [flushRun]
  split
  · exact h
  · exact solid_pushSegment h _

lemma solid_parseChar {loop : ParseLoop τ}
    (h : ∀ seg ∈ loop.segments, seg.Solid) (c : Char) :
    ∀ seg ∈ (parseChar specs loop c).segments, seg.Solid := by
  rw [parseChar]
  split
  · dsimp only
    split
    · exact solid_pushSegment (solid_flushRun h) _
    · split
      · exact solid_flushRun h
      · exact solid_pushSegment (solid_flushRun h) _
  · split
    · exact solid_pushSegment h _
    · exact h

lemma solid_parse (state : LineState τ) (text : List Char) :
    ∀ seg ∈ (parse specs state text).1, seg.Solid := by
  have hrun : ∀ loop : ParseLoop τ, (∀ seg ∈ loop.segments, seg.Solid) →
      ∀ seg ∈ (text.foldl (parseChar specs) loop).segments, seg.Solid := by
    induction text with
    | nil => exact fun loop h => h
    | cons c text ih => exact fun loop h => ih _ (solid_parseChar specs h c)
  exact solid_flushRun (hrun { state := state } (by simp))

lemma solid_finishLines (state : LineState τ) :
    ∀ seg ∈ finishLines specs state, seg.Solid := by
  have hnil : ∀ seg ∈ ([] : List (TaggedLineSegment τ)), seg.Solid := by simp
  rw [finishLines]
  split_ifs
  · split
    · exact solid_pushSegment hnil _
    · exact hnil
  · split
    · exact solid_pushSegment (solid_pushSegment hnil _) _
    · exact solid_pushSegment hnil _

end

/-- A plan segment character by character. -/
def ProposedPlanSegment.split : ProposedPlanSegment → List ProposedPlanSegment
  | .normal text => text.map fun c => .normal [c]
  | .proposedPlanDelta text => text.map fun c => .proposedPlanDelta [c]
  | segment => [segment]

/-- Plan segments character by character. -/
def planAtoms (segments : List ProposedPlanSegment) : List ProposedPlanSegment :=
  segments.flatMap ProposedPlanSegment.split

/-- A plan segment that is not an empty text. -/
def ProposedPlanSegment.Solid : ProposedPlanSegment → Prop
  | .normal text => text ≠ []
  | .proposedPlanDelta text => text ≠ []
  | _ => True

lemma split_mapSegment (seg : TaggedLineSegment PlanTag) :
    (mapSegment seg).split = seg.split.map mapSegment := by
  cases seg <;>
    simp [mapSegment, ProposedPlanSegment.split, TaggedLineSegment.split, Function.comp_def]

lemma solid_mapSegment {seg : TaggedLineSegment PlanTag} (h : seg.Solid) :
    (mapSegment seg).Solid := by
  cases seg <;> exact h

variable (segments : List ProposedPlanSegment)

/-- The visible text is a matter of the characters. -/
lemma flatMap_normalText :
    (planAtoms segments).flatMap normalText = segments.flatMap normalText := by
  rw [planAtoms, flatMap_assoc]
  refine flatMap_congr fun seg _ => ?_
  cases seg <;> simp [ProposedPlanSegment.split, normalText, flatMap_map]

lemma pushPlan_joins : Joins pushPlan fun chunk => planAtoms chunk.extracted := by
  intro state front back
  obtain ⟨hstate, hatoms⟩ := parse_joins planSpecs state front back
  have hmap : ∀ segments, planAtoms (segments.map mapSegment) =
      (atoms segments).map mapSegment := by
    intro segments
    rw [planAtoms, atoms, flatMap_map, map_flatMap]
    exact flatMap_congr fun seg _ => split_mapSegment seg
  simp only [pushPlan, mapSegments, hmap]
  rw [hatoms, map_append]
  exact ⟨hstate, rfl⟩

lemma pushPlan_joins_visible : Joins pushPlan visibleText :=
  pushPlan_joins.flatMap fun _ _ => (flatMap_normalText _).symm

lemma foldl_mergeSegment_singles {make : List Char → ProposedPlanSegment}
    (hmake : ∀ segments front back, mergeSegment (mergeSegment segments (make front)) (make back) =
      mergeSegment segments (make (front ++ back)))
    (segments : List ProposedPlanSegment) (front text : List Char) :
    (text.map fun c => make [c]).foldl mergeSegment (mergeSegment segments (make front)) =
      mergeSegment segments (make (front ++ text)) := by
  induction text generalizing front with
  | nil => simp
  | cons c text ih =>
    rw [map_cons, foldl_cons, hmake, ih]
    simp

lemma foldl_mergeSegment_split {segment : ProposedPlanSegment}
    (h : segment.Solid) :
    segment.split.foldl mergeSegment segments = mergeSegment segments segment := by
  cases segment with
  | normal text =>
    obtain ⟨c, rest, rfl⟩ := exists_cons_of_ne_nil h
    refine foldl_mergeSegment_singles (fun segments front back => ?_) segments [c] rest
    rcases h : segments.getLast? with _ | (_ | _ | _ | _) <;> simp [mergeSegment, h]
  | proposedPlanDelta text =>
    obtain ⟨c, rest, rfl⟩ := exists_cons_of_ne_nil h
    refine foldl_mergeSegment_singles (fun segments front back => ?_) segments [c] rest
    rcases h : segments.getLast? with _ | (_ | _ | _ | _) <;> simp [mergeSegment, h]
  | proposedPlanStart => rfl
  | proposedPlanEnd => rfl

/-- Merged segments are a matter of the characters. -/
lemma mergeSegments_planAtoms {segments : List ProposedPlanSegment}
    (h : ∀ seg ∈ segments, seg.Solid) :
    mergeSegments (planAtoms segments) = mergeSegments segments := by
  have hrun : ∀ before, (planAtoms segments).foldl mergeSegment before =
      segments.foldl mergeSegment before := by
    induction segments with
    | nil => exact fun before => rfl
    | cons seg segments ih =>
      intro before
      obtain ⟨hseg, hrest⟩ := forall_mem_cons.mp h
      rw [planAtoms, flatMap_cons, foldl_append,
        foldl_mergeSegment_split before hseg, foldl_cons]
      exact ih hrest _
  exact hrun []

namespace AssistantTextStreamParser

variable (parser : AssistantTextStreamParser)

variable (chunk : List Char)

lemma pushStr_citations :
    (pushStr parser chunk).1.citations = (pushCitation parser.citations chunk).1.extracted :=
  rfl

/-- The state behind a chunk, parser by parser. -/
lemma pushStr_state :
    (pushStr parser chunk).2 =
      { planMode := parser.planMode
        citations := (pushCitation parser.citations chunk).2
        plan := if parser.planMode then
            (pushPlan parser.plan (pushCitation parser.citations chunk).1.visibleText).2
          else parser.plan } := by
  simp only [pushStr, parseVisibleText]
  cases parser.planMode <;> simp

lemma pushStr_joins_state (front back : List Char) :
    (pushStr parser (front ++ back)).2 = (pushStr (pushStr parser front).2 back).2 := by
  obtain ⟨hstate, hvisible⟩ := pushCitation_joins_visible parser.citations front back
  simp only [pushStr_state, hstate, hvisible]
  cases parser.planMode
  · rfl
  · simp only [if_true]
    rw [(pushPlan_joins _ _ _).1]

lemma pushStr_joins_citations : Joins pushStr AssistantTextChunk.citations := by
  intro parser front back
  refine ⟨pushStr_joins_state parser front back, ?_⟩
  simp only [pushStr_citations, pushStr_state]
  exact (pushCitation_joins (fun _ _ => map_append) parser.citations front back).2

lemma pushStr_joins_visible : Joins pushStr AssistantTextChunk.visibleText := by
  intro parser front back
  refine ⟨pushStr_joins_state parser front back, ?_⟩
  have hvisible := (pushCitation_joins_visible parser.citations front back).2
  simp only [pushStr, parseVisibleText, hvisible]
  cases parser.planMode
  · rfl
  · exact (pushPlan_joins_visible _ _ _).2

lemma pushStr_joins_plan : Joins pushStr fun chunk => planAtoms chunk.planSegments := by
  intro parser front back
  refine ⟨pushStr_joins_state parser front back, ?_⟩
  have hvisible := (pushCitation_joins_visible parser.citations front back).2
  simp only [pushStr, parseVisibleText, hvisible]
  cases parser.planMode
  · rfl
  · exact (pushPlan_joins _ _ _).2

/-- An empty chunk at the start does nothing. -/
lemma pushStr_start_nil (planMode : Bool) :
    pushStr { planMode := planMode } [] = ({}, { planMode := planMode }) := by
  have hcut : cutAt citationSpec.opening ([] : List Char) = none := by decide +kernel
  have hcitation : pushCitation citationStart [] = ({}, citationStart) := by
    simp only [pushCitation, StreamParser.pushStr, citationStart, append_nil]
    rw [drain_open_of_none hcut]
    rfl
  rw [pushStr]
  dsimp only
  rw [hcitation]
  cases planMode <;> rfl

/-- What the chunks give together with the end. -/
lemma collect_view {ν : Type} {view : AssistantTextChunk → List ν} (h : Joins pushStr view)
    (hview : view {} = []) (planMode : Bool) (chunks : List (List Char)) :
    ((feed pushStr { planMode := planMode } chunks).1 ++
        [(feed pushStr { planMode := planMode } chunks).2.finish]).flatMap view =
      ((feed pushStr { planMode := planMode } [chunks.flatten]).1 ++
        [(feed pushStr { planMode := planMode } [chunks.flatten]).2.finish]).flatMap view := by
  have hnil : (pushStr { planMode := planMode } []).2 = { planMode := planMode } := by
    rw [pushStr_start_nil]
  have hviewNil : view (pushStr { planMode := planMode } []).1 = [] := by
    rw [pushStr_start_nil, hview]
  obtain ⟨hstate, hout⟩ := h.feed_flatten hnil hviewNil chunks
  rw [flatMap_append, flatMap_append, hstate, hout]
  simp [feed]

lemma solid_parseVisibleText (text : List Char) :
    ∀ seg ∈ (parser.parseVisibleText text).1.planSegments, seg.Solid := by
  rw [parseVisibleText]
  split
  · simp
  · intro seg hseg
    obtain ⟨tagged, htagged, rfl⟩ := mem_map.mp hseg
    exact solid_mapSegment (solid_parse planSpecs parser.plan text tagged htagged)

lemma solid_finish :
    ∀ seg ∈ parser.finish.planSegments, seg.Solid := by
  intro seg hseg
  rw [finish] at hseg
  rcases mem_append.mp hseg with hmem | hmem
  · exact solid_parseVisibleText parser _ seg hmem
  · split at hmem
    · obtain ⟨tagged, htagged, rfl⟩ := mem_map.mp hmem
      exact solid_mapSegment (solid_finishLines planSpecs _ tagged htagged)
    · cases hmem

lemma solid_feed (chunks : List (List Char)) :
    ∀ chunk ∈ (feed pushStr parser chunks).1, ∀ seg ∈ chunk.planSegments, seg.Solid := by
  induction chunks generalizing parser with
  | nil => simp [feed]
  | cons chunk chunks ih =>
    rw [feed]
    exact forall_mem_cons.mpr ⟨solid_parseVisibleText _ _, ih _⟩

lemma solid_collect (planMode : Bool) (chunks : List (List Char)) :
    ∀ seg ∈ (collect planMode chunks).planSegments, seg.Solid := by
  intro seg hseg
  obtain ⟨chunk, hchunk, hmem⟩ := mem_flatMap.mp hseg
  rcases mem_append.mp hchunk with hfed | hend
  · exact solid_feed _ chunks chunk hfed seg hmem
  · rw [mem_singleton.mp hend] at hmem
    exact solid_finish _ seg hmem

/-- Any way of cutting a text into chunks gives what the text in one piece gives. -/
theorem collect_chunks (planMode : Bool) (chunks : List (List Char)) :
    (collect planMode chunks).visibleText = (collect planMode [chunks.flatten]).visibleText ∧
      (collect planMode chunks).citations = (collect planMode [chunks.flatten]).citations ∧
      mergeSegments (collect planMode chunks).planSegments =
        mergeSegments (collect planMode [chunks.flatten]).planSegments := by
  refine ⟨collect_view pushStr_joins_visible rfl planMode chunks,
    collect_view pushStr_joins_citations rfl planMode chunks, ?_⟩
  have hview := collect_view pushStr_joins_plan rfl planMode chunks
  rw [← mergeSegments_planAtoms (solid_collect planMode chunks),
    ← mergeSegments_planAtoms (solid_collect planMode [chunks.flatten])]
  simp only [collect, planAtoms, flatMap_assoc] at hview ⊢
  rw [hview]

/-- A tag may be cut anywhere. -/
example : (collect false ["a<oai-mem".toList, "-citation>b</oai-mem-citation>c".toList]).visibleText
    = "ac".toList := by
  decide +kernel

end AssistantTextStreamParser

end ExperienceCodex.StreamParser
