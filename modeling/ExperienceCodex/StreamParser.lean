import ExperienceCodex.Chunks

/-!
# Parsers of streamed assistant text

Assistant text arrives in chunks.  Citations are tags within a line that are hidden; their contents
are extracted.  In plan mode the text that remains visible goes through a second parser that looks
for lines that hold nothing but a tag, and splits the text into segments inside and outside of
plans.
-/

namespace ExperienceCodex.StreamParser

open Slices Chunks

/-- What a parser gives for a chunk: text to show and what it extracted. -/
structure StreamTextChunk (ε : Type) where
  visibleText : List Char := []
  extracted : List ε := []

structure ExtractedInlineTag (τ : Type) where
  tag : τ
  content : List Char

/-- The parser refuses empty delimiters. -/
structure InlineTagSpec (τ : Type) where
  tag : τ
  opening : List Char
  closing : List Char
  opening_ne : opening ≠ []
  closing_ne : closing ≠ []

structure ActiveTag (τ : Type) where
  tag : τ
  closing : List Char
  content : List Char
  closing_ne : closing ≠ []

structure InlineState (τ : Type) where
  pending : List Char
  active : Option (ActiveTag τ)

section
variable {τ : Type}

/-- Where a delimiter is found: its position, and the specification. -/
abbrev OpenAt (τ : Type) := ℕ × InlineTagSpec τ

/-- The earlier one of two finds; at the same position the longer delimiter, and then the one
that comes first among the specifications. -/
def earlier (found next : OpenAt τ) : OpenAt τ :=
  if next.1 < found.1 ∨
      next.1 = found.1 ∧ byteLen found.2.opening < byteLen next.2.opening then next
  else found

def findNextOpen (specs : List (InlineTagSpec τ)) (pending : List Char) : Option (OpenAt τ) :=
  let finds := specs.filterMap fun spec =>
    (cutAt spec.opening pending).map fun parts => (parts.1.length, spec)
  match finds with
  | [] => none
  | found :: more => some (more.foldl earlier found)

def maxOpenPrefixSuffixLen (specs : List (InlineTagSpec τ)) (pending : List Char) : ℕ :=
  (specs.map fun spec => longestSuffixPrefixLen pending spec.opening).foldl max 0

lemma cutAt_length {needle text front back : List Char} (hne : needle ≠ [])
    (h : cutAt needle text = some (front, back)) :
    front.length + needle.length ≤ text.length ∧ back.length < text.length := by
  obtain ⟨middle, rfl, hmid⟩ := cutAt_eq_some h
  rw [chars_char] at hmid
  have hpos := List.length_pos_iff.mpr hne
  rw [← hmid] at hpos ⊢
  simp only [List.length_append]
  omega

lemma foldl_earlier_mem (found : OpenAt τ) (more : List (OpenAt τ)) :
    more.foldl earlier found ∈ found :: more := by
  induction more generalizing found with
  | nil => exact List.mem_singleton_self found
  | cons next more ih =>
    have hstep : earlier found next = found ∨ earlier found next = next := by
      rw [earlier]
      split_ifs
      · exact .inr rfl
      · exact .inl rfl
    rw [List.foldl_cons]
    rcases List.mem_cons.mp (ih (earlier found next)) with h | h
    · rw [h]
      rcases hstep with hstep | hstep <;> rw [hstep] <;> simp
    · exact List.mem_cons_of_mem _ (List.mem_cons_of_mem _ h)

lemma le_of_findNextOpen {specs : List (InlineTagSpec τ)} {pending : List Char} {found : OpenAt τ}
    (h : findNextOpen specs pending = some found) :
    found.1 + found.2.opening.length ≤ pending.length := by
  have hfinds : ∀ next ∈ specs.filterMap fun spec =>
      (cutAt spec.opening pending).map fun parts => (parts.1.length, spec),
      next.1 + next.2.opening.length ≤ pending.length := by
    intro next hnext
    obtain ⟨spec, -, hspec⟩ := List.mem_filterMap.mp hnext
    obtain ⟨parts, hparts, rfl⟩ := Option.map_eq_some_iff.mp hspec
    exact (cutAt_length spec.opening_ne hparts).1
  rw [findNextOpen] at h
  generalize (specs.filterMap fun spec =>
    (cutAt spec.opening pending).map fun parts => (parts.1.length, spec)) = finds at h hfinds
  cases finds with
  | nil => cases h
  | cons first more =>
    cases h
    exact hfinds _ (foldl_earlier_mem first more)

/-- The loop of `push_str`. -/
def drain (specs : List (InlineTagSpec τ)) (active : Option (ActiveTag τ)) (pending : List Char) :
    StreamTextChunk (ExtractedInlineTag τ) × InlineState τ :=
  match active with
  | some tag =>
    match h : cutAt tag.closing pending with
    | some (body, rest) =>
      let next := drain specs none rest
      ({ next.1 with extracted := ⟨tag.tag, tag.content ++ body⟩ :: next.1.extracted }, next.2)
    | none =>
      let take := pending.length - longestSuffixPrefixLen pending tag.closing
      ({}, ⟨pending.drop take, some { tag with content := tag.content ++ pending.take take }⟩)
  | none =>
    match h : findNextOpen specs pending with
    | some (openIdx, spec) =>
      let next := drain specs (some ⟨spec.tag, spec.closing, [], spec.closing_ne⟩)
        (pending.drop (openIdx + spec.opening.length))
      ({ next.1 with visibleText := pending.take openIdx ++ next.1.visibleText }, next.2)
    | none =>
      let take := pending.length - maxOpenPrefixSuffixLen specs pending
      ({ visibleText := pending.take take }, ⟨pending.drop take, none⟩)
termination_by pending.length
decreasing_by
  · exact (cutAt_length tag.closing_ne h).2
  · have hle := le_of_findNextOpen h
    have hpos := List.length_pos_iff.mpr spec.opening_ne
    rw [List.length_drop]
    dsimp only at hle
    omega

def pushStr (specs : List (InlineTagSpec τ)) (state : InlineState τ) (chunk : List Char) :
    StreamTextChunk (ExtractedInlineTag τ) × InlineState τ :=
  drain specs state.active (state.pending ++ chunk)

def finish (state : InlineState τ) : StreamTextChunk (ExtractedInlineTag τ) :=
  match state.active with
  | some active => { extracted := [⟨active.tag, active.content ++ state.pending⟩] }
  | none => { visibleText := state.pending }

end

inductive CitationTag where
  | citation

def citationOpen : List Char := "<oai-mem-citation>".toList

def citationClose : List Char := "</oai-mem-citation>".toList

def citationSpec : InlineTagSpec CitationTag where
  tag := .citation
  opening := citationOpen
  closing := citationClose
  opening_ne := by decide
  closing_ne := by decide

abbrev CitationState := InlineState CitationTag

def citationStart : CitationState where
  pending := []
  active := none

/-- The bodies of the extracted tags. -/
def citationChunk (chunk : StreamTextChunk (ExtractedInlineTag CitationTag)) :
    StreamTextChunk (List Char) where
  visibleText := chunk.visibleText
  extracted := chunk.extracted.map ExtractedInlineTag.content

def pushCitation (state : CitationState) (chunk : List Char) :
    StreamTextChunk (List Char) × CitationState :=
  let next := pushStr [citationSpec] state chunk
  (citationChunk next.1, next.2)

def finishCitation (state : CitationState) : StreamTextChunk (List Char) :=
  citationChunk (finish state)

structure TagSpec (τ : Type) where
  opening : List Char
  closing : List Char
  tag : τ

inductive TaggedLineSegment (τ : Type) where
  | normal (text : List Char)
  | tagStart (tag : τ)
  | tagDelta (tag : τ) (text : List Char)
  | tagEnd (tag : τ)

structure LineState (τ : Type) where
  activeTag : Option τ
  detectTag : Bool
  lineBuffer : List Char

section
variable {τ : Type} [DecidableEq τ]

/-- A segment behind the segments before, put together with the last one if it is of one kind
with it. -/
def pushSegment (segments : List (TaggedLineSegment τ)) :
    TaggedLineSegment τ → List (TaggedLineSegment τ)
  | .normal delta =>
    if delta.isEmpty then segments
    else
      match segments.getLast? with
      | some (.normal existing) => segments.dropLast ++ [.normal (existing ++ delta)]
      | _ => segments ++ [.normal delta]
  | .tagDelta tag delta =>
    if delta.isEmpty then segments
    else
      match segments.getLast? with
      | some (.tagDelta existingTag existing) =>
        if existingTag = tag then segments.dropLast ++ [.tagDelta existingTag (existing ++ delta)]
        else segments ++ [.tagDelta tag delta]
      | _ => segments ++ [.tagDelta tag delta]
  | .tagStart tag => segments ++ [.tagStart tag]
  | .tagEnd tag => segments ++ [.tagEnd tag]

def textSegment (activeTag : Option τ) (text : List Char) : TaggedLineSegment τ :=
  match activeTag with
  | some tag => .tagDelta tag text
  | none => .normal text

def trimStart (text : List Char) : List Char :=
  text.dropWhile Text.isWhitespace

def trimEnd (text : List Char) : List Char :=
  text.rdropWhile Text.isWhitespace

def isTagPrefix (specs : List (TagSpec τ)) (slug : List Char) : Bool :=
  specs.any fun spec => (trimEnd slug).isPrefixOf spec.opening ||
    (trimEnd slug).isPrefixOf spec.closing

def matchOpen (specs : List (TagSpec τ)) (slug : List Char) : Option τ :=
  (specs.find? fun spec => spec.opening == slug).map TagSpec.tag

def matchClose (specs : List (TagSpec τ)) (slug : List Char) : Option τ :=
  (specs.find? fun spec => spec.closing == slug).map TagSpec.tag

def stripNewline (line : List Char) : List Char :=
  if line.getLast? = some '\n' then line.dropLast else line

/-- What a whole line is, and the tag that is active behind it. -/
def lineSegment (specs : List (TagSpec τ)) (activeTag : Option τ) (line : List Char) :
    TaggedLineSegment τ × Option τ :=
  let slug := trimEnd (trimStart (stripNewline line))
  match matchOpen specs slug, activeTag with
  | some tag, none => (.tagStart tag, some tag)
  | _, _ =>
    match matchClose specs slug with
    | some tag =>
      if activeTag = some tag then (.tagEnd tag, none) else (textSegment activeTag line, activeTag)
    | none => (textSegment activeTag line, activeTag)

/-- The loop of `parse`: the parser, the text of the line that is known to be no tag, and the
segments so far. -/
structure ParseLoop (τ : Type) where
  state : LineState τ
  run : List Char := []
  segments : List (TaggedLineSegment τ) := []

def flushRun (loop : ParseLoop τ) : List (TaggedLineSegment τ) :=
  if loop.run.isEmpty then loop.segments
  else pushSegment loop.segments (textSegment loop.state.activeTag loop.run)

def parseChar (specs : List (TagSpec τ)) (loop : ParseLoop τ) (c : Char) : ParseLoop τ :=
  if loop.state.detectTag then
    let segments := flushRun loop
    let buffer := loop.state.lineBuffer ++ [c]
    if c = '\n' then
      let line := lineSegment specs loop.state.activeTag buffer
      { state := { activeTag := line.2, detectTag := true, lineBuffer := [] }
        segments := pushSegment segments line.1 }
    else if (trimStart buffer).isEmpty || isTagPrefix specs (trimStart buffer) then
      { state := { loop.state with lineBuffer := buffer }, segments := segments }
    else
      { state := { loop.state with detectTag := false, lineBuffer := [] }
        segments := pushSegment segments (textSegment loop.state.activeTag buffer) }
  else if c = '\n' then
    { state := { loop.state with detectTag := true }
      segments :=
        pushSegment loop.segments (textSegment loop.state.activeTag (loop.run ++ [c])) }
  else { loop with run := loop.run ++ [c] }

def parse (specs : List (TagSpec τ)) (state : LineState τ) (delta : List Char) :
    List (TaggedLineSegment τ) × LineState τ :=
  let loop := delta.foldl (parseChar specs) { state := state }
  (flushRun loop, loop.state)

def finishLines (specs : List (TagSpec τ)) (state : LineState τ) : List (TaggedLineSegment τ) :=
  let line := lineSegment specs state.activeTag state.lineBuffer
  let buffered := if state.lineBuffer.isEmpty then ([], state.activeTag)
    else (pushSegment [] line.1, line.2)
  match buffered.2 with
  | some tag => pushSegment buffered.1 (.tagEnd tag)
  | none => buffered.1

end

inductive PlanTag where
  | proposedPlan
deriving DecidableEq

inductive ProposedPlanSegment where
  | normal (text : List Char)
  | proposedPlanStart
  | proposedPlanDelta (text : List Char)
  | proposedPlanEnd
deriving DecidableEq

def planSpecs : List (TagSpec PlanTag) :=
  [{ opening := "<proposed_plan>".toList
     closing := "</proposed_plan>".toList
     tag := .proposedPlan }]

abbrev PlanState := LineState PlanTag

def planStart : PlanState where
  activeTag := none
  detectTag := true
  lineBuffer := []

def mapSegment : TaggedLineSegment PlanTag → ProposedPlanSegment
  | .normal text => .normal text
  | .tagStart .proposedPlan => .proposedPlanStart
  | .tagDelta .proposedPlan text => .proposedPlanDelta text
  | .tagEnd .proposedPlan => .proposedPlanEnd

/-- The text of a segment outside of plans. -/
def normalText : ProposedPlanSegment → List Char
  | .normal text => text
  | _ => []

def mapSegments (segments : List (TaggedLineSegment PlanTag)) :
    StreamTextChunk ProposedPlanSegment where
  visibleText := (segments.map mapSegment).flatMap normalText
  extracted := segments.map mapSegment

def pushPlan (state : PlanState) (chunk : List Char) :
    StreamTextChunk ProposedPlanSegment × PlanState :=
  let next := parse planSpecs state chunk
  (mapSegments next.1, next.2)

def finishPlan (state : PlanState) : StreamTextChunk ProposedPlanSegment :=
  mapSegments (finishLines planSpecs state)

structure AssistantTextChunk where
  visibleText : List Char := []
  citations : List (List Char) := []
  planSegments : List ProposedPlanSegment := []

structure AssistantTextStreamParser where
  planMode : Bool
  citations : CitationState := citationStart
  plan : PlanState := planStart

namespace AssistantTextStreamParser

def parseVisibleText (parser : AssistantTextStreamParser) (visibleText : List Char) :
    AssistantTextChunk × AssistantTextStreamParser :=
  if !parser.planMode then ({ visibleText := visibleText }, parser)
  else
    let planChunk := pushPlan parser.plan visibleText
    ({ visibleText := planChunk.1.visibleText, planSegments := planChunk.1.extracted },
      { parser with plan := planChunk.2 })

def pushStr (parser : AssistantTextStreamParser) (chunk : List Char) :
    AssistantTextChunk × AssistantTextStreamParser :=
  let citationChunk := pushCitation parser.citations chunk
  let out := { parser with citations := citationChunk.2 }.parseVisibleText
    citationChunk.1.visibleText
  ({ out.1 with citations := citationChunk.1.extracted }, out.2)

def finish (parser : AssistantTextStreamParser) : AssistantTextChunk :=
  let citationChunk := finishCitation parser.citations
  let out := parser.parseVisibleText citationChunk.visibleText
  let tail := if parser.planMode then finishPlan out.2.plan else {}
  { visibleText := out.1.visibleText ++ tail.visibleText
    citations := citationChunk.extracted
    planSegments := out.1.planSegments ++ tail.extracted }

/-- All that a parser gives for the chunks of a text and at its end. -/
def collect (planMode : Bool) (chunks : List (List Char)) : AssistantTextChunk :=
  let fed := feed pushStr { planMode := planMode } chunks
  let outputs := fed.1 ++ [fed.2.finish]
  { visibleText := outputs.flatMap AssistantTextChunk.visibleText
    citations := outputs.flatMap AssistantTextChunk.citations
    planSegments := outputs.flatMap AssistantTextChunk.planSegments }

end AssistantTextStreamParser

/-- A plan segment behind the segments before, put together with the last one if it is of one kind
with it. -/
def mergeSegment (segments : List ProposedPlanSegment) (segment : ProposedPlanSegment) :
    List ProposedPlanSegment :=
  match segments.getLast?, segment with
  | some (.normal existing), .normal text => segments.dropLast ++ [.normal (existing ++ text)]
  | some (.proposedPlanDelta existing), .proposedPlanDelta text =>
    segments.dropLast ++ [.proposedPlanDelta (existing ++ text)]
  | _, _ => segments ++ [segment]

/-- Plan segments with adjacent segments of one kind put together. -/
def mergeSegments (segments : List ProposedPlanSegment) : List ProposedPlanSegment :=
  segments.foldl mergeSegment []

end ExperienceCodex.StreamParser
