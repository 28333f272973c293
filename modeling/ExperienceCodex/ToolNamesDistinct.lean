import ExperienceCodex.ToolNames

/-!
# The names that the model sees are distinct, short and stable

Sanitising and hashing only ever change the two callable names, and only within letters, digits and
underscores.  The last pass refuses a name that is used, and an attempt makes room for its hash, so
the names are distinct and fit.  All that the passes before look at is the same for a permuted list,
and the raw identities put the candidates in one order.
-/

namespace ExperienceCodex.ToolNames

open List Slices DistinctNames ToolInfo

variable {ρ : Type} {sha1 : Sha1}

def ToolText (text : List Char) : Prop :=
  ∀ c ∈ text, isToolChar c = true

lemma toolText_append {front back : List Char} (hfront : ToolText front) (hback : ToolText back) :
    ToolText (front ++ back) :=
  forall_mem_append.mpr ⟨hfront, hback⟩

lemma toolText_take {text : List Char} (h : ToolText text) (n : ℕ) : ToolText (text.take n) :=
  fun c hc => h c (mem_of_mem_take hc)

lemma ascii_of_isToolChar {c : Char} (h : isToolChar c = true) : c.toNat < 128 := by
  have hle : ∀ {limit : Char}, limit.toNat < 128 → c.val ≤ limit.val → c.toNat < 128 :=
    fun hlimit hc => (UInt32.le_iff_toNat_le.mp hc).trans_lt hlimit
  simp only [isToolChar, Char.isAlphanum, Char.isAlpha, Char.isUpper, Char.isLower, Char.isDigit,
    Bool.or_eq_true, Bool.and_eq_true, decide_eq_true_eq, beq_iff_eq] at h
  rcases h with ((⟨-, hupper⟩ | ⟨-, hlower⟩) | ⟨-, hdigit⟩) | rfl
  · exact hle (by decide) hupper
  · exact hle (by decide) hlower
  · exact hle (by decide) hdigit
  · decide

lemma byteLen_of_toolText {text : List Char} (h : ToolText text) : byteLen text = text.length :=
  byteLen_of_ascii fun c hc => ascii_of_isToolChar (h c hc)

lemma toolText_sanitize (name : List Char) : ToolText (sanitizeResponsesApiToolName name) := by
  intro c hc
  rw [sanitizeResponsesApiToolName] at hc
  split at hc
  · rw [mem_singleton.mp hc]
    rfl
  · obtain ⟨d, -, rfl⟩ := mem_map.mp hc
    split
    · next h => exact h
    · rfl

lemma toolText_withPrefix {name : List Char} (h : ToolText name) (flag : Bool) :
    ToolText (callableNamespaceWithPrefix name flag) := by
  have hlegacy : ToolText legacyMcpToolNamePrefix := all_eq_true.mp (by decide +kernel)
  rw [callableNamespaceWithPrefix]
  split
  · exact h
  · exact toolText_append hlegacy h

lemma toolText_suffix (sha1 : Sha1) (text : List Char) :
    ToolText (callableNameHashSuffix sha1 text) := by
  have hall : ∀ byte : Fin 256, (hexByte byte).all isToolChar = true := by decide +kernel
  intro c hc
  rcases mem_cons.mp hc with rfl | hhex
  · rfl
  · obtain ⟨byte, -, hbyte⟩ := mem_flatMap.mp (mem_of_mem_take hhex)
    exact all_eq_true.mp (hall byte) c hbyte

lemma toolText_appendHash {value : List Char} (h : ToolText value) (raw : List Char) :
    ToolText (appendHashSuffix sha1 value raw) :=
  toolText_append h (toolText_suffix sha1 raw)

section
variable {attempts : ℕ → List Char × List Char} {used : List (List Char)}
  {parts : List Char × List Char}

lemma retry_eq_some {fuel k : ℕ} (h : retry attempts used fuel k = some parts) :
    ∃ later < k + fuel, parts = attempts later ∧
      (attempts later).1 ++ (attempts later).2 ∉ used := by
  induction fuel generalizing k with
  | zero => cases h
  | succ fuel ih =>
    rw [retry] at h
    split at h
    · obtain ⟨later, hlt, hparts⟩ := ih h
      exact ⟨later, by omega, hparts⟩
    · next hused =>
      cases h
      exact ⟨k, by omega, rfl, hused⟩

lemma exists_retry {fuel k later : ℕ} (hle : k ≤ later) (hlt : later < k + fuel)
    (hunused : (attempts later).1 ++ (attempts later).2 ∉ used) :
    ∃ parts, retry attempts used fuel k = some parts := by
  induction fuel generalizing k with
  | zero => omega
  | succ fuel ih =>
    rw [retry]
    split
    · next hused =>
      have hne : k ≠ later := by
        rintro rfl
        exact hunused hused
      exact ih (by omega) (by omega)
    · exact ⟨_, rfl⟩

end

/-- The name of a candidate fits and is not used. -/
def IsFree (used : List (List Char)) (candidate : CallableToolCandidate ρ) : Prop :=
  byteLen (candidate.callableNamespace ++ candidate.callableName) + mcpToolNameDelimiter.length ≤
      maxToolNameLength ∧
    candidate.callableNamespace ++ candidate.callableName ∉ used

/-- Some attempt gives a name that is not used. -/
def RetrySucceeds (sha1 : Sha1) (used : List (List Char)) (candidate : CallableToolCandidate ρ) :
    Prop :=
  ∃ attempt < attemptCount,
    let parts := attemptParts sha1 candidate.callableNamespace candidate.callableName
      candidate.rawToolIdentity mcpToolNameDelimiter.length attempt
    parts.1 ++ parts.2 ∉ used

/-- Wherever the candidates get to an attempt, some attempt gives a name that is not used. -/
def RetriesSucceed (sha1 : Sha1) : List (List Char) → List (CallableToolCandidate ρ) → Prop
  | _, [] => True
  | used, candidate :: rest =>
    (¬ IsFree used candidate → RetrySucceeds sha1 used candidate) ∧
      ∀ tool, nameTool sha1 used candidate = some tool →
        RetriesSucceed sha1 (tool.modelName :: used) rest

variable {used : List (List Char)}

lemma exists_nameTool {candidate : CallableToolCandidate ρ}
    (h : ¬ IsFree used candidate → RetrySucceeds sha1 used candidate) :
    ∃ tool, nameTool sha1 used candidate = some tool := by
  suffices hparts : ∃ parts, uniqueCallableParts sha1 candidate.callableNamespace
      candidate.callableName candidate.rawToolIdentity used mcpToolNameDelimiter.length =
        some parts by
    obtain ⟨parts, hparts⟩ := hparts
    rw [nameTool, hparts]
    exact ⟨_, rfl⟩
  rw [uniqueCallableParts]
  split
  · exact ⟨_, rfl⟩
  · next hfree =>
    obtain ⟨k, hlt, hunused⟩ := h hfree
    exact exists_retry (Nat.zero_le k) (by rwa [Nat.zero_add]) hunused

lemma serves_of_retriesSucceed
    {candidates : List (CallableToolCandidate ρ)} (h : RetriesSucceed sha1 used candidates) :
    Serves (nameTool sha1) modelName used candidates := by
  induction candidates generalizing used with
  | nil => trivial
  | cons candidate rest ih => exact ⟨exists_nameTool h.1, fun tool htool => ih (h.2 tool htool)⟩

/-- Where all candidates are named, an attempt was found wherever one was needed. -/
lemma retriesSucceed_of_assign
    {candidates : List (CallableToolCandidate ρ)}
    (h : (assign (nameTool sha1) modelName used candidates).isSome = true) :
    RetriesSucceed sha1 used candidates := by
  induction candidates generalizing used with
  | nil => trivial
  | cons candidate rest ih =>
    obtain ⟨named, hnamed⟩ := Option.isSome_iff_exists.mp h
    obtain ⟨tool, more, htool, hmore, -⟩ := assign_cons hnamed
    refine ⟨?_, ?_⟩
    · intro hfree
      rw [IsFree] at hfree
      obtain ⟨parts, hparts, -⟩ := Option.map_eq_some_iff.mp htool
      rw [uniqueCallableParts, if_neg hfree] at hparts
      obtain ⟨k, hlt, -, hunused⟩ := retry_eq_some hparts
      exact ⟨k, by rwa [Nat.zero_add] at hlt, hunused⟩
    · intro other hother
      rw [htool] at hother
      cases hother
      exact ih (Option.isSome_iff_exists.mpr ⟨more, hmore⟩)

/-- A candidate whose callable names are tool texts. -/
def Clean (candidate : CallableToolCandidate ρ) : Prop :=
  ToolText candidate.callableNamespace ∧ ToolText candidate.callableName

/-- What a candidate is given: its own tool under a name that is not used, and that fits. -/
lemma nameTool_eq_some {candidate : CallableToolCandidate ρ}
    {tool : ToolInfo ρ} (h : nameTool sha1 used candidate = some tool) :
    tool = { candidate.tool with
      callableNamespace := tool.callableNamespace, callableName := tool.callableName } ∧
      tool.modelName ∉ used ∧
      (Clean candidate → ToolText tool.modelName ∧ byteLen tool.modelName ≤ 126) := by
  obtain ⟨parts, hparts, rfl⟩ := Option.map_eq_some_iff.mp h
  refine ⟨rfl, ?_⟩
  rw [uniqueCallableParts] at hparts
  split at hparts
  · next hfree =>
    cases hparts
    refine ⟨hfree.2, fun hclean => ⟨toolText_append hclean.1 hclean.2, ?_⟩⟩
    exact Nat.le_of_add_le_add_right hfree.1
  · obtain ⟨k, -, hattempt, hunused⟩ := retry_eq_some hparts
    rw [← hattempt] at hunused
    refine ⟨hunused, fun hclean => ?_⟩
    have hfits : ToolText (parts.1 ++ parts.2) ∧ (parts.1 ++ parts.2).length ≤ 126 := by
      have hsuf := toolText_suffix sha1 (hashInput candidate.rawToolIdentity k)
      -- an underscore and twelve digits
      have hlen : (callableNameHashSuffix sha1 (hashInput candidate.rawToolIdentity k)).length =
          13 := by
        simp [callableNameHashSuffix, callableNameHashLen, sha1Hex, hexByte]
      have hdelim : mcpToolNameDelimiter.length = 2 := rfl
      rw [hattempt]
      simp only [attemptParts, fitCallablePartsWithHash, truncateName, byteLen_of_toolText hsuf,
        hlen, byteLen_of_toolText hclean.1, hdelim, maxToolNameLength]
      split
      · next hle =>
        refine ⟨toolText_append hclean.1 (toolText_append (toolText_take hclean.2 _) hsuf), ?_⟩
        simp only [length_append, length_take, hlen]
        omega
      · refine ⟨toolText_append (toolText_take hclean.1 _) hsuf, ?_⟩
        simp only [length_append, length_take, hlen]
        omega
    exact ⟨hfits.1, (byteLen_of_toolText hfits.1).trans_le hfits.2⟩

section
variable {β : Type} {view : CallableToolCandidate ρ → β}
  {candidates : List (CallableToolCandidate ρ)}

/-- Hashing keeps every view that does not look at the callable names. -/
lemma map_hashed (hview : ∀ candidate space name,
      view { candidate with callableNamespace := space, callableName := name } = view candidate) :
    (hashNames sha1 (hashNamespaces sha1 candidates)).map view = candidates.map view := by
  simp only [hashNames, hashNamespaces, map_map]
  apply map_congr_left
  intro candidate _
  simp only [Function.comp_apply]
  split_ifs <;> first | rfl | exact hview candidate _ _

section
variable (h : ∀ candidate ∈ candidates, Clean candidate)
include h

lemma clean_hashNamespaces :
    ∀ candidate ∈ hashNamespaces sha1 candidates, Clean candidate := by
  intro candidate hmem
  obtain ⟨before, hbefore, rfl⟩ := mem_map.mp hmem
  obtain ⟨hns, hname⟩ := h before hbefore
  have hdelim : ToolText mcpToolNameDelimiter := all_eq_true.mp (by decide +kernel)
  split
  · refine ⟨?_, hname⟩
    rw [appendNamespaceHashSuffix]
    split
    · exact toolText_append (toolText_append (toolText_take hns _) (toolText_suffix sha1 _)) hdelim
    · exact toolText_appendHash hns _
  · exact ⟨hns, hname⟩

lemma clean_hashNames :
    ∀ candidate ∈ hashNames sha1 candidates, Clean candidate := by
  intro candidate hmem
  obtain ⟨before, hbefore, rfl⟩ := mem_map.mp hmem
  obtain ⟨hns, hname⟩ := h before hbefore
  split
  · exact ⟨hns, toolText_appendHash hname _⟩
  · exact ⟨hns, hname⟩

end

lemma hashNamespaces_perm {others : List (CallableToolCandidate ρ)} (h : others.Perm candidates) :
    (hashNamespaces sha1 others).Perm (hashNamespaces sha1 candidates) := by
  rw [hashNamespaces, hashNamespaces, isShared_of_perm _ _ h]
  exact h.map _

lemma hashNames_perm {others : List (CallableToolCandidate ρ)} (h : others.Perm candidates) :
    (hashNames sha1 others).Perm (hashNames sha1 candidates) := by
  rw [hashNames, hashNames, isShared_of_perm _ _ h]
  exact h.map _

end

section
variable {flag : Bool} {exempt : List (List Char)} {tools : List (ToolInfo ρ)}

lemma clean_sortedCandidates :
    ∀ candidate ∈ sortedCandidates sha1 flag exempt tools, Clean candidate := by
  have hclean : ∀ made ∈ (firsts rawToolIdentity tools).map (candidate flag exempt),
      Clean made := by
    intro made hmem
    obtain ⟨tool, -, rfl⟩ := mem_map.mp hmem
    exact ⟨toolText_withPrefix (toolText_sanitize _) _, toolText_sanitize _⟩
  intro made hmem
  exact clean_hashNames (clean_hashNamespaces hclean) made ((sortBy_perm _).mem_iff.mp hmem)

end

/-- Some attempt giving a name that is not used, each raw identity has exactly one entry, which is
its tool but for the callable names; the names that the model sees are distinct, of letters, digits
and underscores, and of at most 126 bytes; and tools with distinct identities may come in any
order. -/
theorem normalizeTools_named (sha1 : Sha1) (tools : List (ToolInfo ρ)) (flag : Bool)
    (exempt : List (List Char))
    (hretry : RetriesSucceed sha1 [] (sortedCandidates sha1 flag exempt tools)) :
    (∃ named, normalizeToolsForModelWithPrefix sha1 tools flag exempt = some named ∧
      (∃ sources : List (ToolInfo ρ), (∀ source ∈ sources, source ∈ tools) ∧
        (sources.map ToolInfo.rawToolIdentity).Nodup ∧
        (∀ tool ∈ tools, ∃ source ∈ sources, source.rawToolIdentity = tool.rawToolIdentity) ∧
        List.Forall₂ (fun source tool => tool = { source with
          callableNamespace := tool.callableNamespace, callableName := tool.callableName })
          sources named) ∧
      (named.map ToolInfo.modelName).Nodup ∧
      ∀ tool ∈ named, (∀ c ∈ tool.modelName, isToolChar c = true) ∧
        byteLen tool.modelName ≤ 126) ∧
    ∀ others : List (ToolInfo ρ), others.Perm tools →
      (tools.map ToolInfo.rawToolIdentity).Nodup →
        normalizeToolsForModelWithPrefix sha1 others flag exempt =
          normalizeToolsForModelWithPrefix sha1 tools flag exempt := by
  -- the tools of the candidates are the first ones of their identities
  have hsources : ((sortedCandidates sha1 flag exempt tools).map CallableToolCandidate.tool).Perm
      (firsts rawToolIdentity tools) := by
    refine ((sortBy_perm _).map _).trans (.of_eq ?_)
    rw [map_hashed fun _ _ _ => rfl, map_map]
    exact map_id _
  obtain ⟨named, hnamed⟩ := exists_assign (serves_of_retriesSucceed hretry)
  refine ⟨⟨named, hnamed, ⟨(sortedCandidates sha1 flag exempt tools).map
    CallableToolCandidate.tool, ?_, ?_, ?_, ?_⟩, ?_, ?_⟩, ?_⟩
  · exact fun source hsource => mem_of_mem_firsts (hsources.mem_iff.mp hsource)
  · exact (hsources.map _).nodup_iff.mpr (nodup_firsts tools)
  · intro tool htool
    obtain ⟨source, hsource, hraw⟩ : ∃ source ∈ firsts rawToolIdentity tools,
      source.rawToolIdentity = tool.rawToolIdentity := exists_firsts htool
    exact ⟨source, hsources.mem_iff.mpr hsource, hraw⟩
  · rw [List.forall₂_map_left_iff]
    exact forall₂_assign (fun _ _ _ h => (nameTool_eq_some h).1) hnamed
  · exact (nodup_assign (fun _ _ _ h => (nameTool_eq_some h).2.1) hnamed).1
  · intro tool htool
    obtain ⟨used, candidate, hmem, hchoose⟩ := exists_choose_of_mem htool hnamed
    exact (nameTool_eq_some hchoose).2.2 (clean_sortedCandidates candidate hmem)
  · intro others hperm hnodup
    have hothers : (others.map rawToolIdentity).Nodup :=
      (hperm.map rawToolIdentity).nodup_iff.mpr hnodup
    have hsame : sortedCandidates sha1 flag exempt others =
        sortedCandidates sha1 flag exempt tools := by
      rw [sortedCandidates, sortedCandidates, firsts_of_nodup hnodup, firsts_of_nodup hothers]
      apply sortBy_eq_of_perm
      · rw [map_hashed fun _ _ _ => rfl, map_map]
        exact hnodup
      · exact hashNames_perm (hashNamespaces_perm (hperm.map _))
    rw [normalizeToolsForModelWithPrefix, hsame]
    rfl

/-- A digest that tells texts apart by their length. -/
def digestOfLength : Sha1 :=
  fun text _ => Fin.ofNat 256 text.length

/-- Two tools of one server whose names are alike once they are sanitised, and so are their
hashes. -/
def alikeTools : List (ToolInfo Unit) :=
  ["read file", "read-file"].map fun name =>
    { serverName := "docs".toList
      callableName := name.toList
      callableNamespace := "docs".toList
      connectorId := none
      toolName := name.toList
      rest := () }

/-- The second of the two needs an attempt. -/
theorem normalizeTools_named_alike :
    RetriesSucceed digestOfLength [] (sortedCandidates digestOfLength true [] alikeTools) ∧
      ∃ named, normalizeToolsForModelWithPrefix digestOfLength alikeTools true [] = some named ∧
        (named.map ToolInfo.modelName).Nodup := by
  have hsorted : sortedCandidates digestOfLength true [] alikeTools =
      hashNames digestOfLength (hashNamespaces digestOfLength
        ((firsts rawToolIdentity alikeTools).map (candidate true []))) :=
    mergeSort_of_pairwise (by decide +kernel)
  have hretry :
      RetriesSucceed digestOfLength [] (sortedCandidates digestOfLength true [] alikeTools) := by
    rw [hsorted]
    exact retriesSucceed_of_assign (by decide +kernel)
  obtain ⟨⟨named, hnamed, -, hnodup, -⟩, -⟩ :=
    normalizeTools_named digestOfLength alikeTools true [] hretry
  exact ⟨hretry, named, hnamed, hnodup⟩

end ExperienceCodex.ToolNames
