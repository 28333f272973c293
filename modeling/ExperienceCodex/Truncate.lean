import ExperienceCodex.Slices

/-!
# Truncating the middle of a text

A text over its budget of bytes keeps a beginning and an end, around a marker that counts what is
left out.  One pass over the characters finds both cuts.
-/

namespace ExperienceCodex.Truncate

open List Slices

def approxBytesPerToken : ℕ := 4

def approxTokensFromByteCount (bytes : ℕ) : ℕ :=
  (bytes + (approxBytesPerToken - 1)) / approxBytesPerToken

/-- What the pass has found so far. -/
structure Cuts where
  prefixEnd : ℕ := 0
  suffixStart : ℕ
  removedChars : ℕ := 0
  suffixStarted : Bool := false

/-- The pass over the characters from a byte position on. -/
def findCuts (beginningBytes tailStartTarget : ℕ) : List Char → ℕ → Cuts → Cuts
  | [], _, cuts => cuts
  | c :: rest, index, cuts =>
    let charEnd := index + c.utf8Size
    findCuts beginningBytes tailStartTarget rest charEnd <|
      if charEnd ≤ beginningBytes then { cuts with prefixEnd := charEnd }
      else if tailStartTarget ≤ index then
        if cuts.suffixStarted then cuts
        else { cuts with suffixStart := index, suffixStarted := true }
      else { cuts with removedChars := cuts.removedChars + 1 }

def splitString (text : List Char) (beginningBytes endBytes : ℕ) :
    Option (ℕ × List Char × List Char) :=
  if text.isEmpty then some (0, [], [])
  else do
    let cuts := findCuts beginningBytes (byteLen text - endBytes) text 0
      { suffixStart := byteLen text }
    let suffixStart :=
      if cuts.suffixStart < cuts.prefixEnd then cuts.prefixEnd else cuts.suffixStart
    let before ← splitAtByte cuts.prefixEnd text
    let after ← splitAtByte suffixStart text
    return (cuts.removedChars, before.1, after.2)

def splitBudget (budget : ℕ) : ℕ × ℕ :=
  (budget / 2, budget - budget / 2)

def formatTruncationMarker (useTokens : Bool) (removedCount : ℕ) : List Char :=
  ("…" ++ toString removedCount ++
    if useTokens then " tokens truncated…" else " chars truncated…").toList

def removedUnits (useTokens : Bool) (removedBytes removedChars : ℕ) : ℕ :=
  if useTokens then approxTokensFromByteCount removedBytes else removedChars

def truncateWithByteEstimate (text : List Char) (maxBytes : ℕ) (useTokens : Bool) :
    Option (List Char) :=
  if text.isEmpty then some []
  else if maxBytes = 0 then
    some (formatTruncationMarker useTokens (removedUnits useTokens (byteLen text) text.length))
  else if byteLen text ≤ maxBytes then some text
  else do
    let (leftBudget, rightBudget) := splitBudget maxBytes
    let (removedChars, left, right) ← splitString text leftBudget rightBudget
    return left ++ formatTruncationMarker useTokens
      (removedUnits useTokens (byteLen text - maxBytes) removedChars) ++ right

def truncateMiddleChars (text : List Char) (maxBytes : ℕ) : Option (List Char) :=
  truncateWithByteEstimate text maxBytes false

variable {beginning tgt : ℕ} {cuts : Cuts}

lemma findCuts_end {i : ℕ} (hbudget : beginning < tgt) (hindex : tgt ≤ i)
    (hstarted : cuts.suffixStarted = true) (text : List Char) :
    findCuts beginning tgt text i cuts = cuts := by
  induction text generalizing i with
  | nil => rfl
  | cons c text ih =>
    rw [findCuts, if_neg (by omega), if_pos hindex, if_pos hstarted, ih (by omega)]

/-- Behind the beginning, characters are counted until the end starts. -/
lemma findCuts_behind {i : ℕ} (hbudget : beginning < tgt) (text : List Char)
    (hsuf : cuts.suffixStart = i + byteLen text) (hstarted : cuts.suffixStarted = false)
    (hbehind : ∀ c ∈ text.head?, beginning < i + c.utf8Size) :
    ∃ middle back, text = middle ++ back ∧ (back = [] ∨ tgt ≤ i + byteLen middle) ∧
      ∃ started, findCuts beginning tgt text i cuts = ⟨cuts.prefixEnd,
        i + byteLen middle, cuts.removedChars + middle.length, started⟩ := by
  induction text generalizing i cuts with
  | nil => exact ⟨[], [], rfl, .inl rfl, cuts.suffixStarted, by rw [← hsuf]; rfl⟩
  | cons c text ih =>
    have hc := hbehind c rfl
    rw [findCuts, if_neg (by omega)]
    by_cases hindex : tgt ≤ i
    · refine ⟨[], c :: text, rfl, .inr hindex, true, ?_⟩
      rw [if_pos hindex, if_neg (by simp [hstarted]), findCuts_end hbudget (by omega) rfl]
      rfl
    · have hrest : ({ cuts with removedChars := cuts.removedChars + 1 } : Cuts).suffixStart =
          i + c.utf8Size + byteLen text := by
        rw [hsuf, byteLen_cons, Nat.add_assoc]
      obtain ⟨middle, back, rfl, hback, started, hcuts⟩ :=
        ih hrest hstarted fun d _ => by omega
      refine ⟨c :: middle, back, rfl, ?_, started, ?_⟩
      · rwa [byteLen_cons, ← Nat.add_assoc]
      · rw [if_neg hindex, hcuts, byteLen_cons, length_cons, Nat.add_assoc,
          Nat.add_assoc cuts.removedChars, Nat.add_comm 1]

/-- The pass cuts the text into a beginning, the characters that it counts, and an end. -/
lemma findCuts_spec {i : ℕ} (hbudget : beginning < tgt) (text : List Char)
    (hsuf : cuts.suffixStart = i + byteLen text) (hstarted : cuts.suffixStarted = false)
    (hpre : cuts.prefixEnd = i) (hindex : i ≤ beginning) :
    ∃ front middle back, text = front ++ middle ++ back ∧ i + byteLen front ≤ beginning ∧
      (back = [] ∨ tgt ≤ i + byteLen (front ++ middle)) ∧
      ∃ started, findCuts beginning tgt text i cuts = ⟨i + byteLen front,
        i + byteLen (front ++ middle), cuts.removedChars + middle.length, started⟩ := by
  induction text generalizing i cuts with
  | nil =>
    refine ⟨[], [], [], rfl, hindex, .inl rfl, cuts.suffixStarted, ?_⟩
    show cuts = ⟨i, i + byteLen [], cuts.removedChars, cuts.suffixStarted⟩
    rw [← hsuf, ← hpre]
  | cons c text ih =>
    by_cases hc : i + c.utf8Size ≤ beginning
    · have hrest : ({ cuts with prefixEnd := i + c.utf8Size } : Cuts).suffixStart =
          i + c.utf8Size + byteLen text := by
        rw [hsuf, byteLen_cons, Nat.add_assoc]
      obtain ⟨front, middle, back, rfl, hfront, hback, started, hcuts⟩ := ih hrest hstarted rfl hc
      refine ⟨c :: front, middle, back, rfl, ?_, ?_, started, ?_⟩
      · rwa [byteLen_cons, ← Nat.add_assoc]
      · rwa [cons_append, byteLen_cons, ← Nat.add_assoc]
      · rw [findCuts, if_pos hc, hcuts, cons_append, byteLen_cons, byteLen_cons, Nat.add_assoc,
          Nat.add_assoc]
    · obtain ⟨middle, back, htext, hback, started, hcuts⟩ := findCuts_behind hbudget (c :: text)
        hsuf hstarted fun d hd => by cases hd; omega
      rw [hpre] at hcuts
      exact ⟨[], middle, back, htext, hindex, hback, started, hcuts⟩

/-- A text is returned as it is, or with a beginning and an end of it around the number of the
characters between them. -/
theorem truncateMiddleChars_honest (text : List Char) (maxBytes : ℕ) :
    truncateMiddleChars text maxBytes = some text ∨
      ∃ front middle back removed, text = front ++ middle ++ back ∧
        byteLen front + byteLen back ≤ maxBytes ∧
        removed + (front.length + back.length) = text.length ∧
        truncateMiddleChars text maxBytes =
          some (front ++ formatTruncationMarker false removed ++ back) := by
  unfold truncateMiddleChars truncateWithByteEstimate
  split_ifs with hempty hzero hfits
  · rw [isEmpty_iff.mp hempty]
    exact .inl rfl
  · refine .inr ⟨[], text, [], text.length, by simp, by simp, by simp, ?_⟩
    simp [removedUnits]
  · exact .inl rfl
  · have htgt : maxBytes / 2 < byteLen text - (maxBytes - maxBytes / 2) := by omega
    have hstart : ({ suffixStart := byteLen text } : Cuts).suffixStart = 0 + byteLen text :=
      (Nat.zero_add _).symm
    obtain ⟨front, middle, back, htext, hfront, hback, started, hcuts⟩ :=
      findCuts_spec htgt text hstart rfl rfl (Nat.zero_le _)
    simp only [Nat.zero_add] at hfront hback hcuts
    have hlen : byteLen text = byteLen (front ++ middle) + byteLen back := by
      rw [htext, byteLen_append]
    have hbudget : byteLen back ≤ maxBytes - maxBytes / 2 := by
      rcases hback with rfl | hback
      · exact Nat.zero_le _
      · omega
    refine .inr ⟨front, middle, back, middle.length, htext, by omega, ?_, ?_⟩
    · rw [htext, length_append, length_append]
      omega
    · have hsplit : ∀ before after : List Char,
          splitAtByte (byteLen before) (before ++ after) = some (before, after) := by
        intro before after
        rw [← splitAtByte_append, chars_char]
      have hafter := hsplit (front ++ middle) back
      have hbefore := hsplit front (middle ++ back)
      rw [← append_assoc] at hbefore
      rw [← htext] at hbefore hafter
      have horder : ¬byteLen (front ++ middle) < byteLen front := by
        rw [byteLen_append]
        omega
      simp only [splitBudget, splitString, if_neg hempty, hcuts, if_neg horder, hbefore, hafter]
      rfl

end ExperienceCodex.Truncate
