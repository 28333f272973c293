import ExperienceCodex.Slices

/-!
# Streams that arrive in chunks

A machine is fed chunks of a text and gives an output for each.  It does not depend on the chunks
if two chunks one after the other have the effect of the two in one: the same state behind them,
and outputs that look the same when they are put together.

A machine that searches for a needle keeps back the longest end of what it has read that may be the
beginning of the needle.  What it lets go holds no beginning of an occurrence.
-/

namespace ExperienceCodex.Chunks

open List Slices

section
variable {σ α ω ν : Type}

/-- The outputs for the chunks, one after the other, and the state behind them. -/
def feed (push : σ → List α → ω × σ) : σ → List (List α) → List ω × σ
  | state, [] => ([], state)
  | state, chunk :: chunks =>
    ((push state chunk).1 :: (feed push (push state chunk).2 chunks).1,
      (feed push (push state chunk).2 chunks).2)

/-- Two chunks may be pushed as one. -/
def Joins (push : σ → List α → ω × σ) (view : ω → List ν) : Prop :=
  ∀ state front back,
    (push state (front ++ back)).2 = (push (push state front).2 back).2 ∧
      view (push state (front ++ back)).1 =
        view (push state front).1 ++ view (push (push state front).2 back).1

variable {push : σ → List α → ω × σ}

/-- What is read off a view, element by element, joins as well. -/
lemma Joins.flatMap {μ : Type} {view : ω → List ν} (h : Joins push view)
    {view' : ω → List μ} {f : ν → List μ}
    (hview : ∀ state chunk, view' (push state chunk).1 = (view (push state chunk).1).flatMap f) :
    Joins push view' := by
  intro state front back
  obtain ⟨hstate, hjoin⟩ := h state front back
  rw [hview, hview, hview, hjoin, flatMap_append]
  exact ⟨hstate, rfl⟩

lemma Joins.feed_flatten {view : ω → List ν} (h : Joins push view)
    {state : σ} (hnil : (push state []).2 = state) (hview : view (push state []).1 = [])
    (chunks : List (List α)) :
    (feed push state chunks).2 = (push state chunks.flatten).2 ∧
      (feed push state chunks).1.flatMap view = view (push state chunks.flatten).1 := by
  cases chunks with
  | nil =>
    rw [flatten_nil, hnil, hview]
    exact ⟨rfl, rfl⟩
  | cons chunk chunks =>
    clear hnil hview
    induction chunks generalizing state chunk with
    | nil => simp [feed]
    | cons next chunks ih =>
      obtain ⟨hstate, hview⟩ := @ih (push state chunk).2 next
      obtain ⟨hjoin, hjoinView⟩ := h state chunk (next :: chunks).flatten
      rw [flatten_cons, hjoin, hjoinView, ← hstate, ← hview]
      exact ⟨rfl, rfl⟩

end

section
variable {needle text : List Char}

/-- The longest beginning of the needle, of at most the given length, that a text ends with. -/
def suffixPrefixFrom (text needle : List Char) : ℕ → ℕ
  | 0 => 0
  | k + 1 => if needle.take (k + 1) <:+ text then k + 1 else suffixPrefixFrom text needle k

/-- The longest beginning of the needle that a text ends with, the needle itself apart. -/
def longestSuffixPrefixLen (text needle : List Char) : ℕ :=
  suffixPrefixFrom text needle (min text.length (needle.length - 1))

lemma longestSuffixPrefixLen_eq (text needle : List Char) : longestSuffixPrefixLen text needle =
    Nat.findGreatest (needle.take · <:+ text) (min text.length (needle.length - 1)) := by
  unfold longestSuffixPrefixLen
  induction min text.length (needle.length - 1) with
  | zero => rfl
  | succ bound ih => rw [suffixPrefixFrom, ih, Nat.findGreatest]

lemma longestSuffixPrefixLen_le (text needle : List Char) :
    longestSuffixPrefixLen text needle ≤ min text.length (needle.length - 1) := by
  rw [longestSuffixPrefixLen_eq]
  exact Nat.findGreatest_le _

/-- The part of a text that is let go, and the part that is kept back. -/
def released (needle text : List Char) : List Char :=
  text.take (text.length - longestSuffixPrefixLen text needle)

def held (needle text : List Char) : List Char :=
  text.drop (text.length - longestSuffixPrefixLen text needle)

lemma released_append_held (needle text : List Char) :
    released needle text ++ held needle text = text :=
  take_append_drop ..

lemma length_held (needle text : List Char) :
    (held needle text).length = longestSuffixPrefixLen text needle := by
  have hle : longestSuffixPrefixLen text needle ≤ text.length :=
    (longestSuffixPrefixLen_le ..).trans (Nat.min_le_left ..)
  rw [held, length_drop]
  omega

lemma held_suffix (needle text : List Char) : held needle text <:+ text :=
  drop_suffix ..

lemma held_eq_take (needle text : List Char) :
    held needle text = needle.take (longestSuffixPrefixLen text needle) := by
  have hsuf : needle.take (longestSuffixPrefixLen text needle) <:+ text := by
    rw [longestSuffixPrefixLen_eq]
    exact Nat.findGreatest_spec (P := (needle.take · <:+ text)) (Nat.zero_le _) nil_suffix
  have hshort : longestSuffixPrefixLen text needle ≤ needle.length :=
    (longestSuffixPrefixLen_le ..).trans ((Nat.min_le_right ..).trans (Nat.sub_le ..))
  refine (suffix_of_suffix_length_le (held_suffix needle text) hsuf ?_).eq_of_length ?_ <;>
    rw [length_held, length_take_of_le hshort]

lemma length_held_lt (hne : needle ≠ []) (text : List Char) :
    (held needle text).length < needle.length := by
  have hle : longestSuffixPrefixLen text needle ≤ needle.length - 1 :=
    (longestSuffixPrefixLen_le ..).trans (Nat.min_le_right ..)
  have hpos := length_pos_iff.mpr hne
  rw [length_held]
  omega

/-- A proper beginning of the needle that the text ends with is kept back. -/
lemma suffix_held {piece : List Char} (hpiece : piece <+: needle)
    (hshort : piece.length < needle.length) (h : piece <:+ text) : piece <:+ held needle text := by
  refine suffix_of_suffix_length_le h (held_suffix needle text) ?_
  rw [length_held, longestSuffixPrefixLen_eq]
  refine Nat.le_findGreatest ?_ ?_
  · have hle := h.length_le
    omega
  · rwa [← prefix_iff_eq_take.mp hpiece]

lemma cutAt_eq_none (hne : needle ≠ []) : cutAt needle text = none ↔ ¬needle <:+: text := by
  induction text with
  | nil =>
    rw [cutAt, if_neg hne]
    simp [hne]
  | cons c text ih =>
    rw [cutAt, chars_char, infix_cons_iff, not_or]
    by_cases hfound : needle <+: c :: text
    · rw [if_pos hfound]
      simp [hfound]
    · rw [if_neg hfound, Option.map_eq_none_iff, ih]
      simp [hfound]

/-- What follows a text does not change where a needle is found in it. -/
lemma cutAt_append_of_some {more front back : List Char} (hne : needle ≠ [])
    (h : cutAt needle text = some (front, back)) :
    cutAt needle (text ++ more) = some (front, back ++ more) := by
  induction text generalizing front with
  | nil =>
    rw [cutAt, if_neg hne] at h
    cases h
  | cons c text ih =>
    rw [cutAt, chars_char] at h
    rw [cons_append, cutAt, chars_char, ← cons_append]
    by_cases hfound : needle <+: c :: text
    · rw [if_pos hfound] at h
      rw [if_pos (hfound.trans (prefix_append _ more)), drop_append_of_le_length hfound.length_le]
      cases h
      rfl
    · rw [if_neg hfound] at h
      obtain ⟨⟨front', back'⟩, hparts, heq⟩ := Option.map_eq_some_iff.mp h
      cases heq
      have hlen : needle.length ≤ (c :: text).length := by
        obtain ⟨middle, hmid, hneedle⟩ := cutAt_eq_some hparts
        rw [chars_char] at hneedle
        rw [hmid, ← hneedle]
        simp only [length_cons, length_append]
        omega
      have hnot : ¬needle <+: c :: text ++ more := fun hwhole =>
        hfound (prefix_of_prefix_length_le hwhole (prefix_append _ more) hlen)
      rw [if_neg hnot, ih hparts]
      rfl

lemma cutAt_append_of_not_prefix {front back : List Char}
    (h : ∀ piece, piece ≠ [] → piece <:+ front → ¬needle <+: piece ++ back) :
    cutAt needle (front ++ back) =
      (cutAt needle back).map fun parts => (front ++ parts.1, parts.2) := by
  induction front with
  | nil =>
    rw [nil_append]
    cases cutAt needle back <;> rfl
  | cons c front ih =>
    rw [cons_append, cutAt, chars_char, if_neg, ih, Option.map_map]
    · rfl
    · intro piece hne hpiece
      exact h piece hne (hpiece.trans (suffix_cons c front))
    · exact h (c :: front) (cons_ne_nil c front) (suffix_refl _)

/-- A needle that is not in the text is first found in what is kept back and what follows. -/
lemma cutAt_append_of_none (hne : needle ≠ []) (h : cutAt needle text = none) (more : List Char) :
    cutAt needle (text ++ more) = (cutAt needle (held needle text ++ more)).map fun parts =>
      (released needle text ++ parts.1, parts.2) := by
  have hnone := (cutAt_eq_none hne).mp h
  have hskip : cutAt needle (released needle text ++ (held needle text ++ more)) = _ :=
    cutAt_append_of_not_prefix fun piece hpiece hreleased hfound => by
      -- a part of the text that reaches into what is let go does not begin the needle
      have hsuf : piece ++ held needle text <:+ text := by
        obtain ⟨front, hfront⟩ := hreleased
        refine ⟨front, ?_⟩
        rw [← append_assoc, hfront, released_append_held]
      have hlong := length_pos_iff.mpr hpiece
      rw [← append_assoc] at hfound
      rcases prefix_or_prefix_of_prefix hfound (prefix_append _ more) with hwhole | hpart
      · exact hnone (hwhole.isInfix.trans hsuf.isInfix)
      · rcases Nat.eq_or_lt_of_le hpart.length_le with heq | hlt
        · exact hnone (hpart.eq_of_length heq ▸ hsuf.isInfix)
        · have hle := (suffix_held hpart hlt hsuf).length_le
          rw [length_append] at hle
          omega
  rwa [← append_assoc, released_append_held] at hskip

/-- What is kept back depends on what was kept back before and what follows. -/
lemma held_append (hne : needle ≠ []) (h : cutAt needle text = none) (more : List Char) :
    held needle (text ++ more) = held needle (held needle text ++ more) := by
  have hnone := (cutAt_eq_none hne).mp h
  have hpart : held needle text ++ more <:+ text ++ more := by
    refine ⟨released needle text, ?_⟩
    rw [← append_assoc, released_append_held]
  have hbeg : ∀ text, held needle text <+: needle := fun text => by
    rw [held_eq_take]
    exact take_prefix ..
  have hshort : held needle (text ++ more) <:+ held needle text ++ more := by
    rcases Nat.le_total (held needle (text ++ more)).length (held needle text ++ more).length with
      hle | hle
    · exact suffix_of_suffix_length_le (held_suffix ..) hpart hle
    · -- Otherwise the text itself ends with a longer beginning of the needle.
      obtain ⟨piece, hpiece⟩ := suffix_of_suffix_length_le hpart (held_suffix needle _) hle
      have hlonger : piece ++ held needle text <:+ text := by
        obtain ⟨front, hfront⟩ := held_suffix needle (text ++ more)
        rw [← hpiece, ← append_assoc, ← append_assoc] at hfront
        refine ⟨front, ?_⟩
        rw [← append_assoc]
        exact append_cancel_right hfront
      have hbegin : piece ++ held needle text <+: held needle (text ++ more) := by
        rw [← hpiece, ← append_assoc]
        exact prefix_append ..
      have hheld := suffix_held (hbegin.trans (hbeg _))
        (Nat.lt_of_le_of_lt hbegin.length_le (length_held_lt hne _)) hlonger
      have hlen := hheld.length_le
      rw [length_append] at hlen
      have hempty : piece = [] := length_eq_zero_iff.mp (by omega)
      rw [← hpiece, hempty]
      exact suffix_refl _
  have hone := suffix_held (hbeg _) (length_held_lt hne _) hshort
  have htwo := suffix_held (hbeg _) (length_held_lt hne _)
    ((held_suffix needle (held needle text ++ more)).trans hpart)
  exact hone.eq_of_length (Nat.le_antisymm hone.length_le htwo.length_le)

lemma released_append (hne : needle ≠ []) (h : cutAt needle text = none) (more : List Char) :
    released needle (text ++ more) =
      released needle text ++ released needle (held needle text ++ more) := by
  have hwhole := released_append_held needle (text ++ more)
  rw [held_append hne h] at hwhole
  have hparts : released needle text ++ released needle (held needle text ++ more) ++
      held needle (held needle text ++ more) = text ++ more := by
    rw [append_assoc, released_append_held, ← append_assoc, released_append_held]
  exact append_cancel_right (hwhole.trans hparts.symm)

end

end ExperienceCodex.Chunks
