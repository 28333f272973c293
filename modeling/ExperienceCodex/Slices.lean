import ExperienceCodex.Text

/-!
# Slices of a text

Rust addresses a text by its bytes: a slice whose ends do not lie between two characters, or lie
behind the text, is a panic.  Here a slice is none then.

The text is a list of items that show a character.  A list of characters is such a text; so is a
list of characters that remember where they came from, which shows what becomes of a part of a
text when it is rewritten.
-/

namespace ExperienceCodex.Slices

open List

/-- Items that show a character. -/
class Shown (α : Type) where
  char : α → Char
  ofChar : Char → α
  char_ofChar : ∀ c, char (ofChar c) = c

instance : Shown Char where
  char c := c
  ofChar c := c
  char_ofChar _ := rfl

/-- The bytes that a text takes in UTF-8. -/
def byteLen (text : List Char) : ℕ :=
  (text.map Char.utf8Size).sum

section
variable {α : Type} [Shown α]

def chars (text : List α) : List Char :=
  text.map Shown.char

/-- A text that was not there before. -/
def written (text : String) : List α :=
  text.toList.map Shown.ofChar

/-- The text before and from a byte position. -/
def splitAtByte : ℕ → List α → Option (List α × List α)
  | 0, text => some ([], text)
  | _ + 1, [] => none
  | n + 1, c :: text =>
    if (Shown.char c).utf8Size ≤ n + 1 then
      (splitAtByte (n + 1 - (Shown.char c).utf8Size) text).map fun parts => (c :: parts.1, parts.2)
    else none

/-- The text around the first occurrence of a pattern. -/
def cutAt (pattern : List Char) : List α → Option (List α × List α)
  | [] => if pattern = [] then some ([], []) else none
  | c :: rest =>
    if pattern <+: chars (c :: rest) then some ([], (c :: rest).drop pattern.length)
    else (cutAt pattern rest).map fun parts => (c :: parts.1, parts.2)

variable {text front back : List α} {pattern : List Char}

@[simp] lemma chars_append (front back : List α) :
    chars (front ++ back) = chars front ++ chars back :=
  map_append

@[simp] lemma chars_nil : chars ([] : List α) = [] := rfl

@[simp] lemma chars_cons (c : α) (text : List α) :
    chars (c :: text) = Shown.char c :: chars text := rfl

@[simp] lemma chars_char (text : List Char) : chars text = text :=
  map_id text

@[simp] lemma chars_written (text : String) : chars (written text : List α) = text.toList := by
  rw [chars, written, map_map]
  exact (map_congr_left fun c _ => Shown.char_ofChar c).trans (map_id _)

@[simp] lemma length_chars (text : List α) : (chars text).length = text.length :=
  length_map ..

@[simp] lemma byteLen_nil : byteLen [] = 0 := rfl

@[simp] lemma byteLen_cons (c : Char) (text : List Char) :
    byteLen (c :: text) = c.utf8Size + byteLen text := by
  simp [byteLen]

@[simp] lemma byteLen_append (front back : List Char) :
    byteLen (front ++ back) = byteLen front + byteLen back := by
  simp [byteLen]

lemma utf8Size_eq_one {c : Char} : c.utf8Size = 1 ↔ c.toNat < 128 := by
  rw [Char.utf8Size_eq_one_iff, UInt32.le_iff_toNat_le]
  exact Nat.lt_succ_iff.symm

/-- An ASCII character is one byte. -/
lemma byteLen_of_ascii {text : List Char} (h : ∀ c ∈ text, c.toNat < 128) :
    byteLen text = text.length := by
  induction text with
  | nil => rfl
  | cons c text ih =>
    obtain ⟨hc, htext⟩ := forall_mem_cons.mp h
    rw [byteLen_cons, utf8Size_eq_one.mpr hc, ih htext, length_cons, Nat.add_comm]

@[simp] lemma splitAtByte_zero (text : List α) : splitAtByte 0 text = some ([], text) := by
  cases text <;> rfl

lemma splitAtByte_append (front back : List α) :
    splitAtByte (byteLen (chars front)) (front ++ back) = some (front, back) := by
  induction front with
  | nil => exact splitAtByte_zero back
  | cons c front ih =>
    have hpos := Char.utf8Size_pos (Shown.char c)
    obtain ⟨n, hn⟩ : ∃ n, byteLen (chars (c :: front)) = n + 1 :=
      ⟨byteLen (chars (c :: front)) - 1, by rw [chars_cons, byteLen_cons]; omega⟩
    rw [hn, cons_append, splitAtByte, ← hn, chars_cons, byteLen_cons, if_pos (by omega),
      Nat.add_sub_cancel_left, ih]
    rfl

lemma splitAtByte_eq_some {n : ℕ} (h : splitAtByte n text = some (front, back)) :
    text = front ++ back ∧ byteLen (chars front) = n := by
  induction text generalizing n front with
  | nil =>
    cases n with
    | zero =>
      cases h
      exact ⟨rfl, rfl⟩
    | succ n => cases h
  | cons c text ih =>
    cases n with
    | zero =>
      cases h
      exact ⟨rfl, rfl⟩
    | succ n =>
      rw [splitAtByte] at h
      split_ifs at h with hfits
      obtain ⟨⟨front', back'⟩, hparts, heq⟩ := Option.map_eq_some_iff.mp h
      cases heq
      obtain ⟨rfl, hlen⟩ := ih hparts
      refine ⟨rfl, ?_⟩
      rw [chars_cons, byteLen_cons, hlen]
      omega

/-- Where a cut falls in the front part, the rest does not matter. -/
lemma splitAtByte_append_of_le {n : ℕ} (hn : n ≤ byteLen (chars front)) :
    splitAtByte n (front ++ back) =
      (splitAtByte n front).map fun parts => (parts.1, parts.2 ++ back) := by
  induction front generalizing n with
  | nil =>
    obtain rfl : n = 0 := Nat.le_zero.mp hn
    rw [splitAtByte_zero, splitAtByte_zero]
    rfl
  | cons c front ih =>
    cases n with
    | zero => rfl
    | succ n =>
      rw [cons_append, splitAtByte, splitAtByte]
      rw [chars_cons, byteLen_cons] at hn
      split_ifs with hfits
      · rw [ih (by omega)]
        cases splitAtByte (n + 1 - (Shown.char c).utf8Size) front <;> rfl
      · rfl

/-- Where a cut falls behind the front part, it is one of the rest. -/
lemma splitAtByte_append_add (front back : List α) (n : ℕ) :
    splitAtByte (byteLen (chars front) + n) (front ++ back) =
      (splitAtByte n back).map fun parts => (front ++ parts.1, parts.2) := by
  induction front with
  | nil =>
    rw [chars_nil, byteLen_nil, Nat.zero_add, nil_append]
    cases splitAtByte n back <;> rfl
  | cons c front ih =>
    have hpos := Char.utf8Size_pos (Shown.char c)
    obtain ⟨m, hm⟩ : ∃ m, byteLen (chars (c :: front)) + n = m + 1 :=
      ⟨byteLen (chars (c :: front)) + n - 1, by rw [chars_cons, byteLen_cons]; omega⟩
    have hrest : byteLen (chars (c :: front)) + n - (Shown.char c).utf8Size =
        byteLen (chars front) + n := by
      rw [chars_cons, byteLen_cons]
      omega
    rw [hm, cons_append, splitAtByte, ← hm, hrest, ih, if_pos (by
      rw [chars_cons, byteLen_cons]
      omega), Option.map_map]
    rfl

lemma cutAt_eq_some (h : cutAt pattern text = some (front, back)) :
    ∃ middle, text = front ++ middle ++ back ∧ chars middle = pattern := by
  induction text generalizing front with
  | nil =>
    rw [cutAt] at h
    split_ifs at h with hpat
    cases h
    exact ⟨[], rfl, hpat.symm⟩
  | cons c rest ih =>
    rw [cutAt] at h
    split_ifs at h with hfound
    · cases h
      refine ⟨(c :: rest).take pattern.length, (take_append_drop ..).symm, ?_⟩
      rw [chars, map_take]
      exact (prefix_iff_eq_take.mp hfound).symm
    · obtain ⟨⟨front', back'⟩, hparts, heq⟩ := Option.map_eq_some_iff.mp h
      cases heq
      obtain ⟨middle, rfl, hmid⟩ := ih hparts
      exact ⟨middle, rfl, hmid⟩

end

end ExperienceCodex.Slices
