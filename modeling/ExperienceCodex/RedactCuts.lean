import ExperienceCodex.Lowercase
import ExperienceCodex.RedactSecrets

/-!
# The cuts of a redaction

`redact_line` finds its byte positions in the lowercase of a line and cuts the line itself there.
A character may take more bytes in lowercase, or fewer, and then the two texts drift apart: a
position of the one falls into a character of the other, or behind its end, and the slice panics.

The two texts do not drift apart where what stands before each cut takes as many bytes in
lowercase; where nothing is cut, the other characters do not matter.
-/

namespace ExperienceCodex.Redact

open List Text Slices Lines

def bearer : List Char :=
  "bearer ".toList

/-- The characters of the credential at the front of a text, if a delimiter ends it. -/
def skipped (tail : List Char) : ℕ :=
  let token := tail.takeWhile fun c => !isDelimiter c
  if token.length < tail.length then token.length else 0

/-- The line before its first separator. -/
def keyPart (line : List Char) : List Char :=
  line.takeWhile fun c => !isSeparator c

/-- The bytes that a text takes in lowercase, whatever stands around it. -/
def lowerBytes (text : List Char) : ℕ :=
  (text.map fun c => byteLen (lowerChar c)).sum

/-- A text that takes as many bytes in lowercase. -/
def Level (text : List Char) : Prop :=
  lowerBytes text = byteLen text
deriving Decidable

lemma lowerBytes_append (front back : List Char) :
    lowerBytes (front ++ back) = lowerBytes front + lowerBytes back := by
  simp [lowerBytes]

lemma byteLen_lowerFrom (before text : List Char) :
    byteLen (lowerFrom before text) = lowerBytes text := by
  induction text generalizing before with
  | nil => rfl
  | cons c text ih =>
    have hc : byteLen (if c = 'Σ' then [mapUppercaseSigma before text] else lowerChar c) =
        byteLen (lowerChar c) := by
      split_ifs with hsigma
      · have hlower : byteLen (lowerChar 'Σ') = 2 := by decide +kernel
        rw [hsigma, hlower, mapUppercaseSigma]
        split_ifs <;> rfl
      · rfl
    rw [lowerFrom, byteLen_append, ih, hc]
    simp [lowerBytes]

lemma byteLen_lowerWithin (before front back : List Char) :
    byteLen (lowerWithin before front back) = lowerBytes front := by
  have hlen := congrArg byteLen (lowerFrom_append before front back)
  rw [byteLen_append, byteLen_lowerFrom, byteLen_lowerFrom, lowerBytes_append] at hlen
  omega

lemma level_of_forall {text : List Char} (h : ∀ c ∈ text, Level [c]) : Level text := by
  induction text with
  | nil => rfl
  | cons c text ih =>
    obtain ⟨hc, htext⟩ := forall_mem_cons.mp h
    have hrest := ih htext
    unfold Level at hc hrest ⊢
    rw [← singleton_append, lowerBytes_append, byteLen_append, hc, hrest]

lemma level_of_ascii {text : List Char} (h : ∀ c ∈ text, c.toNat < 128) : Level text := by
  refine level_of_forall fun c hc => ?_
  have hlower : c.toLower.toNat < 128 := of_toNat_lt (h c hc) (by decide)
  rw [Level, lowerBytes, map_singleton, sum_singleton, lowerChar, if_pos (h c hc), byteLen_cons,
    byteLen_cons, utf8Size_eq_one.mpr hlower, utf8Size_eq_one.mpr (h c hc)]

/-- The letters of the needle come from ASCII letters only. -/
lemma ascii_of_mem_lowerChar {c d : Char} (hd : d ∈ bearer) (h : d ∈ lowerChar c) :
    c.toNat < 128 ∧ lowerChar c = [d] := by
  have hcode : (0 < d.toNat ∧ d.toNat < 128) ∧ d.toNat ≠ 107 ∧ d ≠ 'i' := by
    have hall : bearer.all (fun d => decide ((0 < d.toNat ∧ d.toNat < 128) ∧ d.toNat ≠ 107 ∧
      d ≠ 'i')) = true := by decide
    exact of_decide_eq_true (all_eq_true.mp hall d hd)
  unfold lowerChar at h ⊢
  split_ifs at h ⊢ with hascii hdotted
  · exact ⟨hascii, by rw [mem_singleton.mp h]⟩
  · rcases mem_pair.mp h with rfl | rfl
    · exact absurd rfl hcode.2.2
    · exact absurd hcode.1.2 (by decide)
  · exfalso
    split at h
    · next run hrun =>
      have hrange := lowercaseRuns_ascii run (mem_of_find?_eq_some hrun)
      have hwithin := find?_some hrun
      simp only [Bool.and_eq_true, decide_eq_true_eq] at hwithin
      have hd' := congrArg Char.toNat (mem_singleton.mp h)
      rw [Char.toNat_ofNat] at hd'
      split_ifs at hd' <;> omega
    · rw [mem_singleton.mp h] at hcode
      omega

/-- A letter of the needle in the lowercase of a text, and the character it comes from. -/
lemma exists_of_lowerFrom_eq {before text front back : List Char} {d : Char} (hd : d ∈ bearer)
    (h : lowerFrom before text = front ++ d :: back) :
    ∃ kept c tail, text = kept ++ c :: tail ∧ front = lowerWithin before kept (c :: tail) ∧
      back = lowerFrom (c :: (kept.reverse ++ before)) tail ∧ c.toNat < 128 ∧
      lowerChar c = [d] := by
  induction text generalizing before front with
  | nil => simp [lowerFrom] at h
  | cons x text ih =>
    rw [lowerFrom] at h
    generalize hfirst : (if x = 'Σ' then [mapUppercaseSigma before text] else lowerChar x) = first
      at h
    -- the letter comes from a later character, or from this one
    obtain ⟨front', hfront, hrest⟩ | ⟨piece, hpiece, hback⟩ :
        (∃ front', front = first ++ front' ∧
          lowerFrom (x :: before) text = front' ++ d :: back) ∨
        ∃ piece, first = front ++ d :: piece ∧ back = piece ++ lowerFrom (x :: before) text := by
      rcases append_eq_append_iff.mp h with ⟨front', hfront, hrest⟩ | ⟨piece, hpiece, hrest⟩
      · exact .inl ⟨front', hfront, hrest⟩
      · cases piece with
        | nil => exact .inl ⟨[], by simpa using hpiece.symm, by simpa using hrest.symm⟩
        | cons d' piece =>
          obtain ⟨rfl, hback⟩ := cons.inj hrest
          exact .inr ⟨piece, hpiece, hback⟩
    · obtain ⟨kept, c, tail, rfl, rfl, hback, hascii, hlower⟩ := ih hrest
      refine ⟨x :: kept, c, tail, rfl, ?_, by simpa using hback, hascii, hlower⟩
      rw [hfront, ← hfirst]
      rfl
    · have hmem : d ∈ first := by rw [hpiece]; simp
      split_ifs at hfirst with hsigma
      · rw [← hfirst, mem_singleton, mapUppercaseSigma] at hmem
        rw [hmem] at hd
        split_ifs at hd <;> exact absurd hd (by decide)
      · obtain ⟨hascii, hlower⟩ := ascii_of_mem_lowerChar hd (hfirst ▸ hmem)
        rw [← hfirst, hlower] at hpiece
        have hlen := congrArg length hpiece
        simp only [length_append, length_cons, length_nil] at hlen
        obtain rfl : front = [] := length_eq_zero_iff.mp (by omega)
        obtain rfl : piece = [] := length_eq_zero_iff.mp (by omega)
        exact ⟨[], x, text, rfl, rfl, hback, hascii, hlower⟩

lemma lowerWithin_eq_nil {before front back : List Char} (h : lowerWithin before front back = []) :
    front = [] := by
  cases front with
  | nil => rfl
  | cons c front =>
    rw [lowerWithin, append_eq_nil_iff] at h
    split_ifs at h with hsigma
    · cases h.1
    · exact absurd h.1 (lowerChar_ne_nil c)

/-- A needle of ASCII letters in any case. -/
def IsNeedle (needle found : List Char) : Prop :=
  List.Forall₂ (fun d c => c.toNat < 128 ∧ lowerChar c = [d]) needle found

/-- The letters of the needle at the front of the lowercase of a text. -/
lemma exists_needle {before text needle back : List Char} (hneedle : ∀ d ∈ needle, d ∈ bearer)
    (h : lowerFrom before text = needle ++ back) :
    ∃ found tail, text = found ++ tail ∧ IsNeedle needle found ∧
      back = lowerFrom (found.reverse ++ before) tail := by
  induction needle generalizing before text with
  | nil => exact ⟨[], text, rfl, .nil, h.symm⟩
  | cons d needle ih =>
    obtain ⟨hd, hneedle⟩ := forall_mem_cons.mp hneedle
    obtain ⟨kept, c, tail, rfl, hkept, hback, hc⟩ :=
      exists_of_lowerFrom_eq hd (show _ = [] ++ d :: (needle ++ back) from h)
    obtain rfl := lowerWithin_eq_nil hkept.symm
    obtain ⟨found, tail, rfl, hfound, hback⟩ := ih hneedle hback.symm
    exact ⟨c :: found, tail, rfl, .cons hc hfound, by simpa using hback⟩

lemma IsNeedle.ascii {needle found : List Char} (h : IsNeedle needle found) :
    ∀ c ∈ found, c.toNat < 128 := by
  induction h with
  | nil => exact forall_mem_nil _
  | cons hc _ ih => exact forall_mem_cons.mpr ⟨hc.1, ih⟩

/-- Where the search finds the needle, the text has it in some case. -/
lemma exists_of_cutAt {before text front back : List Char}
    (h : cutAt bearer (lowerFrom before text) = some (front, back)) :
    ∃ kept found tail, text = kept ++ (found ++ tail) ∧ IsNeedle bearer found ∧
      front = lowerWithin before kept (found ++ tail) ∧
      back = lowerFrom (found.reverse ++ (kept.reverse ++ before)) tail := by
  obtain ⟨middle, hlower, hmid⟩ := cutAt_eq_some h
  rw [chars_char] at hmid
  have hletters : lowerFrom before text = front ++ 'b' :: ("earer ".toList ++ back) := by
    rw [hlower, hmid, append_assoc]
    rfl
  obtain ⟨kept, c, tail, rfl, hfront, hrest, hc⟩ := exists_of_lowerFrom_eq (by decide) hletters
  obtain ⟨found, tail, rfl, hfound, hback⟩ :=
    exists_needle (fun d hd => mem_cons_of_mem 'b' hd) hrest.symm
  exact ⟨kept, c :: found, tail, rfl, .cons hc hfound, hfront, by simpa using hback⟩

/-- Wherever the text has the needle, what stands before it takes as many bytes in lowercase, and so
does what stands before the end of the credential behind it. -/
def LevelCuts (text : List Char) : Prop :=
  ∀ front found tail, text = front ++ (found ++ tail) → IsNeedle bearer found →
    Level front ∧ Level (front ++ (found ++ tail.take (skipped tail)))

lemma levelCuts_of_forall {text : List Char} (h : ∀ c ∈ text, Level [c]) : LevelCuts text := by
  rintro front found tail rfl -
  refine ⟨level_of_forall fun c hc => h c (mem_append_left _ hc),
    level_of_forall fun c hc => h c ?_⟩
  rcases mem_append.mp hc with hc | hc
  · exact mem_append_left _ hc
  · rcases mem_append.mp hc with hc | hc
    · exact mem_append_right _ (mem_append_left _ hc)
    · exact mem_append_right _ (mem_append_right _ (mem_of_mem_take hc))

lemma IsNeedle.lowerWithin_eq {needle found : List Char} (h : IsNeedle needle found)
    (before after : List Char) : lowerWithin before found after = needle := by
  induction h generalizing before with
  | nil => rfl
  | @cons d c needle found hc _ ih =>
    have hsigma : c ≠ 'Σ' := by
      rintro rfl
      exact absurd hc.1 (by decide)
    rw [lowerWithin, if_neg hsigma, hc.2, ih, singleton_append]

lemma holds_of_needle {word text : List Char} (h : IsNeedle "bearer".toList word)
    (hword : word <:+: text) : holds (lowerFrom [] text) "bearer" = true := by
  obtain ⟨front, back, rfl⟩ := hword
  refine decide_eq_true ?_
  rw [append_assoc, lowerFrom_append, lowerFrom_append, h.lowerWithin_eq]
  exact infix_append' _ _ _

lemma IsNeedle.exists_concat {needle found : List Char} {d : Char}
    (h : IsNeedle (needle ++ [d]) found) :
    ∃ word c, found = word ++ [c] ∧ IsNeedle needle word ∧ c.toNat < 128 ∧ lowerChar c = [d] := by
  induction needle generalizing found with
  | nil =>
    cases h with
    | cons hc hnil =>
      cases hnil
      exact ⟨[], _, rfl, .nil, hc⟩
  | cons x needle ih =>
    cases h with
    | cons hx hrest =>
      obtain ⟨word, c, rfl, hword, hc⟩ := ih hrest
      exact ⟨_ :: word, c, rfl, .cons hx hword, hc⟩

/-- The word of a needle and the space behind it. -/
lemma IsNeedle.exists_word {found : List Char} (h : IsNeedle bearer found) :
    ∃ word, found = word ++ [' '] ∧ IsNeedle "bearer".toList word := by
  obtain ⟨word, c, rfl, hword, hascii, hlower⟩ :=
    (show IsNeedle ("bearer".toList ++ [' ']) found from h).exists_concat
  have hspace : c.toLower = ' ' → c = ' ' := of_toNat_lt hascii (by decide)
  rw [lowerChar, if_pos hascii] at hlower
  exact ⟨word, by rw [hspace (singleton_injective hlower)], hword⟩

/-- A mask adds no needle to a line without the word. -/
lemma levelCuts_masked {front line : List Char} (hfront : front <+: line)
    (hno : holds (lowerFrom [] line) "bearer" = false) :
    LevelCuts (trimEnd front ++ " <masked:secret>".toList) := by
  intro kept found tail htext hfound
  exfalso
  obtain ⟨word, rfl, hword⟩ := hfound.exists_word
  have hmask : " <masked:secret>".toList = ' ' :: "<masked:secret>".toList := rfl
  have hcases : trimEnd front ++ ' ' :: "<masked:secret>".toList =
      (kept ++ word) ++ ' ' :: tail := by
    rw [hmask] at htext
    simpa only [append_assoc, singleton_append] using htext
  -- the space of the needle is the first of the mask at the latest
  have hinside : word <:+: trimEnd front := by
    rcases append_eq_append_iff.mp hcases with ⟨piece, hpiece, hmask⟩ | ⟨piece, hpiece, -⟩
    · cases piece with
      | nil => exact ⟨kept, [], by simpa using hpiece⟩
      | cons c piece =>
        obtain ⟨-, hmask⟩ := cons.inj hmask
        have hspace : ' ' ∈ "<masked:secret>".toList := by rw [hmask]; simp
        exact absurd hspace (by decide)
    · exact ⟨kept, piece, hpiece.symm⟩
  have htrim : trimEnd front <:+: front := (List.rdropWhile_prefix _ _).isInfix
  rw [holds_of_needle hword ((hinside.trans htrim).trans hfront.isInfix)] at hno
  cases hno

lemma levelCuts_of_not_holds {line : List Char}
    (hno : holds (lowerFrom [] line) "bearer" = false) : LevelCuts line := by
  rintro kept found tail rfl hfound
  exfalso
  obtain ⟨word, rfl, hword⟩ := hfound.exists_word
  rw [holds_of_needle hword ⟨kept, ' ' :: tail, by simp⟩] at hno
  cases hno

variable {marker : String} {text line : List Char}

lemma splitAtByte_front {n : ℕ} (front back : List Char) (h : n = byteLen front) :
    splitAtByte n (front ++ back) = some (front, back) := by
  have hsplit := splitAtByte_append front back
  rwa [chars_char, ← h] at hsplit

lemma splitAtByte_behind (front back : List Char) (n : ℕ) :
    splitAtByte (byteLen front + n) (front ++ back) =
      (splitAtByte n back).map fun parts => (front ++ parts.1, parts.2) := by
  have hsplit := splitAtByte_append_add front back n
  rwa [chars_char] at hsplit

lemma splitAtByte_iff {n : ℕ} {text front back : List Char} :
    splitAtByte n text = some (front, back) ↔ text = front ++ back ∧ byteLen front = n := by
  constructor
  · intro h
    have hsplit := splitAtByte_eq_some h
    rwa [chars_char] at hsplit
  · rintro ⟨rfl, h⟩
    exact splitAtByte_front front back h.symm

/-- One turn of the loop, from the same position in both texts. -/
lemma replaceFrom_succ {lowerFront lower front before after out : List Char} {fuel : ℕ}
    (hstart : byteLen lowerFront = byteLen front)
    (hfound : cutAt bearer lower = some (before, after)) :
    replaceFrom "bearer " marker (lowerFront ++ lower) (front ++ text) (fuel + 1) (byteLen front)
        out =
      (splitAtByte (byteLen before) text).bind fun piece =>
        (splitAtByte (byteLen bearer) piece.2).bind fun tail =>
          replaceFrom "bearer " marker (lowerFront ++ lower) (front ++ text) fuel
            (byteLen front + byteLen before + byteLen bearer + tokenEnd tail.2)
            (out ++ piece.1 ++ marker.toList) := by
  rw [replaceFrom, splitAtByte_front lowerFront lower hstart.symm]
  simp only [Option.bind_eq_bind, Option.bind_some]
  have hneedle : cutAt "bearer ".toList lower = some (before, after) := hfound
  rw [hneedle, splitAtByte_front front text rfl]
  simp only [Option.bind_some]
  cases hpiece : splitAtByte (byteLen before) text with
  | none => rfl
  | some piece =>
    obtain ⟨rfl, hbytes⟩ := splitAtByte_iff.mp hpiece
    have hbehind : splitAtByte (byteLen front + byteLen before + byteLen "bearer ".toList)
        (front ++ (piece.1 ++ piece.2)) = (splitAtByte (byteLen bearer) piece.2).map
          fun parts => (front ++ (piece.1 ++ parts.1), parts.2) := by
      rw [Nat.add_assoc, splitAtByte_behind, ← hbytes, splitAtByte_behind, Option.map_map]
      rfl
    rw [Option.bind_some, Option.bind_some, hbehind, Option.bind_map, written_char]
    simp only [Function.comp_def, chars_char]
    rfl

lemma tokenEnd_eq (tail : List Char) : tokenEnd tail = byteLen (tail.take (skipped tail)) := by
  have htake := prefix_iff_eq_take.mp (List.takeWhile_prefix (l := tail) fun c => !isDelimiter c)
  rw [tokenEnd, skipped]
  split_ifs
  · rw [← htake]
  · rfl

/-- The loop comes to its end from a position up to which the two texts are as long. -/
lemma isSome_replaceFrom {front out : List Char} {fuel : ℕ} (hcuts : LevelCuts (front ++ text))
    (hfront : Level front) (hfuel : lowerBytes text < fuel) :
    (replaceFrom "bearer " marker (lowerFrom [] (front ++ text)) (front ++ text) fuel
      (byteLen front) out).isSome = true := by
  induction fuel generalizing front text out with
  | zero => omega
  | succ fuel ih =>
    have hstart : byteLen (lowerWithin [] front text) = byteLen front := by
      rw [byteLen_lowerWithin, hfront]
    rw [lowerFrom_append, append_nil]
    cases hcut : cutAt bearer (lowerFrom front.reverse text) with
    | none =>
      have hneedle : cutAt "bearer ".toList (lowerFrom front.reverse text) = none := hcut
      rw [replaceFrom, splitAtByte_front _ _ hstart.symm]
      simp only [Option.bind_eq_bind, Option.bind_some, hneedle, splitAtByte_front front text rfl]
      rfl
    | some parts =>
      obtain ⟨kept, found, tail, rfl, hfound, hbefore, -⟩ := exists_of_cutAt hcut
      obtain ⟨hkept, hbehind⟩ := hcuts (front ++ kept) found tail (by simp) hfound
      have hneedle : byteLen found = byteLen bearer := by
        rw [byteLen_of_ascii hfound.ascii, ← hfound.length_eq]
        rfl
      have hlevel : Level found := level_of_ascii hfound.ascii
      unfold Level at hfront hkept hlevel
      simp only [lowerBytes_append, byteLen_append] at hkept
      have hpiece : byteLen kept = byteLen parts.1 := by
        rw [hbefore, byteLen_lowerWithin]
        omega
      -- the next search goes on behind the credential
      have hnext : byteLen front + byteLen parts.1 + byteLen bearer + tokenEnd tail =
          byteLen (front ++ kept ++ (found ++ tail.take (skipped tail))) := by
        simp only [byteLen_append, tokenEnd_eq, hneedle, hpiece]
        omega
      have htext : front ++ (kept ++ (found ++ tail)) =
          (front ++ kept ++ (found ++ tail.take (skipped tail))) ++ tail.drop (skipped tail) := by
        simp only [append_assoc, take_append_drop]
      have hless : lowerBytes (tail.drop (skipped tail)) < fuel := by
        have htail := congrArg lowerBytes (take_append_drop (skipped tail) tail)
        have hpos : byteLen bearer = 7 := by decide
        simp only [lowerBytes_append] at hfuel htail
        omega
      rw [replaceFrom_succ hstart hcut, splitAtByte_front kept _ hpiece.symm]
      simp only [Option.bind_some]
      rw [splitAtByte_front found tail hneedle.symm]
      simp only [Option.bind_some]
      rw [hnext, ← append_nil front.reverse, ← lowerFrom_append, htext]
      exact ih (htext ▸ hcuts) hbehind hless

lemma isSome_replaceCaseInsensitive (mode : RedactMode) (hcuts : LevelCuts text) :
    (replaceCaseInsensitive text "bearer " marker mode).isSome = true := by
  rw [replaceCaseInsensitive]
  split_ifs
  · rfl
  · dsimp only
    rw [chars_char, byteLen_lowerFrom]
    exact isSome_replaceFrom (show LevelCuts ([] ++ text) from hcuts) rfl (Nat.lt_succ_self _)

/-- A line with a separator, and the name of a secret before it. -/
def SecretLine (line : List Char) : Prop :=
  (keyPart line).length < line.length ∧ NamesSecret (keyPart line)

instance (left : List Char) : Decidable (NamesSecret left) :=
  inferInstanceAs (Decidable (∃ name ∈ secretKeys, holds (lowerFrom [] left) name = true))

instance (line : List Char) : Decidable (SecretLine line) :=
  inferInstanceAs (Decidable (_ ∧ _))

lemma isSeparator_of_mem_keyPart {c : Char} (h : c ∈ keyPart line) : isSeparator c = false := by
  rw [keyPart] at h
  simpa using mem_takeWhile_imp h

lemma exists_of_keyPart_lt (h : (keyPart line).length < line.length) :
    ∃ sep value, line = keyPart line ++ sep :: value ∧ isSeparator sep = true := by
  have hline := takeWhile_append_dropWhile (p := fun c => !isSeparator c) (l := line)
  cases hrest : line.dropWhile fun c => !isSeparator c with
  | nil =>
    rw [hrest, append_nil] at hline
    rw [keyPart, hline] at h
    omega
  | cons sep value =>
    have hhead := head_dropWhile_not (fun c => !isSeparator c) (l := line)
      (by rw [hrest]; exact cons_ne_nil _ _)
    simp only [hrest, head_cons, Bool.not_eq_false'] at hhead
    refine ⟨sep, value, ?_, hhead⟩
    rw [keyPart, ← hrest, hline]

lemma forall_of_keyPart_not_lt (h : ¬(keyPart line).length < line.length) :
    ∀ c ∈ line, isSeparator c = false := by
  have hfront : keyPart line <+: line := takeWhile_prefix _
  have heq : keyPart line = line := hfront.eq_of_length (by
    have hle := hfront.length_le
    omega)
  intro c hc
  rw [← heq] at hc
  exact isSeparator_of_mem_keyPart hc

lemma SameLower.symm {a b : Char} (h : SameLower a b) : SameLower b a := by
  rcases h with rfl | ⟨ha, hb⟩
  · exact .inl rfl
  · exact .inr ⟨hb, ha⟩

/-- The lowercase of the key, in the lowercase of the line. -/
lemma exists_lowered_key (h : (keyPart line).length < line.length) :
    ∃ lowered, (lowerFrom [] line).takeWhile (fun c => !isSeparator c) = lowered ∧
      lowered.length < (lowerFrom [] line).length ∧
      byteLen lowered = byteLen (lowerFrom [] (keyPart line)) ∧
      (containsAny lowered secretKeys = true ↔ NamesSecret (keyPart line)) := by
  obtain ⟨sep, value, hline, hsep⟩ := exists_of_keyPart_lt h
  obtain ⟨lowered, htake, hlen, hsame⟩ : ∃ lowered,
      (lowerFrom [] (keyPart line ++ sep :: value)).takeWhile (fun c => !isSeparator c) =
        lowered ∧ _ :=
    exists_takeWhile_lowerFrom (fun c hc => isSeparator_of_mem_keyPart hc) hsep
  have hmask : holds lowered "<masked:" = false := by
    refine not_holds_masked fun c hc => ?_
    rw [← htake] at hc
    simpa using mem_takeWhile_imp hc
  rw [← hline] at htake hlen
  refine ⟨lowered, htake, hlen, byteLen_of_sameLower hsame, ?_⟩
  -- the lowercase of the line names a secret where that of its key alone does
  have hback : List.Forall₂ SameLower (lowerFrom [] (keyPart line)) lowered :=
    List.Forall₂.flip (hsame.imp fun _ _ h => h.symm)
  rw [containsAny, hmask, any_eq_true]
  constructor
  · rintro ⟨name, hname, hholds⟩
    rw [Bool.not_false, Bool.and_true] at hholds
    exact ⟨name, hname, holds_of_sameLower hback (secretKeys_ascii name hname) hholds⟩
  · rintro ⟨name, hname, hholds⟩
    refine ⟨name, hname, ?_⟩
    rw [Bool.not_false, Bool.and_true]
    exact holds_of_sameLower hsame (secretKeys_ascii name hname) hholds

lemma maskSecretValue_of_not_secret (h : ¬SecretLine line) : maskSecretValue line = some line := by
  have hcond : (((lowerFrom [] line).takeWhile fun c => !isSeparator c).length <
        (lowerFrom [] line).length &&
      containsAny ((lowerFrom [] line).takeWhile fun c => !isSeparator c) secretKeys) = false := by
    by_cases hlt : (keyPart line).length < line.length
    · obtain ⟨lowered, htake, -, -, hnames⟩ := exists_lowered_key hlt
      have hplain : ¬NamesSecret (keyPart line) := fun hkey => h ⟨hlt, hkey⟩
      rw [htake, Bool.eq_false_iff.mpr (mt hnames.mp hplain), Bool.and_false]
    · have hnone : ∀ d ∈ lowerFrom [] line, isSeparator d = false :=
        isSeparator_lowerFrom (forall_of_keyPart_not_lt hlt)
      have htake : (lowerFrom [] line).takeWhile (fun c => !isSeparator c) = lowerFrom [] line :=
        takeWhile_eq_self_iff.mpr fun c hc => by rw [hnone c hc]; rfl
      rw [htake, decide_eq_false (Nat.lt_irrefl _), Bool.false_and]
  rw [maskSecretValue, chars_char, hcond]
  rfl

lemma maskSecretValue_of_secret (h : SecretLine line) :
    maskSecretValue line = (splitAtByte (lowerBytes (keyPart line)) line).map fun parts =>
      trimEnd parts.1 ++ " <masked:secret>".toList := by
  obtain ⟨lowered, htake, hlen, hbytes, hnames⟩ := exists_lowered_key h.1
  rw [maskSecretValue, chars_char, htake, hnames.mpr h.2]
  simp only [hlen, decide_true, Bool.and_self, if_true, hbytes, written_char, byteLen_lowerFrom]

/-- A secret line has a beginning of as many bytes as its key takes in lowercase. -/
def KeyCut (line : List Char) : Prop :=
  SecretLine line → ∃ front back, line = front ++ back ∧ byteLen front = lowerBytes (keyPart line)

/-- A line whose parts before the cuts take as many bytes in lowercase.  In a secret line with the
word of the needle each character of the key does. -/
def LevelLine (line : List Char) : Prop :=
  KeyCut line ∧ (holds (lowerFrom [] line) "bearer" = true →
    if SecretLine line then ∀ c ∈ keyPart line, Level [c] else LevelCuts line)

lemma keyCut_of_isSome (h : (maskSecretValue line).isSome = true) : KeyCut line := by
  intro hsecret
  rw [maskSecretValue_of_secret hsecret, Option.isSome_map, Option.isSome_iff_exists] at h
  obtain ⟨⟨front, back⟩, hparts⟩ := h
  obtain ⟨hline, hbytes⟩ := splitAtByte_iff.mp hparts
  exact ⟨front, back, hline, hbytes⟩

/-- What is searched for the needle can be cut where it stands. -/
lemma exists_levelCuts (h : LevelLine line) :
    ∃ keyed, maskSecretValue line = some keyed ∧ LevelCuts keyed := by
  obtain ⟨hkey, hlevel⟩ := h
  by_cases hsecret : SecretLine line
  · rw [maskSecretValue_of_secret hsecret]
    cases hword : holds (lowerFrom [] line) "bearer" with
    | false =>
      obtain ⟨front, back, hline, hfront⟩ := hkey hsecret
      rw [← hfront, splitAtByte_iff.mpr ⟨hline, rfl⟩]
      exact ⟨_, rfl, levelCuts_masked ⟨back, hline.symm⟩ hword⟩
    | true =>
      have hall : ∀ c ∈ keyPart line, Level [c] := by simpa [hword, hsecret] using hlevel
      have hline : line = keyPart line ++ line.dropWhile (fun c => !isSeparator c) :=
        takeWhile_append_dropWhile.symm
      rw [level_of_forall hall, splitAtByte_iff.mpr ⟨hline, rfl⟩]
      refine ⟨_, rfl, levelCuts_of_forall fun c hc => ?_⟩
      rcases mem_append.mp hc with hc | hc
      · exact hall c ((List.rdropWhile_prefix _ _).subset hc)
      · have hmask : " <masked:secret>".toList.all (fun c => decide (c.toNat < 128)) = true := by
          decide
        have hascii := of_decide_eq_true (all_eq_true.mp hmask c hc)
        exact level_of_ascii fun d hd => by rwa [mem_singleton.mp hd]
  · refine ⟨line, maskSecretValue_of_not_secret hsecret, ?_⟩
    cases hword : holds (lowerFrom [] line) "bearer" with
    | false => exact levelCuts_of_not_holds hword
    | true => simpa [hword, hsecret] using hlevel

lemma levelLine_of_not_holds (hno : holds (lowerFrom [] line) "bearer" = false)
    (h : KeyCut line) : LevelLine line :=
  ⟨h, fun hword => absurd (hno.symm.trans hword) Bool.false_ne_true⟩

/-- The lines outside of private keys.  The others are replaced or left out unread. -/
def shownLines : Bool → List (List Char) → List (List Char)
  | _, [] => []
  | inPrivateKey, line :: lines =>
    let rest := shownLines (privateAfter inPrivateKey line) lines
    if holds line "PRIVATE KEY-----" || inPrivateKey then rest else line :: rest

section
variable {table : CharTable} {mode : RedactMode}

lemma isSome_redactLine (h : carriesMarker line = false → LevelLine line) :
    (redactLine table mode line).isSome = true := by
  rw [redactLine, chars_char]
  cases hmark : carriesMarker line with
  | true => rfl
  | false =>
    obtain ⟨keyed, hkeyed, hcuts⟩ := exists_levelCuts (h hmark)
    obtain ⟨replaced, hreplaced⟩ :
        ∃ replaced, replaceCaseInsensitive keyed "bearer " "<masked:bearer>" mode = some replaced :=
      Option.isSome_iff_exists.mp (isSome_replaceCaseInsensitive mode hcuts)
    simp [hkeyed, hreplaced]

lemma keyCut_of_isSome_redactLine (h : (redactLine table mode line).isSome = true)
    (hmark : carriesMarker line = false) : KeyCut line := by
  apply keyCut_of_isSome
  rw [redactLine, chars_char, hmark] at h
  cases hkeyed : maskSecretValue line with
  | none => simp [hkeyed] at h
  | some keyed => rfl

/-- The lines before a line decide only on whether it is shown. -/
lemma isSome_redactLines_iff (inPrivateKey : Bool) (lines : List (List Char)) :
    (redactLines table mode inPrivateKey lines).isSome = true ↔
      ∀ line ∈ shownLines inPrivateKey lines, (redactLine table mode line).isSome = true := by
  induction lines generalizing inPrivateKey with
  | nil => simp [redactLines, shownLines]
  | cons line lines ih =>
    rw [redactLines, shownLines, privateAfter]
    cases hkey : holds line "PRIVATE KEY-----" with
    | true => simpa using ih (!holds line "END PRIVATE KEY")
    | false =>
      cases inPrivateKey with
      | true => simpa using ih (!holds line "END PRIVATE KEY")
      | false =>
        have hrest := ih false
        cases hfst : redactLine table mode line with
        | none => simp [hfst]
        | some first =>
          cases hlines : redactLines table mode false lines with
          | none =>
            rw [hlines] at hrest
            simpa [hfst] using hrest
          | some rest =>
            rw [hlines] at hrest
            simpa [hfst] using hrest

end

end ExperienceCodex.Redact
