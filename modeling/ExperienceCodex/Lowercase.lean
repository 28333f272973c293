import ExperienceCodex.Text

/-!
# Lowercase texts

Lowercasing a lowercase text changes nothing.  What a part of a text becomes depends on the text
around it only through its capital sigmas.
-/

namespace ExperienceCodex

open List Text

/-- A character that lowercasing leaves as it is. -/
def IsLower (c : Char) : Prop :=
  lowerChar c = [c] ∧ c ≠ 'Σ'

instance (c : Char) : Decidable (IsLower c) := inferInstanceAs (Decidable (_ ∧ _))

lemma isLower_of_run {run : ℕ × ℕ × ℕ × ℤ} {c : Char} (hrun : run ∈ lowercaseRuns)
    (hfst : run.1 ≤ c.toNat) (hlast : c.toNat ≤ run.2.1)
    (hstep : (c.toNat - run.1) % run.2.2.1 = 0) :
    IsLower (Char.ofNat ((c.toNat : ℤ) + run.2.2.2).toNat) := by
  generalize hn : ((c.toNat : ℤ) + run.2.2.2).toNat = n
  by_cases hvalid : n.isValidChar
  swap
  · rw [Char.ofNat, dif_neg hvalid]
    decide +kernel
  have hnat : (Char.ofNat n).toNat = n := by rw [Char.toNat_ofNat, if_pos hvalid]
  rcases lowercaseRuns_ascii run hrun with hlarge | ⟨hone, hkelvin⟩
  swap
  · have hk : n = 107 := by omega
    rw [hk]
    decide +kernel
  have houtside : ∀ other ∈ (0x130, 0x130, 1, 0) :: lowercaseRuns,
      ¬(other.1 ≤ n ∧ n ≤ other.2.1 ∧ (n - other.1) % other.2.2.1 = 0) := by
    rintro other hother ⟨hlower, hupper, hparity⟩
    have hapart := all_eq_true.mp (all_eq_true.mp lowercaseRuns_apart run hrun) other
      hother
    simp only [Bool.or_eq_true, Bool.and_eq_true, Nat.blt_eq, Nat.beq_eq] at hapart
    rcases hapart with (hbelow | habove) | ⟨⟨htwo, hruns⟩, hodd⟩
    · omega
    · omega
    · rw [htwo] at hparity
      rcases hruns with hsame | hsingle
      · rw [hsame] at hstep
        omega
      · omega
  have hdotted : Char.ofNat n ≠ 'İ' := by
    intro heq
    have hcode : n = 0x130 := by rw [← hnat, heq]; rfl
    exact houtside _ mem_cons_self (by rw [hcode]; decide)
  have hsigma : Char.ofNat n ≠ 'Σ' := by
    intro heq
    have hcode : n = 0x3A3 := by rw [← hnat, heq]; rfl
    have hmem : (0x3A3, 0x3AB, 1, (32 : ℤ)) ∈ lowercaseRuns := by decide +kernel
    exact houtside _ (mem_cons_of_mem _ hmem) (by rw [hcode]; decide)
  refine ⟨?_, hsigma⟩
  rw [lowerChar, if_neg (by omega), if_neg hdotted]
  have hnone : (lowercaseRuns.find? fun run =>
      decide (run.1 ≤ (Char.ofNat n).toNat) && decide ((Char.ofNat n).toNat ≤ run.2.1) &&
        ((Char.ofNat n).toNat - run.1) % run.2.2.1 == 0) = none := by
    rw [find?_eq_none, hnat]
    intro other hother
    have hnot := houtside other (mem_cons_of_mem _ hother)
    simpa [and_assoc] using hnot
  rw [hnone]

lemma isLower_of_mem_lowerChar {c d : Char} (h : d ∈ lowerChar c) : IsLower d := by
  rw [lowerChar] at h
  split_ifs at h with hascii hdotted
  · obtain ⟨hsmall, hlower⟩ : c.toLower.toNat < 128 ∧ c.toLower.toLower = c.toLower :=
      of_toNat_lt hascii (by decide +kernel)
    rw [← mem_singleton.mp h] at hsmall hlower
    refine ⟨by rw [lowerChar, if_pos hsmall, hlower], ?_⟩
    rintro rfl
    exact absurd hsmall (by decide)
  · rcases mem_pair.mp h with rfl | rfl
    · decide +kernel
    · decide +kernel
  · split at h
    · next run hfound =>
      have hmem := mem_of_find?_eq_some hfound
      have hin := find?_some hfound
      simp only [Bool.and_eq_true, decide_eq_true_eq, beq_iff_eq] at hin
      rw [mem_singleton.mp h]
      exact isLower_of_run hmem hin.1.1 hin.1.2 hin.2
    · next hnone =>
      have hsame : d = c := mem_singleton.mp h
      subst hsame
      refine ⟨by rw [lowerChar, if_neg hascii, if_neg hdotted, hnone], ?_⟩
      rintro rfl
      exact absurd hnone (by decide +kernel)

variable {text : List Char}

lemma lowerChar_ne_nil (c : Char) : lowerChar c ≠ [] := by
  unfold lowerChar
  split_ifs
  · exact cons_ne_nil _ _
  · exact cons_ne_nil _ _
  · split <;> exact cons_ne_nil _ _

lemma isLower_of_mem_lowerFrom {before : List Char} {c : Char}
    (h : c ∈ lowerFrom before text) : IsLower c := by
  induction text generalizing before with
  | nil => cases h
  | cons first text ih =>
    rw [lowerFrom, mem_append] at h
    rcases h with h | h
    · split_ifs at h
      · rw [mem_singleton.mp h, mapUppercaseSigma]
        split_ifs
        · decide +kernel
        · decide +kernel
      · exact isLower_of_mem_lowerChar h
    · exact ih h

lemma toLowercase_of_isLower {text : String} (h : ∀ c ∈ text.toList, IsLower c) :
    toLowercase text = text := by
  have hfixed (before chars : List Char) (hchars : ∀ c ∈ chars, IsLower c) :
      lowerFrom before chars = chars := by
    induction chars generalizing before with
    | nil => rfl
    | cons c chars ih =>
      obtain ⟨hc, hchars⟩ := forall_mem_cons.mp hchars
      rw [lowerFrom, if_neg hc.2, hc.1, ih (c :: before) hchars, singleton_append]
  rw [toLowercase, hfixed [] text.toList h, String.ofList_toList]

/-- The codes of control characters, whitespace, the quote and the backslash. -/
def unletteredRanges : List (ℕ × ℕ) :=
  [(0, 0x20), (0x22, 0x22), (0x5C, 0x5C), (0x85, 0x85), (0xA0, 0xA0), (0x1680, 0x1680),
    (0x2000, 0x200A), (0x2028, 0x2029), (0x202F, 0x202F), (0x205F, 0x205F), (0x3000, 0x3000)]

lemma lowercaseRuns_lettered : ∀ run ∈ lowercaseRuns, (0 : ℤ) < run.1 + run.2.2.2 ∧
    (∀ range ∈ unletteredRanges,
      (run.2.1 : ℤ) + run.2.2.2 < range.1 ∨ (range.2 : ℤ) < run.1 + run.2.2.2) ∧
    ((run.2.1 : ℤ) + run.2.2.2 < 0xD800 ∨
      (0xDFFF : ℤ) < run.1 + run.2.2.2 ∧ (run.2.1 : ℤ) + run.2.2.2 < 0x110000) := by
  decide +kernel

/-- Such characters come from themselves only. -/
lemma eq_of_mem_lowerChar {c d : Char} (h : d ∈ lowerChar c)
    (hd : inRanges unletteredRanges d = true) : d = c := by
  unfold lowerChar at h
  split_ifs at h with hascii hdotted
  · have hlower : inRanges unletteredRanges c.toLower = true → c.toLower = c :=
      of_toNat_lt hascii (by decide +kernel)
    rw [mem_singleton.mp h] at hd ⊢
    exact hlower hd
  · simp only [mem_cons, not_mem_nil, or_false] at h
    rcases h with rfl | rfl <;> exact absurd hd (by decide)
  · split at h
    · next run hrun =>
      obtain ⟨hpos, hapart, hvalid⟩ := lowercaseRuns_lettered run (mem_of_find?_eq_some hrun)
      have hwithin := find?_some hrun
      simp only [Bool.and_eq_true, decide_eq_true_eq] at hwithin
      rw [mem_singleton.mp h, inRanges, any_eq_true, Char.toNat_ofNat,
        if_pos (show Nat.isValidChar _ by unfold Nat.isValidChar; omega)] at hd
      obtain ⟨range, hrange, hin⟩ := hd
      have hout := hapart range hrange
      simp only [Bool.and_eq_true, decide_eq_true_eq] at hin
      omega
    · exact mem_singleton.mp h

lemma mem_of_mem_lowerFrom {before : List Char} {d : Char} (h : d ∈ lowerFrom before text)
    (hd : inRanges unletteredRanges d = true) : d ∈ text := by
  induction text generalizing before with
  | nil => cases h
  | cons c text ih =>
    rw [lowerFrom, mem_append] at h
    rcases h with h | h
    · split_ifs at h with hsigma
      · rw [mem_singleton.mp h, mapUppercaseSigma] at hd
        split_ifs at hd <;> exact absurd hd (by decide)
      · exact mem_cons.mpr (.inl (eq_of_mem_lowerChar h hd))
    · exact mem_cons_of_mem c (ih h)

/-- The lowercase of a part, between the reversed text before it and the text after it. -/
def lowerWithin (before : List Char) : List Char → List Char → List Char
  | [], _ => []
  | c :: rest, after =>
    (if c = 'Σ' then [mapUppercaseSigma before (rest ++ after)] else lowerChar c) ++
      lowerWithin (c :: before) rest after

lemma lowerFrom_append (before front back : List Char) :
    lowerFrom before (front ++ back) =
      lowerWithin before front back ++ lowerFrom (front.reverse ++ before) back := by
  induction front generalizing before with
  | nil => rfl
  | cons c front ih =>
    rw [cons_append, lowerFrom, lowerWithin, ih (c :: before), append_assoc,
      reverse_cons, append_assoc, singleton_append]

lemma caseIgnorableThenCased_append {text' : List Char}
    (h : caseIgnorableThenCased text = caseIgnorableThenCased text') (front : List Char) :
    caseIgnorableThenCased (front ++ text) = caseIgnorableThenCased (front ++ text') := by
  induction front with
  | nil => exact h
  | cons c front ih =>
    unfold caseIgnorableThenCased at ih ⊢
    rw [cons_append, cons_append, dropWhile_cons, dropWhile_cons]
    split_ifs
    · exact ih
    · rfl

lemma not_caseIgnorable_sigma : inRanges caseIgnorableRanges 'Σ' = false := by
  decide +kernel

/-- Only whether a letter is next to the part matters, and only for its sigmas. -/
lemma lowerWithin_congr {before before' after after' : List Char}
    (hbefore : caseIgnorableThenCased before = caseIgnorableThenCased before')
    (hafter : caseIgnorableThenCased after = caseIgnorableThenCased after') (text : List Char) :
    lowerWithin before text after = lowerWithin before' text after' := by
  induction text generalizing before before' with
  | nil => rfl
  | cons c text ih =>
    have hrest : lowerWithin (c :: before) text after = lowerWithin (c :: before') text after' :=
      ih (caseIgnorableThenCased_append hbefore [c])
    rw [lowerWithin, lowerWithin, mapUppercaseSigma, mapUppercaseSigma, hbefore,
      caseIgnorableThenCased_append hafter text, hrest]

/-- A text whose first character is not a sigma, those aside that are looked past, is lowercased in
the same way wherever it stands. -/
lemma lowerWithin_of_head_ne_sigma {before before' front after : List Char}
    (h : (front.dropWhile (inRanges caseIgnorableRanges)).head? ≠ some 'Σ') :
    lowerWithin before front after = lowerWithin before' front after := by
  induction front generalizing before before' with
  | nil => rfl
  | cons c front ih =>
    by_cases hignorable : inRanges caseIgnorableRanges c = true
    · have hsigma : c ≠ 'Σ' := by
        rintro rfl
        exact absurd (not_caseIgnorable_sigma.symm.trans hignorable) Bool.false_ne_true
      rw [dropWhile_cons_of_pos hignorable] at h
      rw [lowerWithin, lowerWithin, if_neg hsigma, if_neg hsigma, ih h]
    · rw [dropWhile_cons_of_neg hignorable] at h
      have hsigma : c ≠ 'Σ' := fun heq => h (by rw [heq]; rfl)
      rw [lowerWithin, lowerWithin, if_neg hsigma, if_neg hsigma]
      congr 1
      apply lowerWithin_congr _ rfl
      rw [caseIgnorableThenCased, caseIgnorableThenCased, dropWhile_cons_of_neg hignorable,
        dropWhile_cons_of_neg hignorable]

end ExperienceCodex
