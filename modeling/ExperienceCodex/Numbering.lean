import Mathlib

/-!
# Numbered names

Names for a list of bases: the first use of a base gets the base itself, and its `k`-th use gets
the base, an underscore and `k`.  The numbers of one base are distinct, so two names can only
coincide when a base is itself of the form of a numbered one.
-/

namespace ExperienceCodex.Numbering

open List

/-- The base with a number. -/
def suffixed (base : String) (k : ℕ) : String := base ++ "_" ++ toString k

/-- The name of the `k`-th use of a base. -/
def numbered (base : String) (k : ℕ) : String := if k = 1 then base else suffixed base k

@[simp] lemma numbered_one (base : String) : numbered base 1 = base := rfl

lemma numbered_of_two_le {base : String} {k : ℕ} (h : 2 ≤ k) :
    numbered base k = suffixed base k :=
  if_neg (by omega)

/-- The names of a list of bases, after the bases that were named before. -/
def numberFrom (earlier : List String) : List String → List String
  | [] => []
  | base :: rest =>
    numbered base (earlier.count base + 1) :: numberFrom (earlier ++ [base]) rest

def numberAll (bases : List String) : List String := numberFrom [] bases

lemma numberFrom_concat (earlier bases : List String) (last : String) :
    numberFrom earlier (bases ++ [last]) =
      numberFrom earlier bases ++ [numbered last ((earlier ++ bases).count last + 1)] := by
  induction bases generalizing earlier with
  | nil => simp [numberFrom]
  | cons base rest ih => simp [numberFrom, ih]

lemma numberAll_concat (bases : List String) (last : String) :
    numberAll (bases ++ [last]) = numberAll bases ++ [numbered last (bases.count last + 1)] := by
  rw [numberAll, numberFrom_concat, nil_append, numberAll]

lemma underscore_notMem_digits (k : ℕ) : '_' ∉ (toString k).toList := by
  rw [Nat.toString_eq_ofList_toDigits, String.toList_ofList]
  intro hmem
  have hdigit := Nat.isDigit_of_mem_toDigits (by decide) (by decide) hmem
  exact absurd hdigit (by decide)

lemma rtakeWhile_underscore (base : List Char) {digits : List Char} (h : '_' ∉ digits) :
    (base ++ '_' :: digits).rtakeWhile (· ≠ '_') = digits := by
  have hall : ∀ c ∈ digits.reverse, decide (c ≠ '_') = true := by
    intro c hmem
    have hne : c ≠ '_' := by
      rintro rfl
      exact h (mem_reverse.mp hmem)
    exact decide_eq_true hne
  rw [List.rtakeWhile, reverse_append, reverse_cons, append_assoc, takeWhile_append_of_pos hall]
  simp

theorem suffixed_inj {base other : String} {j k : ℕ} :
    suffixed base j = suffixed other k ↔ base = other ∧ j = k := by
  constructor
  · intro h
    have hlists : base.toList ++ '_' :: (toString j).toList =
        other.toList ++ '_' :: (toString k).toList := by
      have := congrArg String.toList h
      simpa [suffixed, String.toList_append] using this
    have hdigits : (toString j).toList = (toString k).toList := by
      rw [← rtakeWhile_underscore base.toList (underscore_notMem_digits j), hlists,
        rtakeWhile_underscore other.toList (underscore_notMem_digits k)]
    rw [hdigits] at hlists
    exact ⟨String.toList_inj.mp (append_cancel_right hlists),
      Nat.repr_injective (String.toList_inj.mp hdigits)⟩
  · rintro ⟨rfl, rfl⟩
    rfl

lemma ne_suffixed (base : String) (k : ℕ) : base ≠ suffixed base k := by
  intro h
  have hlen := congrArg String.length h
  simp only [suffixed, String.length_append] at hlen
  have hone : "_".length = 1 := rfl
  omega

theorem mem_numberAll_iff (bases : List String) (name : String) :
    name ∈ numberAll bases ↔
      ∃ base k, 1 ≤ k ∧ k ≤ bases.count base ∧ name = numbered base k := by
  induction bases using List.reverseRecOn with
  | nil =>
    constructor
    · intro hmem
      cases hmem
    · rintro ⟨base, k, hone, hcount, -⟩
      rw [count_nil] at hcount
      omega
  | append_singleton bases last ih =>
    rw [numberAll_concat, mem_append, ih, mem_singleton]
    constructor
    · rintro (⟨base, k, hone, hcount, rfl⟩ | rfl)
      · refine ⟨base, k, hone, ?_, rfl⟩
        rw [count_append]
        omega
      · refine ⟨last, bases.count last + 1, by omega, ?_, rfl⟩
        simp [count_append]
    · rintro ⟨base, k, hone, hcount, rfl⟩
      rw [count_append, count_singleton] at hcount
      by_cases hold : k ≤ bases.count base
      · exact .inl ⟨base, k, hone, hold, rfl⟩
      · -- The only new number is the one of the last base.
        right
        split_ifs at hcount with hlast
        · rw [beq_iff_eq.mp hlast]
          have hk : k = bases.count base + 1 := by omega
          rw [hk]
        · omega

/-- No base is another base with one of the numbers that the other gets. -/
def Apart (bases : List String) : Prop :=
  ∀ base ∈ bases, ∀ other k, 2 ≤ k → k ≤ bases.count other → base ≠ suffixed other k

lemma Apart.of_concat {bases : List String} {last : String} (h : Apart (bases ++ [last])) :
    Apart bases := by
  intro base hmem other k htwo hcount
  refine h base (mem_append_left _ hmem) other k htwo ?_
  rw [count_append]
  omega

lemma Apart.notMem {bases : List String} {last : String} (h : Apart (bases ++ [last])) :
    numbered last (bases.count last + 1) ∉ numberAll bases := by
  rw [mem_numberAll_iff]
  rintro ⟨other, k, hone, hcount, heq⟩
  have hother : other ∈ bases := count_pos_iff.mp (by omega)
  have hlast : (bases ++ [last]).count last = bases.count last + 1 := by
    simp [count_append]
  by_cases hnew : bases.count last = 0
  · -- The last base is new and gets its plain name.
    rw [hnew, zero_add, numbered_one] at heq
    by_cases hk : k = 1
    · rw [hk, numbered_one] at heq
      rw [heq] at hnew
      exact absurd hother (count_eq_zero.mp hnew)
    · rw [numbered_of_two_le (by omega)] at heq
      refine h last (mem_append_right _ mem_cons_self) other k (by omega) ?_ heq
      rw [count_append]
      omega
  · rw [numbered_of_two_le (by omega)] at heq
    by_cases hk : k = 1
    · rw [hk, numbered_one] at heq
      exact h other (mem_append_left _ hother) last _ (by omega) hlast.ge heq.symm
    · rw [numbered_of_two_le (by omega), suffixed_inj] at heq
      obtain ⟨rfl, hnum⟩ := heq
      omega

lemma Apart.concat {bases : List String} {last : String} (h : Apart bases)
    (hnew : numbered last (bases.count last + 1) ∉ numberAll bases) : Apart (bases ++ [last]) := by
  intro base hmem other k htwo hcount heq
  rw [count_append, count_singleton] at hcount
  by_cases hold : k ≤ bases.count other
  · rcases mem_append.mp hmem with hmem | hmem
    · exact h base hmem other k htwo hold heq
    · rw [mem_singleton.mp hmem] at heq
      by_cases hlast : last ∈ bases
      · exact h last hlast other k htwo hold heq
      · rw [count_eq_zero.mpr hlast, zero_add, numbered_one, heq, ← numbered_of_two_le htwo] at hnew
        exact hnew ((mem_numberAll_iff _ _).mpr ⟨other, k, by omega, hold, rfl⟩)
  · split_ifs at hcount with hother
    · rw [beq_iff_eq] at hother
      subst hother
      have hk : k = bases.count last + 1 := by omega
      rcases mem_append.mp hmem with hmem | hmem
      · rw [numbered_of_two_le (by omega), ← hk, ← heq] at hnew
        exact hnew ((mem_numberAll_iff _ _).mpr
          ⟨base, 1, le_rfl, count_pos_iff.mpr hmem, rfl⟩)
      · rw [mem_singleton.mp hmem] at heq
        exact ne_suffixed last k heq
    · omega

/-- The names are distinct exactly when no base looks like a number of another one. -/
theorem numberAll_nodup_iff (bases : List String) : (numberAll bases).Nodup ↔ Apart bases := by
  induction bases using List.reverseRecOn with
  | nil => exact ⟨fun _ => nofun, fun _ => nodup_nil⟩
  | append_singleton bases last ih =>
    rw [numberAll_concat, nodup_append_comm, singleton_append, nodup_cons, ih]
    exact ⟨fun h => h.2.concat h.1, fun h => ⟨h.notMem, h.of_concat⟩⟩

end ExperienceCodex.Numbering
