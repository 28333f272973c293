import Mathlib

/-!
# Doubles

A double is its bit pattern.  The few operations the program needs are defined on the rational
value of a finite double: conversion from a nonnegative rational rounds to nearest with ties to
even, and `f64::round` rounds half away from zero.
-/

namespace ExperienceCodex

/-- A double, by its bit pattern. -/
structure F64 where
  bits : UInt64
deriving DecidableEq

namespace F64

def biasedExponent (x : F64) : ℕ := x.bits.toNat / 2 ^ 52 % 2 ^ 11

def fraction (x : F64) : ℕ := x.bits.toNat % 2 ^ 52

def isNegative (x : F64) : Bool := decide (2 ^ 63 ≤ x.bits.toNat)

def isFinite (x : F64) : Bool := decide (x.biasedExponent ≠ 2 ^ 11 - 1)

def isZero (x : F64) : Bool := decide (x.bits.toNat % 2 ^ 63 = 0)

/-- Equality of two finite doubles as numbers. -/
def numEq (x y : F64) : Bool := x == y || (x.isZero && y.isZero)

@[simp] theorem numEq_self (x : F64) : x.numEq x = true := by simp [numEq]

/-- The absolute value of a finite double. -/
def magnitude (x : F64) : ℚ :=
  if x.biasedExponent = 0 then x.fraction * 2 ^ (-1074 : ℤ)
  else (x.fraction + 2 ^ 52) * 2 ^ ((x.biasedExponent : ℤ) - 1075)

/-- The nearest natural number, with ties to even. -/
def roundHalfEven (q : ℚ) : ℕ :=
  let rest := q - ⌊q⌋₊
  if rest < 1 / 2 ∨ (rest = 1 / 2 ∧ ⌊q⌋₊ % 2 = 0) then ⌊q⌋₊ else ⌊q⌋₊ + 1

/-- The exponent of the last place of a double near `q`. -/
def ulpExponent (q : ℚ) : ℤ := max (Int.log 2 q - 52) (-1074)

/-- The double nearest to a nonnegative rational, with ties to even; infinity from the largest
finite double's upper neighbour on. -/
def ofRat (q : ℚ) : F64 :=
  if q = 0 then ⟨0⟩
  else
    let place := ulpExponent q
    let significand := roundHalfEven (q / 2 ^ place)
    -- A significand of `2 ^ 53` carries into the exponent field.
    ⟨UInt64.ofNat (min ((place + 1074).toNat * 2 ^ 52 + significand) (2047 * 2 ^ 52))⟩

/-- The double nearest to an integer; the sign bit is the highest. -/
def ofInt (n : ℤ) : F64 :=
  if 0 ≤ n then ofRat n else ⟨(ofRat (-n)).bits + 0x8000000000000000⟩

lemma roundHalfEven_le {q : ℚ} {n : ℕ} (h : q < n) : roundHalfEven q ≤ n := by
  rcases Nat.eq_zero_or_pos n with hzero | hpos
  · have hfloor : ⌊q⌋₊ = 0 := by
      rw [Nat.floor_eq_zero]
      subst hzero
      exact h.trans (by norm_num)
    have hneg : q < 1 / 2 := by
      subst hzero
      exact h.trans (by norm_num)
    simp only [roundHalfEven, hfloor, Nat.cast_zero, sub_zero, hneg, true_or, if_true]
    omega
  · have hfloor : ⌊q⌋₊ < n := (Nat.floor_lt' hpos.ne').mpr h
    simp only [roundHalfEven]
    split_ifs <;> omega

/-- A rational of at most `2 ^ a` is rounded to a double with exponent field below `a + 1024`. -/
theorem ofRat_bits_le {q : ℚ} (hq : 0 ≤ q) {a : ℕ} (h : q ≤ 2 ^ a) :
    (ofRat q).bits.toNat ≤ (a + 1024) * 2 ^ 52 := by
  rcases hq.eq_or_lt with hzero | hpos
  · rw [ofRat, if_pos hzero.symm]
    exact Nat.zero_le _
  have hplace : (ulpExponent q + 1074).toNat ≤ a + 1022 := by
    have hlog : Int.log 2 q ≤ a := by
      have hle : (2 : ℚ) ^ Int.log 2 q ≤ 2 ^ (a : ℤ) := by
        refine (Int.zpow_log_le_self (by norm_num) hpos).trans ?_
        exact_mod_cast h
      exact (zpow_le_zpow_iff_right₀ (by norm_num)).mp hle
    unfold ulpExponent
    omega
  have hsignificand : roundHalfEven (q / 2 ^ ulpExponent q) ≤ 2 ^ 53 := by
    apply roundHalfEven_le
    have hlt : q < 2 ^ (Int.log 2 q + 1) := by
      exact_mod_cast Int.lt_zpow_succ_log_self (b := 2) (by norm_num) q
    have hexp : Int.log 2 q + 1 ≤ 53 + ulpExponent q := by
      unfold ulpExponent
      omega
    rw [div_lt_iff₀ (by positivity)]
    calc q < 2 ^ (Int.log 2 q + 1) := hlt
      _ ≤ 2 ^ (53 + ulpExponent q) := zpow_le_zpow_right₀ (by norm_num) hexp
      _ = ((2 ^ 53 : ℕ) : ℚ) * 2 ^ ulpExponent q := by
        rw [zpow_add₀ (by norm_num)]
        norm_num
  have hsmall : min ((ulpExponent q + 1074).toNat * 2 ^ 52 +
      roundHalfEven (q / 2 ^ ulpExponent q)) (2047 * 2 ^ 52) < 2 ^ 64 :=
    (min_le_right _ _).trans_lt (by norm_num)
  rw [ofRat, if_neg hpos.ne', UInt64.toNat_ofNat_of_lt' hsmall]
  refine (min_le_left _ _).trans ?_
  omega

/-- A double with a small exponent field has a small magnitude. -/
theorem magnitude_le_of_bits_le {x : F64} {a : ℕ} (h : x.bits.toNat ≤ (a + 1024) * 2 ^ 52)
    (ha : a < 1000) : x.magnitude ≤ 2 ^ (a + 2) := by
  have hexp : x.biasedExponent ≤ a + 1024 := by
    unfold biasedExponent
    omega
  have hfraction : (x.fraction : ℚ) ≤ 2 ^ 52 := by
    have hlt : x.fraction < 2 ^ 52 := Nat.mod_lt _ (by norm_num)
    exact_mod_cast hlt.le
  unfold magnitude
  split_ifs with hzero
  · calc (x.fraction : ℚ) * 2 ^ (-1074 : ℤ) ≤ 2 ^ 52 * 2 ^ (-1074 : ℤ) := by gcongr
      _ = 2 ^ (-1022 : ℤ) := by
        rw [← zpow_natCast, ← zpow_add₀ (by norm_num)]
        norm_num
      _ ≤ 1 := zpow_le_one_of_nonpos₀ (by norm_num) (by norm_num)
      _ ≤ 2 ^ (a + 2) := one_le_pow₀ (by norm_num)
  · have hdouble : (2 ^ 52 + 2 ^ 52 : ℚ) = 2 ^ (53 : ℤ) := by norm_num
    have hsum : (53 : ℤ) + ((a + 1024 : ℤ) - 1075) = ((a + 2 : ℕ) : ℤ) := by
      push_cast
      ring
    calc ((x.fraction : ℚ) + 2 ^ 52) * 2 ^ ((x.biasedExponent : ℤ) - 1075)
        ≤ (2 ^ 52 + 2 ^ 52) * 2 ^ ((a + 1024 : ℤ) - 1075) := by
          refine mul_le_mul (by linarith) ?_ (by positivity) (by positivity)
          exact zpow_le_zpow_right₀ (by norm_num) (by omega)
      _ = 2 ^ (53 : ℤ) * 2 ^ ((a + 1024 : ℤ) - 1075) := by rw [hdouble]
      _ = 2 ^ ((a + 2 : ℕ) : ℤ) := by
          rw [← zpow_add₀ (by norm_num), hsum]
      _ = 2 ^ (a + 2) := zpow_natCast _ _

theorem isFinite_of_bits_le {x : F64} {a : ℕ} (h : x.bits.toNat ≤ (a + 1024) * 2 ^ 52)
    (ha : a < 1000) : x.isFinite = true := by
  rw [isFinite, decide_eq_true_iff, biasedExponent]
  omega

lemma ofInt_isFinite {n : ℤ} (h : n.natAbs < 2 ^ 64) : (ofInt n).isFinite = true := by
  have hbits : ∀ m : ℕ, m < 2 ^ 64 → (ofRat m).bits.toNat ≤ (64 + 1024) * 2 ^ 52 := by
    intro m hm
    refine ofRat_bits_le (by positivity) ?_
    exact_mod_cast hm.le
  unfold ofInt
  split_ifs with hn
  · obtain ⟨m, rfl⟩ := Int.eq_ofNat_of_zero_le hn
    exact isFinite_of_bits_le (hbits m (by simpa using h)) (by norm_num)
  · have hneg : 0 ≤ -n := by omega
    obtain ⟨m, hm⟩ := Int.eq_ofNat_of_zero_le hneg
    have hbound := hbits m (by omega)
    have hcast : (-n : ℚ) = m := by exact_mod_cast hm
    have hsign : (0x8000000000000000 : UInt64).toNat = 2 ^ 63 := rfl
    rw [isFinite, decide_eq_true_iff, biasedExponent, hcast, UInt64.toNat_add, hsign]
    omega

end F64

/-- A double that is neither infinite nor `NaN`. -/
abbrev FiniteF64 := {x : F64 // x.isFinite = true}

namespace F64

/-- `(0.0..=1.0).contains(&value)`. -/
def inUnitInterval (x : F64) : Bool :=
  x.isZero || (x.isFinite && !x.isNegative && decide (x.magnitude ≤ 1))

/-- `(value * 100.0).round() / 100.0` for a value between zero and one; a negative zero stays
negative. -/
def roundHundredths (x : F64) : F64 :=
  if x.isZero then x
  else
    let product := ofRat (x.magnitude * 100)
    let rounded := ⌊product.magnitude + 1 / 2⌋₊
    ofRat (rounded / 100)

theorem roundHundredths_isFinite {x : F64} (h : x.inUnitInterval = true) :
    x.roundHundredths.isFinite = true := by
  unfold roundHundredths
  split_ifs with hzero
  · rw [isZero, decide_eq_true_iff] at hzero
    rw [isFinite, decide_eq_true_iff, biasedExponent]
    omega
  · have hunit : x.magnitude ≤ 1 := by
      simp only [inUnitInterval, hzero, Bool.false_or, Bool.and_eq_true, decide_eq_true_iff] at h
      exact h.2
    have hnonneg : 0 ≤ x.magnitude := by
      unfold magnitude
      split_ifs <;> positivity
    have hproduct := ofRat_bits_le (q := x.magnitude * 100) (by positivity)
      (a := 7) (by linarith)
    have hmagnitude := magnitude_le_of_bits_le hproduct (by norm_num)
    have hfloor : (⌊(ofRat (x.magnitude * 100)).magnitude + 1 / 2⌋₊ : ℚ) ≤ 513 := by
      have hlt : ⌊(ofRat (x.magnitude * 100)).magnitude + 1 / 2⌋₊ < 514 := by
        rw [Nat.floor_lt' (by norm_num)]
        norm_num at hmagnitude ⊢
        linarith
      exact_mod_cast Nat.lt_succ_iff.mp hlt
    refine isFinite_of_bits_le (a := 3) (ofRat_bits_le (by positivity) ?_) (by norm_num)
    rw [div_le_iff₀ (by norm_num)]
    exact hfloor.trans (by norm_num)

/-- The confidence that is kept for a value between zero and one. -/
def confidence (x : F64) (h : x.inUnitInterval = true) : FiniteF64 :=
  ⟨x.roundHundredths, roundHundredths_isFinite h⟩

end F64

end ExperienceCodex
