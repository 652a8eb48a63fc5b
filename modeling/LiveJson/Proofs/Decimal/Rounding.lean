import Mathlib
import LiveJson.Decimal.Numeral

/-! # Rounding a quotient to a double

A quotient of natural numbers times a power of two is rounded through a mantissa with two residual
bits. The bits tell of the remainder what rounding has to know, and keep telling it while the
mantissa is shifted. So a quotient that lies next to a double, nearer than the middle between that
and the next one, is rounded to the double. -/

namespace LiveJson.Decimal

open Float.Model Float.Model.UnpackedFloat

variable {num den m n k : Nat} {e q t : Int}

/-! ## Residual bits -/

/-- The quotient, with what its residual bits tell of the remainder. -/
def extended (num den : Nat) : ExtendedMantissa :=
  .ofMantissaAndAccuracy (num / den) (accuracyOfFraction (num % den) den)

theorem extended_eq (hden : 0 < den) :
    extended num den = ⟨num / den, decide (den ≤ 2 * (num % den)),
      decide (num % den ≠ 0 ∧ 2 * (num % den) ≠ den)⟩ := by
  unfold extended accuracyOfFraction
  by_cases hzero : num % den = 0
  · simp [hzero, ExtendedMantissa.ofMantissaAndAccuracy, hden.ne']
  · rw [if_neg hzero]
    rcases Nat.lt_trichotomy (2 * (num % den)) den with h | h | h
    · rw [Nat.compare_eq_lt.mpr h]
      simp [ExtendedMantissa.ofMantissaAndAccuracy, hzero, h, h.ne]
    · rw [Nat.compare_eq_eq.mpr h]
      simp [ExtendedMantissa.ofMantissaAndAccuracy, h]
    · rw [Nat.compare_eq_gt.mpr h]
      simp [ExtendedMantissa.ofMantissaAndAccuracy, hzero, h.le, h.ne']

/-- Shifting by one bit doubles the divisor. -/
theorem shiftRightOne_extended (hden : 0 < den) :
    (extended num den).shiftRightOne = extended num (den * 2) := by
  have hlt := Nat.mod_lt num hden
  rw [extended_eq hden, extended_eq (by omega), ExtendedMantissa.shiftRightOne,
    Nat.div_div_eq_div_mul, Nat.mod_mul]
  refine congrArg₂ (ExtendedMantissa.mk _) (Bool.eq_iff_iff.mpr ?_) (Bool.eq_iff_iff.mpr ?_)
  · rw [bne_iff_ne, decide_eq_true_eq]
    rcases Nat.mod_two_eq_zero_or_one (num / den) with hbit | hbit <;> simp [hbit] <;> omega
  · rw [Bool.or_eq_true, decide_eq_true_eq, decide_eq_true_eq, decide_eq_true_eq]
    rcases Nat.mod_two_eq_zero_or_one (num / den) with hbit | hbit <;> simp [hbit] <;> omega

theorem shiftRight_extended (hden : 0 < den) (k : Nat) :
    extended num den >>> k = extended num (den * 2 ^ k) := by
  change k.repeat ExtendedMantissa.shiftRightOne _ = _
  induction k with
  | zero => simp [Nat.repeat]
  | succ k ih =>
    rw [Nat.repeat, ih, shiftRightOne_extended (by positivity), Nat.pow_succ, Nat.mul_assoc]

theorem roundedMantissa_extended (hden : 0 < den) :
    (extended num den).roundedMantissa =
      if 2 * (num % den) < den then num / den
      else if 2 * (num % den) = den then num / den + num / den % 2 else num / den + 1 := by
  rw [extended_eq hden, ExtendedMantissa.roundedMantissa]
  rcases Nat.lt_trichotomy (2 * (num % den)) den with h | h | h
  · by_cases hzero : num % den = 0
    · simp [ExtendedMantissa.accuracy, Accuracy.roundToNearestEven, hzero, hden, hden.ne']
    · simp [ExtendedMantissa.accuracy, Accuracy.roundToNearestEven, hzero, h, h.ne,
        Nat.not_le.mpr h]
  · simp [ExtendedMantissa.accuracy, Accuracy.roundToNearestEven, h]
  · have hzero : num % den ≠ 0 := by omega
    simp [ExtendedMantissa.accuracy, Accuracy.roundToNearestEven, hzero, h.le, h.ne',
      Nat.not_lt.mpr h.le]

/-- A quotient next to `m` is rounded to `m`, also half-way if `m` is even. -/
theorem roundedMantissa_of_near (hden : 0 < den) (hlow : 2 * (m * den) ≤ 2 * num + den)
    (hhigh : 2 * num ≤ 2 * (m * den) + den)
    (hodd : m % 2 = 1 → 2 * (m * den) < 2 * num + den ∧ 2 * num < 2 * (m * den) + den) :
    (extended num den).roundedMantissa = m := by
  have hdiv := Nat.div_add_mod' num den
  have hlt := Nat.mod_lt num hden
  rw [roundedMantissa_extended hden]
  generalize num / den = n at hdiv ⊢
  generalize num % den = r at hdiv hlt ⊢
  -- the quotient is `m` or one less
  have hle : n ≤ m := by
    by_contra h
    have hmul := Nat.mul_le_mul_right den (show m + 1 ≤ n by omega)
    rw [Nat.add_mul] at hmul
    omega
  have hge : m ≤ n + 1 := by
    by_contra h
    have hmul := Nat.mul_le_mul_right den (show n + 2 ≤ m by omega)
    rw [Nat.add_mul] at hmul
    omega
  obtain rfl | rfl : n = m ∨ m = n + 1 := by omega
  · split_ifs <;> omega
  · rw [Nat.add_mul] at hlow hhigh hodd
    split_ifs <;> omega

/-! ## Rounding to a double -/

/-- The mantissa and the exponent of a positive double. -/
structure Canonical (m : Nat) (q : Int) : Prop where
  pos : 0 < m
  lt : m < 2 ^ 53
  least : -1074 ≤ q
  full : 2 ^ 52 ≤ m ∨ q = -1074
  fits : q ≤ 971

/-- How far the reals that round to `m · 2^q` reach below it, in quarters of `2^q`: the next double
below is nearer where the exponent changes. -/
def gap (m : Nat) (q : Int) : Nat := if m = 2 ^ 52 ∧ -1074 < q then 1 else 2

/-- The double nearest to `x` is `m · 2^q`. -/
structure Near (m : Nat) (q : Int) (x : ℚ) : Prop where
  low : ((4 * m - gap m q : ℕ) : ℚ) * 2 ^ (q - 2) ≤ x
  high : x ≤ ((4 * m + 2 : ℕ) : ℚ) * 2 ^ (q - 2)
  odd : m % 2 = 1 → ((4 * m - gap m q : ℕ) : ℚ) * 2 ^ (q - 2) < x ∧
    x < ((4 * m + 2 : ℕ) : ℚ) * 2 ^ (q - 2)

/-- The exponent to which a mantissa is shifted. -/
def target (n : Nat) (e : Int) : Int := Format.binary64.targetExponent (totalExponent n e)

theorem target_eq (n : Nat) (e : Int) : target n e = max (n.log2 + e - 52) (-1074) := by
  simp only [target, Format.targetExponent, totalExponent, Format.mantissaBits, Format.minExponent]
  norm_num
  omega

/-- The quotient fills the mantissa unless the exponent is the least one. -/
theorem target_bounds (hden : 0 < den) (he : 2 ^ 52 ≤ num / den ∨ e ≤ -1074) :
    e ≤ target (num / den) e ∧ (num / den : ℚ) * 2 ^ e < 2 ^ (target (num / den) e + 53) ∧
      (target (num / den) e ≠ -1074 →
        (2 : ℚ) ^ (target (num / den) e + 52) ≤ (num / den : ℚ) * 2 ^ e) := by
  have hpow : (0 : ℚ) < 2 ^ e := by positivity
  have hfloor : ((num / den : ℕ) : ℚ) ≤ num / den := Nat.cast_div_le
  have hceil : (num / den : ℚ) < 2 ^ ((num / den).log2 + 1 : ℤ) := by
    have hdiv : (num / den : ℚ) < (num / den : ℕ) + 1 := by
      rw [div_lt_iff₀ (by exact_mod_cast hden), mul_comm]
      exact_mod_cast Nat.lt_mul_div_succ num hden
    have hlog : ((num / den : ℕ) : ℚ) + 1 ≤ 2 ^ ((num / den).log2 + 1) := by
      exact_mod_cast Nat.lt_log2_self
    exact_mod_cast hdiv.trans_le hlog
  rw [target_eq]
  generalize num / den = n at *
  have hfull : -1074 < e → 52 ≤ n.log2 := fun hlt =>
    (Nat.le_log2 (by omega)).mpr (he.resolve_right (by omega))
  refine ⟨by omega, ?_, fun hne => ?_⟩
  · calc (num / den : ℚ) * 2 ^ e < 2 ^ (n.log2 + 1 : ℤ) * 2 ^ e := by gcongr
      _ = 2 ^ (n.log2 + 1 + e : ℤ) := by rw [← zpow_add₀ (by norm_num)]
      _ ≤ 2 ^ (max (n.log2 + e - 52 : ℤ) (-1074) + 53) := by
        apply zpow_le_zpow_right₀ (by norm_num)
        omega
  · have hn : n ≠ 0 := by
      rintro rfl
      have : Nat.log2 0 = 0 := by simp
      omega
    have hlog : (2 : ℚ) ^ n.log2 ≤ n := by exact_mod_cast Nat.log2_self_le hn
    calc (2 : ℚ) ^ (max (n.log2 + e - 52 : ℤ) (-1074) + 52) = 2 ^ (n.log2 : ℤ) * 2 ^ e := by
          rw [← zpow_add₀ (by norm_num)]
          congr 1
          omega
      _ = 2 ^ n.log2 * 2 ^ e := by rw [zpow_natCast]
      _ ≤ n * 2 ^ e := by gcongr
      _ ≤ (num / den : ℚ) * 2 ^ e := by gcongr

theorem two_zpow_add (q : Int) (k : Nat) : (2 : ℚ) ^ (q + k) = 2 ^ k * 2 ^ q := by
  rw [zpow_add₀ (by norm_num), zpow_natCast, mul_comm]

/-- A number next to a double has the exponent of the double, or the one below if the double is the
least one with its exponent. -/
theorem Near.exponent {x : ℚ} (hc : Canonical m q) (h : Near m q x) (ht : -1074 ≤ t)
    (hlt : x < 2 ^ (t + 53)) (hle : t ≠ -1074 → 2 ^ (t + 52) ≤ x) :
    t = q ∨ t + 1 = q ∧ m = 2 ^ 52 := by
  have hunit : (0 : ℚ) < 2 ^ (q - 2) := by positivity
  have hscale : ∀ k : Nat, (2 : ℚ) ^ (q - 2 + k) = 2 ^ k * 2 ^ (q - 2) := two_zpow_add (q - 2)
  rcases Int.lt_trichotomy t q with hlow | rfl | hhigh
  · right
    have hfull : 2 ^ 52 ≤ m := hc.full.resolve_right (by omega)
    have hbelow : ((4 * m - gap m q : ℕ) : ℚ) * 2 ^ (q - 2) < 2 ^ (t + 53) := h.low.trans_lt hlt
    by_cases hm : m = 2 ^ 52
    · refine ⟨?_, hm⟩
      by_contra hne
      have hpow : (2 : ℚ) ^ (t + 53) ≤ 2 ^ (q - 2 + (53 : ℕ)) :=
        zpow_le_zpow_right₀ (by norm_num) (by omega)
      rw [hscale] at hpow
      have hlt' := lt_of_mul_lt_mul_right (hbelow.trans_le hpow) hunit.le
      rw [gap, if_pos ⟨hm, by omega⟩, hm] at hlt'
      norm_num at hlt'
    · have hpow : (2 : ℚ) ^ (t + 53) ≤ 2 ^ (q - 2 + (54 : ℕ)) :=
        zpow_le_zpow_right₀ (by norm_num) (by omega)
      rw [hscale] at hpow
      have hlt' := lt_of_mul_lt_mul_right (hbelow.trans_le hpow) hunit.le
      rw [gap, if_neg fun hgap => hm hgap.1] at hlt'
      have : 4 * m - 2 < 2 ^ 54 := by exact_mod_cast hlt'
      omega
  · exact .inl rfl
  · have hpow : (2 : ℚ) ^ (q - 2 + (55 : ℕ)) ≤ 2 ^ (t + 52) :=
      zpow_le_zpow_right₀ (by norm_num) (by omega)
    rw [hscale] at hpow
    have hleast := hc.least
    have hle' := le_of_mul_le_mul_right (hpow.trans ((hle (by omega)).trans h.high)) hunit
    have : 2 ^ 55 ≤ 4 * m + 2 := by exact_mod_cast hle'
    have := hc.lt
    omega

/-- Shifting a quotient to the exponent that its mantissa asks for. -/
theorem shiftToTargetExponent_eq (hden : 0 < den) :
    shiftToTargetExponent Format.binary64 (num / den) e (accuracyOfFraction (num % den) den) =
      (extended num (den * 2 ^ (target (num / den) e - e).toNat),
        e + (target (num / den) e - e).toNat) := by
  rw [← shiftRight_extended hden]
  rfl

theorem shiftToTargetExponent_exact (n : Nat) (e : Int) :
    shiftToTargetExponent Format.binary64 n e .exact =
      (extended n (2 ^ (target n e - e).toNat), e + (target n e - e).toNat) := by
  have h := @shiftToTargetExponent_eq n 1 e Nat.one_pos
  rw [Nat.div_one, Nat.mod_one, Nat.one_mul] at h
  exact h

theorem natCast_mul_le_iff {c j : Nat} (hden : 0 < den) :
    (c : ℚ) * 2 ^ q ≤ (num / den : ℚ) * 2 ^ (q + j) ↔ c * den ≤ 2 ^ j * num := by
  have hunit : (0 : ℚ) < 2 ^ q := by positivity
  have hden' : (0 : ℚ) < den := by exact_mod_cast hden
  rw [two_zpow_add, ← mul_assoc, mul_le_mul_iff_left₀ hunit, div_mul_eq_mul_div, le_div_iff₀ hden',
    mul_comm (num : ℚ)]
  exact_mod_cast Iff.rfl

theorem le_natCast_mul_iff {c j : Nat} (hden : 0 < den) :
    (num / den : ℚ) * 2 ^ (q + j) ≤ (c : ℚ) * 2 ^ q ↔ 2 ^ j * num ≤ c * den := by
  have hunit : (0 : ℚ) < 2 ^ q := by positivity
  have hden' : (0 : ℚ) < den := by exact_mod_cast hden
  rw [two_zpow_add, ← mul_assoc, mul_le_mul_iff_left₀ hunit, div_mul_eq_mul_div, div_le_iff₀ hden',
    mul_comm (num : ℚ)]
  exact_mod_cast Iff.rfl

theorem gap_le (m : Nat) (q : Int) : gap m q ≤ 2 := by
  unfold gap
  split <;> decide

/-- A quotient next to a double, as a multiple of the unit of the double. -/
theorem Near.roundedMantissa (hc : Canonical m q) (hden : 0 < den)
    (h : Near m q ((num / den : ℚ) * 2 ^ q)) :
    (extended num den).roundedMantissa = m := by
  have hpos := hc.pos
  have hgap := Nat.mul_le_mul_right den (Nat.sub_le_sub_left (gap_le m q) (4 * m))
  have hq : q = q - 2 + (2 : ℕ) := by omega
  obtain ⟨hlow, hhigh, hodd⟩ := h
  generalize 4 * m - gap m q = least at *
  nth_rewrite 2 [hq] at hlow
  nth_rewrite 1 [hq] at hhigh
  rw [natCast_mul_le_iff hden] at hlow
  rw [le_natCast_mul_iff hden] at hhigh
  have hodd' : m % 2 = 1 → least * den < 2 ^ 2 * num ∧ 2 ^ 2 * num < (4 * m + 2) * den :=
    fun hm => by
    obtain ⟨hlow', hhigh'⟩ := hodd hm
    nth_rewrite 2 [hq] at hlow'
    nth_rewrite 1 [hq] at hhigh'
    rw [← not_le, le_natCast_mul_iff hden, not_le] at hlow'
    rw [← not_le, natCast_mul_le_iff hden, not_le] at hhigh'
    exact ⟨hlow', hhigh'⟩
  rw [Nat.sub_mul, Nat.mul_assoc] at hgap
  rw [Nat.add_mul, Nat.mul_assoc] at hhigh hodd'
  exact roundedMantissa_of_near hden (by omega) (by omega) (by omega)

/-- A quotient next to the least double with its exponent, as a multiple of the unit of the doubles
below it. -/
theorem Near.roundedMantissa_below (ht : -1074 ≤ t) (hden : 0 < den)
    (h : Near (2 ^ 52) (t + 1) ((num / den : ℚ) * 2 ^ t))
    (hlt : (num / den : ℚ) * 2 ^ t < 2 ^ (t + 53)) :
    (extended num den).roundedMantissa = 2 ^ 53 := by
  have hlow := h.low
  have hgap : gap (2 ^ 52) (t + 1) = 1 := if_pos ⟨rfl, by omega⟩
  have hunit : t + 1 - 2 = t - 1 := by omega
  have hpow : (2 : ℚ) ^ (t + 53) = (2 ^ 54 : ℕ) * 2 ^ (t - 1) := by
    have hadd := two_zpow_add (t - 1) 54
    rw [show t - 1 + (54 : ℕ) = t + 53 by omega] at hadd
    rw [hadd]
    norm_num
  have hexponent : t = t - 1 + (1 : ℕ) := by omega
  rw [hgap, hunit] at hlow
  rw [hpow] at hlt
  nth_rewrite 2 [hexponent] at hlow
  nth_rewrite 1 [hexponent] at hlt
  rw [natCast_mul_le_iff hden] at hlow
  rw [← not_le, natCast_mul_le_iff hden, not_le] at hlt
  exact roundedMantissa_of_near hden (by omega) (by omega) (by omega)

/-- **A quotient next to a double is rounded to it.** -/
theorem roundWithAccuracy_of_near (hc : Canonical m q) (hden : 0 < den)
    (hnear : Near m q ((num / den : ℚ) * 2 ^ e)) (he : 2 ^ 52 ≤ num / den ∨ e ≤ -1074) :
    roundWithAccuracy Format.binary64 .positive (num / den) e (accuracyOfFraction (num % den) den) =
      .finite .positive m q hc.pos := by
  obtain ⟨hle, hhigh, hlow⟩ := target_bounds hden he
  have ht : -1074 ≤ target (num / den) e := by rw [target_eq]; omega
  have hexponent := hnear.exponent hc ht hhigh hlow
  rw [roundWithAccuracy, shiftToTargetExponent_eq hden]
  generalize target (num / den) e = t at *
  obtain ⟨k, rfl⟩ := Int.le.dest hle
  have hshift : (e + k - e).toNat = k := by omega
  rw [hshift]
  -- the quotient as a multiple of the unit of the mantissa
  have hscaled : (num / den : ℚ) * 2 ^ e = num / (den * 2 ^ k : ℕ) * 2 ^ (e + k) := by
    rw [two_zpow_add]
    push_cast
    rw [← mul_assoc, ← div_div, div_mul_cancel₀ _ (by positivity)]
  have hden' : 0 < den * 2 ^ k := by positivity
  rw [hscaled] at hnear hhigh
  generalize den * 2 ^ k = den' at *
  generalize e + (k : Int) = t at *
  dsimp only
  rcases hexponent with rfl | ⟨rfl, rfl⟩
  · have htarget : target m t = t := by
      rw [target_eq]
      have hlog : m.log2 < 53 := (Nat.log2_lt hc.pos.ne').mpr hc.lt
      rcases hc.full with hfull | hleast
      · have := (Nat.le_log2 hc.pos.ne').mpr hfull
        omega
      · omega
    rw [hnear.roundedMantissa hc hden', shiftToTargetExponent_exact, htarget]
    simp [extended_eq, hc.pos.ne']
  · have htarget : target (2 ^ 53) t = t + 1 := by
      rw [target_eq, Nat.log2_two_pow]
      omega
    rw [hnear.roundedMantissa_below ht hden' hhigh, shiftToTargetExponent_exact, htarget]
    simp [extended_eq]

end LiveJson.Decimal
