import LiveJson.Proofs.Decimal.Doubles

/-! # The double nearest to a decimal

A decimal is read as the product or the quotient of its digits and a power of ten. Either is rounded
once. So a decimal that lies next to a double is read as the double. -/

namespace LiveJson.Decimal

open Float.Model (Format UnpackedFloat)
open Float.Model.UnpackedFloat

variable {m n e m₁ m₂ : Nat} {q q₁ q₂ : Int}

/-! ## Products and quotients -/

/-- The value of a double, in quarters of its unit. -/
theorem value_eq (m : Nat) (q : Int) : (m : ℚ) * 2 ^ q = ((4 * m : ℕ) : ℚ) * 2 ^ (q - 2) := by
  have hadd := two_zpow_add (q - 2) 2
  rw [show q - 2 + (2 : ℕ) = q by omega] at hadd
  rw [hadd]
  push_cast
  ring

/-- A double is the nearest one to itself. -/
theorem near_self (hc : Canonical m q) : Near m q (m * 2 ^ q) := by
  have hunit : (0 : ℚ) < 2 ^ (q - 2) := by positivity
  have hpos := hc.pos
  have hgap : 4 * m - gap m q < 4 * m := by
    unfold gap
    split <;> omega
  have hlow : ((4 * m - gap m q : ℕ) : ℚ) * 2 ^ (q - 2) < m * 2 ^ q := by
    rw [value_eq m q, mul_lt_mul_iff_left₀ hunit]
    exact_mod_cast hgap
  have hhigh : m * 2 ^ q < ((4 * m + 2 : ℕ) : ℚ) * 2 ^ (q - 2) := by
    rw [value_eq m q, mul_lt_mul_iff_left₀ hunit]
    exact_mod_cast Nat.lt_add_of_pos_right Nat.two_pos
  exact ⟨hlow.le, hhigh.le, fun _ => ⟨hlow, hhigh⟩⟩

theorem round_of_near (hc : Canonical m q) (hbig : 2 ^ 52 ≤ n ∨ q₁ ≤ -1074)
    (hnear : Near m q (n * 2 ^ q₁)) :
    roundWithAccuracy Format.binary64 .positive n q₁ .exact = .finite .positive m q hc.pos := by
  have h := @roundWithAccuracy_of_near n 1 m q₁ q hc Nat.one_pos
  rw [Nat.div_one, Nat.mod_one, Nat.cast_one, div_one] at h
  exact h hnear hbig

/-- A product next to a double is rounded to it. -/
theorem mul_of_near (h₁ : 0 < m₁) (h₂ : 0 < m₂) (hc : Canonical m q) (hbig : 2 ^ 52 ≤ m₁ * m₂)
    (hnear : Near m q (m₁ * 2 ^ q₁ * (m₂ * 2 ^ q₂))) :
    UnpackedFloat.mul Format.binary64 (.finite .positive m₁ q₁ h₁) (.finite .positive m₂ q₂ h₂) =
      .finite .positive m q hc.pos := by
  refine round_of_near hc (.inl hbig) ?_
  rw [zpow_add₀ (by norm_num)]
  push_cast
  rwa [mul_mul_mul_comm] at hnear

/-- The numerator of a quotient is shifted until the quotient fills the mantissa. -/
theorem divCore_bounds (h₁ : 0 < m₁) (h₂ : 0 < m₂) (q₁ q₂ : Int) :
    ∃ (k : Nat) (t : Int), t + k = q₁ - q₂ ∧
    divCore Format.binary64 m₁ q₁ m₂ q₂ =
      (m₁ * 2 ^ k / m₂, t, accuracyOfFraction (m₁ * 2 ^ k % m₂) m₂) ∧
    (2 ^ 52 ≤ m₁ * 2 ^ k / m₂ ∨ t ≤ -1074) := by
  have htarget : Format.binary64.targetExponent
      (Float.Model.totalExponent m₁ q₁ - Float.Model.totalExponent m₂ q₂) =
        max (m₁.log2 - m₂.log2 + (q₁ - q₂) - 53) (-1074) := by
    simp only [Format.targetExponent, Float.Model.totalExponent, Format.mantissaBits,
      Format.minExponent]
    norm_num
    omega
  simp only [divCore, htarget, Nat.shiftLeft_eq]
  generalize htarget' : min (q₁ - q₂) (max (m₁.log2 - m₂.log2 + (q₁ - q₂) - 53) (-1074)) = t
  refine ⟨(q₁ - q₂ - t).toNat, t, by omega, rfl, or_iff_not_imp_right.mpr fun ht => ?_⟩
  rw [Nat.le_div_iff_mul_le h₂]
  calc 2 ^ 52 * m₂ ≤ 2 ^ 52 * 2 ^ (m₂.log2 + 1) := Nat.mul_le_mul_left _ Nat.lt_log2_self.le
    _ = 2 ^ (52 + (m₂.log2 + 1)) := (Nat.pow_add ..).symm
    _ ≤ 2 ^ (m₁.log2 + (q₁ - q₂ - t).toNat) := Nat.pow_le_pow_right Nat.two_pos (by omega)
    _ = 2 ^ m₁.log2 * 2 ^ (q₁ - q₂ - t).toNat := Nat.pow_add ..
    _ ≤ m₁ * 2 ^ (q₁ - q₂ - t).toNat := Nat.mul_le_mul_right _ (Nat.log2_self_le h₁.ne')

/-- A quotient next to a double is rounded to it. -/
theorem div_of_near (h₁ : 0 < m₁) (h₂ : 0 < m₂) (hc : Canonical m q)
    (hnear : Near m q (m₁ * 2 ^ q₁ / (m₂ * 2 ^ q₂))) :
    UnpackedFloat.div Format.binary64 (.finite .positive m₁ q₁ h₁) (.finite .positive m₂ q₂ h₂) =
      .finite .positive m q hc.pos := by
  obtain ⟨k, t, hk, hcore, hbig⟩ := divCore_bounds h₁ h₂ q₁ q₂
  simp only [UnpackedFloat.div, hcore]
  refine roundWithAccuracy_of_near hc h₂ ?_ hbig
  have hvalue : ((m₁ * 2 ^ k : ℕ) : ℚ) / m₂ * 2 ^ t = m₁ * 2 ^ q₁ / (m₂ * 2 ^ q₂) := by
    rw [show q₁ = t + k + q₂ by omega, zpow_add₀ (by norm_num), two_zpow_add]
    have hm₂ : (m₂ : ℚ) ≠ 0 := by exact_mod_cast h₂.ne'
    push_cast
    field_simp
  rwa [hvalue]

/-! ## Digits and powers of ten -/

theorem zpow_mul_pow_toNat {b : ℚ} (hb : b ≠ 0) (q : Int) :
    b ^ q * b ^ (-q).toNat = b ^ q.toNat := by
  rw [← zpow_natCast, ← zpow_natCast, ← zpow_add₀ hb]
  congr 1
  omega

/-- A natural number of at most 53 bits is a double. -/
theorem unpack_toFloat (hn : 0 < n) (hlt : n < 2 ^ 53) : ∃ m q hm,
    n.toUInt64.toFloat.toModel.unpack = .finite .positive m q hm ∧
      2 ^ 52 ≤ m ∧ (m : ℚ) * 2 ^ q = n := by
  have hlog : n.log2 < 53 := (Nat.log2_lt hn.ne').mpr hlt
  obtain ⟨k, hk⟩ : ∃ k, n.log2 + k = 52 := ⟨52 - n.log2, by omega⟩
  have hfull : 2 ^ 52 ≤ n * 2 ^ k := by
    calc 2 ^ 52 = 2 ^ n.log2 * 2 ^ k := by rw [← Nat.pow_add, hk]
      _ ≤ n * 2 ^ k := Nat.mul_le_mul_right _ (Nat.log2_self_le hn.ne')
  have hlt' : n * 2 ^ k < 2 ^ 53 := by
    calc n * 2 ^ k < 2 ^ (n.log2 + 1) * 2 ^ k :=
          Nat.mul_lt_mul_of_pos_right Nat.lt_log2_self (by positivity)
      _ = 2 ^ 53 := by rw [← Nat.pow_add, show n.log2 + 1 + k = 53 by omega]
  have hc : Canonical (n * 2 ^ k) (-k) := ⟨by omega, hlt', by omega, .inl hfull, by omega⟩
  have hround : UnpackedFloat.ofUInt64 Format.binary64 n.toUInt64 =
      .finite .positive (n * 2 ^ k) (-k) hc.pos := by
    have hvalue : n.toUInt64.toNat = n := by
      rw [Nat.toUInt64_eq, UInt64.toNat_ofNat']
      omega
    have hsign : compare (n : Int) 0 = .gt := Int.compare_eq_gt.mpr (by exact_mod_cast hn)
    have htarget : Format.binary64.targetExponent (Float.Model.totalExponent n 0) = -k := by
      simp only [Format.targetExponent, Float.Model.totalExponent, Format.mantissaBits,
        Format.minExponent]
      norm_num
      omega
    have hshift : (0 - -(k : Int)).toNat = k := by omega
    have hexponent : 0 - (k : Int) = -k := by omega
    rw [ofUInt64, hvalue, ofNat, ofInt, UnpackedFloat.normalize, hsign]
    simp only [Int.toNat_natCast, UnpackedFloat.round, decreaseExponent, htarget, hshift, hexponent,
      Nat.shiftLeft_eq]
    exact round_of_near hc (.inl hfull) (near_self hc)
  refine ⟨n * 2 ^ k, -k, hc.pos, ?_, hfull, ?_⟩
  · change (Float.Model.pack (UnpackedFloat.ofUInt64 Format.binary64 n.toUInt64)).unpack = _
    rw [hround]
    exact unpack_pack_of_full hc.pos hfull hlt' (by omega) (by omega)
  · push_cast
    rw [zpow_neg, zpow_natCast, mul_assoc, mul_inv_cancel₀ (by positivity), mul_one]

/-- The double is a power of ten. -/
def isPowerOfTen (e : Nat) (x : Float) : Bool :=
  match parts x with
  | .finite false m q => 2 ^ 52 ≤ m && m * 2 ^ q.toNat == 10 ^ e * 2 ^ (-q).toNat
  | _ => false

/-- The powers of ten that are doubles. -/
theorem unpack_powerOfTen (he : e < 23) : ∃ m q hm,
    (getElem Float.exactlyRepresentablePowersOfTen e he).toModel.unpack = .finite .positive m q hm ∧
      2 ^ 52 ≤ m ∧ (m : ℚ) * 2 ^ q = 10 ^ e := by
  have hpowers : ∀ e : Fin 23, isPowerOfTen e.val
      (getElem Float.exactlyRepresentablePowersOfTen e.val e.isLt) = true := by decide
  have h := hpowers ⟨e, he⟩
  unfold isPowerOfTen at h
  split at h
  next m q hpower =>
    obtain ⟨hfull, hvalue⟩ := (Bool.and_eq_true _ _).mp h
    have hfull := of_decide_eq_true hfull
    have hvalue : (m : ℚ) * 2 ^ q.toNat = 10 ^ e * 2 ^ (-q).toNat := by
      exact_mod_cast beq_iff_eq.mp hvalue
    have hm : 0 < m := by omega
    refine ⟨m, q, hm, (unpack_of_parts hpower).trans (dif_pos hm), hfull, ?_⟩
    rw [← zpow_mul_pow_toNat (by norm_num), ← mul_assoc] at hvalue
    exact mul_right_cancel₀ (by positivity) hvalue
  next => cases h

/-! ## Decimals -/

theorem ofScientific_natCast (hn : 0 < n) (he : e ≤ 2048) :
    UnpackedFloat.ofScientific Format.binary64 n e =
      .mul Format.binary64 (.finite .positive (n <<< 53) (-53) (Nat.shiftLeft_pos_iff.mpr hn))
        (.finite .positive (10 ^ e) 0 (Nat.pow_pos (by decide))) := by
  have hbig : ¬(e : Int) > 2 ^ Format.binary64.exponentBits := by
    change ¬((e : Int) > 2048)
    omega
  have hsmall : ¬(e : Int) < -(2 ^ Format.binary64.exponentBits + n.log2) := by
    change ¬((e : Int) < -(2048 + n.log2))
    omega
  rw [UnpackedFloat.ofScientific, dif_neg hn.ne', if_neg hbig, if_neg hsmall,
    if_pos (Int.natCast_nonneg e)]
  rfl

theorem ofScientific_neg (hn : 0 < n) (hpos : 0 < e) (he : e ≤ 2048 + n.log2) :
    UnpackedFloat.ofScientific Format.binary64 n (-e) =
      .div Format.binary64 (.finite .positive n 0 hn)
        (.finite .positive (10 ^ e) 0 (Nat.pow_pos (by decide))) := by
  have hbig : ¬-(e : Int) > 2 ^ Format.binary64.exponentBits := by
    change ¬(-(e : Int) > 2048)
    omega
  have hsmall : ¬-(e : Int) < -(2 ^ Format.binary64.exponentBits + n.log2) := by
    change ¬(-(e : Int) < -(2048 + n.log2))
    omega
  rw [UnpackedFloat.ofScientific, dif_neg hn.ne', if_neg hbig, if_neg hsmall, if_neg (by omega)]
  simp only [neg_neg, Int.toNat_natCast]

/-- Digits before a power of ten are multiplied by it. -/
theorem ofScientific_mul (hn : 0 < n) (he : e ≤ 2048) : ∃ m₁ q₁ h₁ m₂ q₂ h₂,
    Float.ofScientific n false e = .ofModel (.pack (.mul Format.binary64
      (.finite .positive m₁ q₁ h₁) (.finite .positive m₂ q₂ h₂))) ∧
    2 ^ 52 ≤ m₁ * m₂ ∧ (m₁ : ℚ) * 2 ^ q₁ * (m₂ * 2 ^ q₂) = n * 10 ^ e := by
  rw [Float.ofScientific]
  split
  next hexact =>
    obtain ⟨m₁, q₁, h₁, hunpack₁, hfull₁, hvalue₁⟩ := unpack_toFloat hn hexact.1
    obtain ⟨m₂, q₂, h₂, hunpack₂, -, hvalue₂⟩ := unpack_powerOfTen (Nat.lt_succ_of_le hexact.2)
    refine ⟨m₁, q₁, h₁, m₂, q₂, h₂, ?_, ?_, ?_⟩
    · rw [← hunpack₁, ← hunpack₂]
      rfl
    · exact hfull₁.trans (Nat.le_mul_of_pos_right m₁ h₂)
    · rw [hvalue₁, hvalue₂]
  next =>
    have hfull : 2 ^ 52 ≤ n <<< 53 * 10 ^ e := by
      have hten : 0 < 10 ^ e := by positivity
      rw [Nat.shiftLeft_eq]
      nlinarith
    refine ⟨n <<< 53, -53, Nat.shiftLeft_pos_iff.mpr hn, 10 ^ e, 0, by positivity, ?_, hfull, ?_⟩
    · exact congrArg (fun u => Float.ofModel (.pack u)) (ofScientific_natCast hn he)
    · rw [Nat.shiftLeft_eq, zpow_neg]
      push_cast
      field_simp

/-- Digits behind the point are divided by a power of ten. -/
theorem ofScientific_div (hn : 0 < n) (hpos : 0 < e) (he : e ≤ 2048 + n.log2) :
    ∃ m₁ q₁ h₁ m₂ q₂ h₂,
    Float.ofScientific n true e = .ofModel (.pack (.div Format.binary64 (.finite .positive m₁ q₁ h₁)
      (.finite .positive m₂ q₂ h₂))) ∧
    (m₁ : ℚ) * 2 ^ q₁ / (m₂ * 2 ^ q₂) = n / 10 ^ e := by
  rw [Float.ofScientific]
  split
  next hexact =>
    obtain ⟨m₁, q₁, h₁, hunpack₁, -, hvalue₁⟩ := unpack_toFloat hn hexact.1
    obtain ⟨m₂, q₂, h₂, hunpack₂, -, hvalue₂⟩ := unpack_powerOfTen (Nat.lt_succ_of_le hexact.2)
    refine ⟨m₁, q₁, h₁, m₂, q₂, h₂, ?_, ?_⟩
    · rw [← hunpack₁, ← hunpack₂]
      rfl
    · rw [hvalue₁, hvalue₂]
  next =>
    refine ⟨n, 0, hn, 10 ^ e, 0, by positivity, ?_, by push_cast; simp⟩
    rw [if_pos rfl, Int.negOfNat_eq]
    exact congrArg (fun u => Float.ofModel (.pack u)) (ofScientific_neg hn hpos he)

/-! ## Read decimals -/

/-- The guards against exponents out of range, for a number that is not zero. -/
theorem ofDecimal_eq (hn : 0 < n) (k : Int) : ofDecimal n k =
    if (digitCount n : Int) + k > 310 then 1.0 / 0.0
    else if (digitCount n : Int) + k < -330 then 0.0
    else if k < 0 then Float.ofScientific n true (-k).toNat
    else Float.ofScientific n false k.toNat := by
  rw [ofDecimal, if_neg (by simpa using hn.ne')]

theorem digitCount_pos (n : Nat) : 0 < digitCount n := List.length_pos_iff.mpr Nat.toDigits_ne_nil

theorem lt_pow_digitCount (n : Nat) : n < 10 ^ digitCount n :=
  (Nat.length_toDigits_le_iff (by decide) (digitCount_pos n)).mp le_rfl

theorem pow_digitCount_le (hn : 0 < n) : 10 ^ (digitCount n - 1) ≤ n := by
  by_contra h
  rcases Nat.eq_zero_or_pos (digitCount n - 1) with hzero | hpos
  · rw [hzero] at h
    omega
  · have hle := (Nat.length_toDigits_le_iff (by decide) hpos).mpr (Nat.lt_of_not_le h)
    rw [← digitCount] at hle
    omega

theorem digitCount_le_log2 (n : Nat) : digitCount n ≤ n.log2 + 1 := by
  rw [digitCount, Nat.length_toDigits_le_iff (by decide) (Nat.succ_pos _)]
  exact Nat.lt_log2_self.trans_le (Nat.pow_le_pow_left (by decide) _)

theorem nonneg_round (n : Nat) (q : Int) (a : Accuracy) :
    Nonneg (roundWithAccuracy Format.binary64 .positive n q a) := by
  unfold roundWithAccuracy
  dsimp only
  split <;> rfl

/-- A decimal is read as a number that is not below zero, if not as infinity. -/
theorem parts_ofDecimal (n : Nat) (k : Int) :
    (∃ m q, parts (ofDecimal n k) = .finite false m q) ∨
      parts (ofDecimal n k) = .infinite false := by
  have hinfinite : parts (1.0 / 0.0) = .infinite false := rfl
  rcases Nat.eq_zero_or_pos n with rfl | hn
  · exact .inl ⟨0, -1074, parts_zero⟩
  · rw [ofDecimal_eq hn]
    have hlog := digitCount_le_log2 n
    split_ifs with hbig hsmall hneg
    · exact .inr hinfinite
    · exact .inl ⟨0, -1074, parts_zero⟩
    · obtain ⟨m₁, q₁, h₁, m₂, q₂, h₂, hdiv, -⟩ :=
        ofScientific_div hn (e := (-k).toNat) (by omega) (by omega)
      rw [hdiv]
      exact (nonneg_round _ _ _).parts
    · obtain ⟨m₁, q₁, h₁, m₂, q₂, h₂, hmul, -⟩ := ofScientific_mul hn (e := k.toNat) (by omega)
      rw [hmul]
      exact (nonneg_round _ _ _).parts

theorem ten_zpow_le : (10 : ℚ) ^ (-330 : Int) ≤ 2 ^ (-1075 : Int) := by
  have h : (2 : ℚ) ^ 1075 ≤ 10 ^ 330 := by
    calc (2 : ℚ) ^ 1075 ≤ 2 ^ (33 * 33) := pow_le_pow_right₀ (by norm_num) (by norm_num)
      _ = (2 ^ 33) ^ 33 := pow_mul ..
      _ ≤ (10 ^ 10) ^ 33 := pow_le_pow_left₀ (by positivity) (by norm_num) _
      _ = 10 ^ 330 := (pow_mul ..).symm
  rw [zpow_neg, zpow_neg]
  exact inv_anti₀ (by positivity) h

theorem lt_ten_zpow : (2 : ℚ) ^ (1024 : Int) < 10 ^ (310 : Int) := by
  have h : (2 : ℚ) ^ 1024 < 10 ^ 310 := by
    calc (2 : ℚ) ^ 1024 < 2 ^ (205 * 5) := pow_lt_pow_right₀ (by norm_num) (by norm_num)
      _ = (2 ^ 205) ^ 5 := pow_mul ..
      _ ≤ (10 ^ 62) ^ 5 := pow_le_pow_left₀ (by positivity) (by norm_num) _
      _ = 10 ^ 310 := (pow_mul ..).symm
  exact_mod_cast h

/-- The powers of ten around a double. -/
theorem Near.bounds {v : ℚ} (hc : Canonical m q) (h : Near m q v) :
    (10 : ℚ) ^ (-330 : Int) ≤ v ∧ v < 10 ^ (310 : Int) := by
  have hleast := hc.least
  have hfits := hc.fits
  have hgap := gap_le m q
  have hlow : ((2 ^ 1 : ℕ) : ℚ) ≤ (4 * m - gap m q : ℕ) := by
    have := hc.pos
    exact_mod_cast (by omega : 2 ≤ 4 * m - gap m q)
  have hhigh : ((4 * m + 2 : ℕ) : ℚ) ≤ (2 ^ 55 : ℕ) := by
    have := hc.lt
    exact_mod_cast (by omega : 4 * m + 2 ≤ 2 ^ 55)
  have hunit : (2 : ℚ) ^ (-1076 : Int) ≤ 2 ^ (q - 2) := zpow_le_zpow_right₀ (by norm_num) (by omega)
  have hunit' : (2 : ℚ) ^ (q - 2) ≤ 2 ^ (969 : Int) := zpow_le_zpow_right₀ (by norm_num) (by omega)
  constructor
  · calc (10 : ℚ) ^ (-330 : Int) ≤ 2 ^ (-1076 + (1 : ℕ) : Int) := ten_zpow_le
      _ = (2 ^ 1 : ℕ) * 2 ^ (-1076 : Int) := by rw [two_zpow_add, Nat.cast_pow, Nat.cast_ofNat]
      _ ≤ (4 * m - gap m q : ℕ) * 2 ^ (q - 2) :=
        mul_le_mul hlow hunit (by positivity) (by positivity)
      _ ≤ v := h.low
  · calc v ≤ (4 * m + 2 : ℕ) * 2 ^ (q - 2) := h.high
      _ ≤ (2 ^ 55 : ℕ) * 2 ^ (969 : Int) := mul_le_mul hhigh hunit' (by positivity) (by positivity)
      _ = 2 ^ (969 + (55 : ℕ) : Int) := by rw [two_zpow_add, Nat.cast_pow, Nat.cast_ofNat]
      _ < 10 ^ (310 : Int) := lt_ten_zpow

/-- A decimal next to a positive double is not zero. -/
theorem Near.digits_pos {k : Int} (hc : Canonical m q) (h : Near m q (n * 10 ^ k)) : 0 < n := by
  rw [Nat.pos_iff_ne_zero]
  rintro rfl
  have hbound := (h.bounds hc).1
  rw [Nat.cast_zero, zero_mul, ← not_lt] at hbound
  exact hbound (by positivity)

/-- **A decimal next to a double is read as the double.** -/
theorem ofDecimal_of_near {x : Float} {k : Int} (hx : parts x = .finite false m q) (hm : 0 < m)
    (hnear : Near m q (n * 10 ^ k)) : ofDecimal n k = x := by
  have hc := canonical_of_parts hx hm
  have hn := hnear.digits_pos hc
  have hdigits := digitCount_pos n
  have hlog := digitCount_le_log2 n
  have hpack : Float.ofModel (.pack (.finite .positive m q hm)) = x := by
    rw [← (unpack_of_parts hx).trans (dif_pos hm)]
    exact pack_unpack_toModel x
  obtain ⟨hlow, hhigh⟩ := hnear.bounds hc
  -- What lies next to a double is not so large or small that the guards answer for it.
  have hupper : (digitCount n : Int) + k ≤ 310 := by
    have hle : ((10 ^ (digitCount n - 1) : ℕ) : ℚ) ≤ n := by exact_mod_cast pow_digitCount_le hn
    have hlt : (10 : ℚ) ^ ((digitCount n - 1 : ℕ) + k) < 10 ^ (310 : Int) := by
      calc (10 : ℚ) ^ ((digitCount n - 1 : ℕ) + k) = (10 ^ (digitCount n - 1) : ℕ) * 10 ^ k := by
            rw [zpow_add₀ (by norm_num), zpow_natCast]
            push_cast
            rfl
        _ ≤ n * 10 ^ k := by gcongr
        _ < 10 ^ (310 : Int) := hhigh
    have := (zpow_lt_zpow_iff_right₀ (by norm_num)).mp hlt
    omega
  have hlower : -330 ≤ (digitCount n : Int) + k := by
    have hle : (n : ℚ) ≤ (10 ^ digitCount n : ℕ) := by exact_mod_cast (lt_pow_digitCount n).le
    have hle' : (10 : ℚ) ^ (-330 : Int) ≤ 10 ^ (digitCount n + k) := by
      calc (10 : ℚ) ^ (-330 : Int) ≤ n * 10 ^ k := hlow
        _ ≤ (10 ^ digitCount n : ℕ) * 10 ^ k := by gcongr
        _ = 10 ^ (digitCount n + k) := by
          rw [zpow_add₀ (by norm_num), zpow_natCast]
          push_cast
          rfl
    exact (zpow_le_zpow_iff_right₀ (by norm_num)).mp hle'
  rw [ofDecimal_eq hn, if_neg (by omega), if_neg (by omega)]
  split_ifs with hneg
  · obtain ⟨m₁, q₁, h₁, m₂, q₂, h₂, hdiv, hvalue⟩ :=
      ofScientific_div hn (e := (-k).toNat) (by omega) (by omega)
    have hpower : (n : ℚ) * 10 ^ k = n / 10 ^ (-k).toNat := by
      rw [← zpow_natCast, div_eq_mul_inv, ← zpow_neg, show -((-k).toNat : Int) = k by omega]
    rw [hdiv, div_of_near h₁ h₂ hc (by rwa [hvalue, ← hpower]), hpack]
  · obtain ⟨m₁, q₁, h₁, m₂, q₂, h₂, hmul, hfull, hvalue⟩ :=
      ofScientific_mul hn (e := k.toNat) (by omega)
    have hpower : (n : ℚ) * 10 ^ k = n * 10 ^ k.toNat := by
      rw [← zpow_natCast, show (k.toNat : Int) = k by omega]
    rw [hmul, mul_of_near h₁ h₂ hc hfull (by rwa [hvalue, ← hpower]), hpack]

end LiveJson.Decimal
