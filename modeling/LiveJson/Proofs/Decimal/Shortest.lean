import LiveJson.Decimal.Shortest
import LiveJson.Proofs.Decimal.Nearest

/-! # The shortest decimal

The interval of a double holds the decimals next to it. A grid with seventeen digits is finer than
the interval is wide, so the search for a decimal in the interval has a hit. -/

namespace LiveJson.Decimal

variable {a m c d num den : Nat} {q k : Int} {tie : Tie}

/-! ## The interval -/

/-- The factor that makes the ends of the interval and a point of the grid natural numbers. -/
def scale (q k : Int) : ℚ := 2 ^ (2 - q).toNat * 10 ^ (-k).toNat

theorem scale_pos (q k : Int) : 0 < scale q k := by
  unfold scale
  positivity

theorem scaled_end (a : Nat) (q k : Int) :
    ((a * Nat.pow 2 (q - 2).toNat * Nat.pow 10 (-k).toNat : ℕ) : ℚ) =
      a * 2 ^ (q - 2) * scale q k := by
  have hpow := zpow_mul_pow_toNat (b := 2) (by norm_num) (q - 2)
  rw [neg_sub] at hpow
  simp only [Nat.pow_eq]
  push_cast
  rw [scale, ← hpow]
  ring

theorem scaled_point (c : Nat) (q k : Int) :
    ((c * Nat.pow 10 k.toNat * Nat.pow 2 (2 - q).toNat : ℕ) : ℚ) = c * 10 ^ k * scale q k := by
  simp only [Nat.pow_eq]
  push_cast
  rw [scale, ← zpow_mul_pow_toNat (b := 10) (by norm_num) k]
  ring

theorem end_le_point_iff :
    a * Nat.pow 2 (q - 2).toNat * Nat.pow 10 (-k).toNat ≤
        c * Nat.pow 10 k.toNat * Nat.pow 2 (2 - q).toNat ↔
      (a : ℚ) * 2 ^ (q - 2) ≤ c * 10 ^ k := by
  rw [← @Nat.cast_le ℚ, scaled_end, scaled_point, mul_le_mul_iff_left₀ (scale_pos q k)]

theorem point_le_end_iff :
    c * Nat.pow 10 k.toNat * Nat.pow 2 (2 - q).toNat ≤
        a * Nat.pow 2 (q - 2).toNat * Nat.pow 10 (-k).toNat ↔
      (c : ℚ) * 10 ^ k ≤ a * 2 ^ (q - 2) := by
  rw [← @Nat.cast_le ℚ, scaled_end, scaled_point, mul_le_mul_iff_left₀ (scale_pos q k)]

/-- The interval of a double holds the decimals next to the double. -/
theorem holds_around_iff : (Interval.around m q).holds c k = true ↔ Near m q (c * 10 ^ k) := by
  have hgap : (if m == Nat.pow 2 52 && q > -1074 then 1 else 2) = gap m q := by
    simp [gap, Nat.pow_eq]
  have hlow := @end_le_point_iff (4 * m - gap m q) c q k
  have hhigh := @point_le_end_iff (4 * m + 2) c q k
  have hlow' := not_congr (@point_le_end_iff (4 * m - gap m q) c q k)
  have hhigh' := not_congr (@end_le_point_iff (4 * m + 2) c q k)
  rw [not_le, not_le] at hlow' hhigh'
  simp only [Interval.holds, Interval.around, hgap]
  split
  next heven =>
    rw [Bool.and_eq_true, decide_eq_true_eq, decide_eq_true_eq, hlow, hhigh]
    have heven' : ¬m % 2 = 1 := by
      rw [beq_iff_eq] at heven
      omega
    exact ⟨fun h => ⟨h.1, h.2, fun hodd => absurd hodd heven'⟩, fun h => ⟨h.low, h.high⟩⟩
  next hodd =>
    rw [Bool.and_eq_true, decide_eq_true_eq, decide_eq_true_eq, hlow', hhigh']
    have hodd' : m % 2 = 1 := by
      rw [beq_iff_eq] at hodd
      omega
    exact ⟨fun h => ⟨h.1.le, h.2.le, fun _ => h⟩, fun h => h.odd hodd'⟩

/-! ## The search -/

/-- The multiple of the grid that is not above the value. -/
def Interval.below (i : Interval) (k : Int) : Nat :=
  i.value * Nat.pow 10 (-k).toNat / (i.den * Nat.pow 10 k.toNat)

/-- On a grid a neighbour of the value is found if the interval holds one. -/
theorem Interval.nearest?_spec (i : Interval) (tie : Tie) (k : Int) :
    (∃ d, i.nearest? tie k = some d ∧ i.holds d k = true) ∨
      i.nearest? tie k = none ∧ i.holds (i.below k) k = false ∧
        i.holds (i.below k + 1) k = false := by
  unfold nearest? below
  dsimp only
  split
  next hbelow habove => exact .inr ⟨rfl, hbelow, habove⟩
  next hbelow _ => exact .inl ⟨_, rfl, hbelow⟩
  next _ habove => exact .inl ⟨_, rfl, habove⟩
  next hbelow habove =>
    left
    split_ifs
    · exact ⟨_, rfl, hbelow⟩
    · exact ⟨_, rfl, habove⟩
    · cases tie with
      | away => exact ⟨_, rfl, habove⟩
      | even => exact ⟨_, rfl, hbelow⟩
    · cases tie with
      | away => exact ⟨_, rfl, habove⟩
      | even => exact ⟨_, rfl, habove⟩

/-- A decimal inside of the interval is next to the double. -/
theorem near_of_between {v : ℚ} (hlow : ((4 * m - gap m q : ℕ) : ℚ) * 2 ^ (q - 2) < v)
    (hhigh : v < ((4 * m + 2 : ℕ) : ℚ) * 2 ^ (q - 2)) : Near m q v :=
  ⟨hlow.le, hhigh.le, fun _ => ⟨hlow, hhigh⟩⟩

/-- A grid of seventeen digits has a point next to the double. -/
theorem near_of_fine (hc : Canonical m q) (hgrid : (10 : ℚ) ^ k * 10 ^ 16 ≤ m * 2 ^ q)
    (hbelow : (c : ℚ) * 10 ^ k ≤ m * 2 ^ q) (habove : m * 2 ^ q < ((c + 1 : ℕ) : ℚ) * 10 ^ k) :
    Near m q (c * 10 ^ k) ∨ Near m q (((c + 1 : ℕ) : ℚ) * 10 ^ k) := by
  have hlt := hc.lt
  have hunit : (0 : ℚ) < 2 ^ (q - 2) := by positivity
  have hpos := hc.pos
  have hgap := gap_le m q
  rw [value_eq m q] at hgrid hbelow habove
  by_contra hnone
  rw [not_or] at hnone
  obtain ⟨hnone, hnone'⟩ := hnone
  -- the neighbours are as far apart as the ends of the interval, which is too far
  have hlow : (c : ℚ) * 10 ^ k ≤ ((4 * m - gap m q : ℕ) : ℚ) * 2 ^ (q - 2) := by
    by_contra h
    refine hnone (near_of_between (not_le.mp h) (hbelow.trans_lt ?_))
    gcongr
    omega
  have hhigh : ((4 * m + 2 : ℕ) : ℚ) * 2 ^ (q - 2) ≤ ((c + 1 : ℕ) : ℚ) * 10 ^ k := by
    by_contra h
    refine hnone' (near_of_between (lt_of_le_of_lt ?_ habove) (not_le.mp h))
    gcongr
    omega
  have hstep : ((c + 1 : ℕ) : ℚ) * 10 ^ k = c * 10 ^ k + 10 ^ k := by
    push_cast
    ring
  have hwide : ((gap m q + 2 : ℕ) : ℚ) * 2 ^ (q - 2) ≤ 10 ^ k := by
    have hsub : ((4 * m - gap m q : ℕ) : ℚ) = (4 * m : ℕ) - gap m q := by
      rw [Nat.cast_sub (by omega)]
    rw [hsub] at hlow
    push_cast at *
    nlinarith
  have hsmall : (gap m q + 2) * 10 ^ 16 ≤ 4 * m := by
    have h : ((gap m q + 2 : ℕ) : ℚ) * 10 ^ 16 * 2 ^ (q - 2) ≤ (4 * m : ℕ) * 2 ^ (q - 2) := by
      nlinarith
    exact_mod_cast le_of_mul_le_mul_right h hunit
  unfold gap at hsmall
  split_ifs at hsmall <;> omega

/-- The power of ten of the leading digit is not above the number. -/
theorem leadingExponent_le (hnum : 0 < num) (hden : 0 < den) :
    (10 : ℚ) ^ leadingExponent num den ≤ num / den := by
  have hden' : (0 : ℚ) < den := by exact_mod_cast hden
  unfold leadingExponent
  split
  next hle =>
    have hpos : 0 < num / den := Nat.div_pos hle hden
    have hdigits := digitCount_pos (num / den)
    have hpow := pow_digitCount_le hpos
    rw [show (digitCount (num / den) : Int) - 1 = (digitCount (num / den) - 1 : ℕ) by omega,
      zpow_natCast]
    calc (10 : ℚ) ^ (digitCount (num / den) - 1) ≤ (num / den : ℕ) := by exact_mod_cast hpow
      _ ≤ num / den := Nat.cast_div_le
  next hlt =>
    dsimp only
    have hmul := Nat.div_add_mod' (den + num - 1) num
    have hmod := Nat.mod_lt (den + num - 1) hnum
    generalize (den + num - 1) / num = n at hmul ⊢
    have htwo : 2 ≤ n := by
      by_contra h
      have := Nat.mul_le_mul_right num (show n ≤ 1 by omega)
      omega
    have hc : n - 1 ≠ 0 := by omega
    have hle : den ≤ num * 10 ^ digitCount (n - 1) := by
      have hpow := lt_pow_digitCount (n - 1)
      have := Nat.mul_le_mul_left num (show n ≤ 10 ^ digitCount (n - 1) by omega)
      rw [Nat.mul_comm] at hmul
      omega
    rw [if_neg (by simpa using hc), zpow_neg, zpow_natCast, le_div_iff₀ hden',
      inv_mul_le_iff₀ (by positivity)]
    rw [mul_comm] at hle
    exact_mod_cast hle

/-- The value of the interval, as a quotient. -/
theorem around_value (m : Nat) (q : Int) :
    ((Interval.around m q).value : ℚ) / (Interval.around m q).den = m * 2 ^ q := by
  have hpow := zpow_mul_pow_toNat (b := 2) (by norm_num) (q - 2)
  rw [neg_sub] at hpow
  simp only [Interval.around, Nat.pow_eq]
  rw [value_eq m q]
  push_cast
  rw [div_eq_iff (by positivity), mul_assoc (4 * (m : ℚ)), hpow]

/-- The value lies between two neighbours on the grid. -/
theorem below_le (m : Nat) (q k : Int) :
    (((Interval.around m q).below k : ℕ) : ℚ) * 10 ^ k ≤ m * 2 ^ q ∧
      m * 2 ^ q < (((Interval.around m q).below k + 1 : ℕ) : ℚ) * 10 ^ k := by
  have hden : 0 < Nat.pow 2 (2 - q).toNat * Nat.pow 10 k.toNat := by
    simp only [Nat.pow_eq]
    positivity
  have hpoint : ∀ c, c * Nat.pow 10 k.toNat * Nat.pow 2 (2 - q).toNat =
      Nat.pow 2 (2 - q).toNat * Nat.pow 10 k.toNat * c := fun c => by ring
  rw [value_eq m q, ← not_le, ← point_le_end_iff, ← point_le_end_iff, hpoint, hpoint, not_le]
  exact ⟨Nat.mul_div_le _ _, Nat.lt_mul_div_succ _ hden⟩

/-- On the last grid the search has a hit. -/
theorem nearest?_last (tie : Tie) (hc : Canonical m q) :
    (Interval.around m q).nearest? tie
      (leadingExponent (Interval.around m q).value (Interval.around m q).den - 16) ≠ none := by
  have hpos := hc.pos
  have hvalue : 0 < (Interval.around m q).value := by
    simp only [Interval.around, Nat.pow_eq]
    positivity
  have hden : 0 < (Interval.around m q).den := by
    simp only [Interval.around, Nat.pow_eq]
    positivity
  have hlead := leadingExponent_le hvalue hden
  rw [around_value] at hlead
  generalize leadingExponent (Interval.around m q).value (Interval.around m q).den = lead at hlead ⊢
  have hgrid : (10 : ℚ) ^ (lead - 16) * 10 ^ 16 ≤ m * 2 ^ q := by
    rw [← zpow_natCast, ← zpow_add₀ (by norm_num), show lead - 16 + (16 : ℕ) = lead by omega]
    exact hlead
  intro hnone
  obtain ⟨d, hd, -⟩ | ⟨-, hbelow, habove⟩ := (Interval.around m q).nearest?_spec tie (lead - 16)
  · rw [hnone] at hd
    cases hd
  · rw [← Bool.not_eq_true, holds_around_iff] at hbelow habove
    obtain ⟨hle, hlt⟩ := below_le m q (lead - 16)
    exact (near_of_fine hc hgrid hle hlt).elim hbelow habove

/-- **The shortest decimal of a double lies next to it.** -/
theorem shortest_near (tie : Tie) (hc : Canonical m q) :
    ∃ d k, shortest tie m q = (d, k) ∧ Near m q (d * 10 ^ k) := by
  unfold shortest
  dsimp only
  split
  next hit hfound =>
    obtain ⟨k, -, hk⟩ := List.exists_of_findSome?_eq_some hfound
    obtain ⟨d, hd, rfl⟩ := Option.map_eq_some_iff.mp hk
    have hnear : Near m q (d * 10 ^ k) := by
      obtain ⟨d', hd', hholds⟩ | ⟨hnone, -, -⟩ := (Interval.around m q).nearest?_spec tie k
      · obtain rfl : d = d' := Option.some.inj (hd.symm.trans hd')
        exact holds_around_iff.mp hholds
      · rw [hnone] at hd
        cases hd
    exact ⟨d, k, rfl, hnear⟩
  next hnone =>
    rw [List.findSome?_eq_none_iff] at hnone
    exact absurd (Option.map_eq_none_iff.mp (hnone _ (List.mem_map.mpr ⟨16, by decide, rfl⟩)))
      (nearest?_last tie hc)

end LiveJson.Decimal
