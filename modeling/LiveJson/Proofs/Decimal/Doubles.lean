import LiveJson.Proofs.Decimal.Rounding

/-! # The parts of a double

The bits of a double hold its sign, its exponent and its fraction. A double is the packed form of
its parts, and a number that is packed keeps its sign. -/

namespace LiveJson.Decimal

open Float.Model (Format UnpackedFloat)
open Float.Model.UnpackedFloat

variable {negative : Bool} {m : Nat} {q : Int}

/-- The parts of a number that is not packed. -/
def Parts.ofUnpacked : UnpackedFloat → Parts
  | .notANumber => .nan
  | .infinity s => .infinite (s == .negative)
  | .zero s => .finite (s == .negative) 0 (-1074)
  | .finite s m q _ => .finite (s == .negative) m q

/-! ## Bits -/

section Bits

variable (s : Sign) (e : BitVec Format.binary64.exponentBits)
  (f : BitVec Format.binary64.mantissaBitsWithoutImplicit)

theorem toNat_packComponents :
    (packComponents Format.binary64 s e f).toNat =
      (if s == .negative then 1 else 0) * 2 ^ 63 + e.toNat * 2 ^ 52 + f.toNat := by
  have he : e.toNat < 2 ^ 11 := e.isLt
  have hf : f.toNat < 2 ^ 52 := f.isLt
  rw [packComponents, BitVec.toNat_append, BitVec.toNat_append, ← Nat.shiftLeft_add_eq_or_of_lt hf,
    ← Nat.shiftLeft_add_eq_or_of_lt he]
  simp only [Nat.shiftLeft_eq]
  cases s
  · simp [Sign.toBitVec]
    omega
  · simp [Sign.toBitVec]

theorem unpack_packComponents :
    Parts.ofUnpacked (unpack Format.binary64 (packComponents Format.binary64 s e f)) =
      if e.toNat = 2047 then if f.toNat = 0 then .infinite (s == .negative) else .nan
      else if e.toNat = 0 then .finite (s == .negative) f.toNat (-1074)
      else .finite (s == .negative) (2 ^ 52 + f.toNat) (e.toNat - 1075) := by
  have hinfinite : (e = -BitVec.ofNat Format.binary64.exponentBits 1) ↔ e.toNat = 2047 :=
    BitVec.toNat_inj.symm
  have hleast : (e = BitVec.ofNat Format.binary64.exponentBits 0) ↔ e.toNat = 0 :=
    BitVec.toNat_inj.symm
  have hzero : (f = BitVec.ofNat Format.binary64.mantissaBitsWithoutImplicit 0) ↔ f.toNat = 0 :=
    BitVec.toNat_inj.symm
  have happend : (BitVec.ofNat 1 1 ++ f).toNat = 2 ^ 52 + f.toNat := by
    rw [BitVec.toNat_append, ← Nat.shiftLeft_add_eq_or_of_lt f.isLt, Nat.shiftLeft_eq]
    rfl
  simp only [unpack, unpackExponent_packComponents, unpackMantissa_packComponents,
    unpackSign_packComponents, Sign.ofBitVec_toBitVec, hinfinite, hleast, hzero]
  split_ifs with h₁ h₂ h₃ h₄
  · rfl
  · rfl
  · simp [Parts.ofUnpacked, h₄]
  · simp only [Parts.ofUnpacked, h₃]
    rfl
  · simp only [Parts.ofUnpacked, happend]
    rfl

theorem ofBits_packComponents :
    Parts.ofBits (packComponents Format.binary64 s e f).toNat =
      .ofUnpacked (unpack Format.binary64 (packComponents Format.binary64 s e f)) := by
  have he : e.toNat < 2 ^ 11 := e.isLt
  have hf : f.toNat < 2 ^ 52 := f.isLt
  rw [unpack_packComponents, toNat_packComponents, Parts.ofBits]
  generalize e.toNat = e' at *
  generalize f.toNat = f' at *
  generalize hs : (if s == .negative then 1 else 0) = b
  have hb : b < 2 := by rw [← hs]; split <;> decide
  have hparts : (b * 2 ^ 63 + e' * 2 ^ 52 + f') / Nat.pow 2 63 % 2 = b ∧
      (b * 2 ^ 63 + e' * 2 ^ 52 + f') / Nat.pow 2 52 % Nat.pow 2 11 = e' ∧
      (b * 2 ^ 63 + e' * 2 ^ 52 + f') % Nat.pow 2 52 = f' := by
    simp only [Nat.pow_eq]
    refine ⟨?_, ?_, ?_⟩ <;> omega
  have hnegative : (b == 1) = (s == .negative) := by rw [← hs]; cases s <;> rfl
  simp only [hparts, hnegative, beq_iff_eq, Nat.pow_eq]

end Bits

/-- The parts of a double are those of the number that is packed in its bits. -/
theorem parts_eq_ofUnpacked (x : Float) : parts x = .ofUnpacked x.toModel.unpack := by
  have h := ofBits_packComponents (.ofBitVec (@unpackSign Format.binary64 x.toBits.toBitVec))
    (@unpackExponent Format.binary64 x.toBits.toBitVec)
    (@unpackMantissa Format.binary64 x.toBits.toBitVec)
  rw [packComponents_unpackSign_unpackExponent_unpackMantissa] at h
  exact h

/-- Packing what a double unpacks to gives the double. -/
theorem pack_unpack_toModel (x : Float) : Float.ofModel (.pack x.toModel.unpack) = x :=
  Float.ofBits_toBits x

theorem eq_positive {s : Sign} (h : (s == .negative) = false) : s = .positive := by
  cases s with
  | negative => cases h
  | positive => rfl

/-- A finite double without a sign, as it is unpacked. -/
theorem unpack_of_parts {x : Float} (hx : parts x = .finite false m q) :
    x.toModel.unpack = if hm : 0 < m then .finite .positive m q hm else .zero .positive := by
  rw [parts_eq_ofUnpacked] at hx
  cases hunpack : x.toModel.unpack with
  | notANumber => rw [hunpack] at hx; cases hx
  | infinity s => rw [hunpack] at hx; cases hx
  | zero s =>
    rw [hunpack] at hx
    obtain ⟨hs, rfl, -⟩ := Parts.finite.inj hx
    rw [eq_positive hs, dif_neg (Nat.lt_irrefl 0)]
  | finite s n r hpos =>
    rw [hunpack] at hx
    obtain ⟨hs, rfl, rfl⟩ := Parts.finite.inj hx
    obtain rfl := eq_positive hs
    rw [dif_pos hpos]

theorem parts_zero : parts 0.0 = .finite false 0 (-1074) := rfl

/-- The mantissa and the exponent of a double are canonical. -/
theorem canonical_of_parts {x : Float} (hx : parts x = .finite negative m q) (hm : 0 < m) :
    Canonical m q := by
  have hfraction := Nat.mod_lt x.toBits.toNat (show 0 < 2 ^ 52 by decide)
  have hexponent := Nat.mod_lt (x.toBits.toNat / 2 ^ 52) (show 0 < 2 ^ 11 by decide)
  simp only [parts, Parts.ofBits, Nat.pow_eq, beq_iff_eq] at hx
  generalize x.toBits.toNat % 2 ^ 52 = f at *
  generalize x.toBits.toNat / 2 ^ 52 % 2 ^ 11 = e at *
  split_ifs at hx with h₁ h₂ h₃
  · obtain ⟨rfl, rfl⟩ : f = m ∧ -1074 = q := (Parts.finite.inj hx).2
    exact ⟨hm, by omega, by omega, .inr rfl, by omega⟩
  · obtain ⟨rfl, rfl⟩ : 2 ^ 52 + f = m ∧ (e : Int) - 1075 = q := (Parts.finite.inj hx).2
    exact ⟨hm, by omega, by omega, .inl (by omega), by omega⟩

/-! ## Packing -/

/-- A number that is not below zero. -/
def Nonneg : UnpackedFloat → Prop
  | .notANumber => False
  | .infinity s | .zero s | .finite s _ _ _ => s = .positive

/-- The parts of a number that is packed without a sign. -/
theorem parts_ofModel_pack {u : UnpackedFloat} {e : BitVec Format.binary64.exponentBits}
    {f : BitVec Format.binary64.mantissaBitsWithoutImplicit}
    (hu : u.pack Format.binary64 = packComponents Format.binary64 .positive e f) :
    parts (.ofModel (.pack u)) =
      if e.toNat = 2047 then if f.toNat = 0 then .infinite false else .nan
      else if e.toNat = 0 then .finite false f.toNat (-1074)
      else .finite false (2 ^ 52 + f.toNat) (e.toNat - 1075) := by
  change Parts.ofBits (u.pack Format.binary64).toNat = _
  rw [hu, ofBits_packComponents, unpack_packComponents]
  rfl

theorem Nonneg.pack {u : UnpackedFloat} (hu : Nonneg u) : ∃ e f, (e.toNat = 2047 → f.toNat = 0) ∧
    u.pack Format.binary64 = packComponents Format.binary64 .positive e f := by
  cases u with
  | notANumber => exact hu.elim
  | infinity s =>
    obtain rfl : s = .positive := hu
    exact ⟨_, _, fun _ => rfl, rfl⟩
  | zero s =>
    obtain rfl : s = .positive := hu
    exact ⟨_, _, fun _ => rfl, rfl⟩
  | finite s m q hm =>
    obtain rfl : s = .positive := hu
    simp only [UnpackedFloat.pack]
    split_ifs with hbig
    · exact ⟨_, _, fun _ => rfl, rfl⟩
    · refine ⟨_, _, fun he => ?_, rfl⟩
      rw [BitVec.toNat_ofNat] at he
      have hmod := Nat.mod_le
        (q + Format.binary64.exponentBias +
          Format.binary64.mantissaBitsWithoutImplicit).toNat (2 ^ 11)
      exact absurd hbig (by simp only [Format.binary64] at *; omega)
    · exact ⟨_, _, fun he => absurd he (by decide), rfl⟩

/-- What is packed without a sign has none. -/
theorem Nonneg.parts {u : UnpackedFloat} (hu : Nonneg u) :
    (∃ m q, parts (.ofModel (.pack u)) = .finite false m q) ∨
      parts (.ofModel (.pack u)) = .infinite false := by
  obtain ⟨e, f, hinfinite, hpack⟩ := hu.pack
  rw [parts_ofModel_pack hpack]
  split_ifs with h₁ h₂ h₃
  · exact .inr rfl
  · exact absurd (hinfinite h₁) h₂
  · exact .inl ⟨_, _, rfl⟩
  · exact .inl ⟨_, _, rfl⟩

/-- A number whose mantissa is full is unpacked as it was packed. -/
theorem unpack_pack_of_full (hm : 0 < m) (hfull : 2 ^ 52 ≤ m) (hlt : m < 2 ^ 53)
    (hleast : -1074 ≤ q) (hfits : q ≤ 971) :
    (Float.Model.pack (.finite .positive m q hm)).unpack = .finite .positive m q hm := by
  have hlog : m.log2 = 52 := (Nat.log2_eq_iff hm.ne').mpr ⟨hfull, hlt⟩
  have hpack : (UnpackedFloat.finite .positive m q hm).pack Format.binary64 =
      packComponents Format.binary64 .positive (.ofNat 11 (q + 1075).toNat) (.ofNat 52 m) := by
    have hbiased :
        (q + Format.binary64.exponentBias + Format.binary64.mantissaBitsWithoutImplicit).toNat =
        (q + 1075).toNat := by
      change (q + 1023 + 52).toNat = _
      omega
    simp only [UnpackedFloat.pack, hbiased]
    rw [if_neg (by omega), if_pos (by rw [hlog]; rfl)]
  have hparts := parts_ofModel_pack hpack
  have he : (BitVec.ofNat 11 (q + 1075).toNat).toNat = (q + 1075).toNat := by
    rw [BitVec.toNat_ofNat]
    omega
  have hf : (BitVec.ofNat 52 m).toNat = m - 2 ^ 52 := by
    rw [BitVec.toNat_ofNat]
    omega
  simp only [Format.binary64, he, hf] at hparts
  rw [if_neg (by omega), if_neg (by omega)] at hparts
  have hcanonical : parts _ = .finite false m q :=
    hparts.trans (congrArg₂ (Parts.finite false) (by omega) (by omega))
  exact (unpack_of_parts hcanonical).trans (dif_pos hm)

end LiveJson.Decimal
