import Mathlib
import Abacus.Proofs.Float.Rounding

/-!
# The fields of a finite float

A finite float is made of a sign, an exponent field below 2047 and a fraction below `2 ^ 52`, and is
determined by them (`exists_ofFields`). In terms of the fields it is plain what its negation is and
what `Dyadic.ofFloat` reads off, so what holds of a float with given fields holds of every finite
float. A float is the one that its own mantissa and exponent pack into (`eq_of_unpacked`).
-/
namespace Abacus.Floats

open Float.Model Float.Model.UnpackedFloat

/-! ## Packing fields -/

/-- The number with these fields. An exponent field of zero marks zero and the subnormal numbers. -/
def fromFields (s : Sign) (field fraction : Nat) : UnpackedFloat :=
  if field = 0 then
    if h : 0 < fraction then .finite s fraction (-1074) h else .zero s
  else
    .finite s (2 ^ 52 + fraction) ((field : Int) - 1075) (by omega)

/-- The float with these fields. -/
def ofFields (s : Sign) (field fraction : Nat) : Float :=
  .ofModel (.pack (fromFields s field fraction))

section
variable (s : Sign) {field fraction : Nat} (hfield : field < 2047) (hfraction : fraction < 2 ^ 52)

include hfraction in
theorem log2_normal : (2 ^ 52 + fraction).log2 = 52 := by
  rw [Nat.log2_eq_iff (by omega)]
  omega

include hfield hfraction

theorem pack_fromFields :
    UnpackedFloat.pack Format.binary64 (fromFields s field fraction) =
      packComponents Format.binary64 s (BitVec.ofNat 11 field) (BitVec.ofNat 52 fraction) := by
  unfold fromFields
  split
  next hzero =>
    split
    next hpos =>
      have hlog : fraction.log2 < 52 := (Nat.log2_lt (by omega)).mpr hfraction
      have hbits : ¬ fraction.log2 + 1 = Format.binary64.mantissaBits := by
        change ¬ fraction.log2 + 1 = 53
        omega
      simp only [UnpackedFloat.pack]
      rw [if_neg (by decide), if_neg hbits, hzero]
    next hpos =>
      obtain rfl : fraction = 0 := by omega
      rw [hzero]
      rfl
  next hpos =>
    rw [pack_normal _ (log2_normal hfraction) (by omega) (by omega)]
    congr 1
    · congr 1
      omega
    · apply BitVec.eq_of_toNat_eq
      rw [BitVec.toNat_ofNat, BitVec.toNat_ofNat]
      omega

theorem toNat_toBits_ofFields :
    (ofFields s field fraction).toBits.toNat =
      s.toBitVec.toNat * 2 ^ 63 + field * 2 ^ 52 + fraction := by
  change (UnpackedFloat.pack Format.binary64 _).toNat = _
  rw [pack_fromFields s hfield hfraction, toNat_packComponents]
  change (s.toBitVec.toNat * 2 ^ 11 + field % 2 ^ 11) * 2 ^ 52 + fraction % 2 ^ 52 = _
  omega

theorem unpack_ofFields :
    (ofFields s field fraction).toModel.unpack = fromFields s field fraction := by
  have hpack := pack_fromFields s hfield hfraction
  change UnpackedFloat.unpack Format.binary64 (UnpackedFloat.pack Format.binary64 _) = _
  by_cases hzero : field = 0
  · rw [hpack]
    unfold fromFields
    rw [if_pos hzero, hzero]
    unfold UnpackedFloat.unpack
    simp only [unpackExponent_packComponents, unpackMantissa_packComponents,
      unpackSign_packComponents, Sign.ofBitVec_toBitVec]
    rw [if_neg (by decide), if_pos trivial]
    have htoNat : (BitVec.ofNat 52 fraction).toNat = fraction := Nat.mod_eq_of_lt (by omega)
    by_cases hpos : 0 < fraction
    · have hne : ¬ BitVec.ofNat 52 fraction = 0#52 := by
        intro h
        have := congrArg BitVec.toNat h
        rw [htoNat] at this
        exact hpos.ne' this
      rw [dif_neg hne, dif_pos hpos]
      congr 1
    · obtain rfl : fraction = 0 := by omega
      rfl
  · have hnormal : fromFields s field fraction =
        .finite s (2 ^ 52 + fraction) ((field : Int) - 1075) (by omega) := if_neg hzero
    rw [hnormal]
    exact unpack_pack_normal _ (log2_normal hfraction) (by omega) (by omega) s

theorem isFinite_ofFields : (ofFields s field fraction).isFinite = true := by
  change (ofFields s field fraction).toModel.unpack.isFinite = true
  rw [unpack_ofFields s hfield hfraction]
  unfold fromFields
  split
  · split <;> rfl
  · rfl

theorem neg_ofFields : -ofFields s field fraction = ofFields (-s) field fraction := by
  change Float.ofModel (.pack (ofFields s field fraction).toModel.unpack.neg) = _
  rw [unpack_ofFields s hfield hfraction]
  unfold ofFields fromFields
  split
  · split <;> rfl
  · rfl

theorem ofFloat_ofFields :
    Dyadic.ofFloat (ofFields s field fraction) =
      { negative := s == .negative
        mantissa := if field = 0 then fraction else 2 ^ 52 + fraction
        exponent := (max field 1 : Nat) - 1075 } := by
  have hbits := toNat_toBits_ofFields s hfield hfraction
  have hsign : s.toBitVec.toNat = if s == .negative then 1 else 0 := by cases s <;> rfl
  have hfield' : (ofFields s field fraction).toBits.toNat / 2 ^ 52 % 2 ^ 11 = field := by
    rw [hbits, hsign]
    split <;> omega
  have hfraction' : (ofFields s field fraction).toBits.toNat % 2 ^ 52 = fraction := by
    rw [hbits, hsign]
    split <;> omega
  have hnegative : decide (2 ^ 63 ≤ (ofFields s field fraction).toBits.toNat) = (s == .negative) := by
    rw [hbits, hsign]
    cases s == .negative
    · exact decide_eq_false (by simp only [Bool.false_eq_true, if_false]; omega)
    · exact decide_eq_true (by simp only [if_true]; omega)
  simp only [Dyadic.ofFloat, Nat.pow_eq, hfield', hfraction', hnegative]

end

/-! ## Every finite float has fields -/

theorem exists_packComponents (b : BitVec 64) :
    ∃ s field fraction, field < 2 ^ 11 ∧ fraction < 2 ^ 52 ∧
      b = packComponents Format.binary64 s (BitVec.ofNat 11 field) (BitVec.ofNat 52 fraction) := by
  have hb := b.isLt
  refine ⟨if 2 ^ 63 ≤ b.toNat then .negative else .positive, b.toNat / 2 ^ 52 % 2 ^ 11,
    b.toNat % 2 ^ 52, Nat.mod_lt _ (by decide), Nat.mod_lt _ (by decide), ?_⟩
  apply BitVec.eq_of_toNat_eq
  rw [toNat_packComponents]
  split
  · change b.toNat = (1 * 2 ^ 11 + b.toNat / 2 ^ 52 % 2 ^ 11 % 2 ^ 11) * 2 ^ 52 +
      b.toNat % 2 ^ 52 % 2 ^ 52
    omega
  · change b.toNat = (0 * 2 ^ 11 + b.toNat / 2 ^ 52 % 2 ^ 11 % 2 ^ 11) * 2 ^ 52 +
      b.toNat % 2 ^ 52 % 2 ^ 52
    omega

theorem exists_ofFields {x : Float} (hx : x.isFinite = true) :
    ∃ s field fraction, field < 2047 ∧ fraction < 2 ^ 52 ∧ x = ofFields s field fraction := by
  obtain ⟨s, field, fraction, hfield, hfraction, hbits⟩ :=
    exists_packComponents x.toModel.toBits.toBitVec
  -- the greatest field is that of infinities and NaN
  have hlt : field ≠ 2047 := by
    rintro rfl
    change (UnpackedFloat.unpack Format.binary64 x.toModel.toBits.toBitVec).isFinite = true at hx
    rw [hbits] at hx
    unfold UnpackedFloat.unpack at hx
    simp only [unpackExponent_packComponents] at hx
    rw [if_pos (by decide)] at hx
    split at hx <;> cases hx
  refine ⟨s, field, fraction, by omega, hfraction, ?_⟩
  have hsame : x.toModel.toBits = (ofFields s field fraction).toModel.toBits := by
    apply UInt64.toBitVec_inj.mp
    rw [hbits]
    exact (pack_fromFields s (by omega) hfraction).symm
  obtain ⟨⟨bits, hvalid⟩⟩ := x
  simp only at hsame
  subst hsame
  rfl

/-! ## Mantissa and exponent -/

section
variable {x : Float} (hx : x.isFinite = true)
include hx

theorem canonical_ofFloat (hm : (Dyadic.ofFloat x).mantissa ≠ 0) :
    Canonical (Dyadic.ofFloat x).mantissa (Dyadic.ofFloat x).exponent := by
  obtain ⟨s, field, fraction, hfield, hfraction, rfl⟩ := exists_ofFields hx
  rw [ofFloat_ofFields s hfield hfraction] at hm ⊢
  dsimp only at hm ⊢
  by_cases hzero : field = 0
  · rw [if_pos hzero] at hm ⊢
    exact ⟨by omega, by omega, .inr (by omega), by omega, by omega⟩
  · rw [if_neg hzero] at hm ⊢
    exact ⟨by omega, by omega, .inl (by omega), by omega, by omega⟩

/-- A positive float is packed from its own mantissa and exponent. -/
theorem eq_pack_ofFloat (hpos : Decimal.isNegative x = false)
    (hm : 0 < (Dyadic.ofFloat x).mantissa) :
    x = .ofModel (.pack (.finite .positive _ (Dyadic.ofFloat x).exponent hm)) := by
  obtain ⟨s, field, fraction, hfield, hfraction, rfl⟩ := exists_ofFields hx
  have hparts := ofFloat_ofFields s hfield hfraction
  unfold Decimal.isNegative at hpos
  rw [hparts] at hpos
  revert hm
  rw [hparts]
  intro hm
  cases s with
  | negative => cases hpos
  | positive =>
    dsimp only at hm ⊢
    unfold ofFields fromFields
    by_cases hzero : field = 0
    · rw [if_pos hzero] at hm
      simp only [dif_pos hm, hzero]
      rfl
    · have hmax : max field 1 = field := by omega
      simp only [if_neg hzero, hmax]

/-- A float without a mantissa is zero. -/
theorem eq_zero_of_mantissa (hpos : Decimal.isNegative x = false)
    (hm : (Dyadic.ofFloat x).mantissa = 0) : x = 0 := by
  obtain ⟨s, field, fraction, hfield, hfraction, rfl⟩ := exists_ofFields hx
  have hparts := ofFloat_ofFields s hfield hfraction
  unfold Decimal.isNegative at hpos
  simp only [hparts] at hpos hm
  cases s with
  | negative => cases hpos
  | positive =>
    split at hm
    next hzero =>
      rw [hzero, hm]
      rfl
    next => omega

/-! ## Negation -/

theorem neg_neg_of_isFinite : - -x = x := by
  obtain ⟨s, field, fraction, hfield, hfraction, rfl⟩ := exists_ofFields hx
  rw [neg_ofFields s hfield hfraction, neg_ofFields (-s) hfield hfraction]
  cases s <;> rfl

theorem isFinite_neg : (-x).isFinite = true := by
  obtain ⟨s, field, fraction, hfield, hfraction, rfl⟩ := exists_ofFields hx
  rw [neg_ofFields s hfield hfraction]
  exact isFinite_ofFields (-s) hfield hfraction

/-- Negation changes the sign and nothing else. -/
theorem ofFloat_neg :
    Dyadic.ofFloat (-x) = { Dyadic.ofFloat x with negative := !(Dyadic.ofFloat x).negative } := by
  obtain ⟨s, field, fraction, hfield, hfraction, rfl⟩ := exists_ofFields hx
  rw [neg_ofFields s hfield hfraction, ofFloat_ofFields s hfield hfraction,
    ofFloat_ofFields (-s) hfield hfraction]
  cases s <;> rfl

end
end Abacus.Floats
