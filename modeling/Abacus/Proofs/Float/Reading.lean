import Mathlib
import Abacus.Decimal.Numeral
import Abacus.Proofs.Float.Fields

/-!
# Reading a decimal rounds once

`nearest` takes one of two ways: small numbers are turned into floats and multiplied or divided by a
power of ten that is a float itself, all others go through the exact quotient. Both round only once,
so a decimal of the interval of a float reads as that float (`nearest_eq`).
-/
namespace Abacus.Floats

open Float.Model Float.Model.UnpackedFloat

/-! ## The table of powers of ten -/

/-- Is this float, times a power of two that makes it whole, that power of ten? -/
def isPowerOfTen (k : Nat) (x : Float) : Bool :=
  match x.toModel.unpack with
  | .finite .positive m e _ =>
    m * 2 ^ e.toNat == 10 ^ k * 2 ^ (-e).toNat && Nat.ble (2 ^ 52) m
  | _ => false

/-- The table of powers of ten that are floats. -/
def powerOfTen (k : Nat) (hk : k < 23) : Float :=
  getElem Float.exactlyRepresentablePowersOfTen k hk

theorem isPowerOfTen_table (k : Fin 23) : isPowerOfTen k (powerOfTen k k.isLt) = true := by
  revert k
  decide

theorem unpack_powerOfTen {k : Nat} (hk : k < 23) :
    ∃ m e hm, (powerOfTen k hk).toModel.unpack = .finite .positive m e hm ∧
      2 ^ 52 ≤ m ∧ (m * 2 ^ e : ℚ) = 10 ^ k := by
  have h := isPowerOfTen_table ⟨k, hk⟩
  unfold isPowerOfTen at h
  split at h
  next m e hm heq =>
    obtain ⟨hvalue, hbits⟩ := Bool.and_eq_true_iff.mp h
    refine ⟨m, e, hm, heq, Nat.le_of_ble_eq_true hbits, ?_⟩
    have hvalue : (m * 2 ^ e.toNat : ℚ) = 10 ^ k * 2 ^ (-e).toNat := by
      exact_mod_cast eq_of_beq hvalue
    have hexponent : e = (e.toNat : Int) - (-e).toNat := by omega
    rw [hexponent, zpow_sub₀ (by norm_num), zpow_natCast, zpow_natCast, mul_div_assoc',
      div_eq_iff (by positivity)]
    exact hvalue
  next => cases h

theorem fullMantissa_value {n : Nat} (hlt : n < 2 ^ 53) :
    (fullMantissa n * 2 ^ ((n.log2 : Int) - 52) : ℚ) = n := by
  have hlog := log2_le hlt
  have hexponent : (n.log2 : Int) - 52 = -((52 - n.log2 : Nat) : Int) := by omega
  rw [fullMantissa, hexponent, zpow_neg, zpow_natCast]
  push_cast
  exact mul_inv_cancel_right₀ (by positivity) _

/-! ## Numbers that are rounded to a float -/

section
variable {x : ℚ} {n : Nat} {t : Int} (hnormal : Normal n t) (hround : RoundsTo x n t)
include hnormal hround

/-- Half of the least float is the least number that is not rounded to zero. -/
theorem RoundsTo.least : (2 : ℚ) ^ (-1075 : Int) ≤ x := by
  have hgap := gapBelow_le n t
  have hn : (1 : ℚ) ≤ n := by exact_mod_cast hnormal.pos
  have hstep : (2 : ℚ) ^ (-1074 : Int) ≤ 2 ^ t := zpow_le_zpow_right₀ (by norm_num) hnormal.min_le
  calc (2 : ℚ) ^ (-1075 : Int) = 1 / 2 * 2 ^ (-1074 : Int) := by
        rw [show (-1075 : Int) = -1 + -1074 by norm_num, zpow_add₀ (by norm_num)]
        norm_num
    _ ≤ (n - gapBelow n t) * 2 ^ t := by
        have := two_zpow_pos (-1074)
        nlinarith
    _ ≤ x := hround.low

theorem RoundsTo.pos : 0 < x :=
  (two_zpow_pos _).trans_le (hround.least hnormal)

end

section
variable {digits places n : Nat} {t : Int} (hnormal : Normal n t)
  (hround : RoundsTo (digits / 10 ^ places) n t)
include hnormal hround

theorem digits_pos : 0 < digits := by
  have hpos := hround.pos hnormal
  rw [Nat.pos_iff_ne_zero]
  rintro rfl
  simp at hpos

/-- A number that is not rounded to zero has only so many places behind the point. -/
theorem places_le : places ≤ digits.log2 + 1075 := by
  have hleast := hround.least hnormal
  rw [le_div_iff₀ (by positivity), zpow_neg, inv_mul_le_iff₀ (by positivity)] at hleast
  have hten : 10 ^ places ≤ 2 ^ 1075 * digits := by exact_mod_cast hleast
  have htwo : 2 ^ places < 2 ^ (digits.log2 + 1076) :=
    calc 2 ^ places ≤ 10 ^ places := Nat.pow_le_pow_left (by norm_num) _
      _ ≤ 2 ^ 1075 * digits := hten
      _ < 2 ^ 1075 * 2 ^ (digits.log2 + 1) :=
          Nat.mul_lt_mul_of_pos_left Nat.lt_log2_self (by positivity)
      _ = 2 ^ (digits.log2 + 1076) := by rw [← pow_add]; congr 1; omega
  have := (Nat.pow_lt_pow_iff_right (by norm_num)).mp htwo
  omega

/-! ## Both ways of reading -/

/-- A small number with few places is a quotient of two floats, or a product with one. -/
theorem ofScientific_small (hdigits : digits < 2 ^ 53) (hplaces : places < 23) :
    Float.ofScientific digits (decide (0 < places)) places =
      .ofModel (.pack (.finite .positive n t hnormal.pos)) := by
  have hpos := digits_pos hnormal hround
  have hvalue := fullMantissa_value hdigits
  obtain ⟨m, e, hm, hpower, hbits, hten⟩ := unpack_powerOfTen hplaces
  unfold Float.ofScientific
  rw [dif_pos ⟨hdigits, by omega⟩]
  dsimp only
  by_cases hzero : 0 < places
  · rw [if_pos (decide_eq_true hzero)]
    change Float.ofModel (.pack (UnpackedFloat.div Format.binary64 digits.toUInt64.toFloat.toModel.unpack
      (powerOfTen places hplaces).toModel.unpack)) = _
    rw [← hvalue, ← hten] at hround
    rw [unpack_toFloat hpos hdigits, hpower, div_eq _ _ _ _ hnormal hround]
    rfl
  · rw [if_neg (by simpa using hzero)]
    change Float.ofModel (.pack (UnpackedFloat.mul Format.binary64 digits.toUInt64.toFloat.toModel.unpack
      (powerOfTen places hplaces).toModel.unpack)) = _
    obtain rfl : places = 0 := by omega
    have hproduct : (digits / 10 ^ 0 : ℚ) = digits * 10 ^ 0 := by norm_num
    rw [hproduct, ← hvalue, ← hten] at hround
    have hfull : 2 ^ 52 ≤ fullMantissa digits * m :=
      hbits.trans (Nat.le_mul_of_pos_left m (fullMantissa_pos hpos))
    rw [unpack_toFloat hpos hdigits, hpower, mul_eq _ _ _ _ hnormal hfull hround]
    rfl

/-- Every other number is a quotient, or a product with one, without a bound on the operands. -/
theorem ofScientific_large :
    Float.Model.ofScientific digits (-(places : Int)) =
      .pack (.finite .positive n t hnormal.pos) := by
  have hpos := digits_pos hnormal hround
  have hplaces := places_le hnormal hround
  unfold Float.Model.ofScientific UnpackedFloat.ofScientific
  congr 1
  rw [dif_neg hpos.ne', if_neg (by change ¬ -(places : Int) > 2 ^ 11; omega),
    if_neg (by change ¬ -(places : Int) < -(2 ^ 11 + (digits.log2 : Int)); omega)]
  by_cases hzero : 0 < places
  · have hexponent : (-(-(places : Int))).toNat = places := by omega
    have hquotient : (digits / 10 ^ places : ℚ) =
        digits * 2 ^ (0 : Int) / ((10 ^ (-(-(places : Int))).toNat : Nat) * 2 ^ (0 : Int)) := by
      rw [hexponent]
      push_cast
      rw [mul_one, mul_one]
    rw [hquotient] at hround
    rw [if_neg (by omega), div_eq _ _ _ _ hnormal hround]
    rfl
  · obtain rfl : places = 0 := by omega
    have hproduct : (digits / 10 ^ 0 : ℚ) =
        (digits <<< Format.binary64.mantissaBits : Nat) *
          2 ^ (-(Format.binary64.mantissaBits : Int)) *
        ((10 ^ (-((0 : Nat) : Int)).toNat : Nat) * 2 ^ (0 : Int)) := by
      rw [Nat.shiftLeft_eq, zpow_neg, zpow_natCast]
      push_cast
      rw [mul_inv_cancel_right₀ (by positivity)]
      norm_num
    rw [hproduct] at hround
    have hfull : 2 ^ 52 ≤ digits <<< Format.binary64.mantissaBits * 10 ^ (-((0 : Nat) : Int)).toNat := by
      change 2 ^ 52 ≤ digits <<< 53 * 10 ^ 0
      rw [Nat.shiftLeft_eq]
      omega
    rw [if_pos (by omega), mul_eq _ _ _ _ hnormal hfull hround]
    rfl

end

/-- Reading a decimal, whichever way it goes, rounds it once. -/
theorem nearest_of_roundsTo {digits places n : Nat} {t : Int} (hnormal : Normal n t)
    (hround : RoundsTo (digits / 10 ^ places) n t) :
    Decimal.nearest { digits := digits, power := -places } =
      .ofModel (.pack (.finite .positive n t hnormal.pos)) := by
  have hsign : decide (-(places : Int) < 0) = decide (0 < places) := decide_eq_decide.mpr (by omega)
  simp only [Decimal.nearest, hsign, Int.natAbs_neg, Int.natAbs_natCast]
  by_cases hsmall : digits < 2 ^ 53 ∧ places ≤ 22
  · exact ofScientific_small hnormal hround hsmall.1 (by omega)
  · have hexponent : (if decide (0 < places) = true then Int.negOfNat places else Int.ofNat places) =
        -(places : Int) := by
      split
      · exact Int.negOfNat_eq
      next hzero =>
        obtain rfl : places = 0 := by simpa using hzero
        rfl
    have hlarge := ofScientific_large hnormal hround
    unfold Float.ofScientific
    rw [dif_neg hsmall]
    dsimp only
    rw [hexponent, hlarge]

/-- **A decimal of the interval of a float reads as that float.** -/
theorem nearest_eq {x : Float} (hx : x.isFinite = true) (hpos : Decimal.isNegative x = false)
    (hm : (Dyadic.ofFloat x).mantissa ≠ 0) {digits places : Nat}
    (hround : RoundsTo (digits / 10 ^ places) (Dyadic.ofFloat x).mantissa
      (Dyadic.ofFloat x).exponent) :
    Decimal.nearest { digits := digits, power := -places } = x := by
  have hcanon := canonical_ofFloat hx hm
  rw [eq_pack_ofFloat hx hpos hcanon.pos]
  exact nearest_of_roundsTo hcanon.normal hround

end Abacus.Floats
