import Mathlib
import Abacus.Proofs.Float.Fields

/-!
# Natural numbers among the floats

Below `2 ^ 53` the floats calculate with natural numbers as the natural numbers do: a float that is the
number `n` unpacks to the bits of `n` with its leading one in place (`unpack_of_whole`), sums and
products of such floats keep all of their bits when they are rounded, and floats are in the order of
their numbers. Zero is apart throughout, as there are two floats for it.
-/
namespace Abacus

/-- The number itself. -/
def Dyadic.value (d : Dyadic) : ℚ :=
  (if d.negative then -1 else 1) * d.mantissa * 2 ^ d.exponent

theorem Dyadic.value_eq_zero_iff {d : Dyadic} : d.value = 0 ↔ d.mantissa = 0 := by
  have hsign : (if d.negative then -1 else 1 : ℚ) ≠ 0 := by split <;> norm_num
  have hpower : (2 : ℚ) ^ d.exponent ≠ 0 := by positivity
  rw [value, mul_eq_zero_iff_right hpower, mul_eq_zero_iff_left hsign, Nat.cast_eq_zero]

theorem Dyadic.value_nonpos {d : Dyadic} (h : d.negative = true) : d.value ≤ 0 := by
  have : (0 : ℚ) ≤ d.mantissa * 2 ^ d.exponent := by positivity
  rw [value, if_pos h]
  linarith

namespace Floats

open Float.Model Float.Model.UnpackedFloat

/-! ## A number and its float -/

/-- What the float of a positive natural number unpacks to: its bits, moved up to the leading place. -/
def unpackedNat (n : Nat) (hn : 0 < n) : UnpackedFloat :=
  .finite .positive (fullMantissa n) ((n.log2 : Int) - 52) (fullMantissa_pos hn)

theorem isFinite_of_whole {x : Float} {n : Nat} (h : Decimal.whole? x = some n) :
    x.isFinite = true := by
  by_contra hfinite
  rw [Decimal.whole?, if_pos (by simpa using hfinite)] at h
  cases h

/-- What is read as a natural number is that number. -/
theorem value_of_whole {x : Float} {n : Nat} (h : Decimal.whole? x = some n) :
    (Dyadic.ofFloat x).value = n := by
  have hfinite := isFinite_of_whole h
  simp only [Decimal.whole?, hfinite, Bool.true_eq_false, if_false, Nat.pow_eq] at h
  unfold Dyadic.value
  generalize Dyadic.ofFloat x = d at h ⊢
  split at h
  next hzero =>
    obtain rfl := Option.some.inj h
    simp [hzero]
  split at h
  next => cases h
  next hpos =>
  rw [if_neg hpos, one_mul]
  split at h
  next he =>
    obtain rfl := Option.some.inj h
    push_cast
    rw [← zpow_natCast, Int.toNat_of_nonneg he]
  next he =>
    split at h
    next hdvd =>
      obtain rfl := Option.some.inj h
      have hexponent : d.exponent = -((-d.exponent).toNat : Int) := by omega
      rw [Nat.cast_div (Nat.dvd_of_mod_eq_zero hdvd) (by positivity)]
      conv_lhs => rw [hexponent, zpow_neg, zpow_natCast]
      push_cast
      rw [div_eq_mul_inv]
    next => cases h

section
variable {m n : Nat} {e : Int} (hcanon : Canonical m e)
include hcanon

/-- The mantissa holds the bits of the number, followed by as many zeros as there are places below
one. -/
theorem Canonical.exists_places (hlt : n < 2 ^ 53) (hvalue : (m * 2 ^ e : ℚ) = n) :
    ∃ k : Nat, m = n * 2 ^ k ∧ e = -k := by
  by_cases he : 0 ≤ e
  · -- a full mantissa that is moved up by a place has more than 53 bits
    obtain ⟨j, rfl⟩ := Int.eq_ofNat_of_zero_le he
    rw [zpow_natCast] at hvalue
    have hvalue : m * 2 ^ j = n := by exact_mod_cast hvalue
    have hfull : 2 ^ 52 ≤ m := hcanon.full.resolve_right (by omega)
    have hj : j = 0 := by
      by_contra hj
      have := Nat.mul_le_mul hfull (Nat.pow_le_pow_right (by decide : 0 < 2) (Nat.pos_of_ne_zero hj))
      omega
    subst hj
    exact ⟨0, by simpa using hvalue, rfl⟩
  · refine ⟨(-e).toNat, ?_, by omega⟩
    have hexponent : e = -((-e).toNat : Int) := by omega
    rw [hexponent, zpow_neg, zpow_natCast, ← div_eq_mul_inv, div_eq_iff (by positivity)] at hvalue
    exact_mod_cast hvalue

theorem Canonical.eq_fullMantissa (hn : 0 < n) (hlt : n < 2 ^ 53)
    (hvalue : (m * 2 ^ e : ℚ) = n) : m = fullMantissa n ∧ e = n.log2 - 52 := by
  have hm := hcanon.lt
  have hfull := hcanon.full
  obtain ⟨k, rfl, rfl⟩ := hcanon.exists_places hlt hvalue
  have hlog : (n * 2 ^ k).log2 = 52 := by
    rcases hfull with hfull | hleast
    · rw [Nat.log2_eq_iff (by omega)]
      omega
    · have := Nat.mul_le_mul hn (Nat.pow_le_pow_right (by decide : 0 < 2) (show 53 ≤ k by omega))
      omega
  rw [log2_mul_two_pow hn.ne'] at hlog
  have hk : k = 52 - n.log2 := by omega
  exact ⟨by rw [fullMantissa, hk], by omega⟩

end

section
variable {x : Float} {n : Nat} (h : Decimal.whole? x = some n)
include h

theorem unpack_of_whole_zero (hn : n = 0) : ∃ s, x.toModel.unpack = .zero s := by
  have hmantissa := Dyadic.value_eq_zero_iff.mp ((value_of_whole h).trans (by simp [hn]))
  obtain ⟨s, field, fraction, hfield, hfraction, rfl⟩ := exists_ofFields (isFinite_of_whole h)
  rw [ofFloat_ofFields s hfield hfraction] at hmantissa
  rw [unpack_ofFields s hfield hfraction]
  dsimp only at hmantissa
  split at hmantissa
  next hzero => exact ⟨s, by simp [fromFields, hzero, hmantissa]⟩
  next => omega

section
variable (hn : 0 < n)
include hn

theorem mantissa_ne_zero_of_whole : (Dyadic.ofFloat x).mantissa ≠ 0 := by
  rw [Ne, ← Dyadic.value_eq_zero_iff, value_of_whole h]
  exact_mod_cast hn.ne'

theorem isNegative_of_whole : Decimal.isNegative x = false := by
  by_contra hnegative
  have hvalue := Dyadic.value_nonpos (Bool.eq_true_of_not_eq_false hnegative)
  rw [value_of_whole h] at hvalue
  exact hn.not_ge (by exact_mod_cast hvalue)

theorem mantissa_of_whole (hlt : n < 2 ^ 53) :
    (Dyadic.ofFloat x).mantissa = fullMantissa n ∧ (Dyadic.ofFloat x).exponent = n.log2 - 52 := by
  have hcanon := canonical_ofFloat (isFinite_of_whole h) (mantissa_ne_zero_of_whole h hn)
  have hpos := isNegative_of_whole h hn
  have hvalue := value_of_whole h
  unfold Decimal.isNegative at hpos
  simp only [Dyadic.value, hpos, Bool.false_eq_true, if_false, one_mul] at hvalue
  exact hcanon.eq_fullMantissa hn hlt hvalue

end

theorem unpack_of_whole (hn : 0 < n) (hlt : n < 2 ^ 53) :
    x.toModel.unpack = unpackedNat n hn := by
  have hbound := log2_le hlt
  obtain ⟨hm, he⟩ := mantissa_of_whole h hn hlt
  have hpack := eq_pack_ofFloat (isFinite_of_whole h) (isNegative_of_whole h hn)
    (Nat.pos_of_ne_zero (mantissa_ne_zero_of_whole h hn))
  rw [hpack]
  simp only [hm, he]
  exact unpack_pack_normal _ (log2_fullMantissa hn hlt) (by omega) (by omega) _

end

theorem whole_zero (s : Sign) : Decimal.whole? (.ofModel (.pack (.zero s))) = some 0 := by
  cases s <;> decide

theorem ofNat_eq {n : Nat} (hn : 0 < n) (hlt : n < 2 ^ 53) :
    Float.ofModel (.pack (unpackedNat n hn)) = Float.ofNat n := by
  rw [unpackedNat, ← toModel_ofNat hn hlt]

theorem whole_unpackedNat {n : Nat} (hn : 0 < n) (hlt : n < 2 ^ 53) :
    Decimal.whole? (.ofModel (.pack (unpackedNat n hn))) = some n := by
  rw [ofNat_eq hn hlt]
  exact whole_ofNat hlt

/-! ## Sums and products -/

/-- A natural number is not rounded, whatever number of zeros follows its bits. -/
theorem roundWithAccuracy_natCast {n : Nat} (hn : 0 < n) (hlt : n < 2 ^ 53) {j : Nat}
    (hj : 52 ≤ n.log2 + j) :
    roundWithAccuracy Format.binary64 .positive (n * 2 ^ j) (-j) .exact = unpackedNat n hn := by
  have hbound := log2_le hlt
  have hsplit : n * 2 ^ j = fullMantissa n * 2 ^ (j - (52 - n.log2)) := by
    rw [fullMantissa, Nat.mul_assoc, ← Nat.pow_add]
    congr 2
    omega
  rw [hsplit, roundWithAccuracy_exact .positive (fullMantissa_pos hn) (log2_fullMantissa hn hlt) _
    (by omega)]
  congr 1
  omega

theorem decreaseExponent_natCast {n j : Nat} (hlog : n.log2 ≤ 52) (hj : 52 ≤ n.log2 + j) :
    decreaseExponent (fullMantissa n) ((n.log2 : Int) - 52) (-j) = (n * 2 ^ j, -(j : Int)) := by
  have hshift : ((n.log2 : Int) - 52 - -j).toNat = j - (52 - n.log2) := by omega
  rw [decreaseExponent, hshift, Nat.shiftLeft_eq, fullMantissa, Nat.mul_assoc, ← Nat.pow_add]
  congr 2
  · congr 1
    omega
  · omega

theorem normalize_natCast {n : Nat} (hn : 0 < n) (hlt : n < 2 ^ 53) {j : Nat}
    (hj : 52 ≤ n.log2 + j) :
    UnpackedFloat.normalize Format.binary64 ((n * 2 ^ j : Nat) : Int) (-j) .positive =
      unpackedNat n hn := by
  have hpos : 0 < n * 2 ^ j := Nat.mul_pos hn (Nat.two_pow_pos j)
  have htarget : Format.binary64.targetExponent (totalExponent (n * 2 ^ j) (-j)) =
      (n.log2 : Int) - 52 := by
    have hlog := log2_mul_two_pow hn.ne' j
    change max (((n * 2 ^ j).log2 : Int) + 1 + -j - (53 : Nat)) (-1074) = _
    omega
  have hshift : (-(j : Int) - ((n.log2 : Int) - 52)).toNat = 0 := by omega
  rw [UnpackedFloat.normalize, Int.compare_eq_gt.mpr (by exact_mod_cast hpos)]
  simp only [Int.toNat_natCast, UnpackedFloat.round, htarget, decreaseExponent, hshift,
    Nat.shiftLeft_zero, Nat.cast_zero, sub_zero]
  exact roundWithAccuracy_natCast hn hlt hj

theorem add_unpackedNat {a b : Nat} (ha : 0 < a) (hb : 0 < b) (hlt : a + b < 2 ^ 53) :
    UnpackedFloat.add Format.binary64 (unpackedNat a ha) (unpackedNat b hb) =
      unpackedNat (a + b) (Nat.add_pos_left ha b) := by
  have hla := log2_le (show a < 2 ^ 53 by omega)
  have hlb := log2_le (show b < 2 ^ 53 by omega)
  have hmin : min ((a.log2 : Int) - 52) ((b.log2 : Int) - 52) =
      -((52 - min a.log2 b.log2 : Nat) : Int) := by omega
  have hlog : min a.log2 b.log2 ≤ (a + b).log2 :=
    (Nat.min_le_left _ _).trans ((Nat.le_log2 (by omega)).mpr
      ((Nat.log2_self_le ha.ne').trans (Nat.le_add_right a b)))
  simp only [unpackedNat, UnpackedFloat.add]
  rw [hmin, decreaseExponent_natCast hla (by omega), decreaseExponent_natCast hlb (by omega)]
  simp only [Sign.apply]
  rw [← Int.natCast_add, ← Nat.add_mul]
  exact normalize_natCast (Nat.add_pos_left ha b) hlt (by omega)

theorem mul_unpackedNat {a b : Nat} (ha : 0 < a) (hb : 0 < b) (hlt : a * b < 2 ^ 53) :
    UnpackedFloat.mul Format.binary64 (unpackedNat a ha) (unpackedNat b hb) =
      unpackedNat (a * b) (Nat.mul_pos ha hb) := by
  have hla := log2_le ((Nat.le_mul_of_pos_right a hb).trans_lt hlt)
  have hlb := log2_le ((Nat.le_mul_of_pos_left b ha).trans_lt hlt)
  have hlog : a.log2 + b.log2 ≤ (a * b).log2 := by
    rw [Nat.le_log2 (Nat.mul_pos ha hb).ne', Nat.pow_add]
    exact Nat.mul_le_mul (Nat.log2_self_le ha.ne') (Nat.log2_self_le hb.ne')
  have hmantissa : fullMantissa a * fullMantissa b =
      a * b * 2 ^ ((52 - a.log2) + (52 - b.log2)) := by
    rw [fullMantissa, fullMantissa, Nat.pow_add, Nat.mul_mul_mul_comm]
  have hexponent : (a.log2 : Int) - 52 + (b.log2 - 52) =
      -(((52 - a.log2) + (52 - b.log2) : Nat) : Int) := by omega
  simp only [unpackedNat, UnpackedFloat.mul]
  rw [hmantissa, hexponent]
  exact roundWithAccuracy_natCast (Nat.mul_pos ha hb) hlt (by omega)

theorem zero_mul_eq_zero (s : Sign) {u : UnpackedFloat} (hu : u.isFinite = true) :
    ∃ t, UnpackedFloat.mul Format.binary64 (.zero s) u = .zero t := by
  cases u with
  | notANumber => cases hu
  | infinity t => cases hu
  | zero t => exact ⟨_, rfl⟩
  | finite t m e hm => exact ⟨_, rfl⟩

section
variable {a b : Nat} {x y : Float} (hx : Decimal.whole? x = some a) (hy : Decimal.whole? y = some b)
include hx hy

theorem whole_add (hlt : a + b < 2 ^ 53) : Decimal.whole? (x + y) = some (a + b) := by
  change Decimal.whole? (.ofModel (.pack (UnpackedFloat.add Format.binary64 x.toModel.unpack
    y.toModel.unpack))) = _
  rcases Nat.eq_zero_or_pos a with ha | ha
  · obtain ⟨s, hs⟩ := unpack_of_whole_zero hx ha
    rw [hs, ha, Nat.zero_add]
    rcases Nat.eq_zero_or_pos b with hb | hb
    · obtain ⟨t, ht⟩ := unpack_of_whole_zero hy hb
      rw [ht, hb]
      simp only [UnpackedFloat.add]
      split <;> exact whole_zero _
    · rw [unpack_of_whole hy hb (by omega)]
      exact whole_unpackedNat hb (by omega)
  · rw [unpack_of_whole hx ha (by omega)]
    rcases Nat.eq_zero_or_pos b with hb | hb
    · obtain ⟨t, ht⟩ := unpack_of_whole_zero hy hb
      rw [ht, hb, Nat.add_zero]
      exact whole_unpackedNat ha (by omega)
    · rw [unpack_of_whole hy hb (by omega), add_unpackedNat ha hb hlt]
      exact whole_unpackedNat _ hlt

/-- Zero times a number is zero however great the number is. -/
theorem whole_mul (hlt : a * b < 2 ^ 53) : Decimal.whole? (x * y) = some (a * b) := by
  change Decimal.whole? (.ofModel (.pack (UnpackedFloat.mul Format.binary64 x.toModel.unpack
    y.toModel.unpack))) = _
  rcases Nat.eq_zero_or_pos a with ha | ha
  · obtain ⟨s, hs⟩ := unpack_of_whole_zero hx ha
    obtain ⟨t, ht⟩ := zero_mul_eq_zero s (isFinite_of_whole hy)
    rw [hs, ht, ha, Nat.zero_mul]
    exact whole_zero t
  · rcases Nat.eq_zero_or_pos b with hb | hb
    · obtain ⟨s, hs⟩ := unpack_of_whole_zero hy hb
      obtain ⟨t, ht⟩ := zero_mul_eq_zero s (isFinite_of_whole hx)
      rw [hs, unpacked_mul_comm, ht, hb, Nat.mul_zero]
      exact whole_zero t
    · rw [unpack_of_whole hx ha ((Nat.le_mul_of_pos_right a hb).trans_lt hlt),
        unpack_of_whole hy hb ((Nat.le_mul_of_pos_left b ha).trans_lt hlt), mul_unpackedNat ha hb hlt]
      exact whole_unpackedNat _ hlt

end

/-! ## Magnitude and order -/

section
variable {a b : Nat} {x y : Float} (hx : Decimal.whole? x = some a)
include hx

theorem isNaN_of_whole : x.isNaN = false := by
  have hfinite : x.toModel.unpack.isFinite = true := isFinite_of_whole hx
  change x.toModel.unpack.isNaN = false
  cases hunpack : x.toModel.unpack with
  | notANumber => rw [hunpack] at hfinite; cases hfinite
  | _ => rfl

theorem abs_of_whole (ha : a < 2 ^ 53) : x.abs = Float.ofNat a := by
  change Float.ofModel (.pack x.toModel.unpack.abs) = _
  rcases Nat.eq_zero_or_pos a with hzero | hpos
  · obtain ⟨s, hs⟩ := unpack_of_whole_zero hx hzero
    rw [hs, hzero]
    rfl
  · rw [unpack_of_whole hx hpos ha]
    exact ofNat_eq hpos ha

end

theorem lt_of_log2_lt {a b : Nat} (ha : 0 < a) (h : a.log2 < b.log2) : a < b := by
  by_contra hle
  have hb : b ≠ 0 := by rintro rfl; simp at h
  have := (Nat.le_log2 ha.ne').mpr ((Nat.log2_self_le hb).trans (Nat.le_of_not_lt hle))
  omega

theorem fullMantissa_lt_iff {a b : Nat} (h : a.log2 = b.log2) :
    fullMantissa a < fullMantissa b ↔ a < b := by
  rw [fullMantissa, fullMantissa, h]
  exact Nat.mul_lt_mul_right (Nat.two_pow_pos _)

/-- Unpacked floats are compared by exponent first and then by mantissa, which is the order of the
numbers if the mantissas are full. -/
theorem compare_eq_lt_iff {a b : Nat} (ha : 0 < a) (hb : 0 < b) :
    (compare ((a.log2 : Int) - 52) (b.log2 - 52)).then (compare (fullMantissa a) (fullMantissa b)) =
      .lt ↔ a < b := by
  rcases Nat.lt_trichotomy a.log2 b.log2 with hlog | hlog | hlog
  · rw [Int.compare_eq_lt.mpr (by omega)]
    exact iff_of_true rfl (lt_of_log2_lt ha hlog)
  · rw [Int.compare_eq_eq.mpr (by omega), Ordering.eq_then, Nat.compare_eq_lt,
      fullMantissa_lt_iff hlog]
  · rw [Int.compare_eq_gt.mpr (by omega)]
    exact iff_of_false (by rintro ⟨⟩) (lt_of_log2_lt hb hlog).not_gt

theorem ofNat_lt_ofNat {a b : Nat} (ha : a < 2 ^ 53) (hb : b < 2 ^ 53) :
    Float.ofNat a < Float.ofNat b ↔ a < b := by
  change decide ((Float.ofNat a).toModel < (Float.ofNat b).toModel) = true ↔ _
  rw [decide_eq_true_iff]
  change ((Float.ofNat a).toModel.unpack.compare (Float.ofNat b).toModel.unpack == some .lt) = true ↔ _
  rw [beq_iff_eq]
  have hzero : (Float.ofNat 0).toModel.unpack = .zero .positive := rfl
  rcases Nat.eq_zero_or_pos a with rfl | ha0
  · rcases Nat.eq_zero_or_pos b with rfl | hb0
    · exact iff_of_false (by rintro ⟨⟩) (Nat.lt_irrefl 0)
    · rw [hzero, unpack_of_whole (whole_ofNat hb) hb0 hb]
      exact iff_of_true rfl hb0
  · rw [unpack_of_whole (whole_ofNat ha) ha0 ha]
    rcases Nat.eq_zero_or_pos b with rfl | hb0
    · exact iff_of_false (by rintro ⟨⟩) (Nat.not_lt_zero a)
    · rw [unpack_of_whole (whole_ofNat hb) hb0 hb]
      simp only [unpackedNat, UnpackedFloat.compare, Option.some.injEq]
      exact compare_eq_lt_iff ha0 hb0

end Floats
end Abacus
