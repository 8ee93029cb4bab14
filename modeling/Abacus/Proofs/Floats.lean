import Mathlib
import Abacus.Decimal.Dyadic

/-!
# Facts about floats

A float unpacks to NaN, a signed infinity, a signed zero or `± mantissa · 2 ^ exponent`; arithmetic
unpacks, computes exactly, rounds and packs again. Three facts about programs come down to this:

* a quotient by either zero is an infinity or NaN, never finite (`isFinite_div_zero`);
* a natural number below `2 ^ 53` has at most 53 bits, so no rounding happens on the way to a float
  and back (`whole_ofNat`);
* the value of a literal is no NaN, so that it is equal to itself (`isNumber_ofScientific`).
-/
namespace Abacus.Floats

open Float.Model Float.Model.UnpackedFloat

/-! ## Packing and unpacking -/

theorem unpack_pack_notANumber : (Float.Model.pack .notANumber).unpack = .notANumber := rfl

theorem unpack_pack_infinity (s : Sign) : (Float.Model.pack (.infinity s)).unpack = .infinity s := by
  cases s <;> rfl

theorem toNat_packComponents (spec : Format) (s : Sign) (e : BitVec spec.exponentBits)
    (m : BitVec spec.mantissaBitsWithoutImplicit) :
    (packComponents spec s e m).toNat =
      (s.toBitVec.toNat * 2 ^ spec.exponentBits + e.toNat) * 2 ^ spec.mantissaBitsWithoutImplicit +
        m.toNat := by
  simp only [packComponents, BitVec.toNat_append]
  rw [← Nat.shiftLeft_add_eq_or_of_lt m.isLt, ← Nat.shiftLeft_add_eq_or_of_lt e.isLt]
  simp only [Nat.shiftLeft_eq]

section
variable {m : Nat} {e : Int} (hm : 0 < m) (hlog : m.log2 = 52) (he : -1074 ≤ e) (he' : e ≤ 971)
include hlog he he'

/-- A number with a full mantissa packs into its parts, the leading bit left out. -/
theorem pack_normal (s : Sign) :
    UnpackedFloat.pack Format.binary64 (.finite s m e hm) =
      packComponents Format.binary64 s (BitVec.ofNat 11 (e + 1075).toNat) (BitVec.ofNat 52 m) := by
  have hbias : e + Format.binary64.exponentBias + Format.binary64.mantissaBitsWithoutImplicit =
      e + 1075 := by
    change e + (1023 : Nat) + (52 : Nat) = _
    omega
  unfold UnpackedFloat.pack
  simp only [hbias, hlog]
  rw [if_neg (show ¬ 2 ^ 11 ≤ (e + 1075).toNat + 1 by omega),
    if_pos (show 52 + 1 = Format.binary64.mantissaBits from rfl)]

theorem unpack_pack_normal (s : Sign) :
    (Float.Model.pack (.finite s m e hm)).unpack = .finite s m e hm := by
  have hlow : 2 ^ 52 ≤ m := (Nat.le_log2 (by omega)).mp hlog.ge
  have hhigh : m < 2 ^ 53 := (Nat.log2_lt (by omega)).mp (by omega)
  have hfield : (BitVec.ofNat 11 (e + 1075).toNat).toNat = (e + 1075).toNat :=
    Nat.mod_eq_of_lt (by omega)
  -- neither the field of infinities and NaN nor that of zeros and subnormal numbers
  have hne : ∀ field : BitVec 11, field.toNat = 2047 ∨ field.toNat = 0 →
      BitVec.ofNat 11 (e + 1075).toNat ≠ field := by
    intro field hbound h
    rw [← h, hfield] at hbound
    omega
  have hmantissa : (1#1 ++ BitVec.ofNat 52 m).toNat = m := by
    rw [BitVec.toNat_append, ← Nat.shiftLeft_add_eq_or_of_lt (BitVec.isLt _)]
    change 1 <<< 52 + m % 2 ^ 52 = m
    omega
  change UnpackedFloat.unpack Format.binary64 (UnpackedFloat.pack Format.binary64 _) = _
  rw [pack_normal hm hlog he he']
  unfold UnpackedFloat.unpack
  simp only [unpackExponent_packComponents, unpackMantissa_packComponents,
    unpackSign_packComponents, Sign.ofBitVec_toBitVec]
  rw [if_neg (hne _ (.inl rfl)), if_neg (hne _ (.inr rfl))]
  congr 1
  rw [hfield]
  change ((e + 1075).toNat : Int) - ((1023 : Nat) + (52 : Nat)) = e
  omega

end

/-! ## Operations from either side -/

theorem unpacked_add_comm (spec : Format) (u v : UnpackedFloat) :
    UnpackedFloat.add spec u v = UnpackedFloat.add spec v u := by
  cases u with
  | notANumber => cases v <;> rfl
  | infinity s =>
    cases v with
    | infinity t => cases s <;> cases t <;> rfl
    | _ => rfl
  | zero s =>
    cases v with
    | zero t => cases s <;> cases t <;> rfl
    | _ => rfl
  | finite s m e hm =>
    cases v with
    | finite t m' e' hm' =>
      simp only [UnpackedFloat.add]
      rw [Int.min_comm e e', Int.add_comm]
    | _ => rfl

theorem unpacked_mul_comm (spec : Format) (u v : UnpackedFloat) :
    UnpackedFloat.mul spec u v = UnpackedFloat.mul spec v u := by
  have hsign : ∀ s t : Sign, s * t = t * s := by
    intro s t
    cases s <;> cases t <;> rfl
  cases u <;> cases v <;> simp only [UnpackedFloat.mul, hsign, Nat.mul_comm, Int.add_comm]

/-- A difference is a sum with the right side negated. -/
theorem unpacked_sub_eq (spec : Format) (u v : UnpackedFloat) :
    UnpackedFloat.sub spec u v = UnpackedFloat.add spec u v.neg := by
  have happly : ∀ (t : Sign) (m : Int), Sign.apply (-t) m = -t.apply m := by
    intro t m
    cases t with
    | positive => rfl
    | negative => exact (Int.neg_neg m).symm
  cases u with
  | finite s m e hm =>
    cases v with
    | finite t m' e' hm' =>
      simp only [UnpackedFloat.sub, UnpackedFloat.add, UnpackedFloat.neg, happly, Int.sub_eq_add_neg]
    | _ => rfl
  | _ => cases v <;> rfl

/-! ## Zero divisors -/

theorem unpack_of_beq_zero {y : Float} (h : (y == 0) = true) : ∃ s, y.toModel.unpack = .zero s := by
  have hzero : (0 : Float).toModel.unpack = .zero .positive := rfl
  change (y.toModel.unpack.compare (0 : Float).toModel.unpack == some .eq) = true at h
  rw [hzero] at h
  generalize y.toModel.unpack = u at h ⊢
  cases u with
  | zero s => exact ⟨s, rfl⟩
  | notANumber => cases h
  | infinity s => cases s <;> cases h
  | finite s m e hm => cases s <;> cases h

theorem isFinite_div_zero (x : Float) {y : Float} (h : (y == 0) = true) :
    (x / y).isFinite = false := by
  obtain ⟨s, hs⟩ := unpack_of_beq_zero h
  change (Float.Model.pack (UnpackedFloat.div Format.binary64 x.toModel.unpack
    y.toModel.unpack)).unpack.isFinite = false
  rw [hs]
  cases x.toModel.unpack with
  | notANumber => simp only [UnpackedFloat.div, unpack_pack_notANumber, UnpackedFloat.isFinite]
  | infinity t => simp only [UnpackedFloat.div, unpack_pack_infinity, UnpackedFloat.isFinite]
  | zero t => simp only [UnpackedFloat.div, unpack_pack_notANumber, UnpackedFloat.isFinite]
  | finite t m e hm => simp only [UnpackedFloat.div, unpack_pack_infinity, UnpackedFloat.isFinite]

/-! ## Natural numbers -/

theorem log2_mul_two_pow {m : Nat} (hm : m ≠ 0) (k : Nat) : (m * 2 ^ k).log2 = m.log2 + k := by
  rw [Nat.log2_eq_iff (Nat.mul_ne_zero hm (Nat.two_pow_pos k).ne')]
  obtain ⟨hlow, hhigh⟩ := (Nat.log2_eq_iff hm).mp rfl
  constructor
  · rw [Nat.pow_add]; exact Nat.mul_le_mul_right _ hlow
  · rw [Nat.add_right_comm, Nat.pow_add]
    exact Nat.mul_lt_mul_of_pos_right hhigh (Nat.two_pow_pos k)

theorem shiftRight_exact (m k : Nat) :
    ((⟨m * 2 ^ k, false, false⟩ : ExtendedMantissa) >>> k) = ⟨m, false, false⟩ := by
  change k.repeat ExtendedMantissa.shiftRightOne _ = _
  induction k generalizing m with
  | zero => simp [Nat.repeat]
  | succ k ih =>
    rw [Nat.repeat, Nat.pow_succ, ← Nat.mul_assoc, Nat.mul_right_comm, ih]
    simp [ExtendedMantissa.shiftRightOne]

theorem shiftToTargetExponent_exact {m : Nat} (hlog : m.log2 = 52) (k : Nat) {e : Int}
    (he : -1074 ≤ e + k) :
    shiftToTargetExponent Format.binary64 (m * 2 ^ k) e .exact = (⟨m, false, false⟩, e + k) := by
  have hm : m ≠ 0 := by intro h; simp [h] at hlog
  have htotal : totalExponent (m * 2 ^ k) e = 53 + k + e := by
    rw [totalExponent, log2_mul_two_pow hm, hlog]; omega
  have htarget : Format.binary64.targetExponent (totalExponent (m * 2 ^ k) e) = e + k := by
    rw [htotal]
    change max (53 + k + e - (53 : Nat)) (-1074) = e + k
    omega
  have hshift : (e + k - e).toNat = k := by omega
  simp only [shiftToTargetExponent, shiftToExponent, htarget,
    ExtendedMantissa.ofMantissaAndAccuracy]
  rw [hshift, shiftRight_exact]

/-- Rounding drops nothing from a mantissa that is full before its last `k` zeros. -/
theorem roundWithAccuracy_exact (s : Sign) {m : Nat} (hm : 0 < m) (hlog : m.log2 = 52) (k : Nat)
    {e : Int} (he : -1074 ≤ e + k) :
    roundWithAccuracy Format.binary64 s (m * 2 ^ k) e .exact = .finite s m (e + k) hm := by
  have hfirst := shiftToTargetExponent_exact hlog k he
  have hsecond : shiftToTargetExponent Format.binary64 m (e + k) .exact =
      (⟨m, false, false⟩, e + k) := by
    have h := shiftToTargetExponent_exact hlog 0 (show -1074 ≤ e + k + (0 : Nat) by omega)
    rw [Nat.pow_zero, Nat.mul_one] at h
    rw [h]
    congr 1
    omega
  unfold roundWithAccuracy
  rw [hfirst]
  simp only [ExtendedMantissa.roundedMantissa, ExtendedMantissa.accuracy,
    Accuracy.roundToNearestEven, hsecond]
  rw [dif_neg (by omega)]

section
variable {n : Nat} (hn : 0 < n) (hlt : n < 2 ^ 53)

/-- The mantissa of a natural number: its bits, moved up to the leading place. -/
def fullMantissa (n : Nat) : Nat :=
  n * 2 ^ (52 - n.log2)

include hlt

theorem log2_le : n.log2 ≤ 52 := by
  by_cases h : n = 0
  · simp [h]
  · exact Nat.lt_succ_iff.mp ((Nat.log2_lt h).mpr hlt)

include hn

theorem log2_fullMantissa : (fullMantissa n).log2 = 52 := by
  have := log2_le hlt
  rw [fullMantissa, log2_mul_two_pow (by omega)]
  omega

omit hlt in
theorem fullMantissa_pos : 0 < fullMantissa n :=
  Nat.mul_pos hn (Nat.two_pow_pos _)

theorem round_natCast :
    UnpackedFloat.round Format.binary64 .positive n 0 =
      .finite .positive (fullMantissa n) ((n.log2 : Int) - 52) (fullMantissa_pos hn) := by
  have hbound := log2_le hlt
  have htarget : Format.binary64.targetExponent (totalExponent n 0) = (n.log2 : Int) - 52 := by
    change max ((n.log2 : Int) + 1 + 0 - (53 : Nat)) (-1074) = _
    omega
  have hshift : (0 - ((n.log2 : Int) - 52)).toNat = 52 - n.log2 := by omega
  have hround := roundWithAccuracy_exact .positive (fullMantissa_pos hn) (log2_fullMantissa hn hlt) 0
    (show -1074 ≤ 0 - ((52 - n.log2 : Nat) : Int) + (0 : Nat) by omega)
  rw [Nat.pow_zero, Nat.mul_one] at hround
  simp only [UnpackedFloat.round, htarget, decreaseExponent, hshift, Nat.shiftLeft_eq]
  rw [← fullMantissa, hround]
  congr 1
  omega

theorem unpack_toFloat :
    n.toUInt64.toFloat.toModel.unpack =
      .finite .positive (fullMantissa n) ((n.log2 : Int) - 52) (fullMantissa_pos hn) := by
  have hbound := log2_le hlt
  have hword : n.toUInt64.toNat = n := by
    simp only [Nat.toUInt64, UInt64.toNat_ofNat']
    omega
  change (Float.Model.pack
    (UnpackedFloat.normalize Format.binary64 n.toUInt64.toNat 0 .positive)).unpack = _
  rw [hword, UnpackedFloat.normalize, Int.compare_eq_gt.mpr (by omega)]
  simp only [Int.toNat_natCast]
  rw [round_natCast hn hlt,
    unpack_pack_normal _ (log2_fullMantissa hn hlt) (by omega) (by omega)]

theorem toModel_ofNat :
    (Float.ofNat n).toModel =
      Float.Model.pack
        (.finite .positive (fullMantissa n) ((n.log2 : Int) - 52) (fullMantissa_pos hn)) := by
  have hbound := log2_le hlt
  have hlog := log2_fullMantissa hn hlt
  have hone : (getElem Float.exactlyRepresentablePowersOfTen 0 (by decide)).toModel.unpack =
      .finite .positive (2 ^ 52) (-52) (by decide) := rfl
  have hofNat : Float.ofNat n =
      n.toUInt64.toFloat * getElem Float.exactlyRepresentablePowersOfTen 0 (by decide) := by
    change Float.ofScientific n false 0 = _
    rw [Float.ofScientific, dif_pos ⟨hlt, by omega⟩]
    rfl
  have hmul := roundWithAccuracy_exact (Sign.positive * Sign.positive) (fullMantissa_pos hn) hlog 52
    (show -1074 ≤ (n.log2 : Int) - 52 + -52 + (52 : Nat) by omega)
  rw [hofNat]
  change Float.Model.pack (UnpackedFloat.mul Format.binary64 n.toUInt64.toFloat.toModel.unpack _) = _
  rw [unpack_toFloat hn hlt, hone]
  simp only [UnpackedFloat.mul, hmul]
  congr 2
  omega

theorem isFinite_ofNat : (Float.ofNat n).isFinite = true := by
  have hbound := log2_le hlt
  change (Float.ofNat n).toModel.unpack.isFinite = true
  rw [toModel_ofNat hn hlt, unpack_pack_normal _ (log2_fullMantissa hn hlt) (by omega) (by omega)]
  rfl

theorem ofFloat_ofNat :
    Dyadic.ofFloat (Float.ofNat n) =
      { negative := false, mantissa := fullMantissa n, exponent := (n.log2 : Int) - 52 } := by
  have hbound := log2_le hlt
  have hlog := log2_fullMantissa hn hlt
  have hpos := fullMantissa_pos hn
  have hlow : 2 ^ 52 ≤ fullMantissa n := (Nat.le_log2 (by omega)).mp hlog.ge
  have hhigh : fullMantissa n < 2 ^ 53 := (Nat.log2_lt (by omega)).mp (by omega)
  have hbits : (Float.ofNat n).toBits.toNat =
      (n.log2 + 1023) * 2 ^ 52 + (fullMantissa n - 2 ^ 52) := by
    change (Float.ofNat n).toModel.toBits.toNat = _
    rw [toModel_ofNat hn hlt]
    change (UnpackedFloat.pack Format.binary64 _).toNat = _
    rw [pack_normal _ hlog (by omega) (by omega), toNat_packComponents]
    change (0 * 2 ^ 11 + ((n.log2 : Int) - 52 + 1075).toNat % 2 ^ 11) * 2 ^ 52 +
      fullMantissa n % 2 ^ 52 = _
    omega
  have hfield : ((n.log2 + 1023) * 2 ^ 52 + (fullMantissa n - 2 ^ 52)) / 2 ^ 52 % 2 ^ 11 =
      n.log2 + 1023 := by
    omega
  simp only [Dyadic.ofFloat, hbits, Dyadic.mk.injEq, decide_eq_false_iff_not, Nat.pow_eq, hfield]
  rw [if_neg (by omega)]
  refine ⟨by omega, by omega, by omega⟩

omit hn in
/-- A natural number below `2 ^ 53` comes back from the float that it is turned into. -/
theorem whole_ofNat : Decimal.whole? (Float.ofNat n) = some n := by
  rcases Nat.eq_zero_or_pos n with rfl | hn
  · decide
  · have hbound := log2_le hlt
    have hne : fullMantissa n ≠ 0 := (fullMantissa_pos hn).ne'
    simp only [Decimal.whole?, ofFloat_ofNat hn hlt, isFinite_ofNat hn hlt, Bool.true_eq_false,
      if_false, hne, Bool.false_eq_true, Nat.pow_eq]
    split
    · have hexp : n.log2 = 52 := by omega
      simp [fullMantissa, hexp]
    · have hexp : (-((n.log2 : Int) - 52)).toNat = 52 - n.log2 := by omega
      rw [hexp, fullMantissa, Nat.mul_mod_left, if_pos rfl,
        Nat.mul_div_cancel _ (Nat.two_pow_pos _)]

end

/-! ## Floats that are no NaN -/

/-- The float is some number or an infinity. -/
def IsNumber (x : Float) : Prop :=
  x.toModel.unpack ≠ .notANumber

theorem IsNumber.beq_self {x : Float} (h : IsNumber x) : (x == x) = true :=
  (beq_iff_ne_notANumber_and_eq _ _).mpr ⟨h, h, .inl rfl⟩

theorem unpack_pack_ne_notANumber {u : UnpackedFloat} (h : u ≠ .notANumber) :
    (Float.Model.pack u).unpack ≠ .notANumber := by
  cases u with
  | notANumber => exact absurd rfl h
  | infinity s => rw [unpack_pack_infinity]; rintro ⟨⟩
  | zero s => cases s <;> rintro ⟨⟩
  | finite s m e hm =>
    change UnpackedFloat.unpack Format.binary64 (UnpackedFloat.pack Format.binary64 _) ≠ _
    unfold UnpackedFloat.pack
    dsimp only
    split
    · unfold packedInfinity UnpackedFloat.unpack
      simp
    next hfield =>
      -- the exponent field is not the one of infinities and NaN
      have hones : ∀ field : Nat, field < 2047 → BitVec.ofNat 11 field ≠ -1#11 := by
        intro field hlt heq
        have htoNat := congrArg BitVec.toNat heq
        rw [BitVec.toNat_ofNat, Nat.mod_eq_of_lt (by omega)] at htoNat
        change field = 2047 at htoNat
        omega
      have hne : ∀ (field : BitVec 11) (mantissa : BitVec 52), field ≠ -1#11 →
          UnpackedFloat.unpack Format.binary64 (packComponents Format.binary64 s field mantissa) ≠
            .notANumber := by
        intro field mantissa hfield
        unfold UnpackedFloat.unpack
        simp only [unpackExponent_packComponents, unpackMantissa_packComponents]
        rw [if_neg hfield]
        split
        · split <;> rintro ⟨⟩
        · rintro ⟨⟩
      split
      · refine hne _ _ (hones _ ?_)
        change ¬ 2048 ≤ _ + 1 at hfield
        omega
      · exact hne _ _ (hones 0 (by decide))

theorem roundWithAccuracy_ne_notANumber (spec : Format) (s : Sign) (m : Nat) (e : Int)
    (acc : Accuracy) : roundWithAccuracy spec s m e acc ≠ .notANumber := by
  unfold roundWithAccuracy
  dsimp only
  split <;> rintro ⟨⟩

theorem normalize_ne_notANumber (spec : Format) (m : Int) (e : Int) (s : Sign) :
    UnpackedFloat.normalize spec m e s ≠ .notANumber := by
  unfold UnpackedFloat.normalize
  split
  · exact roundWithAccuracy_ne_notANumber _ _ _ _ _
  · rintro ⟨⟩
  · exact roundWithAccuracy_ne_notANumber _ _ _ _ _

/-- Is the float finite and no zero? -/
def isRegular (x : Float) : Bool :=
  match x.toModel.unpack with
  | .finite _ _ _ _ => true
  | _ => false

theorem unpack_of_isRegular {x : Float} (h : isRegular x = true) :
    ∃ s m e hm, x.toModel.unpack = .finite s m e hm := by
  unfold isRegular at h
  split at h
  next s m e hm heq => exact ⟨s, m, e, hm, heq⟩
  next => cases h

/-- An operation that makes NaN of nothing but NaN when the right side is finite and no zero keeps
numbers numbers there. -/
theorem IsNumber.of_isRegular (op : UnpackedFloat → UnpackedFloat → UnpackedFloat)
    (hop : ∀ u s m e hm, op u (.finite s m e hm) = .notANumber → u = .notANumber) {x y : Float}
    (hx : IsNumber x) (hy : isRegular y = true) :
    IsNumber (.ofModel (.pack (op x.toModel.unpack y.toModel.unpack))) := by
  obtain ⟨s, m, e, hm, hy⟩ := unpack_of_isRegular hy
  rw [hy]
  exact unpack_pack_ne_notANumber fun h => hx (hop _ s m e hm h)

theorem IsNumber.mul {x y : Float} (hx : IsNumber x) (hy : isRegular y = true) :
    IsNumber (x * y) := by
  refine of_isRegular (UnpackedFloat.mul Format.binary64) (fun u s m e hm => ?_) hx hy
  cases u <;> simp [UnpackedFloat.mul, roundWithAccuracy_ne_notANumber]

theorem IsNumber.div {x y : Float} (hx : IsNumber x) (hy : isRegular y = true) :
    IsNumber (x / y) := by
  refine of_isRegular (UnpackedFloat.div Format.binary64) (fun u s m e hm => ?_) hx hy
  cases u <;> simp [UnpackedFloat.div, roundWithAccuracy_ne_notANumber]

theorem IsNumber.add {x y : Float} (hx : IsNumber x) (hy : y.isFinite = true) :
    IsNumber (x + y) := by
  change (Float.Model.pack (UnpackedFloat.add Format.binary64 x.toModel.unpack
    y.toModel.unpack)).unpack ≠ .notANumber
  refine unpack_pack_ne_notANumber ?_
  unfold IsNumber at hx
  change y.toModel.unpack.isFinite = true at hy
  generalize x.toModel.unpack = u, y.toModel.unpack = w at hx hy
  cases u with
  | notANumber => exact absurd rfl hx
  | infinity s =>
    cases w with
    | notANumber => cases hy
    | infinity t => cases hy
    | zero t => rintro ⟨⟩
    | finite t n f hn => rintro ⟨⟩
  | zero s =>
    cases w with
    | notANumber => cases hy
    | infinity t => cases hy
    | zero t => cases s <;> cases t <;> rintro ⟨⟩
    | finite t n f hn => rintro ⟨⟩
  | finite s m e hm =>
    cases w with
    | notANumber => cases hy
    | infinity t => cases hy
    | zero t => rintro ⟨⟩
    | finite t n f hn => exact normalize_ne_notANumber _ _ _ _

theorem isNumber_toFloat (n : UInt64) : IsNumber n.toFloat :=
  unpack_pack_ne_notANumber (normalize_ne_notANumber _ _ _ _)

theorem isRegular_powersOfTen :
    ∀ x ∈ Float.exactlyRepresentablePowersOfTen.toList, isRegular x = true := by
  decide

theorem ofScientific_ne_notANumber (spec : Format) (m : Nat) (e : Int) :
    UnpackedFloat.ofScientific spec m e ≠ .notANumber := by
  unfold UnpackedFloat.ofScientific
  split
  · rintro ⟨⟩
  split
  · rintro ⟨⟩
  split
  · rintro ⟨⟩
  split
  · exact roundWithAccuracy_ne_notANumber _ _ _ _ _
  · exact roundWithAccuracy_ne_notANumber _ _ _ _ _

theorem isNumber_ofScientific (m : Nat) (negative : Bool) (e : Nat) :
    IsNumber (Float.ofScientific m negative e) := by
  unfold Float.ofScientific
  split
  next h =>
    have he : e < 23 := Nat.lt_succ_of_le h.2
    have hpower := isRegular_powersOfTen _ (Array.getElem_mem_toList he)
    dsimp only
    split
    · exact (isNumber_toFloat _).div hpower
    · exact (isNumber_toFloat _).mul hpower
  next => exact unpack_pack_ne_notANumber (ofScientific_ne_notANumber _ _ _)

end Abacus.Floats
