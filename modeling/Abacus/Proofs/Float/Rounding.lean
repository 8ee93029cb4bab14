import Mathlib
import Abacus.Proofs.Floats

/-!
# Rounding to the nearest float

Arithmetic on floats cuts the exact result to a mantissa with two residual bits and rounds that. A
mantissa with its bits `Truncates` a number; shifting it keeps that up, so that in the end the
rounded mantissa is the whole number nearest to the exact result in units of its last place.

Turned round, every number of the interval around a float is rounded to that float
(`roundWithAccuracy_eq`): that is the form in which reading a decimal needs it. Products and
quotients are cases of it.
-/
namespace Abacus.Floats

open Float.Model Float.Model.UnpackedFloat

/-! ## Mantissas cut off -/

/-- The mantissa is the whole part of the number, and the residual bits tell how the rest of it
compares with one half and with nothing. -/
structure Truncates (em : ExtendedMantissa) (y : ℚ) : Prop where
  lower : (em.mantissa : ℚ) ≤ y
  upper : y < em.mantissa + 1
  round : em.roundBit = true ↔ (em.mantissa : ℚ) + 1 / 2 ≤ y
  sticky : em.stickyBit = true ↔ y ≠ em.mantissa + if em.roundBit then 1 / 2 else 0

namespace Truncates

theorem exact (m : Nat) : Truncates (.ofMantissaAndAccuracy m .exact) m := by
  refine ⟨le_rfl, lt_add_one _, ?_, ?_⟩ <;> simp [ExtendedMantissa.ofMantissaAndAccuracy]

/-- A quotient is truncated to the natural number below it. -/
theorem ofFraction (a : Nat) {b : Nat} (hb : 0 < b) :
    Truncates (.ofMantissaAndAccuracy (a / b) (accuracyOfFraction (a % b) b)) (a / b : ℚ) := by
  have hbq : (0 : ℚ) < b := by exact_mod_cast hb
  have hlt : ((a % b : Nat) : ℚ) < b := by exact_mod_cast Nat.mod_lt a hb
  have hsplit : (a / b : ℚ) = (a / b : Nat) + ((a % b : Nat) : ℚ) / b := by
    rw [eq_comm, ← eq_sub_iff_add_eq', div_eq_iff hbq.ne', sub_mul, div_mul_cancel₀ _ hbq.ne']
    rw [eq_sub_iff_add_eq]
    exact_mod_cast Nat.mod_add_div' a b
  have hhalf : ∀ r : ℚ, 1 / 2 ≤ r / b ↔ (b : ℚ) ≤ 2 * r := by
    intro r
    rw [div_le_div_iff₀ (by norm_num) hbq, one_mul, mul_comm r]
  have hhalf' : ∀ r : ℚ, r / b = 1 / 2 ↔ 2 * r = (b : ℚ) := by
    intro r
    rw [div_eq_div_iff hbq.ne' (by norm_num), one_mul, mul_comm r]
  rw [hsplit]
  generalize a % b = r at hlt ⊢
  generalize a / b = m
  have hlower : (m : ℚ) ≤ m + (r : ℚ) / b := le_add_of_nonneg_right (by positivity)
  have hupper : (m : ℚ) + (r : ℚ) / b < m + 1 := by
    rw [add_lt_add_iff_left, div_lt_one hbq]
    exact hlt
  unfold accuracyOfFraction
  by_cases hr : r = 0
  · rw [if_pos hr, hr, Nat.cast_zero, zero_div, add_zero]
    exact exact m
  · have hrq : (r : ℚ) / b ≠ 0 := div_ne_zero (by exact_mod_cast hr) hbq.ne'
    rw [if_neg hr]
    cases hcompare : compare (2 * r) b with
    | lt =>
      have hcompare : (2 : ℚ) * r < b := by exact_mod_cast Nat.compare_eq_lt.mp hcompare
      refine ⟨hlower, hupper, ?_, ?_⟩
      · simp only [ExtendedMantissa.ofMantissaAndAccuracy, add_le_add_iff_left, hhalf,
          Bool.false_eq_true, false_iff, not_le, hcompare]
      · simp only [ExtendedMantissa.ofMantissaAndAccuracy, Bool.false_eq_true, if_false, ne_eq,
          add_right_inj, hrq, not_false_eq_true]
    | eq =>
      have hcompare : (2 : ℚ) * r = b := by exact_mod_cast Nat.compare_eq_eq.mp hcompare
      refine ⟨hlower, hupper, ?_, ?_⟩
      · simp only [ExtendedMantissa.ofMantissaAndAccuracy, add_le_add_iff_left, hhalf, hcompare,
          le_refl]
      · simp only [ExtendedMantissa.ofMantissaAndAccuracy, Bool.false_eq_true, if_true, ne_eq,
          add_right_inj, hhalf', hcompare, not_true_eq_false]
    | gt =>
      have hcompare : (b : ℚ) < 2 * r := by exact_mod_cast Nat.compare_eq_gt.mp hcompare
      refine ⟨hlower, hupper, ?_, ?_⟩
      · simp only [ExtendedMantissa.ofMantissaAndAccuracy, add_le_add_iff_left, hhalf, hcompare.le]
      · simp only [ExtendedMantissa.ofMantissaAndAccuracy, if_true, ne_eq, add_right_inj, hhalf',
          hcompare.ne', not_false_eq_true]

variable {em : ExtendedMantissa} {y : ℚ} (h : Truncates em y)
include h

theorem shiftRightOne : Truncates em.shiftRightOne (y / 2) := by
  obtain ⟨m, r, s⟩ := em
  obtain ⟨lower, upper, round, sticky⟩ := h
  have hparts : (m : ℚ) = 2 * (m / 2 : Nat) + (m % 2 : Nat) := by
    exact_mod_cast (Nat.div_add_mod m 2).symm
  have hbit : m % 2 = 0 ∨ m % 2 = 1 := by omega
  simp only [ExtendedMantissa.shiftRightOne] at *
  -- the bit shifted out becomes the round bit, and both old bits tell if there is more behind it
  have hrest : (r || s) = true ↔ y ≠ m := by
    cases r with
    | true =>
      have hhalf := round.mp rfl
      simp only [Bool.true_or, true_iff]
      linarith
    | false => simpa using sticky
  refine ⟨?_, ?_, ?_, ?_⟩
  all_goals rcases hbit with hbit | hbit <;> simp only [hbit, Nat.cast_zero, Nat.cast_one] at hparts ⊢
  · linarith
  · linarith
  · linarith
  · linarith
  · simp only [bne_self_eq_false, Bool.false_eq_true, false_iff, not_le]
    linarith
  · simp only [Nat.reduceBNe, true_iff]
    linarith
  · rw [hrest]
    simp only [bne_self_eq_false, Bool.false_eq_true, if_false]
    constructor <;> intro h h' <;> exact h (by linarith)
  · rw [hrest]
    simp only [Nat.reduceBNe, if_true]
    constructor <;> intro h h' <;> exact h (by linarith)

theorem shiftRight (k : Nat) : Truncates (em >>> k) (y / 2 ^ k) := by
  change Truncates (k.repeat ExtendedMantissa.shiftRightOne em) _
  induction k with
  | zero => simpa [Nat.repeat] using h
  | succ k ih =>
    rw [Nat.repeat, pow_succ, ← div_div]
    exact ih.shiftRightOne

/-- The rounded mantissa is the natural number nearest to the number, of two the even one. -/
theorem roundedMantissa_eq {n : Nat} (hlow : (n : ℚ) - 1 / 2 ≤ y) (hhigh : y ≤ n + 1 / 2)
    (hodd : n % 2 = 1 → (n : ℚ) - 1 / 2 < y ∧ y < n + 1 / 2) : em.roundedMantissa = n := by
  obtain ⟨m, r, s⟩ := em
  obtain ⟨lower, upper, round, sticky⟩ := h
  simp only at lower upper round sticky
  -- by order alone, `n` is `m` or the next number
  have below : ∀ {a b : Nat}, (a : ℚ) < b + 1 → a ≤ b := by
    intro a b hab
    have : a < b + 1 := by exact_mod_cast hab
    omega
  cases r with
  | false =>
    have hround : y < m + 1 / 2 := by simpa using round
    have hle : n ≤ m := below (by linarith)
    have hge : m ≤ n := below (by linarith)
    cases s <;> exact Nat.le_antisymm hge hle
  | true =>
    have hround := round.mp rfl
    have hge : m ≤ n := below (by linarith)
    have hle : n ≤ m + 1 := below (by push_cast; linarith)
    cases s with
    | false =>
      have htie : y = m + 1 / 2 := by simpa using sticky
      change m + m % 2 = n
      rcases Nat.lt_or_eq_of_le hge with hlt | rfl
      · obtain rfl : n = m + 1 := by omega
        by_contra hne
        have := (hodd (by omega)).1
        push_cast at this
        linarith
      · by_contra hne
        have := (hodd (by omega)).2
        linarith
    | true =>
      have hbeyond : y ≠ m + 1 / 2 := by simpa using sticky
      have hlt : (m : ℚ) + 1 / 2 < y := lt_of_le_of_ne hround hbeyond.symm
      have : m + 1 ≤ n := below (by push_cast; linarith)
      exact Nat.le_antisymm this hle

end Truncates

theorem mantissa_shiftRight (em : ExtendedMantissa) (k : Nat) :
    (em >>> k).mantissa = em.mantissa / 2 ^ k := by
  change (k.repeat ExtendedMantissa.shiftRightOne em).mantissa = _
  induction k with
  | zero => simp [Nat.repeat]
  | succ k ih =>
    rw [Nat.repeat, pow_succ, ← Nat.div_div_eq_div_mul, ← ih]
    rfl

/-! ## The interval of a float -/

/-- The mantissa and exponent that a positive finite float has: the mantissa is full, or the
exponent is the least one. -/
structure Canonical (m : Nat) (e : Int) : Prop where
  pos : 0 < m
  lt : m < 2 ^ 53
  full : 2 ^ 52 ≤ m ∨ e = -1074
  min_le : -1074 ≤ e
  le_max : e ≤ 971

/-- The same without a bound on the exponent: a number beyond the greatest float is rounded like any
other, and packed as an infinity only then. -/
structure Normal (m : Nat) (e : Int) : Prop where
  pos : 0 < m
  lt : m < 2 ^ 53
  full : 2 ^ 52 ≤ m ∨ e = -1074
  min_le : -1074 ≤ e

theorem Canonical.normal {m : Nat} {e : Int} (h : Canonical m e) : Normal m e :=
  ⟨h.pos, h.lt, h.full, h.min_le⟩

/-- How far down the numbers reach that are rounded to a float, in units of its last place. Below a
power of two the floats lie twice as dense. -/
def gapBelow (m : Nat) (e : Int) : ℚ :=
  if m = 2 ^ 52 ∧ -1074 < e then 1 / 4 else 1 / 2

/-- The numbers that are rounded to the float `m · 2 ^ e`: those at most half way to its neighbours,
and a tie goes to the even mantissa. -/
structure RoundsTo (x : ℚ) (m : Nat) (e : Int) : Prop where
  low : (m - gapBelow m e) * 2 ^ e ≤ x
  high : x ≤ (m + 1 / 2) * 2 ^ e
  odd : m % 2 = 1 → (m - gapBelow m e) * 2 ^ e < x ∧ x < (m + 1 / 2) * 2 ^ e

theorem gapBelow_le (m : Nat) (e : Int) : gapBelow m e ≤ 1 / 2 := by
  unfold gapBelow
  split <;> norm_num

/-! ## Rounding -/

/-- The exponent to which a mantissa is shifted first. -/
theorem targetExponent_eq (m : Nat) (e : Int) :
    Format.binary64.targetExponent (totalExponent m e) = max (m.log2 + e - 52) (-1074) := by
  change max ((m.log2 : Int) + 1 + e - (53 : Nat)) (-1074) = _
  congr 1
  omega

section
variable {x : ℚ} {n : Nat} {t : Int}

@[simp]
theorem mantissa_ofMantissaAndAccuracy (m : Nat) (acc : Accuracy) :
    (ExtendedMantissa.ofMantissaAndAccuracy m acc).mantissa = m := by
  cases acc with
  | exact => rfl
  | inexact o => cases o <;> rfl

/-- The first shift leaves at most 53 bits, and fewer only at the least exponent. -/
theorem shiftToTargetExponent_truncates {m : Nat} {e : Int} {acc : Accuracy}
    (htrunc : Truncates (.ofMantissaAndAccuracy m acc) (x / 2 ^ e))
    (he : e ≤ max (m.log2 + e - 52) (-1074)) :
    ∃ em f, shiftToTargetExponent Format.binary64 m e acc = (em, f) ∧
      Truncates em (x / 2 ^ f) ∧ em.mantissa < 2 ^ 53 ∧ -1074 ≤ f ∧
      (-1074 < f → 2 ^ 52 ≤ em.mantissa) := by
  obtain ⟨k, hk⟩ : ∃ k : Nat, max (m.log2 + e - 52) (-1074) = e + k :=
    ⟨(max (m.log2 + e - 52) (-1074) - e).toNat, by omega⟩
  have hshift : (e + k - e).toNat = k := by omega
  refine ⟨ExtendedMantissa.ofMantissaAndAccuracy m acc >>> k, e + k, ?_, ?_, ?_, by omega, ?_⟩
  · simp only [shiftToTargetExponent, shiftToExponent, targetExponent_eq, hk, hshift]
  · have hshifted := htrunc.shiftRight k
    rwa [div_div, ← zpow_natCast, ← zpow_add₀ (by norm_num)] at hshifted
  · rw [mantissa_shiftRight, mantissa_ofMantissaAndAccuracy,
      Nat.div_lt_iff_lt_mul (Nat.two_pow_pos k), ← pow_add]
    exact Nat.lt_log2_self.trans_le (Nat.pow_le_pow_right (by omega) (by omega))
  · intro hleast
    rw [mantissa_shiftRight, mantissa_ofMantissaAndAccuracy,
      Nat.le_div_iff_mul_le (Nat.two_pow_pos k), ← pow_add]
    have hlog : 52 + k ≤ m.log2 := by omega
    have hne : m ≠ 0 := by
      intro h
      simp [h] at hlog
    exact (Nat.pow_le_pow_right (by omega) hlog).trans (Nat.log2_self_le hne)

/-- A rounded mantissa stays, unless it has a bit too many. -/
theorem shiftToTargetExponent_rounded {m : Nat} {f : Int} (hm : m < 2 ^ 53) (hf : -1074 ≤ f) :
    shiftToTargetExponent Format.binary64 m f .exact = (⟨m, false, false⟩, f) := by
  have hlog := log2_le hm
  have hshift : (max ((m.log2 : Int) + f - 52) (-1074) - f).toNat = 0 := by omega
  simp only [shiftToTargetExponent, shiftToExponent, targetExponent_eq, hshift,
    ExtendedMantissa.ofMantissaAndAccuracy]
  congr 1
  omega

theorem two_zpow_pos (e : Int) : (0 : ℚ) < 2 ^ e :=
  zpow_pos (by norm_num) e

/-- The rounded mantissa is that of the float, or it lies just below a power of two and has been
rounded up to it. -/
theorem roundedMantissa_of_roundsTo {em : ExtendedMantissa} {f : Int} (hnormal : Normal n t)
    (hround : RoundsTo x n t) (htrunc : Truncates em (x / 2 ^ f)) (hlt : em.mantissa < 2 ^ 53)
    (hf : -1074 ≤ f) (hfull : -1074 < f → 2 ^ 52 ≤ em.mantissa) :
    em.roundedMantissa = n ∧ f = t ∨ em.roundedMantissa = 2 ^ 53 ∧ n = 2 ^ 52 ∧ t = f + 1 := by
  have hgap := gapBelow_le n t
  have hpos := two_zpow_pos f
  have hlower := (le_div_iff₀ hpos).mp htrunc.lower
  have hupper := (div_lt_iff₀ hpos).mp htrunc.upper
  have hnlt : (n : ℚ) + 1 ≤ 2 ^ 53 := by exact_mod_cast hnormal.lt
  have hmlt : (em.mantissa : ℚ) + 1 ≤ 2 ^ 53 := by exact_mod_cast hlt
  rcases lt_trichotomy f t with hbelow | rfl | habove
  · -- the number lies below the power of two that the float is
    right
    have hn : (2 : ℚ) ^ 52 ≤ n := by
      exact_mod_cast hnormal.full.resolve_right (by omega)
    have hlow : (n - 1 / 2 : ℚ) * 2 ^ t ≤ x := by
      refine le_trans ?_ hround.low
      gcongr
    have hnext : t = f + 1 := by
      by_contra hne
      have hstep : (2 : ℚ) ^ (f + 2) ≤ 2 ^ t := zpow_le_zpow_right₀ (by norm_num) (by omega)
      rw [zpow_add₀ (by norm_num)] at hstep
      nlinarith
    have hdouble : (2 : ℚ) ^ t = 2 * 2 ^ f := by
      rw [hnext, zpow_add₀ (by norm_num), zpow_one, mul_comm]
    have hpower : n = 2 ^ 52 := by
      have : (n : ℚ) < 2 ^ 52 + 1 := by
        rw [hdouble] at hlow
        by_contra hge
        nlinarith
      have : n < 2 ^ 52 + 1 := by exact_mod_cast this
      have : 2 ^ 52 ≤ n := by exact_mod_cast hn
      omega
    refine ⟨htrunc.roundedMantissa_eq ?_ ?_ (by omega), hpower, hnext⟩
    · have hlow := hround.low
      rw [gapBelow, if_pos ⟨hpower, by omega⟩, hdouble, hpower] at hlow
      rw [le_div_iff₀ hpos]
      refine le_trans (le_of_eq ?_) hlow
      push_cast
      ring
    · refine htrunc.upper.le.trans ?_
      push_cast
      linarith
  · left
    refine ⟨htrunc.roundedMantissa_eq ?_ ?_ ?_, rfl⟩
    · rw [le_div_iff₀ hpos]
      refine le_trans ?_ hround.low
      gcongr
    · rw [div_le_iff₀ hpos]
      exact hround.high
    · intro hodd
      obtain ⟨hlow, hhigh⟩ := hround.odd hodd
      rw [lt_div_iff₀ hpos, div_lt_iff₀ hpos]
      refine ⟨lt_of_le_of_lt ?_ hlow, hhigh⟩
      gcongr
  · -- with an exponent this large the number would lie above the interval
    have hmin := hnormal.min_le
    have hm : (2 : ℚ) ^ 52 ≤ em.mantissa := by exact_mod_cast hfull (by omega)
    have hstep : (2 : ℚ) ^ (t + 1) ≤ 2 ^ f := zpow_le_zpow_right₀ (by norm_num) (by omega)
    rw [zpow_add₀ (by norm_num), zpow_one] at hstep
    have hhigh := hround.high
    have ht := two_zpow_pos t
    nlinarith

/-- **Every number of a float's interval is rounded to the float**, provided that it was not cut
off too early. -/
theorem roundWithAccuracy_eq (s : Sign) (hnormal : Normal n t) (hround : RoundsTo x n t) {m : Nat}
    {e : Int} {acc : Accuracy} (htrunc : Truncates (.ofMantissaAndAccuracy m acc) (x / 2 ^ e))
    (he : e ≤ max (m.log2 + e - 52) (-1074)) :
    roundWithAccuracy Format.binary64 s m e acc = .finite s n t hnormal.pos := by
  obtain ⟨em, f, hshift, htrunc, hlt, hf, hfull⟩ := shiftToTargetExponent_truncates htrunc he
  unfold roundWithAccuracy
  rw [hshift]
  rcases roundedMantissa_of_roundsTo hnormal hround htrunc hlt hf hfull with
    ⟨hrounded, rfl⟩ | ⟨hrounded, rfl, rfl⟩
  · simp only [hrounded, shiftToTargetExponent_rounded hnormal.lt hf]
    rw [dif_neg hnormal.pos.ne']
  · have hlog : (2 ^ 52 : Nat).log2 = 52 := Nat.log2_two_pow
    have hexact := shiftToTargetExponent_exact hlog 1 (show -1074 ≤ f + (1 : Nat) by omega)
    rw [← pow_add] at hexact
    simp only [hrounded, hexact]
    rw [dif_neg (by decide)]
    rfl

end

/-! ## Products, quotients and sums -/

/-- A dividend that is shifted far enough gives at least 53 bits of a quotient. -/
theorem divCore_bits {m₁ m₂ shift : Nat} (h₁ : 0 < m₁) (h₂ : 0 < m₂)
    (hshift : (m₂.log2 : Int) + 53 ≤ m₁.log2 + shift) :
    52 ≤ (m₁ * 2 ^ shift / m₂).log2 := by
  have hbits : 2 ^ 52 ≤ m₁ * 2 ^ shift / m₂ := by
    rw [Nat.le_div_iff_mul_le h₂]
    calc 2 ^ 52 * m₂ ≤ 2 ^ 52 * 2 ^ (m₂.log2 + 1) :=
          Nat.mul_le_mul_left _ Nat.lt_log2_self.le
      _ = 2 ^ (m₂.log2 + 53) := by rw [← pow_add]; congr 1; omega
      _ ≤ 2 ^ (m₁.log2 + shift) := Nat.pow_le_pow_right (by omega) (by omega)
      _ = 2 ^ m₁.log2 * 2 ^ shift := pow_add _ _ _
      _ ≤ m₁ * 2 ^ shift := Nat.mul_le_mul_right _ (Nat.log2_self_le h₁.ne')
  exact (Nat.le_log2 (by omega)).mpr hbits

section
variable {m₁ m₂ n : Nat} {e₁ e₂ t : Int} (h₁ : 0 < m₁) (h₂ : 0 < m₂) (s₁ s₂ : Sign)
  (hnormal : Normal n t)

theorem mul_eq (hbits : 2 ^ 52 ≤ m₁ * m₂)
    (hround : RoundsTo (m₁ * 2 ^ e₁ * (m₂ * 2 ^ e₂)) n t) :
    UnpackedFloat.mul Format.binary64 (.finite s₁ m₁ e₁ h₁) (.finite s₂ m₂ e₂ h₂) =
      .finite (s₁ * s₂) n t hnormal.pos := by
  have hlog : 52 ≤ (m₁ * m₂).log2 := (Nat.le_log2 (by omega)).mpr hbits
  refine roundWithAccuracy_eq _ hnormal hround ?_ (by omega)
  have hexact : (m₁ * 2 ^ e₁ * (m₂ * 2 ^ e₂) : ℚ) / 2 ^ (e₁ + e₂) = (m₁ * m₂ : Nat) := by
    rw [zpow_add₀ (by norm_num), div_eq_iff (by positivity)]
    push_cast
    ring
  rw [hexact]
  exact .exact _

theorem div_eq (hround : RoundsTo (m₁ * 2 ^ e₁ / (m₂ * 2 ^ e₂)) n t) :
    UnpackedFloat.div Format.binary64 (.finite s₁ m₁ e₁ h₁) (.finite s₂ m₂ e₂ h₂) =
      .finite (s₁ / s₂) n t hnormal.pos := by
  simp only [UnpackedFloat.div, divCore, Nat.shiftLeft_eq]
  -- the exponent of the quotient, by the leading bits of the operands
  have htarget : Format.binary64.targetExponent (totalExponent m₁ e₁ - totalExponent m₂ e₂) =
      max ((m₁.log2 : Int) + e₁ - (m₂.log2 + e₂) - 53) (-1074) := by
    change max ((m₁.log2 : Int) + 1 + e₁ - (m₂.log2 + 1 + e₂) - (53 : Nat)) (-1074) = _
    congr 1
    omega
  rw [htarget]
  obtain ⟨shift, hshift⟩ : ∃ shift : Nat,
      min (e₁ - e₂) (max ((m₁.log2 : Int) + e₁ - (m₂.log2 + e₂) - 53) (-1074)) =
        e₁ - e₂ - shift :=
    ⟨(e₁ - e₂ - max ((m₁.log2 : Int) + e₁ - (m₂.log2 + e₂) - 53) (-1074)).toNat, by omega⟩
  have hamount : (e₁ - e₂ - (e₁ - e₂ - (shift : Int))).toNat = shift := by omega
  rw [hshift, hamount]
  refine roundWithAccuracy_eq _ hnormal hround ?_ ?_
  · have hquotient : (m₁ * 2 ^ e₁ / (m₂ * 2 ^ e₂) : ℚ) / 2 ^ (e₁ - e₂ - (shift : Int)) =
        ((m₁ * 2 ^ shift : Nat) : ℚ) / m₂ := by
      have hm₂ : (m₂ : ℚ) ≠ 0 := by exact_mod_cast h₂.ne'
      rw [zpow_sub₀ (by norm_num), zpow_sub₀ (by norm_num), zpow_natCast]
      field_simp
      push_cast
      ring
    rw [hquotient]
    exact .ofFraction _ h₂
  · by_cases hleast : e₁ - e₂ - shift ≤ -1074
    · omega
    · have hbits := divCore_bits h₁ h₂ (show (m₂.log2 : Int) + 53 ≤ m₁.log2 + shift by omega)
      omega

end

section
variable {m m₁ m₂ n : Nat} {e e₁ e₂ t : Int} (hnormal : Normal n t)

theorem decreaseExponent_value (m : Nat) (e f : Int) :
    ((decreaseExponent m e f).1 * 2 ^ (decreaseExponent m e f).2 : ℚ) = m * 2 ^ e := by
  simp only [decreaseExponent, Nat.shiftLeft_eq]
  rw [zpow_sub₀ (by norm_num), zpow_natCast]
  push_cast
  field_simp

theorem round_eq (s : Sign) (hm : 0 < m) (hround : RoundsTo (m * 2 ^ e) n t) :
    UnpackedFloat.round Format.binary64 s m e = .finite s n t hnormal.pos := by
  simp only [UnpackedFloat.round, targetExponent_eq]
  have hvalue := decreaseExponent_value m e (max (m.log2 + e - 52) (-1074))
  have hlog : (decreaseExponent m e (max (m.log2 + e - 52) (-1074))).1.log2 =
      m.log2 + (e - max (m.log2 + e - 52) (-1074)).toNat := by
    simp only [decreaseExponent, Nat.shiftLeft_eq]
    exact log2_mul_two_pow hm.ne' _
  have hexponent : (decreaseExponent m e (max (m.log2 + e - 52) (-1074))).2 =
      e - (e - max (m.log2 + e - 52) (-1074)).toNat := rfl
  rw [← hvalue] at hround
  refine roundWithAccuracy_eq s hnormal hround ?_ (by omega)
  rw [mul_div_cancel_right₀ _ (two_zpow_pos _).ne']
  exact .exact _

/-- Both operands are brought to the lesser exponent, where their sum is exact, and it is rounded
once. -/
theorem add_eq (h₁ : 0 < m₁) (h₂ : 0 < m₂) (hround : RoundsTo (m₁ * 2 ^ e₁ + m₂ * 2 ^ e₂) n t) :
    UnpackedFloat.add Format.binary64 (.finite .positive m₁ e₁ h₁) (.finite .positive m₂ e₂ h₂) =
      .finite .positive n t hnormal.pos := by
  have hexponent : ∀ m e, min e₁ e₂ ≤ e → (decreaseExponent m e (min e₁ e₂)).2 = min e₁ e₂ := by
    intro m e hle
    simp only [decreaseExponent]
    omega
  have hvalue₁ := decreaseExponent_value m₁ e₁ (min e₁ e₂)
  have hvalue₂ := decreaseExponent_value m₂ e₂ (min e₁ e₂)
  rw [hexponent _ _ (by omega)] at hvalue₁ hvalue₂
  have hpos : 0 < (decreaseExponent m₁ e₁ (min e₁ e₂)).1 := by
    simp only [decreaseExponent, Nat.shiftLeft_eq]
    exact Nat.mul_pos h₁ (Nat.two_pow_pos _)
  simp only [UnpackedFloat.add, Sign.apply]
  generalize (decreaseExponent m₁ e₁ (min e₁ e₂)).1 = a at *
  generalize (decreaseExponent m₂ e₂ (min e₁ e₂)).1 = b at *
  rw [← hvalue₁, ← hvalue₂, ← add_mul] at hround
  rw [← Int.natCast_add, UnpackedFloat.normalize, Int.compare_eq_gt.mpr (by omega)]
  simp only [Int.toNat_natCast]
  exact round_eq hnormal .positive (by omega) (by exact_mod_cast hround)

end
end Abacus.Floats
