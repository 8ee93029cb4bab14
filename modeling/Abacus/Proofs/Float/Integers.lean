import Mathlib
import Abacus.Proofs.Float.Naturals
import Abacus.Proofs.Float.Writing

/-!
# Natural numbers of any size as floats

A natural number of more than 53 bits is rounded on its way to a float: `rounded n` is the number that
the float of `n` is, and from `2 ^ 1024` on that float is infinity. Numbers that fit (`Fits`) are not
rounded, and on their floats multiplication by a power of two is exact (`ofNat_mul_two_pow`) and
addition rounds the sum once (`ofNat_add`), both up to infinity and beyond.
-/
namespace Abacus.Floats

open Float.Model Float.Model.UnpackedFloat

/-! ## Rounding to 53 bits -/

/-- The number of bits that a mantissa has no place for. -/
def excess (n : Nat) : Nat :=
  n.log2 - 52

/-- The bits that a mantissa has no place for are zeros. -/
def Fits (n : Nat) : Prop :=
  2 ^ excess n ∣ n

/-- The bits without a place are one half of the last place, so that two numbers are nearest. -/
def Tied (n : Nat) : Prop :=
  2 * (n % 2 ^ excess n) = 2 ^ excess n

/-- The bits that have a place. -/
def topBits (n : Nat) : Nat :=
  n / 2 ^ excess n

/-- The next larger mantissa is nearer, or as near and even. -/
def RoundsUp (n : Nat) : Prop :=
  2 ^ excess n < 2 * (n % 2 ^ excess n) ∨ Tied n ∧ topBits n % 2 = 1

instance (n : Nat) : Decidable (Tied n) := inferInstanceAs (Decidable (_ = _))

instance (n : Nat) : Decidable (RoundsUp n) := inferInstanceAs (Decidable (_ ∨ _))

/-- The mantissa after rounding. Rounding up can leave a bit too many, which is a zero then. -/
def roundedBits (n : Nat) : Nat :=
  topBits n + if RoundsUp n then 1 else 0

/-- The number with a mantissa of 53 bits nearest to `n`, of two the one with the even mantissa. -/
def rounded (n : Nat) : Nat :=
  roundedBits n * 2 ^ excess n

theorem excess_eq_zero {n : Nat} (h : n < 2 ^ 53) : excess n = 0 :=
  Nat.sub_eq_zero_of_le (log2_le h)

theorem fits_of_lt {n : Nat} (h : n < 2 ^ 53) : Fits n := by
  rw [Fits, excess_eq_zero h]
  exact one_dvd n

theorem fits_two_pow (j : Nat) : Fits (2 ^ j) := by
  rw [Fits, excess, Nat.log2_two_pow]
  exact pow_dvd_pow 2 (Nat.sub_le j 52)

theorem log2_of_le {n : Nat} (h : 2 ^ 52 ≤ n) : 52 + excess n = n.log2 := by
  have := (Nat.le_log2 (show n ≠ 0 by omega)).mpr h
  unfold excess
  omega

theorem topBits_bounds {n : Nat} (h : 2 ^ 52 ≤ n) :
    2 ^ 52 ≤ topBits n ∧ topBits n < 2 ^ 53 := by
  have hlog := log2_of_le h
  have hpos := Nat.two_pow_pos (excess n)
  constructor
  · rw [topBits, Nat.le_div_iff_mul_le hpos, ← Nat.pow_add, hlog]
    exact Nat.log2_self_le (by omega)
  · rw [topBits, Nat.div_lt_iff_lt_mul hpos, ← Nat.pow_add, show 53 + excess n = n.log2 + 1 by omega]
    exact Nat.lt_log2_self

theorem topBits_add_rest (n : Nat) : topBits n * 2 ^ excess n + n % 2 ^ excess n = n := by
  rw [Nat.mul_comm]
  exact Nat.div_add_mod n _

theorem rounded_of_fits {n : Nat} (h : Fits n) : rounded n = n := by
  have hrest : n % 2 ^ excess n = 0 := Nat.mod_eq_zero_of_dvd h
  have hpos := Nat.two_pow_pos (excess n)
  have hdown : ¬ RoundsUp n := by
    rintro (hup | ⟨htie, -⟩)
    · omega
    · unfold Tied at htie
      omega
  rw [rounded, roundedBits, if_neg hdown, Nat.add_zero]
  exact Nat.div_mul_cancel h

/-! ### Zeros behind a number -/

section
variable {n : Nat} (h : 2 ^ 52 ≤ n) {j d : Nat} (hd : d < 2 ^ j)
include h hd

/-- With digits behind it, a number keeps the bits that have a place. -/
theorem topBits_append : excess (n * 2 ^ j + d) = excess n + j ∧
    topBits (n * 2 ^ j + d) = topBits n ∧
    (n * 2 ^ j + d) % 2 ^ (excess n + j) = n % 2 ^ excess n * 2 ^ j + d := by
  have hlog : (n * 2 ^ j + d).log2 = n.log2 + j := by
    obtain ⟨hlow, hhigh⟩ := (Nat.log2_eq_iff (show n ≠ 0 by omega)).mp rfl
    rw [Nat.log2_eq_iff (by positivity), Nat.pow_add, show n.log2 + j + 1 = n.log2 + 1 + j by omega,
      Nat.pow_add]
    constructor
    · exact (Nat.mul_le_mul_right _ hlow).trans (Nat.le_add_right _ d)
    · calc n * 2 ^ j + d < (n + 1) * 2 ^ j := by rw [Nat.add_mul]; omega
        _ ≤ 2 ^ (n.log2 + 1) * 2 ^ j := Nat.mul_le_mul_right _ hhigh
  have hexcess : excess (n * 2 ^ j + d) = excess n + j := by
    have := log2_of_le h
    unfold excess at *
    omega
  have hquotient : (n * 2 ^ j + d) / 2 ^ j = n := by
    rw [Nat.mul_comm, Nat.mul_add_div (Nat.two_pow_pos j), Nat.div_eq_of_lt hd, Nat.add_zero]
  have hrest : (n * 2 ^ j + d) % 2 ^ j = d := by
    rw [Nat.mul_comm, Nat.mul_add_mod, Nat.mod_eq_of_lt hd]
  refine ⟨hexcess, ?_, ?_⟩
  · rw [topBits, topBits, hexcess, Nat.add_comm (excess n), Nat.pow_add, ← Nat.div_div_eq_div_mul,
      hquotient]
  · rw [Nat.add_comm (excess n), Nat.pow_add, Nat.mod_mul, hquotient, hrest, Nat.mul_comm]
    exact Nat.add_comm _ _

end

theorem excess_pos {n : Nat} (h : 2 ^ 53 ≤ n) : 0 < excess n := by
  have := (Nat.le_log2 (show n ≠ 0 by omega)).mpr h
  unfold excess
  omega

/-- What stands behind the bits without a place only decides a tie. -/
theorem roundsUp_append {n : Nat} (h : 2 ^ 53 ≤ n) {j d : Nat} (hd : d < 2 ^ j) :
    RoundsUp (n * 2 ^ j + d) ↔
      2 ^ excess n < 2 * (n % 2 ^ excess n) ∨ Tied n ∧ (0 < d ∨ topBits n % 2 = 1) := by
  obtain ⟨hexcess, htop, hrest⟩ := topBits_append (show 2 ^ 52 ≤ n by omega) hd
  obtain ⟨half, hhalf⟩ : ∃ half, 2 ^ excess n = 2 * half :=
    ⟨2 ^ (excess n - 1), (mul_pow_sub_one (excess_pos h).ne' 2).symm⟩
  unfold RoundsUp Tied
  rw [htop, hexcess, hrest, Nat.pow_add, hhalf]
  generalize n % (2 * half) = r
  generalize 2 ^ j = zeros at hd ⊢
  rcases Nat.lt_trichotomy r half with hlt | rfl | hgt
  · have hbelow : r * zeros + d < half * zeros :=
      calc r * zeros + d < (r + 1) * zeros := by rw [Nat.add_mul]; omega
        _ ≤ half * zeros := Nat.mul_le_mul_right _ hlt
    rw [Nat.mul_assoc]
    omega
  · rw [Nat.mul_assoc]
    omega
  · have habove : (half + 1) * zeros ≤ r * zeros := Nat.mul_le_mul_right _ hgt
    rw [Nat.add_mul, Nat.one_mul] at habove
    rw [Nat.mul_assoc]
    omega

section
variable {n : Nat} (h : 2 ^ 53 ≤ n) (j : Nat)
include h

theorem tied_mul_two_pow : Tied (n * 2 ^ j) ↔ Tied n := by
  obtain ⟨hexcess, -, hrest⟩ := topBits_append (show 2 ^ 52 ≤ n by omega) (Nat.two_pow_pos j)
  rw [Nat.add_zero] at hexcess hrest
  unfold Tied
  rw [hexcess, hrest, Nat.add_zero, Nat.pow_add, ← Nat.mul_assoc]
  exact Nat.mul_left_inj (Nat.two_pow_pos j).ne'

theorem rounded_mul_two_pow : rounded (n * 2 ^ j) = rounded n * 2 ^ j := by
  obtain ⟨hexcess, htop, -⟩ := topBits_append (show 2 ^ 52 ≤ n by omega) (Nat.two_pow_pos j)
  have hup := roundsUp_append h (Nat.two_pow_pos j)
  rw [Nat.add_zero] at hexcess htop hup
  have hup : RoundsUp (n * 2 ^ j) ↔ RoundsUp n := by
    rw [hup]
    unfold RoundsUp
    simp only [Nat.lt_irrefl, false_or]
  rw [rounded, rounded, roundedBits, roundedBits, hexcess, htop, Nat.pow_add, Nat.mul_assoc]
  simp only [hup]

variable {j} {d : Nat} (hd : d < 2 ^ j)
include hd

/-- A number that fits stays as it is however the zeros behind it are filled. -/
theorem rounded_append_of_fits (hfits : Fits n) : rounded (n * 2 ^ j + d) = n * 2 ^ j := by
  obtain ⟨hexcess, htop, -⟩ := topBits_append (show 2 ^ 52 ≤ n by omega) hd
  have hrest : n % 2 ^ excess n = 0 := Nat.mod_eq_zero_of_dvd hfits
  have hdown : ¬ RoundsUp (n * 2 ^ j + d) := by
    rw [roundsUp_append h hd, Tied, hrest]
    have := Nat.two_pow_pos (excess n)
    omega
  rw [rounded, roundedBits, if_neg hdown, Nat.add_zero, htop, hexcess, Nat.pow_add, ← Nat.mul_assoc,
    topBits, Nat.div_mul_cancel hfits]

/-- The digits behind a number make a difference only if they tip a tie that would go to the lower
mantissa, and then that of one in the last place. -/
theorem rounded_append : rounded (n * 2 ^ j + d) = rounded (n * 2 ^ j) +
    if 0 < d ∧ Tied n ∧ topBits n % 2 = 0 then 2 ^ excess (n * 2 ^ j) else 0 := by
  obtain ⟨hexcess, htop, -⟩ := topBits_append (show 2 ^ 52 ≤ n by omega) hd
  obtain ⟨hexcess', htop', -⟩ := topBits_append (show 2 ^ 52 ≤ n by omega) (Nat.two_pow_pos j)
  have hup := roundsUp_append h hd
  have hup' := roundsUp_append h (Nat.two_pow_pos j)
  rw [Nat.add_zero] at hexcess' htop' hup'
  have htie : Tied n → ¬ 2 ^ excess n < 2 * (n % 2 ^ excess n) := fun htie => by
    unfold Tied at htie
    omega
  rw [rounded, rounded, roundedBits, roundedBits, htop, htop', hexcess, hexcess']
  simp only [hup, hup']
  generalize 2 ^ (excess n + j) = place
  by_cases hlost : 0 < d ∧ Tied n ∧ topBits n % 2 = 0
  · obtain ⟨hpos, htied, heven⟩ := hlost
    rw [if_pos (.inr ⟨htied, .inl hpos⟩), if_neg, if_pos ⟨hpos, htied, heven⟩]
    · ring
    · rintro (hlt | ⟨-, hzero | hodd⟩)
      · exact htie htied hlt
      · exact Nat.lt_irrefl 0 hzero
      · omega
  · have hsame : (2 ^ excess n < 2 * (n % 2 ^ excess n) ∨ Tied n ∧ (0 < d ∨ topBits n % 2 = 1)) ↔
        (2 ^ excess n < 2 * (n % 2 ^ excess n) ∨ Tied n ∧ (0 < 0 ∨ topBits n % 2 = 1)) := by
      refine or_congr_right (and_congr_right fun htied => ?_)
      have := Nat.mod_two_eq_zero_or_one (topBits n)
      simp only [htied, true_and] at hlost
      omega
    simp only [hsame, if_neg hlost, Nat.add_zero]

end

/-! ## The rounded number as a mantissa -/

/-- The mantissa of a number that fits: its leading bit is the 53rd. -/
def significand (n : Nat) : Nat :=
  fullMantissa n / 2 ^ excess n

theorem significand_of_lt {n : Nat} (h : n < 2 ^ 53) : significand n = fullMantissa n := by
  rw [significand, excess_eq_zero h, Nat.pow_zero, Nat.div_one]

theorem significand_of_le {n : Nat} (h : 2 ^ 52 ≤ n) : significand n = topBits n := by
  have hshift : 52 - n.log2 = 0 := by have := log2_of_le h; omega
  rw [significand, fullMantissa, hshift, Nat.pow_zero, Nat.mul_one, topBits]

theorem log2_significand {n : Nat} (hn : 0 < n) : (significand n).log2 = 52 := by
  rcases Nat.lt_or_ge n (2 ^ 53) with hlt | hge
  · rw [significand_of_lt hlt, log2_fullMantissa hn hlt]
  · have hbounds := topBits_bounds (show 2 ^ 52 ≤ n by omega)
    rw [significand_of_le (by omega), Nat.log2_eq_iff (by omega)]
    exact hbounds

theorem significand_pos {n : Nat} (hn : 0 < n) : 0 < significand n := by
  have hlog := log2_significand hn
  rw [Nat.pos_iff_ne_zero]
  intro hzero
  rw [hzero] at hlog
  cases hlog

theorem normal_significand {n : Nat} (hn : 0 < n) :
    Normal (significand n) ((n.log2 : Int) - 52) := by
  have hpos := significand_pos hn
  have hlog := log2_significand hn
  refine ⟨hpos, ?_, .inl ?_, by omega⟩
  · exact (Nat.log2_lt hpos.ne').mp (by omega)
  · exact (Nat.le_log2 hpos.ne').mp hlog.ge

theorem significand_value {n : Nat} (h : Fits n) :
    (significand n * 2 ^ ((n.log2 : Int) - 52) : ℚ) = n := by
  rcases Nat.lt_or_ge n (2 ^ 53) with hlt | hge
  · rw [significand_of_lt hlt]
    exact fullMantissa_value hlt
  · have hlog := log2_of_le (show 2 ^ 52 ≤ n by omega)
    have hexponent : (n.log2 : Int) - 52 = excess n := by omega
    rw [significand_of_le (by omega), hexponent, zpow_natCast]
    exact_mod_cast Nat.div_mul_cancel h

theorem roundsTo_of_fits {n : Nat} (h : Fits n) :
    RoundsTo n (significand n) ((n.log2 : Int) - 52) := by
  have hself := Decimal.roundsTo_self
    { negative := false, mantissa := significand n, exponent := (n.log2 : Int) - 52 }
  rwa [significand_value h] at hself

theorem roundedBits_le {n : Nat} (h : 2 ^ 52 ≤ n) :
    2 ^ 52 ≤ roundedBits n ∧ roundedBits n ≤ 2 ^ 53 := by
  obtain ⟨hlow, hhigh⟩ := topBits_bounds h
  unfold roundedBits
  split <;> omega

/-- Rounding up past the last mantissa gives a power of two, the least mantissa at the next
exponent. -/
theorem significand_rounded {n : Nat} (h : 2 ^ 52 ≤ n) :
    (roundedBits n < 2 ^ 53 ∧ (rounded n).log2 = 52 + excess n ∧
      significand (rounded n) = roundedBits n ∨
    roundedBits n = 2 ^ 53 ∧ (rounded n).log2 = 53 + excess n ∧
      significand (rounded n) = 2 ^ 52) := by
  obtain ⟨hlow, hhigh⟩ := roundedBits_le h
  have hpos := Nat.two_pow_pos (excess n)
  have hge : 2 ^ 52 ≤ rounded n := hlow.trans (Nat.le_mul_of_pos_right _ hpos)
  have hexcess := log2_of_le hge
  rw [significand_of_le hge, topBits]
  rcases Nat.lt_or_eq_of_le hhigh with hlt | heq
  · have hlog : (rounded n).log2 = 52 + excess n := by
      rw [rounded, log2_mul_two_pow (by omega), Nat.add_right_cancel_iff, Nat.log2_eq_iff (by omega)]
      exact ⟨hlow, hlt⟩
    refine .inl ⟨hlt, hlog, ?_⟩
    rw [show excess (rounded n) = excess n by omega, rounded, Nat.mul_div_cancel _ hpos]
  · have hlog : (rounded n).log2 = 53 + excess n := by
      rw [rounded, heq, ← Nat.pow_add, Nat.log2_two_pow]
    refine .inr ⟨heq, hlog, ?_⟩
    rw [show excess (rounded n) = excess n + 1 by omega, rounded, heq,
      show 2 ^ 53 * 2 ^ excess n = 2 ^ 52 * 2 ^ (excess n + 1) by rw [Nat.pow_succ']; ring,
      Nat.mul_div_cancel _ (Nat.two_pow_pos _)]

theorem fits_rounded (n : Nat) : Fits (rounded n) := by
  rcases Nat.lt_or_ge n (2 ^ 52) with hlt | hge
  · rw [rounded_of_fits (fits_of_lt (by omega))]
    exact fits_of_lt (by omega)
  · have hexcess : ∀ k, (rounded n).log2 = 52 + k → excess (rounded n) = k := by
      intro k hlog
      unfold excess
      omega
    rcases significand_rounded hge with ⟨-, hlog, -⟩ | ⟨heq, hlog, -⟩
    · rw [Fits, hexcess _ hlog]
      exact Nat.dvd_mul_left _ _
    · rw [Fits, hexcess (1 + excess n) (by omega), rounded, heq, Nat.pow_add]
      exact Nat.mul_dvd_mul_right (by decide) _

theorem rounded_pos {n : Nat} (hn : 0 < n) : 0 < rounded n := by
  rcases Nat.lt_or_ge n (2 ^ 52) with hlt | hge
  · rw [rounded_of_fits (fits_of_lt (by omega))]
    exact hn
  · have := (roundedBits_le hge).1
    exact Nat.mul_pos (by omega) (Nat.two_pow_pos _)

/-! ### To the nearest mantissa -/

section
variable {top : Nat} {rest : ℚ} {e : Int}

theorem roundsTo_down (hrest : 0 ≤ rest) (hhalf : 2 * rest ≤ 2 ^ e)
    (hodd : top % 2 = 1 → 2 * rest < 2 ^ e) : RoundsTo (top * 2 ^ e + rest) top e := by
  have hgap : 0 < gapBelow top e := by
    unfold gapBelow
    split <;> norm_num
  have hbelow := mul_pos hgap (two_zpow_pos e)
  refine ⟨?_, ?_, fun h => ⟨?_, ?_⟩⟩
  · linarith
  · linarith
  · linarith
  · linarith [hodd h]

variable (hrest : rest < 2 ^ e) (hhalf : 2 ^ e ≤ 2 * rest)
include hrest hhalf

theorem roundsTo_up (htop : 2 ^ 52 ≤ top) (heven : top % 2 = 0 → 2 ^ e < 2 * rest) :
    RoundsTo (top * 2 ^ e + rest) (top + 1 : Nat) e := by
  have hgap : gapBelow (top + 1) e = 1 / 2 := if_neg (by omega)
  refine ⟨?_, ?_, fun h => ⟨?_, ?_⟩⟩
  all_goals rw [Nat.cast_add_one]
  · rw [hgap]
    linarith
  · linarith
  · rw [hgap]
    linarith [heven (by omega)]
  · linarith

/-- The mantissa behind the last one is the first one at the next exponent. -/
theorem roundsTo_carry (he : -1074 ≤ e) :
    RoundsTo ((2 ^ 53 - 1 : Nat) * 2 ^ e + rest) (2 ^ 52 : Nat) (e + 1) := by
  have hgap : gapBelow (2 ^ 52) (e + 1) = 1 / 4 := if_pos ⟨rfl, by omega⟩
  have hplace : (2 : ℚ) ^ (e + 1) = 2 * 2 ^ e := by rw [zpow_add_one₀ two_ne_zero, mul_comm]
  refine ⟨?_, ?_, fun hodd => absurd hodd (by decide)⟩
  · rw [hgap, hplace]
    push_cast
    linarith
  · rw [hplace]
    push_cast
    linarith

end

theorem RoundsUp.half_le {n : Nat} (h : RoundsUp n) :
    (2 : ℚ) ^ (excess n : Int) ≤ 2 * (n % 2 ^ excess n : Nat) ∧
      (topBits n % 2 = 0 → (2 : ℚ) ^ (excess n : Int) < 2 * (n % 2 ^ excess n : Nat)) := by
  have hnat : 2 ^ excess n ≤ 2 * (n % 2 ^ excess n) ∧
      (topBits n % 2 = 0 → 2 ^ excess n < 2 * (n % 2 ^ excess n)) := by
    unfold RoundsUp Tied at h
    omega
  rw [zpow_natCast]
  exact_mod_cast hnat

theorem le_half_of_not_roundsUp {n : Nat} (h : ¬ RoundsUp n) :
    2 * ((n % 2 ^ excess n : Nat) : ℚ) ≤ 2 ^ (excess n : Int) ∧
      (topBits n % 2 = 1 → 2 * ((n % 2 ^ excess n : Nat) : ℚ) < 2 ^ (excess n : Int)) := by
  have hnat : 2 * (n % 2 ^ excess n) ≤ 2 ^ excess n ∧
      (topBits n % 2 = 1 → 2 * (n % 2 ^ excess n) < 2 ^ excess n) := by
    unfold RoundsUp Tied at h
    omega
  rw [zpow_natCast]
  exact_mod_cast hnat

/-- The rounded number is the nearest one, as floats measure it. -/
theorem roundsTo_rounded (n : Nat) :
    RoundsTo n (significand (rounded n)) (((rounded n).log2 : Int) - 52) := by
  rcases Nat.lt_or_ge n (2 ^ 53) with hlt | hge
  · rw [rounded_of_fits (fits_of_lt hlt)]
    exact roundsTo_of_fits (fits_of_lt hlt)
  have hrest : ((n % 2 ^ excess n : Nat) : ℚ) < 2 ^ (excess n : Int) := by
    rw [zpow_natCast]
    exact_mod_cast Nat.mod_lt n (Nat.two_pow_pos (excess n))
  have hvalue : (n : ℚ) = topBits n * 2 ^ (excess n : Int) + (n % 2 ^ excess n : Nat) := by
    rw [zpow_natCast]
    exact_mod_cast (topBits_add_rest n).symm
  rw [hvalue]
  rcases significand_rounded (show 2 ^ 52 ≤ n by omega) with ⟨-, hlog, hsig⟩ | ⟨heq, hlog, hsig⟩
  · have hexponent : ((rounded n).log2 : Int) - 52 = excess n := by omega
    rw [hsig, hexponent, roundedBits]
    by_cases h : RoundsUp n
    · rw [if_pos h]
      exact roundsTo_up hrest h.half_le.1 (topBits_bounds (by omega)).1 h.half_le.2
    · obtain ⟨hhalf, hodd⟩ := le_half_of_not_roundsUp h
      rw [if_neg h]
      exact roundsTo_down (Nat.cast_nonneg _) hhalf hodd
  · have hexponent : ((rounded n).log2 : Int) - 52 = excess n + 1 := by omega
    have hbelow := (topBits_bounds (show 2 ^ 52 ≤ n by omega)).2
    have h : RoundsUp n := by
      by_contra h
      rw [roundedBits, if_neg h] at heq
      omega
    have htop : topBits n = 2 ^ 53 - 1 := by
      rw [roundedBits, if_pos h] at heq
      omega
    rw [hsig, hexponent, htop]
    exact roundsTo_carry hrest h.half_le.1 (by omega)

/-! ## The float of a natural number -/

/-- What the float of a number that fits unpacks to, if it is finite. -/
def finiteNat (n : Nat) (hn : 0 < n) : UnpackedFloat :=
  .finite .positive (significand n) ((n.log2 : Int) - 52) (significand_pos hn)

/-- What the float of a number that fits is packed from. -/
def packedNat (n : Nat) : UnpackedFloat :=
  if hn : 0 < n then
    if n.log2 < 1024 then finiteNat n hn else .infinity .positive
  else
    .zero .positive

theorem pack_finiteNat_of_le {n : Nat} (hn : 0 < n) (hlog : 1024 ≤ n.log2) :
    Float.Model.pack (finiteNat n hn) = Float.Model.pack (.infinity .positive) := by
  have hfield : 2 ^ 11 ≤ (((n.log2 : Int) - 52) + (1023 : Nat) + (52 : Nat)).toNat + 1 := by omega
  have hpack : UnpackedFloat.pack Format.binary64 (finiteNat n hn) =
      UnpackedFloat.pack Format.binary64 (.infinity .positive) := by
    simp only [finiteNat, UnpackedFloat.pack]
    exact if_pos hfield
  unfold Float.Model.pack
  simp only [hpack]

theorem pack_finiteNat {n : Nat} (hn : 0 < n) :
    Float.Model.pack (finiteNat n hn) = Float.Model.pack (packedNat n) := by
  unfold packedNat
  rw [dif_pos hn]
  split
  · rfl
  next hle => exact pack_finiteNat_of_le hn (by omega)

theorem unpack_packedNat (n : Nat) : (Float.Model.pack (packedNat n)).unpack = packedNat n := by
  unfold packedNat
  split
  next hn =>
    split
    next hlog => exact unpack_pack_normal _ (log2_significand hn) (by omega) (by omega) _
    next => exact unpack_pack_infinity _
  next => rfl

/-- The float of a natural number is that of the rounded number. -/
theorem ofNat_eq_packedNat (n : Nat) :
    Float.ofNat n = .ofModel (.pack (packedNat (rounded n))) := by
  rcases Nat.eq_zero_or_pos n with rfl | hn
  · rfl
  · have hpos := rounded_pos hn
    have hround := roundsTo_rounded n
    have hvalue : (n : ℚ) = n / 10 ^ 0 := by rw [pow_zero, div_one]
    rw [hvalue] at hround
    rw [← pack_finiteNat hpos]
    exact nearest_of_roundsTo (normal_significand hpos) hround

theorem unpack_ofNat {n : Nat} (h : Fits n) : (Float.ofNat n).toModel.unpack = packedNat n := by
  rw [ofNat_eq_packedNat, rounded_of_fits h]
  exact unpack_packedNat n

theorem ofNat_rounded (n : Nat) : Float.ofNat (rounded n) = Float.ofNat n := by
  rw [ofNat_eq_packedNat, ofNat_eq_packedNat, rounded_of_fits (fits_rounded n)]

/-! ## Products and sums -/

theorem fits_mul_two_pow {n : Nat} (h : Fits n) (j : Nat) : Fits (n * 2 ^ j) := by
  rcases Nat.lt_or_ge n (2 ^ 52) with hlt | hge
  · rcases Nat.eq_zero_or_pos n with rfl | hn
    · rw [Nat.zero_mul]
      exact h
    · have hle : excess (n * 2 ^ j) ≤ j := by
        have := log2_le (show n < 2 ^ 53 by omega)
        rw [excess, log2_mul_two_pow hn.ne']
        omega
      exact (pow_dvd_pow 2 hle).mul_left n
  · obtain ⟨hexcess, -⟩ := topBits_append hge (Nat.two_pow_pos j)
    rw [Nat.add_zero] at hexcess
    rw [Fits, hexcess, Nat.pow_add]
    exact Nat.mul_dvd_mul_right h _

/-- Rounding does not go below the leading bit. -/
theorem log2_le_log2_rounded (n : Nat) : n.log2 ≤ (rounded n).log2 := by
  rcases Nat.lt_or_ge n (2 ^ 52) with hlt | hge
  · rw [rounded_of_fits (fits_of_lt (by omega))]
  · have hlog := log2_of_le hge
    rcases significand_rounded hge with ⟨-, hlog', -⟩ | ⟨-, hlog', -⟩ <;> omega

theorem packedNat_of_le {n : Nat} (h : 1024 ≤ n.log2) : packedNat n = .infinity .positive := by
  have hn : 0 < n := by
    rw [Nat.pos_iff_ne_zero]
    rintro rfl
    simp at h
  rw [packedNat, dif_pos hn, if_neg h.not_gt]

theorem packedNat_of_lt {n : Nat} (hn : 0 < n) (h : n.log2 < 1024) :
    packedNat n = finiteNat n hn := by
  rw [packedNat, dif_pos hn, if_pos h]

theorem packedNat_cases (n : Nat) :
    n = 0 ∧ packedNat n = .zero .positive ∨
      (∃ hn : 0 < n, packedNat n = finiteNat n hn) ∨
      0 < n ∧ 1024 ≤ n.log2 ∧ packedNat n = .infinity .positive := by
  rcases Nat.eq_zero_or_pos n with rfl | hn
  · exact .inl ⟨rfl, rfl⟩
  · rcases Nat.lt_or_ge n.log2 1024 with hlog | hlog
    · exact .inr (.inl ⟨hn, packedNat_of_lt hn hlog⟩)
    · exact .inr (.inr ⟨hn, hlog, packedNat_of_le hlog⟩)

theorem mul_packedNat {n : Nat} (h : Fits n) {j : Nat} (hj : j < 1024) :
    Float.Model.pack (UnpackedFloat.mul Format.binary64 (packedNat n) (packedNat (2 ^ j))) =
      Float.Model.pack (packedNat (n * 2 ^ j)) := by
  have hpow := Nat.two_pow_pos j
  rw [packedNat_of_lt hpow (by rwa [Nat.log2_two_pow])]
  rcases packedNat_cases n with ⟨rfl, hzero⟩ | ⟨hn, hfinite⟩ | ⟨hn, hlog, hinfinite⟩
  · rw [Nat.zero_mul, hzero]
    rfl
  · have hproduct := Nat.mul_pos hn hpow
    have hround := roundsTo_of_fits (fits_mul_two_pow h j)
    rw [Nat.cast_mul, ← significand_value h, ← significand_value (fits_two_pow j)] at hround
    have hfull : 2 ^ 52 ≤ significand n * significand (2 ^ j) :=
      (normal_significand hn).full.resolve_right (by omega) |>.trans
        (Nat.le_mul_of_pos_right _ (significand_pos hpow))
    rw [← pack_finiteNat hproduct, hfinite, finiteNat, finiteNat,
      mul_eq _ _ _ _ (normal_significand hproduct) hfull hround]
    rfl
  · have hproduct : 1024 ≤ (n * 2 ^ j).log2 := by
      rw [log2_mul_two_pow hn.ne']
      omega
    rw [hinfinite, packedNat_of_le hproduct]
    rfl

/-- Multiplication by a power of two is exact. -/
theorem ofNat_mul_two_pow {n : Nat} (h : Fits n) {j : Nat} (hj : j < 1024) :
    Float.ofNat n * Float.ofNat (2 ^ j) = Float.ofNat (n * 2 ^ j) := by
  change Float.ofModel (.pack (UnpackedFloat.mul Format.binary64 (Float.ofNat n).toModel.unpack
    (Float.ofNat (2 ^ j)).toModel.unpack)) = _
  rw [unpack_ofNat h, unpack_ofNat (fits_two_pow j), mul_packedNat h hj, ofNat_eq_packedNat,
    rounded_of_fits (fits_mul_two_pow h j)]

theorem add_packedNat {a b : Nat} (ha : Fits a) (hb : Fits b) :
    Float.Model.pack (UnpackedFloat.add Format.binary64 (packedNat a) (packedNat b)) =
      Float.Model.pack (packedNat (rounded (a + b))) := by
  -- an infinite operand has an infinite sum
  have hle : ∀ n, n ≤ a + b → 0 < n → 1024 ≤ n.log2 →
      packedNat (rounded (a + b)) = .infinity .positive := by
    intro n hle hpos hlog
    have hlog' : 1024 ≤ (a + b).log2 :=
      hlog.trans ((Nat.le_log2 (by omega)).mpr ((Nat.log2_self_le hpos.ne').trans hle))
    exact packedNat_of_le (hlog'.trans (log2_le_log2_rounded _))
  rcases packedNat_cases a with ⟨rfl, hazero⟩ | ⟨hapos, hafinite⟩ | ⟨hapos, halog, hainfinite⟩
  · rw [Nat.zero_add, rounded_of_fits hb, hazero]
    rcases packedNat_cases b with ⟨rfl, hbcase⟩ | ⟨hbpos, hbcase⟩ | ⟨hbpos, hblog, hbcase⟩ <;>
      rw [hbcase] <;> rfl
  · rcases packedNat_cases b with ⟨rfl, hbzero⟩ | ⟨hbpos, hbfinite⟩ | ⟨hbpos, hblog, hbinfinite⟩
    · rw [Nat.add_zero, rounded_of_fits ha, hafinite, hbzero]
      rfl
    · have hsum := rounded_pos (show 0 < a + b by omega)
      have hround := roundsTo_rounded (a + b)
      rw [Nat.cast_add, ← significand_value ha, ← significand_value hb] at hround
      rw [← pack_finiteNat hsum, hafinite, hbfinite, finiteNat, finiteNat,
        add_eq (normal_significand hsum) _ _ hround]
      rfl
    · rw [hle b (by omega) hbpos hblog, hafinite, hbinfinite]
      rfl
  · rw [hle a (by omega) hapos halog, hainfinite]
    rcases packedNat_cases b with ⟨rfl, hbcase⟩ | ⟨hbpos, hbcase⟩ | ⟨hbpos, hblog, hbcase⟩ <;>
      rw [hbcase] <;> rfl

/-- A sum is rounded once. -/
theorem ofNat_add {a b : Nat} (ha : Fits a) (hb : Fits b) :
    Float.ofNat a + Float.ofNat b = Float.ofNat (a + b) := by
  change Float.ofModel (.pack (UnpackedFloat.add Format.binary64 (Float.ofNat a).toModel.unpack
    (Float.ofNat b).toModel.unpack)) = _
  rw [unpack_ofNat ha, unpack_ofNat hb, add_packedNat ha hb, ofNat_eq_packedNat]

/-! ## Which float it is -/

theorem packedNat_inj {a b : Nat} (ha : Fits a) (hb : Fits b) (h : packedNat a = packedNat b) :
    a = b ∨ 1024 ≤ a.log2 ∧ 1024 ≤ b.log2 := by
  rcases packedNat_cases a with ⟨rfl, hacase⟩ | ⟨hapos, hacase⟩ | ⟨-, halog, hacase⟩
  · rcases packedNat_cases b with ⟨rfl, -⟩ | ⟨hbpos, hbcase⟩ | ⟨-, -, hbcase⟩
    · exact .inl rfl
    all_goals rw [hacase, hbcase] at h; cases h
  · rcases packedNat_cases b with ⟨-, hbcase⟩ | ⟨hbpos, hbcase⟩ | ⟨-, -, hbcase⟩
    · rw [hacase, hbcase] at h
      cases h
    · rw [hacase, hbcase] at h
      injection h with _ hmantissa hexponent
      have hvalue := significand_value ha
      rw [hmantissa, hexponent, significand_value hb] at hvalue
      exact .inl (by exact_mod_cast hvalue.symm)
    · rw [hacase, hbcase] at h
      cases h
  · rcases packedNat_cases b with ⟨-, hbcase⟩ | ⟨hbpos, hbcase⟩ | ⟨-, hblog, -⟩
    · rw [hacase, hbcase] at h
      cases h
    · rw [hacase, hbcase] at h
      cases h
    · exact .inr ⟨halog, hblog⟩

/-- Two natural numbers have one float if and only if they are rounded to the same number or both to
infinity. -/
theorem ofNat_eq_ofNat {a b : Nat} : Float.ofNat a = Float.ofNat b ↔
    rounded a = rounded b ∨ 1024 ≤ (rounded a).log2 ∧ 1024 ≤ (rounded b).log2 := by
  constructor
  · intro h
    have hunpack := congrArg (fun x : Float => x.toModel.unpack) h
    simp only [ofNat_eq_packedNat, unpack_packedNat] at hunpack
    exact packedNat_inj (fits_rounded a) (fits_rounded b) hunpack
  · rintro (h | ⟨ha, hb⟩)
    · rw [← ofNat_rounded a, ← ofNat_rounded b, h]
    · rw [ofNat_eq_packedNat, ofNat_eq_packedNat, packedNat_of_le ha, packedNat_of_le hb]

/-- Digits behind a number of more than 53 bits make a difference to the float only if they tip a tie
that would go to the lower mantissa, and none to infinity. -/
theorem ofNat_append {n j d : Nat} (h : 2 ^ 53 ≤ n) (hd : d < 2 ^ j) :
    Float.ofNat (n * 2 ^ j) = Float.ofNat (n * 2 ^ j + d) ↔
      ¬ (0 < d ∧ Tied n ∧ topBits n % 2 = 0) ∨ 1024 ≤ (n * 2 ^ j + d).log2 := by
  obtain ⟨hexcess, -⟩ := topBits_append (show 2 ^ 52 ≤ n by omega) hd
  obtain ⟨hexcess', htop', -⟩ := topBits_append (show 2 ^ 52 ≤ n by omega) (Nat.two_pow_pos j)
  rw [Nat.add_zero] at hexcess' htop'
  have hle : n ≤ n * 2 ^ j := Nat.le_mul_of_pos_right n (Nat.two_pow_pos j)
  have hlog := log2_of_le (show 2 ^ 52 ≤ n * 2 ^ j + d by omega)
  have hlog' := log2_of_le (show 2 ^ 52 ≤ n * 2 ^ j by omega)
  have hsame : (n * 2 ^ j).log2 = (n * 2 ^ j + d).log2 := by omega
  have hrounded := rounded_append h hd
  rw [ofNat_eq_ofNat]
  by_cases hlost : 0 < d ∧ Tied n ∧ topBits n % 2 = 0
  · rw [if_pos hlost] at hrounded
    have hplace := Nat.two_pow_pos (excess (n * 2 ^ j))
    -- a tie that goes to the lower mantissa leaves the leading bit where it is
    have hdown : ¬ RoundsUp (n * 2 ^ j) := by
      rintro (hup | ⟨-, hodd⟩)
      · have htied := (tied_mul_two_pow h j).mpr hlost.2.1
        unfold Tied at htied
        omega
      · rw [htop'] at hodd
        omega
    have hbits := topBits_bounds (show 2 ^ 52 ≤ n * 2 ^ j by omega)
    have hcases := significand_rounded (show 2 ^ 52 ≤ n * 2 ^ j by omega)
    rw [roundedBits, if_neg hdown] at hcases
    have hle' := log2_le_log2_rounded (n * 2 ^ j + d)
    simp only [hlost, and_self, not_true_eq_false, false_or]
    omega
  · rw [if_neg hlost, Nat.add_zero] at hrounded
    exact iff_of_true (.inl hrounded.symm) (.inl hlost)

theorem ofFields_of_normal {m : Nat} {e : Int} (hm : 0 < m) (hlog : m.log2 = 52) (he : -1074 ≤ e)
    (s : Sign) : Float.ofModel (.pack (.finite s m e hm)) =
      ofFields s (e + 1075).toNat (m - 2 ^ 52) := by
  have hlow : 2 ^ 52 ≤ m := (Nat.le_log2 hm.ne').mp hlog.ge
  have hmantissa : 2 ^ 52 + (m - 2 ^ 52) = m := by omega
  have hexponent : ((e + 1075).toNat : Int) - 1075 = e := by omega
  unfold ofFields fromFields
  rw [if_neg (by omega)]
  simp only [hmantissa, hexponent]

/-- A number gets one bit more by rounding if it is half a place or less below the next power of
two. -/
theorem log2_rounded_eq {n : Nat} (h : 2 ^ 52 ≤ n) :
    (rounded n).log2 = 53 + excess n ↔ (2 ^ 54 - 1) * 2 ^ excess n ≤ 2 * n := by
  have hbits := topBits_bounds h
  have hrest := Nat.mod_lt n (Nat.two_pow_pos (excess n))
  have hsplit := topBits_add_rest n
  have hcarry : (rounded n).log2 = 53 + excess n ↔ topBits n = 2 ^ 53 - 1 ∧ RoundsUp n := by
    have hcases := significand_rounded h
    by_cases hup : RoundsUp n
    · rw [roundedBits, if_pos hup] at hcases
      simp only [hup, and_true]
      omega
    · rw [roundedBits, if_neg hup] at hcases
      simp only [hup, and_false, iff_false]
      omega
  rw [hcarry]
  unfold RoundsUp Tied
  generalize topBits n = top at *
  generalize n % 2 ^ excess n = rest at *
  generalize 2 ^ excess n = place at *
  rcases Nat.lt_or_eq_of_le (show top ≤ 2 ^ 53 - 1 by omega) with hlt | rfl
  · have hle : top * place ≤ (2 ^ 53 - 2) * place := Nat.mul_le_mul_right _ (by omega)
    omega
  · omega

/-- The least number that is rounded to infinity: half way between the greatest float and
`2 ^ 1024`. -/
def overflow : Nat :=
  (2 ^ 54 - 1) * 2 ^ 970

theorem le_log2_rounded {n : Nat} : 1024 ≤ (rounded n).log2 ↔ overflow ≤ n := by
  obtain ⟨p, hp⟩ : ∃ p, p = 970 := ⟨_, rfl⟩
  have hpos := Nat.two_pow_pos p
  rw [overflow, ← hp]
  rcases Nat.lt_or_ge n (2 ^ 53) with hsmall | hlarge
  · have hlog := log2_le hsmall
    rw [rounded_of_fits (fits_of_lt hsmall)]
    omega
  have hlog := log2_of_le (show 2 ^ 52 ≤ n by omega)
  have hcases := significand_rounded (show 2 ^ 52 ≤ n by omega)
  rcases Nat.lt_trichotomy n.log2 (53 + p) with hlt | heq | hgt
  · have hbelow : n < 2 ^ (53 + p) :=
      Nat.lt_log2_self.trans_le (Nat.pow_le_pow_right (by decide) (by omega))
    rw [Nat.pow_add] at hbelow
    omega
  · have hcarry := log2_rounded_eq (show 2 ^ 52 ≤ n by omega)
    rw [show excess n = p + 1 by omega, Nat.pow_succ'] at hcarry
    omega
  · have hge : 2 ^ (54 + p) ≤ n :=
      (Nat.pow_le_pow_right (by decide) (by omega)).trans (Nat.log2_self_le (by omega))
    rw [Nat.pow_add] at hge
    omega

attribute [irreducible] overflow

/-- The float is the nearest one to the number, of two the one with the even mantissa; beyond the
greatest float it is infinity. -/
def IsNearest (n : Nat) (x : Float) : Prop :=
  if overflow ≤ n then
    x = 1 / 0
  else
    x.isFinite = true ∧ Decimal.isNegative x = false ∧
      RoundsTo n (Dyadic.ofFloat x).mantissa (Dyadic.ofFloat x).exponent

theorem isNearest_ofNat (n : Nat) : IsNearest n (Float.ofNat n) := by
  rcases Nat.lt_or_ge n overflow with hlt | hge
  · have hlog : (rounded n).log2 < 1024 := Nat.lt_of_not_le fun hle =>
      (le_log2_rounded.mp hle).not_gt hlt
    rw [IsNearest, if_neg hlt.not_ge]
    rcases Nat.eq_zero_or_pos n with rfl | hn
    · refine ⟨rfl, rfl, ?_⟩
      have hparts : Dyadic.ofFloat (Float.ofNat 0) =
          { negative := false, mantissa := 0, exponent := -1074 } := by decide +kernel
      have hself := Decimal.roundsTo_self (Dyadic.ofFloat (Float.ofNat 0))
      rw [hparts] at hself ⊢
      simpa using hself
    · have hpos := rounded_pos hn
      have hmantissa := log2_significand hpos
      have hlt := (normal_significand hpos).lt
      have hlow := (Nat.le_log2 (significand_pos hpos).ne').mp hmantissa.ge
      have hfield : (((rounded n).log2 : Int) - 52 + 1075).toNat < 2047 := by omega
      have hfraction : significand (rounded n) - 2 ^ 52 < 2 ^ 52 := by omega
      have hparts := ofFloat_ofFields .positive hfield hfraction
      rw [ofNat_eq_packedNat, packedNat_of_lt hpos hlog, finiteNat,
        ofFields_of_normal (significand_pos hpos) hmantissa (by omega)]
      refine ⟨isFinite_ofFields _ hfield hfraction, ?_, ?_⟩
      · rw [Decimal.isNegative, hparts]
        rfl
      · rw [hparts]
        dsimp only
        rw [if_neg (by omega), show 2 ^ 52 + (significand (rounded n) - 2 ^ 52) =
          significand (rounded n) by omega]
        have hexponent : ((max (((rounded n).log2 : Int) - 52 + 1075).toNat 1 : Nat) : Int) - 1075 =
            ((rounded n).log2 : Int) - 52 := by omega
        rw [hexponent]
        exact roundsTo_rounded n
  · rw [IsNearest, if_pos hge, ofNat_eq_packedNat, packedNat_of_le (le_log2_rounded.mpr hge)]
    rfl

end Abacus.Floats
