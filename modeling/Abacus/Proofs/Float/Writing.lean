import Mathlib
import Abacus.Decimal.Numeral
import Abacus.Proofs.Float.Reading
import Abacus.Proofs.Token.Scanning

/-!
# The text of a float reads back

`shortest` tries decimals against the interval of the float and falls back on the exact one, so what
it gives lies in the interval in any case (`shortest_roundsTo`). Writing it out moves the point and
drops zeros at the end, which does not change the number (`Decimal.unsigned?_positional`). Reading
the text rounds that number, and so the float comes back (`Decimal.unsigned?_magnitude`).
-/
namespace Abacus

open Floats

namespace Decimal

/-! ## The interval -/

namespace Interval

theorem scale_pos (d : Dyadic) : (0 : ℚ) < (ofDyadic d).scale := by
  simp only [ofDyadic, Nat.pow_eq]
  positivity

/-- The denominator makes a fourth of a unit whole. -/
theorem up_eq (e : Int) :
    ((2 ^ (e - 2).toNat : Nat) : ℚ) = 2 ^ e / 4 * (2 ^ (2 - e).toNat : Nat) := by
  have hfour : (2 : ℚ) ^ e / 4 = 2 ^ (e - 2) := by
    rw [zpow_sub₀ (by norm_num)]
    norm_num
  rw [hfour]
  push_cast
  rw [← zpow_natCast, ← zpow_natCast, ← zpow_add₀ (by norm_num)]
  congr 1
  omega

section
variable {d : Dyadic} (hcanon : Canonical d.mantissa d.exponent)

theorem high_eq (d : Dyadic) :
    ((ofDyadic d).high : ℚ) = (d.mantissa + 1 / 2) * 2 ^ d.exponent * (ofDyadic d).scale := by
  simp only [ofDyadic, Nat.pow_eq]
  rw [Nat.cast_mul, up_eq]
  push_cast
  ring

include hcanon

theorem low_eq :
    ((ofDyadic d).low : ℚ) =
      (d.mantissa - gapBelow d.mantissa d.exponent) * 2 ^ d.exponent * (ofDyadic d).scale := by
  have hpos := hcanon.pos
  simp only [ofDyadic, gapBelow, Nat.pow_eq]
  split <;> rw [Nat.cast_mul, up_eq, Nat.cast_sub (by omega)] <;> push_cast <;> ring

/-- A number of the interval, over the common denominator, is rounded to the float. -/
theorem roundsTo_of_contains {factor n : Nat} (hfactor : 0 < factor)
    (h : (ofDyadic d).contains factor n = true) :
    RoundsTo (n / ((ofDyadic d).scale * factor)) d.mantissa d.exponent := by
  have hfactor' : (0 : ℚ) < factor := by exact_mod_cast hfactor
  have hden : (0 : ℚ) < (ofDyadic d).scale * factor := mul_pos (scale_pos d) hfactor'
  have hlow : (((ofDyadic d).low * factor : Nat) : ℚ) =
      (d.mantissa - gapBelow d.mantissa d.exponent) * 2 ^ d.exponent *
        ((ofDyadic d).scale * factor) := by
    rw [Nat.cast_mul, low_eq hcanon, mul_assoc]
  have hhigh : (((ofDyadic d).high * factor : Nat) : ℚ) =
      (d.mantissa + 1 / 2) * 2 ^ d.exponent * ((ofDyadic d).scale * factor) := by
    rw [Nat.cast_mul, high_eq, mul_assoc]
  have hbounds : (ofDyadic d).low * factor ≤ n ∧ n ≤ (ofDyadic d).high * factor ∧
      (d.mantissa % 2 = 1 → (ofDyadic d).low * factor < n ∧ n < (ofDyadic d).high * factor) := by
    have hclosed : (ofDyadic d).closed = decide (d.mantissa % 2 = 0) := rfl
    unfold contains at h
    rw [hclosed] at h
    split at h
    next heven =>
      have heven := of_decide_eq_true heven
      simp only [Bool.and_eq_true, decide_eq_true_eq] at h
      exact ⟨h.1, h.2, fun hodd => by omega⟩
    next =>
      simp only [Bool.and_eq_true, decide_eq_true_eq] at h
      exact ⟨h.1.le, h.2.le, fun _ => h⟩
  refine ⟨?_, ?_, fun hodd => ⟨?_, ?_⟩⟩
  · rw [le_div_iff₀ hden, ← hlow]
    exact_mod_cast hbounds.1
  · rw [div_le_iff₀ hden, ← hhigh]
    exact_mod_cast hbounds.2.1
  · rw [lt_div_iff₀ hden, ← hlow]
    exact_mod_cast (hbounds.2.2 hodd).1
  · rw [div_lt_iff₀ hden, ← hhigh]
    exact_mod_cast (hbounds.2.2 hodd).2

end

/-- What is written on a grid lies in the interval. -/
theorem contains_of_neighbour? {i : Interval} {power : Int} {digits : Nat}
    (h : i.neighbour? power = some digits) :
    i.contains (10 ^ (-power).toNat) (digits * (10 ^ power.toNat * i.scale)) = true := by
  unfold neighbour? at h
  dsimp only at h
  split at h
  next habove =>
    cases h
    exact (Bool.and_eq_true_iff.mp habove).1
  next =>
    split at h
    next hbelow =>
      cases h
      exact hbelow
    next => cases h

end Interval

/-- The number that is written. -/
def Scaled.value (s : Scaled) : ℚ :=
  s.digits * 10 ^ s.power

section
variable {d : Dyadic} (hcanon : Canonical d.mantissa d.exponent)
include hcanon

theorem roundsTo_of_neighbour? {power : Int} {digits : Nat}
    (h : (Interval.ofDyadic d).neighbour? power = some digits) :
    RoundsTo (Scaled.value { digits, power }) d.mantissa d.exponent := by
  have hround := Interval.roundsTo_of_contains hcanon (by positivity)
    (Interval.contains_of_neighbour? h)
  have hscale := (Interval.scale_pos d).ne'
  have hpower : power = (power.toNat : Int) - ((-power).toNat : Int) := by omega
  have hvalue : (digits * (10 ^ power.toNat * (Interval.ofDyadic d).scale) : Nat) /
      ((Interval.ofDyadic d).scale * (10 ^ (-power).toNat : Nat) : ℚ) =
        Scaled.value { digits, power } := by
    rw [Scaled.value]
    simp only
    rw [hpower, zpow_sub₀ (by norm_num), zpow_natCast, zpow_natCast, ← hpower]
    push_cast
    field_simp
  rwa [hvalue] at hround

omit hcanon in
theorem value_exact (d : Dyadic) : (exact d).value = d.mantissa * 2 ^ d.exponent := by
  obtain ⟨negative, m, e⟩ := d
  simp only [Scaled.value, exact, Nat.pow_eq]
  by_cases he : 0 ≤ e
  · have hmin : min e 0 = 0 := by omega
    have hneg : (-e).toNat = 0 := by omega
    have hpower : (2 : ℚ) ^ e = 2 ^ e.toNat := by
      rw [← zpow_natCast]
      congr 1
      omega
    rw [hmin, hneg, hpower]
    push_cast
    norm_num
  · have hmin : min e 0 = -((-e).toNat : Int) := by omega
    have hnat : e.toNat = 0 := by omega
    have hpower : (2 : ℚ) ^ e = (2 ^ (-e).toNat)⁻¹ := by
      rw [← zpow_natCast, ← zpow_neg]
      congr 1
      omega
    have hten : (10 : ℚ) ^ (-e).toNat = 2 ^ (-e).toNat * 5 ^ (-e).toNat := by
      rw [← mul_pow]
      norm_num
    rw [hmin, hnat, hpower, zpow_neg, zpow_natCast, hten]
    push_cast
    field_simp

omit hcanon in
/-- The float itself lies in its interval. -/
theorem roundsTo_self (d : Dyadic) :
    RoundsTo (d.mantissa * 2 ^ d.exponent) d.mantissa d.exponent := by
  have hpos := two_zpow_pos d.exponent
  have hgap : 0 < gapBelow d.mantissa d.exponent := by
    unfold gapBelow
    split <;> norm_num
  refine ⟨?_, ?_, fun _ => ⟨?_, ?_⟩⟩ <;> nlinarith

theorem shortest_roundsTo : RoundsTo (shortest d).value d.mantissa d.exponent := by
  unfold shortest
  dsimp only
  cases hfound : ((List.range 24).map fun (n : Nat) => topPower d - n).findSome? fun power =>
      ((Interval.ofDyadic d).neighbour? power).map fun digits => ({ digits, power } : Scaled) with
  | none =>
    rw [Option.getD_none, value_exact]
    exact roundsTo_self d
  | some s =>
    obtain ⟨power, -, hpower⟩ := List.exists_of_findSome?_eq_some hfound
    obtain ⟨digits, hdigits, rfl⟩ := Option.map_eq_some_iff.mp hpower
    exact roundsTo_of_neighbour? hcanon hdigits

end

/-! ## Digits -/

theorem naturalValue_append (a b : List Char) :
    naturalValue (a ++ b) = 10 ^ b.length * naturalValue a + naturalValue b := by
  have happend : naturalValue (a ++ b) = Nat.ofDigitChars 10 b (naturalValue a) :=
    Nat.ofDigitChars_append 0
  rw [happend, Nat.ofDigitChars_eq_ofDigitChars_zero]
  rfl

theorem naturalValue_zeros (n : Nat) : naturalValue (List.replicate n '0') = 0 := by
  have h : naturalValue (List.replicate n '0') = 10 ^ n * 0 := Nat.ofDigitChars_replicate_zero
  rw [h, Nat.mul_zero]

theorem naturalValue_naturalDigits (n : Nat) : naturalValue (naturalDigits n) = n :=
  Nat.ofDigitChars_ten_toDigits

theorem isDigit_of_mem_naturalDigits {n : Nat} {c : Char} (h : c ∈ naturalDigits n) :
    isDigit c = true := by
  have hdigit : c.isDigit = true := Nat.isDigit_of_mem_toDigits (by omega) (by omega) h
  simpa only [isDigit, Char.isDigit, ge_iff_le, Char.le_def] using hdigit

theorem isDigit_of_mem_zeros {n : Nat} {c : Char} (h : c ∈ List.replicate n '0') :
    isDigit c = true := by
  rw [(List.mem_replicate.mp h).2]
  rfl

/-! ## Positional texts -/

/-- Digits, and if there are any behind the point, the point and these. -/
def pointed (whole fraction : List Char) : List Char :=
  if fraction.isEmpty then whole else whole ++ '.' :: fraction

/-- The text is `digits` or `digits.digits`, and it spells this number. -/
def Spells (text : List Char) (value : ℚ) : Prop :=
  ∃ whole fraction, text = pointed whole fraction ∧ whole ≠ [] ∧
    (∀ c ∈ whole ++ fraction, isDigit c = true) ∧
    (naturalValue (whole ++ fraction) : ℚ) / 10 ^ fraction.length = value

/-- Zeros at the end can be dropped. -/
theorem exists_dropZeros (text : List Char) :
    ∃ n, text = (text.reverse.dropWhile (· == '0')).reverse ++ List.replicate n '0' := by
  have hzeros : text.reverse.takeWhile (· == '0') =
      List.replicate (text.reverse.takeWhile (· == '0')).length '0' :=
    List.eq_replicate_of_mem fun c hc => by simpa using List.mem_takeWhile_imp hc
  have hsplit := List.takeWhile_append_dropWhile (p := (· == '0')) (l := text.reverse)
  refine ⟨(text.reverse.takeWhile (· == '0')).length, ?_⟩
  rw [← List.reverse_replicate, ← hzeros, ← List.reverse_append, hsplit, List.reverse_reverse]

/-- A number on a grid of one or more is written with zeros at the end. -/
theorem spells_zeros {s : Scaled} (hpower : 0 ≤ s.power) :
    Spells (naturalDigits s.digits ++ List.replicate s.power.toNat '0') s.value := by
  refine ⟨_, [], rfl, List.append_ne_nil_of_left_ne_nil Nat.toDigits_ne_nil _, ?_, ?_⟩
  · intro c hc
    rw [List.append_nil] at hc
    rcases List.mem_append.mp hc with hc | hc
    · exact isDigit_of_mem_naturalDigits hc
    · exact isDigit_of_mem_zeros hc
  · have hnat : (10 : ℚ) ^ s.power = 10 ^ s.power.toNat := by
      rw [← zpow_natCast]
      congr 1
      omega
    rw [List.append_nil, naturalValue_append, naturalValue_zeros, naturalValue_naturalDigits,
      List.length_replicate, List.length_nil, Scaled.value, hnat]
    push_cast
    ring

/-- A run of digits is split at the point, and zeros at the end are dropped. -/
theorem spells_split {padded : List Char} {places : Nat} (hlength : places < padded.length)
    (hdigits : ∀ c ∈ padded, isDigit c = true) :
    Spells (pointed (padded.take (padded.length - places))
      ((padded.drop (padded.length - places)).reverse.dropWhile (· == '0')).reverse)
      (naturalValue padded / 10 ^ places) := by
  have hsplit := List.take_append_drop (padded.length - places) padded
  have hfraction : (padded.drop (padded.length - places)).length = places := by
    rw [List.length_drop]
    omega
  have hwhole : padded.take (padded.length - places) ≠ [] := by
    rw [← List.length_pos_iff, List.length_take]
    omega
  generalize padded.take (padded.length - places) = whole at hsplit hwhole ⊢
  generalize padded.drop (padded.length - places) = fraction at hsplit hfraction ⊢
  obtain ⟨zeros, hzeros⟩ := exists_dropZeros fraction
  generalize (fraction.reverse.dropWhile (· == '0')).reverse = kept at hzeros ⊢
  rw [hzeros, List.length_append, List.length_replicate] at hfraction
  rw [hzeros, ← List.append_assoc] at hsplit
  subst hsplit
  refine ⟨whole, kept, rfl, hwhole, fun c hc => hdigits c (List.mem_append_left _ hc), ?_⟩
  rw [naturalValue_append (whole ++ kept), naturalValue_zeros, List.length_replicate, ← hfraction,
    pow_add]
  push_cast
  field_simp
  ring

theorem spells_positional (s : Scaled) : Spells (positional s) s.value := by
  by_cases hpower : 0 ≤ s.power
  · have h := spells_zeros hpower
    unfold positional
    rwa [if_pos hpower]
  · obtain ⟨places, hplaces⟩ : ∃ places : Nat, s.power = -places := ⟨(-s.power).toNat, by omega⟩
    have hnat : (- -(places : Int)).toNat = places := by omega
    have hvalue : s.value =
        naturalValue (List.replicate (places + 1 - (naturalDigits s.digits).length) '0' ++
          naturalDigits s.digits) / 10 ^ places := by
      rw [Scaled.value, hplaces, zpow_neg, zpow_natCast, naturalValue_append, naturalValue_zeros,
        naturalValue_naturalDigits, Nat.mul_zero, Nat.zero_add]
      rfl
    unfold positional
    rw [if_neg hpower, hvalue]
    simp only [hplaces, hnat]
    refine spells_split ?_ fun c hc => ?_
    · rw [List.length_append, List.length_replicate]
      omega
    · rcases List.mem_append.mp hc with hc | hc
      · exact isDigit_of_mem_zeros hc
      · exact isDigit_of_mem_naturalDigits hc

/-! ## Reading -/

theorem digits?_append {digits : List Char} (rest : List Char) (hne : digits ≠ [])
    (hdigits : ∀ c ∈ digits, isDigit c = true) (hrest : rest.takeWhile isDigit = []) :
    digits? (digits ++ rest) = some (digits, rest) := by
  have htake : (digits ++ rest).takeWhile isDigit = digits := by
    rw [List.takeWhile_append_of_pos hdigits, hrest, List.append_nil]
  have hdrop : (digits ++ rest).dropWhile isDigit = rest := by
    have h := List.takeWhile_append_dropWhile (p := isDigit) (l := digits ++ rest)
    rw [htake] at h
    exact List.append_cancel_left h
  unfold digits?
  rw [htake, hdrop]
  split
  · exact absurd rfl hne
  · rfl

/-- A text of digits with a point is read as the number that it spells. -/
theorem unsigned?_pointed {whole fraction : List Char} (hne : whole ≠ [])
    (hdigits : ∀ c ∈ whole ++ fraction, isDigit c = true) :
    unsigned? (pointed whole fraction) =
      some (nearest { digits := naturalValue (whole ++ fraction), power := -fraction.length }) := by
  have hwhole : ∀ c ∈ whole, isDigit c = true := fun c hc => hdigits c (List.mem_append_left _ hc)
  cases fraction with
  | nil =>
    have hread : digits? whole = some (whole, []) := by
      simpa only [List.append_nil] using digits?_append [] hne hwhole rfl
    simp only [pointed, List.isEmpty_nil, if_true, unsigned?, hread]
    rfl
  | cons d ds =>
    have hread : digits? (whole ++ '.' :: d :: ds) = some (whole, '.' :: d :: ds) :=
      digits?_append _ hne hwhole rfl
    have hfraction : digits? (d :: ds) = some (d :: ds, []) := by
      simpa only [List.append_nil] using digits?_append [] (List.cons_ne_nil d ds)
        (fun c hc => hdigits c (List.mem_append_right _ hc)) rfl
    simp only [pointed, List.isEmpty_cons, Bool.false_eq_true, if_false, unsigned?, hread,
      Option.bind_eq_bind, Option.bind_some, fraction?, hfraction, exponent?, Int.zero_sub]
    rfl

/-- **The text of a float reads back.** It is `digits` or `digits.digits`, and read as a number it
is the float again. -/
theorem unsigned?_magnitude {x : Float} (hx : x.isFinite = true) (hpos : isNegative x = false) :
    ∃ whole fraction, magnitude x = pointed whole fraction ∧ whole ≠ [] ∧
      (∀ c ∈ whole ++ fraction, isDigit c = true) ∧ unsigned? (magnitude x) = some x := by
  unfold magnitude
  dsimp only
  rw [if_neg (by rw [hx]; exact Bool.noConfusion)]
  by_cases hm : (Dyadic.ofFloat x).mantissa = 0
  · obtain rfl := eq_zero_of_mantissa hx hpos hm
    have hdigits : ∀ c ∈ ['0'] ++ [], isDigit c = true := List.forall_mem_singleton.mpr rfl
    have hread : unsigned? ['0'] = some (nearest { digits := 0, power := 0 }) :=
      unsigned?_pointed (List.cons_ne_nil _ _) hdigits
    have hzero : nearest { digits := 0, power := 0 } = 0 := rfl
    rw [if_pos hm]
    rw [hread, hzero]
    exact ⟨['0'], [], rfl, List.cons_ne_nil _ _, hdigits, rfl⟩
  · have hround := shortest_roundsTo (canonical_ofFloat hx hm)
    obtain ⟨whole, fraction, htext, hne, hdigits, hvalue⟩ :=
      spells_positional (shortest (Dyadic.ofFloat x))
    rw [← hvalue] at hround
    rw [if_neg hm]
    refine ⟨whole, fraction, htext, hne, hdigits, ?_⟩
    rw [htext, unsigned?_pointed hne hdigits, nearest_eq hx hpos hm hround]

end Decimal
end Abacus
