import Mathlib
import Abacus.Proofs.Float.Integers
import Abacus.Proofs.Layout.Computed

/-!
# Numbers in another base

The digits of a number in base two, eight or sixteen are added up in floats. As long as the sum has at
most 53 bits it is exact; from the digit on that gives it more, the float is rounded, and every further
digit is less than half of its last place and is lost. So the value is the float of the number that has
zeros for these digits (`Base.value_eq`). It is the float nearest to the number that is spelled, which
the decimal numeral has for its value, except where the lost digits would have tipped a tie
(`Base.value_correct`).
-/
namespace Abacus

open Floats

namespace Base

/-! ## The number that is spelled -/

/-- The number that goes on with these digits behind `n`. -/
def extend (b : Base) (n : Nat) (ds : List Nat) : Nat :=
  ds.foldl (fun n d => n * b.radix + d) n

/-- The number that a run of digits spells. -/
def spelled (b : Base) (digits : List Char) : Nat :=
  b.extend 0 (digits.filterMap b.digit?)

/-- The same with zeros for all digits behind a number that has more than 53 bits. -/
def extendKept (b : Base) (n : Nat) : List Nat → Nat
  | [] => n
  | d :: ds => b.extendKept (n * b.radix + if n < 2 ^ 53 then d else 0) ds

/-- The number that the float sum of the digits takes in. -/
def kept (b : Base) (digits : List Char) : Nat :=
  b.extendKept 0 (digits.filterMap b.digit?)

theorem exists_radix (b : Base) : ∃ j, b.radix = 2 ^ j ∧ j < 53 := by
  cases b
  · exact ⟨1, rfl, by decide⟩
  · exact ⟨3, rfl, by decide⟩
  · exact ⟨4, rfl, by decide⟩

theorem lt_radix_of_mem {b : Base} {digits : List Char} :
    ∀ d ∈ digits.filterMap b.digit?, d < b.radix := by
  intro d hd
  obtain ⟨c, -, hc⟩ := List.mem_filterMap.mp hd
  have hfilter := (Option.filter_eq_some_iff.mp hc).2
  simpa using hfilter

/-! ## The sum in floats -/

section
variable {b : Base} {n : Nat} {ds : List Nat}

theorem step_of_fits (hfits : Fits n) {d : Nat} (hd : d < b.radix) :
    Float.ofNat n * Float.ofNat b.radix + Float.ofNat d = Float.ofNat (n * b.radix + d) := by
  obtain ⟨j, hradix, hj⟩ := b.exists_radix
  have hlt : d < 2 ^ 53 := hd.trans (hradix ▸ Nat.pow_lt_pow_right (by decide) hj)
  rw [hradix, ofNat_mul_two_pow hfits (by omega),
    ofNat_add (fits_mul_two_pow hfits j) (fits_of_lt hlt)]

/-- A digit behind a number of more than 53 bits is lost. -/
theorem step_of_le (hn : 2 ^ 53 ≤ n) {d : Nat} (hd : d < b.radix) :
    Float.ofNat n * Float.ofNat b.radix + Float.ofNat d = Float.ofNat (n * b.radix) := by
  obtain ⟨j, hradix, -⟩ := b.exists_radix
  have hrounded : 2 ^ 53 ≤ rounded n := by
    have hlog := log2_le_log2_rounded n
    have hle := (Nat.le_log2 (by omega)).mpr hn
    exact (Nat.le_log2 (rounded_pos (by omega)).ne').mp (hle.trans hlog)
  rw [← ofNat_rounded n, step_of_fits (fits_rounded n) hd, ← ofNat_rounded (n * b.radix)]
  rw [hradix] at hd ⊢
  rw [rounded_mul_two_pow hn, ← ofNat_rounded, rounded_append_of_fits hrounded hd (fits_rounded n)]

theorem foldl_eq (hds : ∀ d ∈ ds, d < b.radix) :
    ds.foldl (fun sum d => sum * Float.ofNat b.radix + Float.ofNat d) (Float.ofNat n) =
      Float.ofNat (b.extendKept n ds) := by
  induction ds generalizing n with
  | nil => rfl
  | cons d ds ih =>
    obtain ⟨hd, hds⟩ := List.forall_mem_cons.mp hds
    rw [List.foldl_cons, extendKept]
    split
    next hlt => rw [step_of_fits (fits_of_lt hlt) hd, ih hds]
    next hge => rw [step_of_le (by omega) hd, ih hds, Nat.add_zero]

/-! ## The digits that are lost -/

theorem extend_eq : b.extend n ds = n * b.radix ^ ds.length + b.extend 0 ds := by
  induction ds generalizing n with
  | nil => rw [List.length_nil, Nat.pow_zero, Nat.mul_one]; rfl
  | cons d ds ih =>
    have hcons : ∀ m, b.extend m (d :: ds) = b.extend (m * b.radix + d) ds := fun _ => rfl
    rw [hcons, hcons, ih, ih (n := 0 * b.radix + d), List.length_cons, Nat.pow_succ]
    ring

theorem extend_zero_lt (hds : ∀ d ∈ ds, d < b.radix) : b.extend 0 ds < b.radix ^ ds.length := by
  induction ds with
  | nil => exact Nat.one_pos
  | cons d ds ih =>
    obtain ⟨hd, hds⟩ := List.forall_mem_cons.mp hds
    have hcons : b.extend 0 (d :: ds) = b.extend (0 * b.radix + d) ds := rfl
    rw [hcons, extend_eq, Nat.zero_mul, Nat.zero_add, List.length_cons, Nat.pow_succ']
    calc d * b.radix ^ ds.length + b.extend 0 ds
        < d * b.radix ^ ds.length + b.radix ^ ds.length := Nat.add_lt_add_left (ih hds) _
      _ = (d + 1) * b.radix ^ ds.length := by rw [Nat.add_mul, Nat.one_mul]
      _ ≤ b.radix * b.radix ^ ds.length := Nat.mul_le_mul_right _ hd

theorem extendKept_of_le (hn : 2 ^ 53 ≤ n) : b.extendKept n ds = n * b.radix ^ ds.length := by
  induction ds generalizing n with
  | nil => rw [List.length_nil, Nat.pow_zero, Nat.mul_one]; rfl
  | cons d ds ih =>
    have hpos : 0 < b.radix := by cases b <;> decide
    rw [extendKept, if_neg hn.not_gt, Nat.add_zero, ih (hn.trans (Nat.le_mul_of_pos_right n hpos)),
      List.length_cons, Nat.pow_succ', Nat.mul_assoc]

theorem exists_front (hds : ∀ d ∈ ds, d < b.radix) (hn : 2 ^ 53 ≤ n) :
    ∃ front j d, 2 ^ 53 ≤ front ∧ d < 2 ^ j ∧ b.extendKept n ds = front * 2 ^ j ∧
      b.extend n ds = front * 2 ^ j + d := by
  obtain ⟨j, hradix, -⟩ := b.exists_radix
  have hlt := extend_zero_lt hds
  have hkept : b.extendKept n ds = n * b.radix ^ ds.length := extendKept_of_le hn
  have hextend : b.extend n ds = n * b.radix ^ ds.length + b.extend 0 ds := extend_eq
  rw [hradix, ← Nat.pow_mul] at hlt hkept hextend
  exact ⟨n, j * ds.length, b.extend 0 ds, hn, hlt, hkept, hextend⟩

/-- Either no digit is lost, or from some digit on the number has more than 53 bits and zeros stand for
the digits behind that. -/
theorem extendKept_cases (hds : ∀ d ∈ ds, d < b.radix) :
    b.extendKept n ds = b.extend n ds ∨
      ∃ front j d, 2 ^ 53 ≤ front ∧ d < 2 ^ j ∧ b.extendKept n ds = front * 2 ^ j ∧
        b.extend n ds = front * 2 ^ j + d := by
  rcases Nat.lt_or_ge n (2 ^ 53) with hlt | hge
  · induction ds generalizing n with
    | nil => exact .inl rfl
    | cons d ds ih =>
      have hds' := (List.forall_mem_cons.mp hds).2
      have hcons : b.extend n (d :: ds) = b.extend (n * b.radix + d) ds := rfl
      rw [hcons, extendKept, if_pos hlt]
      rcases Nat.lt_or_ge (n * b.radix + d) (2 ^ 53) with hlt' | hge
      · exact ih hds' hlt'
      · exact .inr (exists_front hds' hge)
  · exact .inr (exists_front hds hge)

end

theorem value_eq (b : Base) (digits : List Char) : b.value digits = Float.ofNat (b.kept digits) :=
  foldl_eq lt_radix_of_mem

/-- Without the digits that are lost, the number lies half way between two floats, and it is rounded
to the lower one. -/
def LosesTie (b : Base) (digits : List Char) : Prop :=
  b.kept digits < b.spelled digits ∧ Tied (b.kept digits) ∧ topBits (b.kept digits) % 2 = 0

instance (b : Base) (digits : List Char) : Decidable (b.LosesTie digits) :=
  inferInstanceAs (Decidable (_ ∧ _))

theorem value_eq_iff (b : Base) (digits : List Char) :
    b.value digits = Float.ofNat (b.spelled digits) ↔
      ¬ b.LosesTie digits ∨ 1024 ≤ (b.spelled digits).log2 := by
  rw [value_eq]
  have hlt : ∀ d ∈ digits.filterMap b.digit?, d < b.radix := lt_radix_of_mem
  rcases extendKept_cases (n := 0) hlt with hsame | ⟨front, j, d, hfront, hd, hkept, hspelled⟩
  · have hsame : b.kept digits = b.spelled digits := hsame
    rw [LosesTie, hsame]
    exact iff_of_true rfl (.inl fun h => Nat.lt_irrefl _ h.1)
  · have hkept : b.kept digits = front * 2 ^ j := hkept
    have hspelled : b.spelled digits = front * 2 ^ j + d := hspelled
    obtain ⟨-, htop, -⟩ := topBits_append (show 2 ^ 52 ≤ front by omega) (Nat.two_pow_pos j)
    rw [Nat.add_zero] at htop
    rw [LosesTie, hkept, hspelled, htop, tied_mul_two_pow hfront, Nat.lt_add_right_iff_pos]
    exact ofNat_append hfront hd

/-- **What a number in another base is worth.** It is read as one number token. Its value is the float
of the number that it spells with zeros for the digits behind a sum of more than 53 bits; the decimal
numerals of the spelled number, with leading zeros or without, have the float nearest to that number,
ties to even and infinity from half way beyond the greatest float on. The two values are one float
unless the digits that are lost would have tipped a tie, and also then if the number has more than
1024 bits. -/
theorem value_correct {b : Base} {mark : Char} {digits : List Char}
    (hmark : ofMark? mark = some b) (hdigits : ∀ c ∈ digits, b.isDigit c = true) (hne : digits ≠ []) :
    IsLiteral (b.value digits) (String.ofList ('0' :: mark :: digits)) ∧
    b.value digits = Float.ofNat (b.kept digits) ∧
    (∀ decimal, decimal ≠ [] → (∀ c ∈ decimal, Decimal.isDigit c = true) →
      Decimal.naturalValue decimal = b.spelled digits →
      IsLiteral (Float.ofNat (b.spelled digits)) (String.ofList decimal)) ∧
    IsNearest (b.spelled digits) (Float.ofNat (b.spelled digits)) ∧
    (b.value digits = Float.ofNat (b.spelled digits) ↔
      ¬ b.LosesTie digits ∨ 1024 ≤ (b.spelled digits).log2) := by
  refine ⟨?_, b.value_eq digits, fun decimal hne' hdecimal hvalue => ?_, isNearest_ofNat _,
    b.value_eq_iff digits⟩
  · rw [isLiteral_iff, String.toList_ofList]
    exact .radix hmark hdigits hne
  · have hliteral := Decimal.isLiteral_pointed hne' (show ∀ c ∈ decimal ++ [], _ by simpa using hdecimal)
    rw [List.append_nil, hvalue] at hliteral
    exact hliteral

/-- The digits of `2 ^ 57 + 17` in base sixteen. -/
def tyingDigits : List Char :=
  '2' :: List.replicate 12 '0' ++ ['1', '1']

/-- The last digit of `0x200000000000011` is lost. Before it stands `2 ^ 53 + 1`, half way between two
floats, so the value is `2 ^ 57`, while the float nearest to the number is `2 ^ 57 + 32`. -/
theorem value_correct_tie :
    IsLiteral (sixteen.value tyingDigits) "0x200000000000011" ∧
    sixteen.value tyingDigits = Float.ofNat 144115188075855872 ∧
    IsLiteral (Float.ofNat 144115188075855889) "144115188075855889" ∧
    sixteen.value tyingDigits ≠ Float.ofNat 144115188075855889 := by
  have hmark : ofMark? 'x' = some sixteen := rfl
  have hdigits : ∀ c ∈ tyingDigits, sixteen.isDigit c = true :=
    List.all_eq_true.mp (by decide +kernel)
  have hne : tyingDigits ≠ [] := List.cons_ne_nil _ _
  have hspelled : sixteen.spelled tyingDigits = 144115188075855889 := by decide +kernel
  have hkept : sixteen.kept tyingDigits = 144115188075855888 := by decide +kernel
  have hties : sixteen.LosesTie tyingDigits := by decide +kernel
  obtain ⟨hradix, hvalue, hdecimal, -, hiff⟩ := value_correct hmark hdigits hne
  have hlower : Float.ofNat 144115188075855888 = Float.ofNat 144115188075855872 :=
    ofNat_eq_ofNat.mpr (.inl (by decide +kernel))
  rw [hkept, hlower] at hvalue
  rw [hspelled] at hdecimal hiff
  refine ⟨hradix, hvalue, ?_, fun h => ?_⟩
  · exact hdecimal "144115188075855889".toList (by decide) (List.all_eq_true.mp (by decide +kernel))
      (by decide +kernel)
  · rcases hiff.mp h with h | h
    · exact h hties
    · exact absurd h (by decide)

end Base
end Abacus
