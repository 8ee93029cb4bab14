import Mathlib
import Abacus.Proofs.Float.Special

/-!
# Comparing and adding floats from either side

A comparison turns round with its sides, and a sum does not depend on their order. So of two floats
that are no NaN one is less, or they are equal but for the sign of a zero (`lt_trichotomy`).
-/
namespace Abacus.Floats

open Float.Model Float.Model.UnpackedFloat

/-! ## Unpacked floats -/

theorem compare_swap (u v : UnpackedFloat) : u.compare v = (v.compare u).map Ordering.swap := by
  have hsign : ∀ s t : Sign, compare s t = (compare t s).swap := by
    intro s t
    cases s <;> cases t <;> rfl
  have hmagnitude : ∀ (e e' : Int) (m m' : Nat), (compare e e').then (compare m m') =
      ((compare e' e).then (compare m' m)).swap := by
    intro e e' m m'
    rw [Ordering.swap_then, ← Std.OrientedCmp.eq_swap, ← Std.OrientedCmp.eq_swap]
  cases u with
  | notANumber => cases v <;> rfl
  | infinity s =>
    cases v with
    | infinity t => exact congrArg some (hsign s t)
    | _ => cases s <;> rfl
  | zero s =>
    cases v with
    | infinity t | finite t m e hm => cases t <;> rfl
    | _ => rfl
  | finite s m e hm =>
    cases v with
    | notANumber => cases s <;> rfl
    | infinity t => cases s <;> cases t <;> rfl
    | zero t => cases s <;> rfl
    | finite t m' e' hm' =>
      cases s with
      | positive =>
        cases t with
        | positive => exact congrArg some (hmagnitude e e' m m')
        | negative => rfl
      | negative =>
        cases t with
        | positive => rfl
        | negative => exact congrArg (fun o => some (Ordering.swap o)) (hmagnitude e e' m m')

/-! ## Floats -/

variable {x y : Float}

theorem add_comm (x y : Float) : x + y = y + x := by
  change Float.ofModel (.pack (UnpackedFloat.add Format.binary64 x.toModel.unpack _)) =
    Float.ofModel (.pack (UnpackedFloat.add Format.binary64 y.toModel.unpack _))
  rw [unpacked_add_comm]

theorem lt_iff_compare : x < y ↔ x.toModel.unpack.compare y.toModel.unpack = some .lt := by
  change decide (x.toModel < y.toModel) = true ↔ _
  rw [decide_eq_true_iff]
  change (x.toModel.unpack.compare y.toModel.unpack == some .lt) = true ↔ _
  rw [beq_iff_eq]

theorem lt_asymm (h : x < y) : ¬y < x := by
  rw [lt_iff_compare] at h ⊢
  rw [compare_swap, h]
  rintro ⟨⟩

theorem isSome_compare {u v : UnpackedFloat} (hu : u ≠ .notANumber) (hv : v ≠ .notANumber) :
    (u.compare v).isSome = true := by
  cases u with
  | notANumber => exact absurd rfl hu
  | infinity s =>
    cases v with
    | notANumber => exact absurd rfl hv
    | infinity t => rfl
    | _ => cases s <;> rfl
  | zero s =>
    cases v with
    | notANumber => exact absurd rfl hv
    | infinity t | finite t m e hm => cases t <;> rfl
    | zero t => rfl
  | finite s m e hm =>
    cases v with
    | notANumber => exact absurd rfl hv
    | infinity t => cases s <;> cases t <;> rfl
    | zero t => cases s <;> rfl
    | finite t m' e' hm' => cases s <;> cases t <;> rfl

theorem ne_notANumber_of_isNaN (h : x.isNaN = false) : x.toModel.unpack ≠ .notANumber := by
  intro hunpack
  rw [isNaN_iff.mpr hunpack] at h
  cases h

/-- Of two numbers or infinities one is less, or they are equal. -/
theorem lt_trichotomy (hx : x.isNaN = false) (hy : y.isNaN = false) :
    x < y ∨ (x == y) = true ∨ y < x := by
  obtain ⟨o, ho⟩ := Option.isSome_iff_exists.mp
    (isSome_compare (ne_notANumber_of_isNaN hx) (ne_notANumber_of_isNaN hy))
  have hback : y.toModel.unpack.compare x.toModel.unpack = some o.swap := by
    rw [compare_swap, ho]
    rfl
  cases o with
  | lt => exact .inl (lt_iff_compare.mpr ho)
  | eq =>
    refine .inr (.inl ?_)
    change (x.toModel.unpack.compare y.toModel.unpack == some .eq) = true
    rw [ho]
    rfl
  | gt => exact .inr (.inr (lt_iff_compare.mpr hback))

theorem sameValue_of_beq (h : (x == y) = true) :
    SameValue x.toModel.unpack y.toModel.unpack := by
  obtain ⟨-, -, heq | ⟨hx, hy⟩ | ⟨hx, hy⟩⟩ := (beq_iff_ne_notANumber_and_eq _ _).mp h
  · exact .inl heq
  · exact .inr ⟨_, _, hx, hy⟩
  · exact .inr ⟨_, _, hx, hy⟩

theorem isNaN_abs_eq_false (h : x.isNaN = false) : x.abs.isNaN = false := by
  have hunpack := ne_notANumber_of_isNaN h
  have habs : x.toModel.unpack.abs ≠ .notANumber := by
    cases hx : x.toModel.unpack with
    | notANumber => exact absurd hx hunpack
    | _ => rintro ⟨⟩
  rw [Bool.eq_false_iff]
  exact fun hnan => unpack_pack_ne_notANumber habs (isNaN_iff.mp hnan)

/-- A magnitude is not the negative zero. -/
theorem abs_ne_negativeZero (x : Float) : x.abs ≠ -0 := by
  intro h
  have hsign : ∀ u : UnpackedFloat,
      unpackSign (UnpackedFloat.pack Format.binary64 u.abs) = Sign.positive.toBitVec := by
    intro u
    cases u with
    | notANumber => rfl
    | infinity s => exact unpackSign_packComponents _ _ _
    | zero s => exact unpackSign_packComponents _ _ _
    | finite s m e hm =>
      simp only [UnpackedFloat.abs, UnpackedFloat.pack, packedInfinity]
      split
      · exact unpackSign_packComponents _ _ _
      · split <;> exact unpackSign_packComponents _ _ _
  have hbits : UnpackedFloat.pack Format.binary64 x.toModel.unpack.abs =
      UnpackedFloat.pack Format.binary64 (.zero .negative) :=
    congrArg (fun y : Float => y.toModel.toBits.toBitVec) h
  have hpositive := hsign x.toModel.unpack
  rw [hbits] at hpositive
  cases hpositive

theorem abs_eq_of_beq (h : (x.abs == y.abs) = true) : x.abs = y.abs := by
  obtain ⟨-, -, heq | ⟨-, hy⟩ | ⟨hx, -⟩⟩ := Float.beq_iff_ne_nan_and_eq.mp h
  · exact heq
  · exact absurd hy (abs_ne_negativeZero y)
  · exact absurd hx (abs_ne_negativeZero x)

theorem abs_beq_comm (h : (x.abs == y.abs) = true) : (y.abs == x.abs) = true := by
  have habs := abs_eq_of_beq h
  rw [habs] at h ⊢
  exact h

end Abacus.Floats
