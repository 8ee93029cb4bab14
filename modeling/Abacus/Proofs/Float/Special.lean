import Abacus.Proofs.Floats

/-!
# NaN and the zeros in arithmetic

A sum, a difference or a product with NaN is NaN, and so is not zero. The two zeros are equal, and
an operation that takes one of them for the other comes to the same float or again to a zero. Both
are said of an operation on unpacked floats (`Robust`) before they are said of floats. Together they
make arithmetic monotone in the order that has NaN below everything and does not tell the zeros
apart (`Refines`).
-/
namespace Abacus.Floats

open Float.Model Float.Model.UnpackedFloat

/-! ## Unpacked floats -/

/-- The same unpacked float but for the sign of a zero. -/
def SameValue (u v : UnpackedFloat) : Prop :=
  u = v ∨ ∃ s t, u = .zero s ∧ v = .zero t

theorem SameValue.refl (u : UnpackedFloat) : SameValue u u :=
  .inl rfl

theorem SameValue.zeros (s t : Sign) : SameValue (.zero s) (.zero t) :=
  .inr ⟨s, t, rfl, rfl⟩

theorem SameValue.trans {u v w : UnpackedFloat} (h : SameValue u v) (h' : SameValue v w) :
    SameValue u w := by
  obtain rfl | ⟨s, t, rfl, rfl⟩ := h
  · exact h'
  · obtain rfl | ⟨s', t', -, rfl⟩ := h'
    · exact .zeros s t
    · exact .zeros s t'

/-- What does not look at the sign of a zero is the same of both. -/
theorem SameValue.congr {γ : Type} {u v : UnpackedFloat} (h : SameValue u v)
    (f : UnpackedFloat → γ) (hf : ∀ s t, f (.zero s) = f (.zero t)) : f u = f v := by
  obtain rfl | ⟨s, t, rfl, rfl⟩ := h
  · rfl
  · exact hf s t

theorem SameValue.unpack_pack {u v : UnpackedFloat} (h : SameValue u v) :
    SameValue (Float.Model.pack u).unpack (Float.Model.pack v).unpack := by
  obtain rfl | ⟨s, t, rfl, rfl⟩ := h
  · exact .refl _
  · cases s <;> cases t <;> exact .zeros _ _

/-- An operation to which NaN is NaN on either side and a zero is a zero. -/
structure Robust (op : UnpackedFloat → UnpackedFloat → UnpackedFloat) : Prop where
  left : ∀ v, op .notANumber v = .notANumber
  right : ∀ u, op u .notANumber = .notANumber
  zero_left : ∀ s t v, SameValue (op (.zero s) v) (op (.zero t) v)
  zero_right : ∀ u s t, SameValue (op u (.zero s)) (op u (.zero t))

/-- A commutative operation need be looked at from its left side only. -/
theorem Robust.of_comm {op : UnpackedFloat → UnpackedFloat → UnpackedFloat}
    (hcomm : ∀ u v, op u v = op v u) (hleft : ∀ v, op .notANumber v = .notANumber)
    (hzero : ∀ s t v, SameValue (op (.zero s) v) (op (.zero t) v)) : Robust op where
  left := hleft
  right u := by rw [hcomm, hleft]
  zero_left := hzero
  zero_right u s t := by rw [hcomm u, hcomm u]; exact hzero s t u

theorem Robust.neg_right {op : UnpackedFloat → UnpackedFloat → UnpackedFloat} (hop : Robust op) :
    Robust fun u v => op u v.neg where
  left v := hop.left v.neg
  right u := hop.right u
  zero_left s t v := hop.zero_left s t v.neg
  zero_right u s t := hop.zero_right u (-s) (-t)

theorem robust_add : Robust (UnpackedFloat.add Format.binary64) := by
  refine .of_comm (unpacked_add_comm _) (fun _ => by simp only [UnpackedFloat.add]) fun s t v => ?_
  cases v with
  | zero r => simp only [UnpackedFloat.add]; split <;> split <;> exact .zeros _ _
  | _ => exact .inl (by simp only [UnpackedFloat.add])

theorem robust_sub : Robust (UnpackedFloat.sub Format.binary64) := by
  have hsub : UnpackedFloat.sub Format.binary64 = fun u v => UnpackedFloat.add Format.binary64 u v.neg :=
    funext₂ (unpacked_sub_eq Format.binary64)
  exact hsub ▸ robust_add.neg_right

theorem robust_mul : Robust (UnpackedFloat.mul Format.binary64) := by
  refine .of_comm (unpacked_mul_comm _) (fun _ => by simp only [UnpackedFloat.mul]) fun s t v => ?_
  cases v with
  | zero r => exact .zeros _ _
  | finite r m e hm => exact .zeros _ _
  | _ => exact .inl (by simp only [UnpackedFloat.mul])

theorem Robust.congr {op : UnpackedFloat → UnpackedFloat → UnpackedFloat} (hop : Robust op)
    {u u' v v' : UnpackedFloat} (hu : SameValue u u') (hv : SameValue v v') :
    SameValue (op u v) (op u' v') := by
  have hleft : SameValue (op u v) (op u' v) := by
    obtain rfl | ⟨s, t, rfl, rfl⟩ := hu
    · exact .refl _
    · exact hop.zero_left s t v
  have hright : SameValue (op u' v) (op u' v') := by
    obtain rfl | ⟨s, t, rfl, rfl⟩ := hv
    · exact .refl _
    · exact hop.zero_right u' s t
  exact hleft.trans hright

/-! ## Floats -/

variable {x x' y y' : Float}

theorem isNaN_iff : x.isNaN = true ↔ x.toModel.unpack = .notANumber := by
  change x.toModel.unpack.isNaN = true ↔ _
  cases x.toModel.unpack <;> simp [UnpackedFloat.isNaN]

/-- The floats are equal, if zeros are, unless the first one is NaN. -/
def Refines (x y : Float) : Prop :=
  x.isNaN = true ∨ SameValue x.toModel.unpack y.toModel.unpack

theorem Refines.refl (x : Float) : Refines x x :=
  .inr (.refl _)

theorem Robust.isNaN {op : UnpackedFloat → UnpackedFloat → UnpackedFloat} (hop : Robust op)
    (h : x.isNaN = true ∨ y.isNaN = true) :
    (Float.ofModel (.pack (op x.toModel.unpack y.toModel.unpack))).isNaN = true := by
  rw [isNaN_iff, isNaN_iff] at h
  rw [isNaN_iff]
  rcases h with h | h
  · rw [h, hop.left, unpack_pack_notANumber]
  · rw [h, hop.right, unpack_pack_notANumber]

theorem isNaN_add (h : x.isNaN = true ∨ y.isNaN = true) : (x + y).isNaN = true :=
  robust_add.isNaN h

theorem isNaN_sub (h : x.isNaN = true ∨ y.isNaN = true) : (x - y).isNaN = true :=
  robust_sub.isNaN h

theorem bne_zero_of_isNaN (h : x.isNaN = true) : (x != 0) = true := by
  have hbeq : (x == 0) = false := by
    change (x.toModel.unpack.compare (0 : Float).toModel.unpack == some .eq) = false
    rw [isNaN_iff.mp h]
    rfl
  rw [bne, hbeq, Bool.not_false]

theorem Robust.refines {op : UnpackedFloat → UnpackedFloat → UnpackedFloat} (hop : Robust op)
    (hx : Refines x x') (hy : Refines y y') :
    Refines (.ofModel (.pack (op x.toModel.unpack y.toModel.unpack)))
      (.ofModel (.pack (op x'.toModel.unpack y'.toModel.unpack))) := by
  rcases hx with hx | hx
  · exact .inl (hop.isNaN (.inl hx))
  · rcases hy with hy | hy
    · exact .inl (hop.isNaN (.inr hy))
    · exact .inr (hop.congr hx hy).unpack_pack

theorem Refines.add (hx : Refines x x') (hy : Refines y y') : Refines (x + y) (x' + y') :=
  robust_add.refines hx hy

theorem Refines.sub (hx : Refines x x') (hy : Refines y y') : Refines (x - y) (x' - y') :=
  robust_sub.refines hx hy

theorem Refines.mul (hx : Refines x x') (hy : Refines y y') : Refines (x * y) (x' * y') :=
  robust_mul.refines hx hy

/-- Zero times anything is a zero or NaN. -/
theorem refines_zero_mul (x : Float) : Refines (0 * x) 0 := by
  have hzero : (0 : Float).toModel.unpack = .zero .positive := rfl
  change (Float.ofModel (.pack (UnpackedFloat.mul Format.binary64 (0 : Float).toModel.unpack
    x.toModel.unpack))).isNaN = true ∨ SameValue (Float.Model.pack (UnpackedFloat.mul Format.binary64
      (0 : Float).toModel.unpack x.toModel.unpack)).unpack (Float.Model.pack (.zero .positive)).unpack
  rw [hzero]
  cases x.toModel.unpack with
  | notANumber => exact .inl rfl
  | infinity s => exact .inl (isNaN_iff.mpr (by simp only [UnpackedFloat.mul, unpack_pack_notANumber]))
  | zero s => exact .inr (SameValue.zeros _ _).unpack_pack
  | finite s m e hm => exact .inr (SameValue.zeros _ _).unpack_pack

/-! ## What the sign of a zero does not change -/

section
variable (h : SameValue x.toModel.unpack y.toModel.unpack)
include h

theorem abs_congr : x.abs = y.abs :=
  h.congr (fun u => Float.ofModel (.pack u.abs)) fun _ _ => rfl

theorem isNaN_congr : x.isNaN = y.isNaN :=
  h.congr UnpackedFloat.isNaN fun _ _ => rfl

theorem bne_zero_congr : (x != 0) = (y != 0) :=
  h.congr (fun u => !(u.compare (0 : Float).toModel.unpack == some .eq)) fun _ _ => rfl

end

theorem Refines.trans {z : Float} (h : Refines x y) (h' : Refines y z) : Refines x z := by
  rcases h with h | h
  · exact .inl h
  · rcases h' with h' | h'
    · exact .inl ((isNaN_congr h).trans h')
    · exact .inr (h.trans h')

theorem isNaN_abs (h : x.isNaN = true) : x.abs.isNaN = true := by
  change (Float.ofModel (.pack x.toModel.unpack.abs)).isNaN = true
  rw [isNaN_iff.mp h]
  rfl

end Abacus.Floats
