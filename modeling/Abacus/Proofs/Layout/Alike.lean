import Abacus.Proofs.Floats
import Abacus.Proofs.Layout.Readable
import Abacus.Syntax.Alike

/-!
# Readable trees are alike if they differ in their ids alone

Two trees are compared literal by literal, and a literal with the value NaN would not even be equal
to itself. But the value of a literal that was read is never NaN: a decimal is a natural number
times or divided by a power of ten, and a number in another base is added up from finite floats.
-/
namespace Abacus

open Floats

/-! ## Literals are no NaN -/

theorem Decimal.isNumber_of_unsigned? {text : List Char} {v : Float} (h : unsigned? text = some v) :
    IsNumber v := by
  unfold unsigned? at h
  simp only [Option.bind_eq_bind, Option.bind_eq_some_iff] at h
  obtain ⟨⟨whole, rest⟩, -, ⟨fraction, rest'⟩, -, exponent, -, h⟩ := h
  cases h
  exact isNumber_ofScientific _ _ _

theorem Base.isNumber_value (b : Base) (digits : List Char) : IsNumber (b.value digits) := by
  have hradix : isRegular (Float.ofNat b.radix) = true := by cases b <;> rfl
  have hdigit : ∀ c d, b.digit? c = some d → (Float.ofNat d).isFinite = true := by
    intro c d h
    have hlt : d < b.radix := by
      have := (Option.filter_eq_some_iff.mp h).2
      simpa using this
    have hsixteen : b.radix ≤ 16 := by cases b <;> decide
    rcases Nat.eq_zero_or_pos d with rfl | hpos
    · rfl
    · exact isFinite_ofNat hpos (by omega)
  unfold Base.value
  have hzero : IsNumber 0 := nofun
  generalize (0 : Float) = sum at hzero
  induction digits generalizing sum with
  | nil => exact hzero
  | cons c rest ih =>
    cases hc : b.digit? c with
    | none => rw [List.filterMap_cons_none hc]; exact ih sum hzero
    | some d =>
      rw [List.filterMap_cons_some hc, List.foldl_cons]
      exact ih _ ((hzero.mul hradix).add (hdigit c d hc))

theorem Lexeme.Numeral.isNumber {text : List Char} {v : Float} (h : Numeral text v) :
    IsNumber v := by
  cases h with
  | radix => exact Base.isNumber_value _ _
  | decimal rest hc hv => exact Decimal.isNumber_of_unsigned? hv

theorem IsLiteral.beq_self {v : Float} {source : String} (h : IsLiteral v source) :
    (v == v) = true :=
  (isLiteral_iff.mp h).isNumber.beq_self

/-! ## Trees without ids -/

mutual

theorem Expr.alike_bare : ∀ e : Expr, e.Readable → ∀ e' : Expr, e'.bare = e.bare → e.alike e' = true
  | .number _ v _, h, e', heq => by
    obtain ⟨text, rfl, hliteral⟩ := h
    cases e' <;> cases heq
    simp only [Expr.alike, hliteral.beq_self, beq_self_eq_true, Bool.and_self]
  | .var _ _, _, e', heq => by
    cases e' <;> cases heq
    exact beq_self_eq_true _
  | .binary _ op left right, h, e', heq => by
    cases e' with
    | binary id' op' left' right' =>
      injection heq with _ hop hleft hright
      simp only [Expr.alike, hop, left.alike_bare h.1 left' hleft,
        right.alike_bare h.2 right' hright, beq_self_eq_true, Bool.and_self]
    | _ => cases heq
  | .negate _ operand, h, e', heq => by
    cases e' with
    | negate id' operand' =>
      injection heq with _ hoperand
      exact operand.alike_bare h operand' hoperand
    | _ => cases heq
  | .call _ f args, h, e', heq => by
    cases e' with
    | call id' f' args' =>
      injection heq with _ hf hargs
      simp only [Expr.alike, hf, Expr.alikeAll_bareAll args h.2 args' hargs, beq_self_eq_true,
        Bool.and_self]
    | _ => cases heq

theorem Expr.alikeAll_bareAll : ∀ es : List Expr, Expr.ReadableAll es →
    ∀ es' : List Expr, Expr.bareAll es' = Expr.bareAll es → Expr.alikeAll es es' = true
  | [], _, es', heq => by
    cases es' with
    | nil => rfl
    | cons => cases heq
  | e :: rest, h, es', heq => by
    cases es' with
    | nil => cases heq
    | cons e' rest' =>
      injection heq with he hrest
      simp only [Expr.alikeAll, e.alike_bare h.1 e' he, Expr.alikeAll_bareAll rest h.2 rest' hrest,
        Bool.and_self]

end

mutual

theorem Stmt.alike_bare : ∀ s : Stmt, s.Readable → ∀ s' : Stmt, s'.bare = s.bare → s.alike s' = true
  | .define _ f params _ body, h, s', heq => by
    cases s' with
    | define id' f' params' bodyId' body' =>
      injection heq with _ hf hparams _ hbody
      have hnames := congrArg ParamList.names hparams
      rw [Grammar.names_paramList, Grammar.names_paramList] at hnames
      simp only [Stmt.alike, hf, hnames, Stmt.alikeAll_bareAll body h.2.2.2 body' hbody,
        beq_self_eq_true, Bool.and_self]
    | _ => cases heq
  | .assign _ x value, h, s', heq => by
    cases s' with
    | assign id' x' value' =>
      injection heq with _ hx hvalue
      simp only [Stmt.alike, hx, value.alike_bare h.2 value' hvalue, beq_self_eq_true,
        Bool.and_self]
    | _ => cases heq
  | .expr e, h, s', heq => by
    cases s' with
    | expr e' =>
      injection heq with he
      exact e.alike_bare h e' he
    | _ => cases heq

theorem Stmt.alikeAll_bareAll : ∀ ss : List Stmt, Stmt.ReadableAll ss →
    ∀ ss' : List Stmt, Stmt.bareAll ss' = Stmt.bareAll ss → Stmt.alikeAll ss ss' = true
  | [], _, ss', heq => by
    cases ss' with
    | nil => rfl
    | cons => cases heq
  | s :: rest, h, ss', heq => by
    cases ss' with
    | nil => cases heq
    | cons s' rest' =>
      injection heq with hs hrest
      simp only [Stmt.alikeAll, s.alike_bare h.1 s' hs, Stmt.alikeAll_bareAll rest h.2 rest' hrest,
        Bool.and_self]

end

/-- A readable program is like every program that differs from it in its ids alone. -/
theorem Program.alike_of_bareAll_eq {p q : Program} (h : p.Readable)
    (hbare : Stmt.bareAll q.stmts = Stmt.bareAll p.stmts) : p.alike q = true :=
  Stmt.alikeAll_bareAll p.stmts h q.stmts hbare

end Abacus
