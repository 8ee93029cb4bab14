import Abacus.Proofs.Grammar.Extent
import Abacus.Proofs.Layout.Readable
import Abacus.Proofs.Layout.Spelling

/-!
# The text of an expression is read as the expression

`Writes tight text e` says that a text spells tokens that are derived as the tree `e` in a place
where every operator of precedence below `tight` is in brackets. In such a place with `tight ≥ 1`
whatever stands behind the text is left alone. With `tight = 0` the text may end with the operand of
a minus sign, so there no operator may follow. `Expr.writes` follows the layout: it puts brackets
around a chain or a minus sign exactly where its level would not be high enough.
-/
namespace Abacus

open Grammar

def Writes (tight : Nat) (text : List Char) (e : Expr) : Prop :=
  ∃ kinds, Spells text kinds ∧ ∀ rest, (tight = 0 → NoOperator rest) →
    Expression .closed (max 1 tight) (kinds ++ rest) rest e

/-- The same for a list of arguments. -/
def WritesAll (text : List Char) (es : List Expr) : Prop :=
  ∃ kinds, Spells text kinds ∧ ∀ rest, NoOperator rest →
    Arguments .closed (kinds ++ rest) rest es

theorem Operator.char_sign (op : Operator) : op.sign.char = op.symbol := by
  cases op <;> rfl

namespace Writes

variable {text text' : List Char} {e e' : Expr} {tight : Nat}

/-- What is written for a tight place can stand in a looser one. -/
theorem loosen {looser : Nat} (hpos : 1 ≤ tight) (hle : looser ≤ tight) (h : Writes tight text e) :
    Writes looser text e := by
  obtain ⟨kinds, hspells, hderives⟩ := h
  refine ⟨kinds, hspells, fun rest _ => ?_⟩
  exact (hderives rest (by omega)).lower (by omega)

/-- Brackets around a text make it fit everywhere. -/
theorem grouped (htight : tight ≤ 4) (h : Writes 0 text e) :
    Writes tight ('(' :: (text ++ [')'])) e := by
  obtain ⟨kinds, hspells, hderives⟩ := h
  refine ⟨_, hspells.grouped, fun rest _ => ?_⟩
  have hinner := hderives (.symbol .closeParen :: rest) fun _ =>
    (Follow.closeParen (k := 1) rest).noOperator
  have hvalue := Expression.grouped hinner
  simp only [List.append_assoc, List.cons_append, List.nil_append]
  exact hvalue.lower (by omega)

/-- A text that fits a place of its own, put in brackets if it has to be. -/
theorem wrap {own : Nat} {brackets : Bool} (hown : Writes own text e) (htight : tight ≤ 4)
    (hbrackets : brackets = false → tight ≤ own) : Writes tight (Layout.wrap brackets text) e := by
  have hloose : Writes 0 text e := by
    rcases Nat.eq_zero_or_pos own with rfl | hpos
    · exact hown
    · exact hown.loosen hpos (Nat.zero_le _)
  cases brackets with
  | true => exact hloose.grouped htight
  | false =>
    rcases Nat.eq_zero_or_pos own with rfl | hpos
    · obtain rfl : tight = 0 := Nat.le_zero.mp (hbrackets rfl)
      exact hown
    · exact hown.loosen hpos (hbrackets rfl)

/-- An operator between two operands, the left one of which stands in a tighter place. -/
theorem chain (op : Operator) (h : Writes (op.precedence + 1) text e)
    (h' : Writes op.precedence text' e') :
    Writes op.precedence (text ++ ' ' :: op.symbol :: ' ' :: text') (.binary unnumbered op e e') := by
  obtain ⟨kinds, hspells, hderives⟩ := h
  obtain ⟨kinds', hspells', hderives'⟩ := h'
  have hpos := op.one_le_precedence
  refine ⟨_, op.char_sign ▸ hspells.between op.sign hspells', fun rest hrest => ?_⟩
  have hleft := hderives (.symbol op.sign :: (kinds' ++ rest)) (by omega)
  have hright := hderives' rest hrest
  rw [Nat.max_eq_right (by omega)] at hleft hright ⊢
  rw [List.append_assoc, List.cons_append]
  exact .chain op rfl hleft hright

/-- A minus sign takes everything up to where no operator follows. -/
theorem negated (h : Writes Layout.atom text e) :
    Writes 0 ('-' :: text) (.negate unnumbered e) := by
  obtain ⟨kinds, hspells, hderives⟩ := h
  refine ⟨_, hspells.behind .minus, fun rest hrest => ?_⟩
  have hoperand := (hderives rest nofun).lower (j := 1) (by decide)
  exact (Expression.negated hoperand (hrest rfl)).lower (by decide)

/-- A text that spells a value. -/
theorem of_value (htight : tight ≤ 4) {kinds : List TokenKind} (hspells : Spells text kinds)
    (h : ∀ rest, Expression .closed 4 (kinds ++ rest) rest e) : Writes tight text e :=
  ⟨kinds, hspells, fun rest _ => (h rest).lower (by omega)⟩

end Writes

/-- A coefficient directly before a variable. -/
theorem writes_juxtaposed {v : Float} {source x : String} (hv : IsLiteral v source)
    (hx : Lexeme.isName x.toList = true)
    (hmerges : Layout.merges source.toList x.toList = false) {tight : Nat} (htight : tight ≤ 4) :
    Writes tight (source.toList ++ x.toList)
      (.binary unnumbered .multiply (.number unnumbered v (some source)) (.var unnumbered x)) :=
  .of_value htight (Spells.juxtaposed hv hx hmerges) (Expression.juxtaposed v source x)

/-- Only a readable coefficient and a variable that it does not merge with are juxtaposed. -/
theorem Layout.juxtaposed?_eq_some {op : Operator} {left right : Expr} {text : List Char}
    (h : juxtaposed? op left right = some text) (hleft : left.Readable) :
    ∃ id id' v source x, op = .multiply ∧ left = .number id v (some source) ∧ right = .var id' x ∧
      IsLiteral v source ∧ merges source.toList x.toList = false ∧
      text = source.toList ++ x.toList := by
  unfold juxtaposed? at h
  split at h
  next id v source id' x =>
    obtain ⟨source, rfl, hliteral⟩ := hleft
    dsimp only [numeral] at h
    split at h
    next => cases h
    next hnot =>
      cases h
      simp only [Bool.or_eq_true, not_or, Bool.not_eq_true] at hnot
      exact ⟨id, id', v, source, x, rfl, rfl, rfl, hliteral, hnot.2, rfl⟩
  next => cases h

mutual

/-- The text of a readable expression is read as the expression. -/
theorem Expr.writes : ∀ e : Expr, e.Readable → ∀ {tight : Nat}, tight ≤ 4 →
    Writes tight (Layout.expr tight e) e.bare
  | .number id v source, h, tight, htight => by
    obtain ⟨text, rfl, hliteral⟩ := h
    have hwrap : Layout.expr tight (.number id v (some text)) = text.toList := by
      simp only [Layout.expr, Option.isNone_some, Bool.and_false, Bool.false_and, Layout.wrap,
        Bool.false_eq_true, if_false, Layout.numeral]
    rw [hwrap]
    exact .of_value htight (Spells.number hliteral) (Expression.number v text)
  | .var _ x, h, tight, htight => .of_value htight (Spells.name h) (Expression.var x)
  | .binary _ op left right, h, tight, htight => by
    unfold Layout.expr
    split
    next text hjuxtaposed =>
      obtain ⟨_, _, v, source, x, rfl, rfl, rfl, hliteral, hmerges, rfl⟩ :=
        Layout.juxtaposed?_eq_some hjuxtaposed h.1
      exact writes_juxtaposed hliteral h.2 hmerges htight
    next =>
      have hthree := op.precedence_le_three
      have hchain := Writes.chain op (left.writes h.1 (by omega)) (right.writes h.2 (by omega))
      exact hchain.wrap htight fun hbrackets => by simpa using hbrackets
  | .negate _ operand, h, tight, htight => by
    unfold Layout.expr
    refine (Writes.negated (operand.writes h (by decide))).wrap htight fun hbrackets => ?_
    simpa using hbrackets
  | .call _ f [], h, tight, htight =>
    .of_value htight (Spells.applied h.1 (.inl ⟨rfl, rfl⟩)) (Expression.emptyCall f)
  | .call _ f (arg :: args), h, tight, htight => by
    obtain ⟨kinds, hspells, hderives⟩ := Expr.writesAll (arg :: args) h.2 (List.cons_ne_nil _ _)
    refine .of_value htight (Spells.applied h.1 (.inr hspells)) fun rest => ?_
    simp only [List.append_assoc, List.cons_append, List.nil_append]
    exact .call f (hderives _ (Follow.closeParen (k := 1) rest).noOperator)

theorem Expr.writesAll : ∀ es : List Expr, Expr.ReadableAll es → es ≠ [] →
    WritesAll (Layout.join [',', ' '] (Layout.exprs es)) (Expr.bareAll es)
  | [], _, hne => absurd rfl hne
  | [e], h, _ => by
    obtain ⟨kinds, hspells, hderives⟩ := e.writes h.1 (Nat.zero_le 4)
    exact ⟨kinds, hspells, fun rest hrest => .one (hderives rest fun _ => hrest)⟩
  | e :: e' :: es, h, _ => by
    obtain ⟨kinds, hspells, hderives⟩ := e.writes h.1 (Nat.zero_le 4)
    obtain ⟨kinds', hspells', hderives'⟩ := Expr.writesAll (e' :: es) h.2 (List.cons_ne_nil _ _)
    refine ⟨_, hspells.comma hspells', fun rest hrest => ?_⟩
    have hfirst := hderives (.symbol .comma :: (kinds' ++ rest)) fun _ =>
      (Follow.comma (k := 1) _).noOperator
    rw [List.append_assoc, List.cons_append]
    exact .more hfirst (hderives' rest hrest)

end

end Abacus
