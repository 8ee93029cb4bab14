import Abacus.Proofs.Float.Writing
import Abacus.Proofs.Folding
import Abacus.Proofs.Layout.RoundTrip

/-!
# Computed literals

A computed literal is written as the shortest text of its value. That text reads back
(`Decimal.isLiteral_magnitude`), but there is no text of a negative number: its sign is read as an
operator. So what is read back from the text of a tree with computed literals is not that tree.
`respell` says which tree it is: a computed literal becomes one that was written, with a minus sign
before it if it is negative. The two trees have one text (`Stmt.layout_respell`), the respelled one
is readable (`Stmt.readable_respell`), and its code pushes the same numbers
(`Stmt.compile_respell_reduces`). Hence a program that can be written down is read back as one that
runs as it does (`Program.reads_layout_of_writable`).
-/
namespace Abacus

/-! ## The text of a float is a literal -/

namespace Decimal

section
variable {whole fraction : List Char} (hdigits : ∀ c ∈ whole ++ fraction, isDigit c = true)
include hdigits

theorem filter_pointed : (pointed whole fraction).filter (· != ',') = pointed whole fraction := by
  refine List.filter_eq_self.mpr fun c hc => ?_
  have hcases : isDigit c = true ∨ c = '.' := by
    unfold pointed at hc
    split at hc
    · exact .inl (hdigits c (List.mem_append_left _ hc))
    · rcases List.mem_append.mp hc with hc | hc
      · exact .inl (hdigits c (List.mem_append_left _ hc))
      · rcases List.mem_cons.mp hc with rfl | hc
        · exact .inr rfl
        · exact .inl (hdigits c (List.mem_append_right _ hc))
  rcases hcases with hdigit | rfl
  · have hbounds := isDigit_iff.mp hdigit
    rw [bne_iff_ne]
    rintro rfl
    exact absurd hbounds.1 (by decide)
  · rfl

/-- A text of digits with a point is one decimal number from end to end. -/
theorem decimalText_pointed : Lexeme.decimalText (pointed whole fraction) = pointed whole fraction := by
  have hwhole : ∀ c ∈ whole, isDigit c = true := fun c hc => hdigits c (List.mem_append_left _ hc)
  cases fraction with
  | nil =>
    have htake : whole.takeWhile isDigit = whole := List.takeWhile_eq_self_iff.mpr hwhole
    simp only [pointed, List.isEmpty_nil, if_true, Lexeme.decimalText, htake, List.drop_length]
    simp only [Lexeme.groups, List.length_nil, List.drop_nil, Lexeme.fraction, Lexeme.exponent,
      List.append_nil]
  | cons d ds =>
    have htake : (whole ++ '.' :: d :: ds).takeWhile isDigit = whole := by
      rw [List.takeWhile_append_of_pos hwhole]
      exact List.append_nil _
    have hfraction : (d :: ds).takeWhile isDigit = d :: ds :=
      List.takeWhile_eq_self_iff.mpr fun c hc => hdigits c (List.mem_append_right _ hc)
    have hgroups : Lexeme.groups ('.' :: d :: ds) = [] := Lexeme.groups_cons_of_ne (by decide)
    simp only [pointed, List.isEmpty_cons, Bool.false_eq_true, if_false, Lexeme.decimalText, htake,
      List.drop_left, hgroups, List.length_nil, List.drop_zero, Lexeme.fraction, hfraction,
      List.drop_length, Lexeme.exponent, List.append_nil]

end

/-- A text of digits with a point is a literal, and its value is the float nearest to the number that
it spells. -/
theorem isLiteral_pointed {whole fraction : List Char} (hne : whole ≠ [])
    (hdigits : ∀ c ∈ whole ++ fraction, isDigit c = true) :
    IsLiteral (nearest { digits := naturalValue (whole ++ fraction), power := -fraction.length })
      (String.ofList (pointed whole fraction)) := by
  have hdecimal := decimalText_pointed hdigits
  obtain ⟨c, rest, hcons, hc⟩ : ∃ c rest, pointed whole fraction = c :: rest ∧ isDigit c = true := by
    obtain ⟨c, tail, rfl⟩ := List.exists_cons_of_ne_nil hne
    have hc := hdigits c List.mem_cons_self
    cases fraction with
    | nil => exact ⟨c, tail, rfl, hc⟩
    | cons d ds => exact ⟨c, tail ++ '.' :: d :: ds, rfl, hc⟩
  rw [isLiteral_iff, String.toList_ofList]
  have hread := unsigned?_pointed hne hdigits
  rw [← filter_pointed hdigits, ← hdecimal, hcons] at hread
  have hnumeral := Lexeme.Numeral.decimal rest hc hread
  rwa [← hcons, hdecimal] at hnumeral

theorem isLiteral_magnitude {x : Float} (hx : x.isFinite = true) (hpos : isNegative x = false) :
    IsLiteral x (String.ofList (magnitude x)) := by
  obtain ⟨whole, fraction, htext, hne, hdigits, hread⟩ := unsigned?_magnitude hx hpos
  rw [htext, unsigned?_pointed hne hdigits] at hread
  rw [htext, ← Option.some.inj hread]
  exact isLiteral_pointed hne hdigits

section
variable {x : Float} (hx : x.isFinite = true)
include hx

theorem isNegative_neg : isNegative (-x) = !isNegative x := by
  simp only [isNegative, Floats.ofFloat_neg hx]

theorem magnitude_neg : magnitude (-x) = magnitude x := by
  simp only [magnitude, Floats.ofFloat_neg hx, Floats.isFinite_neg hx, hx]
  rfl

theorem renderChars_of_isFinite :
    renderChars x = if isNegative x then '-' :: magnitude x else magnitude x := by
  have hnan : x.isNaN = false := by
    change x.toModel.unpack.isNaN = false
    change x.toModel.unpack.isFinite = true at hx
    revert hx
    cases x.toModel.unpack <;> intro hx <;> first | rfl | cases hx
  simp only [renderChars, hnan, Bool.false_eq_true, if_false]

end
end Decimal

/-! ## Trees that can be written down -/

mutual

/-- Like a readable tree, but with finite literals that were computed. -/
def Expr.Writable : Expr → Prop
  | .number _ v none => v.isFinite = true
  | .number _ v (some text) => IsLiteral v text
  | .var _ x => Lexeme.isName x.toList = true
  | .binary _ _ left right => left.Writable ∧ right.Writable
  | .negate _ operand => operand.Writable
  | .call _ f args => Lexeme.isName f.toList = true ∧ Expr.WritableAll args

def Expr.WritableAll : List Expr → Prop
  | [] => True
  | e :: rest => e.Writable ∧ Expr.WritableAll rest

end

mutual

def Stmt.Writable : Stmt → Prop
  | .define _ f params _ body =>
    Lexeme.isName f.toList = true ∧ Builtin.ofName? f = none ∧
      (∀ x ∈ params.names, Lexeme.isName x.toList = true) ∧ Stmt.WritableAll body
  | .assign _ x value => Lexeme.isName x.toList = true ∧ value.Writable
  | .expr e => e.Writable

def Stmt.WritableAll : List Stmt → Prop
  | [] => True
  | s :: rest => s.Writable ∧ Stmt.WritableAll rest

end

/-- Every name is a name, every literal is read from its text or is finite, and no definition has the
name of a built-in function. -/
def Program.Writable (p : Program) : Prop :=
  Stmt.WritableAll p.stmts

mutual

theorem Expr.Readable.writable : ∀ {e : Expr}, e.Readable → e.Writable
  | .number _ _ _, ⟨_, rfl, hliteral⟩ => hliteral
  | .var _ _, h => h
  | .binary _ _ _ _, ⟨hleft, hright⟩ => ⟨hleft.writable, hright.writable⟩
  | .negate _ operand, h => Expr.Readable.writable (e := operand) h
  | .call _ _ _, ⟨hname, hargs⟩ => ⟨hname, Expr.writableAll_of_readableAll hargs⟩

theorem Expr.writableAll_of_readableAll : ∀ {es : List Expr},
    Expr.ReadableAll es → Expr.WritableAll es
  | [], _ => trivial
  | _ :: _, ⟨he, hes⟩ => ⟨he.writable, Expr.writableAll_of_readableAll hes⟩

end

mutual

theorem Stmt.Readable.writable : ∀ {s : Stmt}, s.Readable → s.Writable
  | .define _ _ _ _ _, ⟨hname, hbuiltin, hparams, hbody⟩ =>
    ⟨hname, hbuiltin, hparams, Stmt.writableAll_of_readableAll hbody⟩
  | .assign _ _ _, ⟨hname, hvalue⟩ => ⟨hname, hvalue.writable⟩
  | .expr e, h => Expr.Readable.writable (e := e) h

theorem Stmt.writableAll_of_readableAll : ∀ {ss : List Stmt},
    Stmt.ReadableAll ss → Stmt.WritableAll ss
  | [], _ => trivial
  | _ :: _, ⟨hs, hss⟩ => ⟨hs.writable, Stmt.writableAll_of_readableAll hss⟩

end

theorem Program.Readable.writable {p : Program} (h : p.Readable) : p.Writable :=
  Stmt.writableAll_of_readableAll h

/-! ## Folding keeps a tree writable -/

theorem Expr.writable_literalOr {kept : Expr} (h : kept.Writable) (next : NodeId)
    (value : Option Float) : (literalOr next value kept).1.Writable := by
  unfold literalOr
  cases value with
  | none => exact h
  | some v =>
    by_cases hfinite : v.isFinite = true
    · simp only [hfinite, if_true]
      exact hfinite
    · simp only [hfinite]
      exact h

mutual

theorem Expr.writable_foldFrom : ∀ (e : Expr) (next : NodeId), e.Writable →
    (e.foldFrom next).1.Writable
  | .number _ _ _, _, h => h
  | .var _ _, _, h => h
  | .binary _ _ left right, _, ⟨hleft, hright⟩ => by
    unfold Expr.foldFrom
    refine Expr.writable_literalOr ?_ _ _
    exact ⟨left.writable_foldFrom _ hleft, right.writable_foldFrom _ hright⟩
  | .negate _ operand, next, h => by
    unfold Expr.foldFrom
    refine Expr.writable_literalOr ?_ _ _
    exact operand.writable_foldFrom next h
  | .call _ _ args, _, ⟨hname, hargs⟩ => ⟨hname, Expr.writableAll_foldAllFrom args _ hargs⟩

theorem Expr.writableAll_foldAllFrom : ∀ (es : List Expr) (next : NodeId), Expr.WritableAll es →
    Expr.WritableAll (Expr.foldAllFrom next es).1
  | [], _, _ => trivial
  | e :: rest, _, ⟨he, hrest⟩ =>
    ⟨e.writable_foldFrom _ he, Expr.writableAll_foldAllFrom rest _ hrest⟩

end

mutual

theorem Stmt.writable_foldFrom : ∀ (s : Stmt) (next : NodeId), s.Writable →
    (s.foldFrom next).1.Writable
  | .define _ _ _ _ body, _, ⟨hname, hbuiltin, hparams, hbody⟩ =>
    ⟨hname, hbuiltin, hparams, Stmt.writableAll_foldAllFrom body _ hbody⟩
  | .assign _ _ value, _, ⟨hname, hvalue⟩ => ⟨hname, value.writable_foldFrom _ hvalue⟩
  | .expr e, next, h => e.writable_foldFrom next h

theorem Stmt.writableAll_foldAllFrom : ∀ (ss : List Stmt) (next : NodeId), Stmt.WritableAll ss →
    Stmt.WritableAll (Stmt.foldAllFrom next ss).1
  | [], _, _ => trivial
  | s :: rest, _, ⟨hs, hrest⟩ =>
    ⟨s.writable_foldFrom _ hs, Stmt.writableAll_foldAllFrom rest _ hrest⟩

end

theorem Program.writable_foldFrom {p : Program} (next : NodeId) (h : p.Writable) :
    (p.foldFrom next).1.Writable :=
  Stmt.writableAll_foldAllFrom p.stmts next h

/-! ## The tree that is read back -/

/-- A literal as it is read back from its text. -/
def Expr.respellNumber (id : NodeId) (v : Float) : Option String → Expr
  | some text => .number id v (some text)
  | none =>
    let text := some (String.ofList (Decimal.magnitude v))
    if Decimal.isNegative v then .negate id (.number id (-v) text) else .number id v text

mutual

def Expr.respell : Expr → Expr
  | .number id v source => Expr.respellNumber id v source
  | .var id x => .var id x
  | .binary id op left right => .binary id op left.respell right.respell
  | .negate id operand => .negate id operand.respell
  | .call id f args => .call id f (Expr.respellAll args)

def Expr.respellAll : List Expr → List Expr
  | [] => []
  | e :: rest => e.respell :: Expr.respellAll rest

end

mutual

def Stmt.respell : Stmt → Stmt
  | .define id f params bodyId body => .define id f params bodyId (Stmt.respellAll body)
  | .assign id x value => .assign id x value.respell
  | .expr e => .expr e.respell

def Stmt.respellAll : List Stmt → List Stmt
  | [] => []
  | s :: rest => s.respell :: Stmt.respellAll rest

end

/-- The program with computed literals as they are read back from their texts. -/
def Program.respell (p : Program) : Program :=
  { p with body := { p.body with stmts := Stmt.respellAll p.stmts } }

/-! ### It is readable -/

theorem Expr.readable_respellNumber {id : NodeId} {v : Float} {source : Option String}
    (h : (Expr.number id v source).Writable) : (Expr.respellNumber id v source).Readable := by
  cases source with
  | some text => exact ⟨text, rfl, h⟩
  | none =>
    have hfinite : v.isFinite = true := h
    unfold Expr.respellNumber
    cases hsign : Decimal.isNegative v with
    | true =>
      have hpos : Decimal.isNegative (-v) = false := by
        rw [Decimal.isNegative_neg hfinite, hsign]
        rfl
      have hliteral := Decimal.isLiteral_magnitude (Floats.isFinite_neg hfinite) hpos
      rw [Decimal.magnitude_neg hfinite] at hliteral
      exact ⟨_, rfl, hliteral⟩
    | false => exact ⟨_, rfl, Decimal.isLiteral_magnitude hfinite hsign⟩

mutual

theorem Expr.readable_respell : ∀ e : Expr, e.Writable → e.respell.Readable
  | .number _ _ _, h => Expr.readable_respellNumber h
  | .var _ _, h => h
  | .binary _ _ left right, ⟨hleft, hright⟩ =>
    ⟨left.readable_respell hleft, right.readable_respell hright⟩
  | .negate _ operand, h => operand.readable_respell h
  | .call _ _ args, ⟨hname, hargs⟩ => ⟨hname, Expr.readableAll_respellAll args hargs⟩

theorem Expr.readableAll_respellAll : ∀ es : List Expr, Expr.WritableAll es →
    Expr.ReadableAll (Expr.respellAll es)
  | [], _ => trivial
  | e :: rest, ⟨he, hrest⟩ => ⟨e.readable_respell he, Expr.readableAll_respellAll rest hrest⟩

end

mutual

theorem Stmt.readable_respell : ∀ s : Stmt, s.Writable → s.respell.Readable
  | .define _ _ _ _ body, ⟨hname, hbuiltin, hparams, hbody⟩ =>
    ⟨hname, hbuiltin, hparams, Stmt.readableAll_respellAll body hbody⟩
  | .assign _ _ value, ⟨hname, hvalue⟩ => ⟨hname, value.readable_respell hvalue⟩
  | .expr e, h => e.readable_respell h

theorem Stmt.readableAll_respellAll : ∀ ss : List Stmt, Stmt.WritableAll ss →
    Stmt.ReadableAll (Stmt.respellAll ss)
  | [], _ => trivial
  | s :: rest, ⟨hs, hrest⟩ => ⟨s.readable_respell hs, Stmt.readableAll_respellAll rest hrest⟩

end

/-! ### It has the same text -/

namespace Layout

theorem expr_respellNumber {id : NodeId} {v : Float} {source : Option String}
    (h : (Expr.number id v source).Writable) (tight : Nat) :
    expr tight (Expr.respellNumber id v source) = expr tight (.number id v source) := by
  cases source with
  | some text => rfl
  | none =>
    have hnumeral := Decimal.renderChars_of_isFinite (x := v) h
    unfold Expr.respellNumber
    cases hsign : Decimal.isNegative v with
    | true =>
      simp only [hsign, if_true] at hnumeral
      simp only [if_true, expr, numeral, hnumeral, hsign, String.toList_ofList, Option.isNone_some,
        Option.isNone_none, Bool.and_false, Bool.false_and, Bool.true_and, wrap]
      rfl
    | false =>
      simp only [hsign, Bool.false_eq_true, if_false] at hnumeral
      simp only [Bool.false_eq_true, if_false, expr, numeral, hnumeral, hsign, String.toList_ofList,
        Bool.false_and, wrap]

theorem juxtaposed?_of_left (op : Operator) {left : Expr} (h : left.value? = none) (right : Expr) :
    juxtaposed? op left right = none := by
  unfold juxtaposed?
  split
  next => cases h
  next => rfl

theorem juxtaposed?_of_right (op : Operator) (left : Expr) {right : Expr}
    (h : ∀ id x, right ≠ .var id x) : juxtaposed? op left right = none := by
  unfold juxtaposed?
  split
  next id x => exact absurd rfl (h id x)
  next => rfl

theorem respellNumber_ne_var (id : NodeId) (v : Float) (source : Option String) :
    ∀ id' x, Expr.respellNumber id v source ≠ .var id' x := by
  intro id' x h
  unfold Expr.respellNumber at h
  split at h
  · cases h
  · dsimp only at h
    split at h <;> cases h

/-- A computed coefficient stays a coefficient, unless it is negative, and then it is none. -/
theorem juxtaposed?_respellNumber (op : Operator) {id : NodeId} {v : Float} {source : Option String}
    (h : (Expr.number id v source).Writable) (right : Expr) :
    juxtaposed? op (Expr.respellNumber id v source) right =
      juxtaposed? op (.number id v source) right := by
  cases source with
  | some text => rfl
  | none =>
    have hnumeral := Decimal.renderChars_of_isFinite (x := v) h
    unfold Expr.respellNumber
    cases hsign : Decimal.isNegative v with
    | true =>
      rw [if_pos rfl, juxtaposed?_of_left op rfl]
      unfold juxtaposed?
      split
      next heq => cases heq; simp only [hsign, Bool.or_true, Bool.true_or, if_true]
      next => rfl
    | false =>
      simp only [hsign, Bool.false_eq_true, if_false] at hnumeral
      cases op <;> cases right <;> simp only [Bool.false_eq_true, if_false, juxtaposed?, numeral,
        hnumeral, String.toList_ofList]

theorem juxtaposed?_respell (op : Operator) : ∀ {left : Expr}, left.Writable → ∀ right : Expr,
    juxtaposed? op left.respell right.respell = juxtaposed? op left right
  | .number _ _ _, h, .var _ _ => juxtaposed?_respellNumber op h _
  | .var _ _, _, right | .binary _ _ _ _, _, right | .negate _ _, _, right | .call _ _ _, _, right =>
    (juxtaposed?_of_left op rfl _).trans (juxtaposed?_of_left op rfl _).symm
  | .number _ _ _, _, .number id v source =>
    (juxtaposed?_of_right op _ (respellNumber_ne_var id v source)).trans
      (juxtaposed?_of_right op _ fun _ _ h => by cases h).symm
  | .number _ _ _, _, .binary _ _ _ _ | .number _ _ _, _, .negate _ _
  | .number _ _ _, _, .call _ _ _ =>
    (juxtaposed?_of_right op _ fun _ _ h => by cases h).trans
      (juxtaposed?_of_right op _ fun _ _ h => by cases h).symm

end Layout

mutual

theorem Expr.layout_respell : ∀ e : Expr, e.Writable → ∀ tight : Nat,
    Layout.expr tight e.respell = Layout.expr tight e
  | .number _ _ _, h, tight => Layout.expr_respellNumber h tight
  | .var _ _, _, _ => rfl
  | .binary _ op left right, ⟨hleft, hright⟩, tight => by
    simp only [Expr.respell, Layout.expr, Layout.juxtaposed?_respell op hleft,
      left.layout_respell hleft, right.layout_respell hright]
  | .negate _ operand, h, tight => by
    simp only [Expr.respell, Layout.expr, operand.layout_respell h]
  | .call _ _ args, ⟨_, hargs⟩, tight => by
    simp only [Expr.respell, Layout.expr, Expr.layoutAll_respellAll args hargs]

theorem Expr.layoutAll_respellAll : ∀ es : List Expr, Expr.WritableAll es →
    Layout.exprs (Expr.respellAll es) = Layout.exprs es
  | [], _ => rfl
  | e :: rest, ⟨he, hrest⟩ => by
    simp only [Expr.respellAll, Layout.exprs, e.layout_respell he,
      Expr.layoutAll_respellAll rest hrest]

end

mutual

theorem Stmt.layout_respell : ∀ s : Stmt, s.Writable → ∀ depth : Nat,
    Layout.stmt depth s.respell = Layout.stmt depth s
  | .define _ _ _ _ [], _, _ => rfl
  | .define _ _ _ _ [single], ⟨_, _, _, hsingle, _⟩, depth => by
    simp only [Stmt.respell, Stmt.respellAll, Layout.stmt, single.layout_respell hsingle]
  | .define _ _ _ _ (first :: second :: rest), ⟨_, _, _, hbody⟩, depth => by
    have hall := Stmt.layoutAll_respellAll (first :: second :: rest) hbody (depth + 1)
    simp only [Stmt.respellAll] at hall
    simp only [Stmt.respell, Stmt.respellAll, Layout.stmt, hall]
  | .assign _ _ value, ⟨_, hvalue⟩, _ => by
    simp only [Stmt.respell, Layout.stmt, value.layout_respell hvalue]
  | .expr e, h, _ => e.layout_respell h 0

theorem Stmt.layoutAll_respellAll : ∀ ss : List Stmt, Stmt.WritableAll ss → ∀ depth : Nat,
    Layout.stmts depth (Stmt.respellAll ss) = Layout.stmts depth ss
  | [], _, _ => rfl
  | s :: rest, ⟨hs, hrest⟩, depth => by
    simp only [Stmt.respellAll, Layout.stmts, s.layout_respell hs depth,
      Stmt.layoutAll_respellAll rest hrest depth]

end

/-! ### It runs the same -/

theorem Expr.compile_respellNumber {id : NodeId} {v : Float} {source : Option String}
    (h : (Expr.number id v source).Writable) :
    Code.Reduces (Expr.respellNumber id v source).compile [.number v] := by
  cases source with
  | some text => exact .refl _
  | none =>
    unfold Expr.respellNumber
    cases hsign : Decimal.isNegative v with
    | true =>
      have hpushes := (Code.Reduces.refl [.number (-v)]).pushes.negate
      rw [Floats.neg_neg_of_isFinite h] at hpushes
      change Code.Reduces ([.number (-v)] ++ [.op .negate] ++ []) [.number v]
      exact .number hpushes .nil
    | false => exact .refl _

theorem Expr.length_respellAll (es : List Expr) : (Expr.respellAll es).length = es.length := by
  induction es with
  | nil => rfl
  | cons e rest ih => simp only [Expr.respellAll, List.length_cons, ih]

mutual

theorem Expr.compile_respell_reduces : ∀ e : Expr, e.Writable →
    Code.Reduces e.respell.compile e.compile
  | .number _ _ _, h => Expr.compile_respellNumber h
  | .var _ _, _ => .refl _
  | .binary _ _ left right, ⟨hleft, hright⟩ =>
    ((right.compile_respell_reduces hright).append (left.compile_respell_reduces hleft)).append
      (.refl _)
  | .negate _ operand, h => (operand.compile_respell_reduces h).append (.refl _)
  | .call _ _ args, ⟨_, hargs⟩ => by
    simp only [Expr.respell, Expr.compile, Expr.length_respellAll]
    exact (Expr.compileArgs_respell_reduces args hargs).append (.refl _)

theorem Expr.compileArgs_respell_reduces : ∀ es : List Expr, Expr.WritableAll es →
    Code.Reduces (Expr.compileArgs (Expr.respellAll es)) (Expr.compileArgs es)
  | [], _ => .nil
  | e :: rest, ⟨he, hrest⟩ =>
    (Expr.compileArgs_respell_reduces rest hrest).append (e.compile_respell_reduces he)

end

mutual

theorem Stmt.compile_respell_reduces : ∀ s : Stmt, s.Writable →
    Code.Reduces s.respell.compile s.compile
  | .define _ _ _ _ body, ⟨_, _, _, hbody⟩ =>
    .block (Stmt.compileAll_respell_reduces body hbody) (.refl _)
  | .assign _ _ value, ⟨_, hvalue⟩ => (value.compile_respell_reduces hvalue).append (.refl _)
  | .expr e, h => e.compile_respell_reduces h

theorem Stmt.compileAll_respell_reduces : ∀ ss : List Stmt, Stmt.WritableAll ss →
    Code.Reduces (Stmt.compileAll (Stmt.respellAll ss)) (Stmt.compileAll ss)
  | [], _ => .nil
  | s :: rest, ⟨hs, hrest⟩ =>
    (s.compile_respell_reduces hs).append (Stmt.compileAll_respell_reduces rest hrest)

end

end Abacus
