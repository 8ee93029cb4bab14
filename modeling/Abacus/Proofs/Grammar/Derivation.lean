import Abacus.Builtin
import Abacus.Syntax.Basic
import Abacus.Token.Basic

/-!
# The grammar, without a parser

    program    := statements
    statements := empty | statement | statement newline statements
    statement  := define | assign | expression
    define     := name "(" (name ("," name)*)? ")" "=" ("{" newline statements "}" | statement)
    assign     := name "=" expression
    expression := term (("+" | "-") term)*
    term       := power (("*" | "/" | "%") power)*
    power      := value ("^" value)*
    value      := "(" expression ")" | "-" expression | number name
                | name "(" (expression ("," expression)*)? ")" | name | number

A derivation says that the front of a text is a phrase, what is left behind it, and the tree that it
stands for. Expressions, terms, powers and values are one family: an expression of level `k` joins
values by operators of precedence `k` and above, so that level 1 are the expressions, 2 the terms,
3 the powers and 4 the values. Chains are nested to the right.

This grammar is ambiguous in one place: a minus sign may stop early, so that `-1 + 2` is either
`-(1 + 2)` or `(-1) + 2`. How far it may reach is a parameter, the extent. With `Extent.any` a text
has all its derivations; with `Extent.longest` a minus sign takes the longest expression behind it.
The third one, `Extent.closed`, lets a minus sign stop only where no operator follows. That can be
checked on the spot, and in a whole text it comes to the same (`Expression.longest_of_closed`,
`Expression.closed_of_longest`); moreover every text that has any derivation has a closed one
(`Expression.close`).
-/
namespace Abacus

/-- The symbol that an operator is written as. -/
def Operator.sign : Operator → Symbol
  | .add => .plus
  | .subtract => .minus
  | .multiply => .times
  | .divide => .slash
  | .modulo => .percent
  | .exponentiate => .caret

theorem Operator.one_le_precedence (op : Operator) : 1 ≤ op.precedence := by
  cases op <;> decide

theorem Operator.precedence_le_three (op : Operator) : op.precedence ≤ 3 := by
  cases op <;> decide

theorem Operator.sign_injective {op op' : Operator} (h : op.sign = op'.sign) : op = op' := by
  cases op <;> cases op' <;> first | rfl | cases h

namespace Grammar

/-! ## Derivations -/

/-- Which operands a minus sign may take: the text behind it and what is left of it. -/
abbrev Extent :=
  (text rest : List TokenKind) → Prop

mutual

/-- `text` up to `rest` is an expression of level `k`. -/
inductive Expression (extent : Extent) : Nat → List TokenKind → List TokenKind → Expr → Prop
  | operand {k : Nat} {text rest : List TokenKind} {e : Expr}
      (h : Expression extent (k + 1) text rest e) : Expression extent k text rest e
  | chain {k : Nat} {text mid rest : List TokenKind} {left right : Expr} (op : Operator)
      (hop : op.precedence = k)
      (hleft : Expression extent (k + 1) text (.symbol op.sign :: mid) left)
      (hright : Expression extent k mid rest right) :
      Expression extent k text rest (.binary unnumbered op left right)
  | grouped {text rest : List TokenKind} {e : Expr}
      (h : Expression extent 1 text (.symbol .closeParen :: rest) e) :
      Expression extent 4 (.symbol .openParen :: text) rest e
  | negated {text rest : List TokenKind} {e : Expr}
      (h : Expression extent 1 text rest e) (hextent : extent text rest) :
      Expression extent 4 (.symbol .minus :: text) rest (.negate unnumbered e)
  | juxtaposed (v : Float) (source x : String) (rest : List TokenKind) :
      Expression extent 4 (.number v source :: .name x :: rest) rest
        (.binary unnumbered .multiply (.number unnumbered v (some source)) (.var unnumbered x))
  | emptyCall (f : String) (rest : List TokenKind) :
      Expression extent 4 (.name f :: .symbol .openParen :: .symbol .closeParen :: rest) rest
        (.call unnumbered f [])
  | call {text rest : List TokenKind} {args : List Expr} (f : String)
      (h : Arguments extent text (.symbol .closeParen :: rest) args) :
      Expression extent 4 (.name f :: .symbol .openParen :: text) rest (.call unnumbered f args)
  | var (x : String) (rest : List TokenKind) :
      Expression extent 4 (.name x :: rest) rest (.var unnumbered x)
  | number (v : Float) (source : String) (rest : List TokenKind) :
      Expression extent 4 (.number v source :: rest) rest (.number unnumbered v (some source))

/-- `text` up to `rest` is one or more expressions with commas between them. -/
inductive Arguments (extent : Extent) : List TokenKind → List TokenKind → List Expr → Prop
  | one {text rest : List TokenKind} {e : Expr} (h : Expression extent 1 text rest e) :
      Arguments extent text rest [e]
  | more {text mid rest : List TokenKind} {e : Expr} {es : List Expr}
      (h : Expression extent 1 text (.symbol .comma :: mid) e)
      (hrest : Arguments extent mid rest es) : Arguments extent text rest (e :: es)

end

/-- The names of parameters with commas between them. -/
def paramNames (names : List String) : List TokenKind :=
  (names.map TokenKind.name).intersperse (.symbol .comma)

theorem paramNames_cons (name : String) (names : List String) :
    paramNames (name :: names) =
      .name name :: names.flatMap fun other => [.symbol .comma, .name other] := by
  induction names generalizing name with
  | nil => rfl
  | cons other rest ih =>
    have hrest := ih other
    unfold paramNames at hrest ⊢
    rw [List.map_cons, List.map_cons, List.intersperse_cons_cons, List.flatMap_cons]
    rw [List.map_cons] at hrest
    rw [hrest]
    rfl

/-- The head of a definition up to its equals sign. -/
def defineHead (name : String) (params : List String) (text : List TokenKind) : List TokenKind :=
  .name name :: .symbol .openParen ::
    (paramNames params ++ .symbol .closeParen :: .symbol .equals :: text)

/-- The head of a definition takes a token for each parameter, and more. -/
theorem length_lt_defineHead (name : String) (params : List String) (text : List TokenKind) :
    params.length + text.length < (defineHead name params text).length := by
  simp only [defineHead, paramNames, List.length_cons, List.length_append, List.length_intersperse,
    List.length_map]
  omega

/-- The parameter list of these names. -/
def paramList (names : List String) : ParamList :=
  { id := unnumbered, params := names.map fun name => { id := unnumbered, name } }

mutual

/-- `text` up to `rest` is a statement. -/
inductive Statement (extent : Extent) : List TokenKind → List TokenKind → Stmt → Prop
  | define {text rest : List TokenKind} {body : Stmt} (f : String) (params : List String)
      (hf : Builtin.ofName? f = none) (h : Statement extent text rest body) :
      Statement extent (defineHead f params text) rest
        (.define unnumbered f (paramList params) unnumbered [body])
  | defineBlock {text rest : List TokenKind} {body : List Stmt} (f : String) (params : List String)
      (hf : Builtin.ofName? f = none)
      (h : Statements extent text (.symbol .closeBrace :: rest) body) :
      Statement extent (defineHead f params (.symbol .openBrace :: .newline :: text)) rest
        (.define unnumbered f (paramList params) unnumbered body)
  | assign {text rest : List TokenKind} {e : Expr} (x : String)
      (h : Expression extent 1 text rest e) :
      Statement extent (.name x :: .symbol .equals :: text) rest (.assign unnumbered x e)
  | expr {text rest : List TokenKind} {e : Expr} (h : Expression extent 1 text rest e) :
      Statement extent text rest (.expr e)

/-- `text` up to `rest` is a statement list. -/
inductive Statements (extent : Extent) : List TokenKind → List TokenKind → List Stmt → Prop
  | empty (rest : List TokenKind) : Statements extent rest rest []
  | last {text rest : List TokenKind} {s : Stmt} (h : Statement extent text rest s) :
      Statements extent text rest [s]
  | more {text mid rest : List TokenKind} {s : Stmt} {ss : List Stmt}
      (h : Statement extent text (.newline :: mid) s) (hrest : Statements extent mid rest ss) :
      Statements extent text rest (s :: ss)

end

/-! ## Extents -/

/-- No operator comes first. -/
def NoOperator (text : List TokenKind) : Prop :=
  ∀ (op : Operator) (rest : List TokenKind), text ≠ .symbol op.sign :: rest

/-- A minus sign may stop anywhere. -/
def Extent.any : Extent :=
  fun _ _ => True

/-- A minus sign stops only where no operator follows. -/
def Extent.closed : Extent :=
  fun _ rest => NoOperator rest

/-- A minus sign takes the longest expression behind it. -/
def Extent.longest : Extent :=
  fun text rest => ∀ rest' e, Expression .any 1 text rest' e → rest.length ≤ rest'.length

/-! ## More and fewer derivations -/

section
variable {extent extent' : Extent}

mutual

theorem Expression.mono (h : ∀ text rest, extent text rest → extent' text rest) :
    ∀ {k : Nat} {text rest : List TokenKind} {e : Expr},
      Expression extent k text rest e → Expression extent' k text rest e
  | _, _, _, _, .operand he => .operand (he.mono h)
  | _, _, _, _, .chain op hop hleft hright => .chain op hop (hleft.mono h) (hright.mono h)
  | _, _, _, _, .grouped he => .grouped (he.mono h)
  | _, _, _, _, .negated he hextent => .negated (he.mono h) (h _ _ hextent)
  | _, _, _, _, .juxtaposed v source x rest => .juxtaposed v source x rest
  | _, _, _, _, .emptyCall f rest => .emptyCall f rest
  | _, _, _, _, .call f hargs => .call f (hargs.mono h)
  | _, _, _, _, .var x rest => .var x rest
  | _, _, _, _, .number v source rest => .number v source rest

theorem Arguments.mono (h : ∀ text rest, extent text rest → extent' text rest) :
    ∀ {text rest : List TokenKind} {es : List Expr},
      Arguments extent text rest es → Arguments extent' text rest es
  | _, _, _, .one he => .one (he.mono h)
  | _, _, _, .more he hrest => .more (he.mono h) (hrest.mono h)

end

theorem Expression.toAny {k : Nat} {text rest : List TokenKind} {e : Expr}
    (h : Expression extent k text rest e) : Expression .any k text rest e :=
  h.mono fun _ _ _ => trivial

/-- An expression of a higher level is one of each lower level. -/
theorem Expression.lower {j k : Nat} {text rest : List TokenKind} {e : Expr} (hjk : j ≤ k)
    (h : Expression extent k text rest e) : Expression extent j text rest e := by
  induction hjk with
  | refl => exact h
  | step _ ih => exact ih (.operand h)

end

/-! ## What a phrase takes -/

section
variable {extent : Extent}

mutual

theorem Expression.length_lt : ∀ {k : Nat} {text rest : List TokenKind} {e : Expr},
    Expression extent k text rest e → rest.length < text.length
  | _, _, _, _, .operand h => h.length_lt
  | _, _, _, _, .chain _ _ hleft hright => by
    have hl := hleft.length_lt
    have hr := hright.length_lt
    rw [List.length_cons] at hl
    omega
  | _, _, _, _, .grouped h => by
    have hlt := h.length_lt
    rw [List.length_cons] at hlt ⊢
    omega
  | _, _, _, _, .negated h _ => by
    have hlt := h.length_lt
    rw [List.length_cons]
    omega
  | _, _, _, _, .juxtaposed _ _ _ _ => by simp only [List.length_cons]; omega
  | _, _, _, _, .emptyCall _ _ => by simp only [List.length_cons]; omega
  | _, _, _, _, .call _ h => by
    have hlt := h.length_lt
    simp only [List.length_cons] at hlt ⊢
    omega
  | _, _, _, _, .var _ _ => by simp only [List.length_cons]; omega
  | _, _, _, _, .number _ _ _ => by simp only [List.length_cons]; omega

theorem Arguments.length_lt : ∀ {text rest : List TokenKind} {es : List Expr},
    Arguments extent text rest es → rest.length < text.length
  | _, _, _, .one h => h.length_lt
  | _, _, _, .more h hrest => by
    have hl := h.length_lt
    have hr := hrest.length_lt
    rw [List.length_cons] at hl
    omega

end

/-- Each argument takes a token. -/
theorem Arguments.length_le {text rest : List TokenKind} {es : List Expr}
    (h : Arguments extent text rest es) : es.length ≤ text.length := by
  induction es generalizing text with
  | nil => cases h
  | cons e es ih =>
    cases h with
    | one h =>
      have hlt := h.length_lt
      simp only [List.length_cons, List.length_nil]
      omega
    | more h hrest =>
      have hlt := h.length_lt
      have hmore := ih hrest
      simp only [List.length_cons] at hlt ⊢
      omega

mutual

theorem Statement.length_lt : ∀ {text rest : List TokenKind} {s : Stmt},
    Statement extent text rest s → rest.length < text.length
  | _, _, _, @Statement.define _ text _ _ f params _ h => by
    have hlt := h.length_lt
    have hhead := length_lt_defineHead f params text
    omega
  | _, _, _, @Statement.defineBlock _ text _ _ f params _ h => by
    have hle := h.length_le
    have hhead := length_lt_defineHead f params (.symbol .openBrace :: .newline :: text)
    simp only [List.length_cons] at hle hhead
    omega
  | _, _, _, .assign _ h => by
    have hlt := h.length_lt
    simp only [List.length_cons]
    omega
  | _, _, _, .expr h => h.length_lt

theorem Statements.length_le : ∀ {text rest : List TokenKind} {ss : List Stmt},
    Statements extent text rest ss → rest.length ≤ text.length
  | _, _, _, .empty _ => Nat.le_refl _
  | _, _, _, .last h => Nat.le_of_lt h.length_lt
  | _, _, _, .more h hrest => by
    have hlt := h.length_lt
    have hle := hrest.length_le
    rw [List.length_cons] at hlt
    omega

end

/-- What is left behind the longest front of a text in which brackets pair and that holds no token
that stands outside of expressions, where `depth` brackets have been opened before. Every expression
is such a front. -/
def scan (depth : Nat) : List TokenKind → List TokenKind
  | [] => []
  | t :: rest =>
    match t, depth with
    | .symbol .openParen, depth => scan (depth + 1) rest
    | .symbol .closeParen, depth + 1 => scan depth rest
    | .symbol .comma, depth + 1 => scan (depth + 1) rest
    | .symbol .closeParen, 0 | .symbol .comma, 0 => t :: rest
    | .newline, _ | .symbol .equals, _ | .symbol .openBrace, _ | .symbol .closeBrace, _ => t :: rest
    | .number _ _, depth | .name _, depth | .symbol .plus, depth | .symbol .minus, depth
    | .symbol .times, depth | .symbol .slash, depth | .symbol .percent, depth
    | .symbol .caret, depth => scan depth rest

theorem scan_sign (depth : Nat) (op : Operator) (rest : List TokenKind) :
    scan depth (.symbol op.sign :: rest) = scan depth rest := by
  cases op <;> rfl

theorem length_scan_le (depth : Nat) (text : List TokenKind) :
    (scan depth text).length ≤ text.length := by
  induction text generalizing depth with
  | nil => exact Nat.le_refl _
  | cons t rest ih =>
    unfold scan
    split <;> first | exact Nat.le_succ_of_le (ih _) | exact Nat.le_refl _

mutual

theorem Expression.scan_eq : ∀ {k : Nat} {text rest : List TokenKind} {e : Expr},
    Expression extent k text rest e → ∀ depth, scan depth text = scan depth rest
  | _, _, _, _, .operand h, depth => h.scan_eq depth
  | _, _, _, _, .chain op _ hleft hright, depth => by
    rw [hleft.scan_eq depth, scan_sign, hright.scan_eq depth]
  | _, _, _, _, .grouped h, depth => h.scan_eq (depth + 1)
  | _, _, _, _, .negated h _, depth => h.scan_eq depth
  | _, _, _, _, .juxtaposed _ _ _ _, _ => rfl
  | _, _, _, _, .emptyCall _ _, _ => rfl
  | _, _, _, _, .call _ h, depth => h.scan_eq depth
  | _, _, _, _, .var _ _, _ => rfl
  | _, _, _, _, .number _ _ _, _ => rfl

theorem Arguments.scan_eq : ∀ {text rest : List TokenKind} {es : List Expr},
    Arguments extent text rest es → ∀ depth, scan (depth + 1) text = scan (depth + 1) rest
  | _, _, _, .one h, depth => h.scan_eq (depth + 1)
  | _, _, _, .more h hrest, depth => (h.scan_eq (depth + 1)).trans (hrest.scan_eq depth)

end
end

end Grammar
end Abacus
