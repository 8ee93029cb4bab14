import Abacus.Text

/-!
# Tokens

The words of a program: numbers, names, line ends and twelve symbols. A token keeps the span of its
text and the byte offset at which it starts.
-/
namespace Abacus

/-- The twelve characters that are words on their own: the kinds of `TokenKind` that carry no data,
but for the line end. -/
inductive Symbol where
  | plus
  | minus
  | times
  | slash
  | percent
  | caret
  | comma
  | equals
  | openBrace
  | closeBrace
  | openParen
  | closeParen
  deriving DecidableEq

namespace Symbol

/-- The character of a symbol; no two symbols share one. -/
def char : Symbol → Char
  | plus => '+'
  | minus => '-'
  | times => '*'
  | slash => '/'
  | percent => '%'
  | caret => '^'
  | comma => ','
  | equals => '='
  | openBrace => '\x7b'
  | closeBrace => '\x7d'
  | openParen => '('
  | closeParen => ')'

/-- Every symbol once, in the order in which `TokenKind` lists them. -/
def all : List Symbol :=
  [plus, minus, times, slash, percent, caret, comma, equals, openBrace, closeBrace, openParen,
    closeParen]

/-- The symbol that a character is, if it is one: the table `mapped`, which the alternative of that
name in the token pattern agrees with. -/
def ofChar? (c : Char) : Option Symbol :=
  all.find? fun s => s.char = c

/-- How messages name a symbol: its character in single quotes. -/
def describe (s : Symbol) : String :=
  String.ofList ['\'', s.char, '\'']

end Symbol

/-- What a token is. A number keeps the text it was written as beside its value, so that a formatted
program can show it unchanged. -/
inductive TokenKind where
  | number (value : Float) (source : String)
  | name (name : String)
  | newline
  | symbol (symbol : Symbol)
  deriving DecidableEq

/-- A word of a source and where it stands: its span, and the byte offset of its first character in
the trimmed source. -/
structure Token where
  kind : TokenKind
  span : Text.Span
  offset : Nat
  deriving DecidableEq

/-- How messages name a token: what it is, and for a number or a name also its text. Syntax errors
show it as what was `found`. -/
def Token.describe (t : Token) : String :=
  match t.kind with
  | .number _ source => s!"number '{source}'"
  | .name name => s!"name '{name}'"
  | .newline => "newline"
  | .symbol symbol => symbol.describe

end Abacus
