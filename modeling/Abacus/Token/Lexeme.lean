import Abacus.Decimal.Numeral
import Abacus.Text
import Abacus.Token.Basic

/-!
# Lexemes

`lexeme?` cuts the first lexeme off a text. The shapes are tried in this order, and the character
that starts the text decides among all but the two number shapes:

* a line end with every blank behind it, so that empty lines and indentation vanish;
* a run of other blanks;
* one symbol;
* a number in base two, eight or sixteen: `0b101`, `0o17`, `0xff`;
* a decimal number: `12`, `1,000,000`, `3.14`, `10.1e2`;
* a name: a small letter, then letters and digits.
-/
namespace Abacus

/-- The bases other than ten that a literal can be in, those of the prefixes `0b`, `0o` and `0x`. -/
inductive Base where
  | two
  | eight
  | sixteen
  deriving DecidableEq

namespace Base

/-- The number of digits of a base: the `radix` that `radix_value` multiplies by. -/
def radix : Base → Nat
  | two => 2
  | eight => 8
  | sixteen => 16

/-- The base that the letter after the leading zero announces. -/
def ofMark? : Char → Option Base
  | 'b' => some two
  | 'o' => some eight
  | 'x' => some sixteen
  | _ => none

/-- The value of a digit in a base, by `to_digit`; beyond nine the small letters count on. Capital
letters are no digits here, as the token pattern does not let them through. -/
def digit? (b : Base) (c : Char) : Option Nat :=
  let value :=
    if Decimal.isDigit c then some (c.toNat - 48)
    else if 'a' ≤ c && c ≤ 'f' then some (c.toNat - 87)
    else none
  value.filter (· < b.radix)

/-- Does the character continue a literal of this base? -/
def isDigit (b : Base) (c : Char) : Bool :=
  (b.digit? c).isSome

/-- The value of a run of digits, added up in floats as `radix_value` does: a long literal rounds at
every step, and ends at infinity where an integer would overflow. -/
def value (b : Base) (digits : List Char) : Float :=
  (digits.filterMap b.digit?).foldl (fun sum d => sum * Float.ofNat b.radix + Float.ofNat d) 0

end Base

/-- The six alternatives of the token pattern, with what `classify` reads off a match. The text of a
decimal number or a name is all there is to know of it. -/
inductive Lexeme where
  | newline
  | space
  | symbol (symbol : Symbol)
  | radix (base : Base) (digits : List Char)
  | decimal
  | name
  deriving DecidableEq

namespace Lexeme

/-- Is the character one of `a` to `z`? Only these start a name. -/
def isLower (c : Char) : Bool :=
  'a' ≤ c && c ≤ 'z'

/-- The characters that continue a name: small letters, capital letters and digits. -/
def isNameChar (c : Char) : Bool :=
  isLower c || ('A' ≤ c && c ≤ 'Z') || Decimal.isDigit c

/-! ## Numbers -/

/-- The base and digits of a number in another base at the front, the `radix` alternative of the
pattern. One digit is needed: `0b` alone is the number `0` and the name `b`. -/
def radix? : List Char → Option (Base × List Char)
  | '0' :: mark :: rest =>
    match Base.ofMark? mark with
    | some base =>
      match rest.takeWhile base.isDigit with
      | [] => none
      | digits => some (base, digits)
    | none => none
  | _ => none

/-- Groups of three digits at the front, each led by a comma. A comma that no three digits follow is
left for the next token. -/
def groups : List Char → List Char
  | ',' :: a :: b :: c :: rest =>
    if Decimal.isDigit a && Decimal.isDigit b && Decimal.isDigit c then
      ',' :: a :: b :: c :: groups rest
    else
      []
  | _ => []

/-- A point with digits at the front, or nothing. A point without digits is no part of the number,
and starts no token either. -/
def fraction : List Char → List Char
  | '.' :: rest =>
    match rest.takeWhile Decimal.isDigit with
    | [] => []
    | digits => '.' :: digits
  | _ => []

/-- An `e` or `E` with digits at the front, or nothing; without digits an `e` starts a name. -/
def exponent : List Char → List Char
  | mark :: rest =>
    match mark == 'e' || mark == 'E', rest.takeWhile Decimal.isDigit with
    | true, digit :: digits => mark :: digit :: digits
    | _, _ => []
  | [] => []

/-- The text of the decimal number at the front, by the `decimal` alternative of the pattern:
digits, groups, a fraction and an exponent, each as long as it can be. -/
def decimalText (text : List Char) : List Char :=
  let whole := text.takeWhile Decimal.isDigit
  let rest := text.drop whole.length
  let grouped := groups rest
  let rest := rest.drop grouped.length
  let fraction := fraction rest
  let rest := rest.drop fraction.length
  whole ++ grouped ++ fraction ++ exponent rest

end Lexeme

/-! ## The first lexeme -/

open Text Lexeme in
/-- The first lexeme of a text and its characters, which are at least one: what the token pattern
matches at the front, its alternatives tried in their order. -/
def lexeme? : List Char → Option (Lexeme × List Char)
  | [] => none
  | c :: rest =>
    if c = '\n' then
      some (.newline, c :: rest.takeWhile isBlank)
    else if isBlank c then
      some (.space, c :: rest.takeWhile isSpace)
    else if let some s := Symbol.ofChar? c then
      some (.symbol s, [c])
    else if let some (base, digits) := radix? (c :: rest) then
      some (.radix base digits, (c :: rest).take 2 ++ digits)
    else if Decimal.isDigit c then
      some (.decimal, decimalText (c :: rest))
    else if isLower c then
      some (.name, c :: rest.takeWhile isNameChar)
    else
      none

end Abacus
