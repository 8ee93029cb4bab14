import Abacus.Token.Lexeme

/-!
# From text to tokens

`tokenize` trims a source and cuts it into lexemes from left to right. Every character belongs to a
lexeme; the first one that starts none is the error. Runs of blanks give no token. Offsets, lines
and columns are those of the trimmed source.
-/
namespace Abacus

/-- Why a source has no tokens. An error is about one character or one literal and says where it
stands. -/
inductive LexError where
  /-- No lexeme starts with this character. -/
  | unexpectedCharacter (character : Char) (place : Text.Place)
  /-- A text has the shape of a number but no value. -/
  | invalidNumber (literal : String) (position : Text.Position)
  deriving DecidableEq

namespace LexError

/-- The text of an error, by its `Display`. Positions are shown as counted from one. -/
def message : LexError → String
  | unexpectedCharacter character place =>
    let shown := String.ofList [character]
    s!"Unable to parse: '{shown}' at {place.position.message}"
  | invalidNumber literal position =>
    s!"invalid number literal '{literal}' at {position.message}"

end LexError

namespace Token

/-- What kind of token a lexeme is, as `classify` decides; a run of blanks is none. The commas of a
decimal number only group its digits, and `decimal_value` drops them. -/
def kind? (lexeme : Lexeme) (text : List Char) (place : Text.Place) :
    Except LexError (Option TokenKind) :=
  let source := String.ofList text
  match lexeme with
  | .newline => .ok (some .newline)
  | .space => .ok none
  | .symbol symbol => .ok (some (.symbol symbol))
  | .radix base digits => .ok (some (.number (base.value digits) source))
  | .decimal =>
    match Decimal.unsigned? (text.filter (· != ',')) with
    | some value => .ok (some (.number value source))
    | none => .error (.invalidNumber source place.position)
  | .name => .ok (some (.name source))

/-- The tokens of a text that starts at `place`, of which the first `skip` characters belong to a
lexeme that is done with. This is the loop of `tokenize` over the matches: it stops at the first
character that no match begins with, or at a literal without a value. -/
def scan (place : Text.Place) (skip : Nat) : List Char → Except LexError (List Token)
  | [] => .ok []
  | c :: rest =>
    match skip with
    | skip + 1 => scan (place.next c) skip rest
    | 0 =>
      match lexeme? (c :: rest) with
      | none => .error (.unexpectedCharacter c place)
      | some (lexeme, text) =>
        match kind? lexeme text place with
        | .error e => .error e
        | .ok none => scan (place.next c) (text.length - 1) rest
        | .ok (some kind) =>
          match scan (place.next c) (text.length - 1) rest with
          | .error e => .error e
          | .ok tokens => .ok ({ kind, span := place.span text, offset := place.offset } :: tokens)

end Token

/-- The tokens of a source, or the first error from its left. Blanks around the source are ignored,
and lexemes follow each other without a gap. -/
def tokenize (source : String) : Except LexError (List Token) :=
  Token.scan .origin 0 (Text.trim source.toList)

end Abacus
