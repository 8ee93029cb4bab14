/-!
# Characters and places of a text

Blanks are the characters that separate words: the Unicode property `White_Space`, twenty-five
characters in ten ranges. `trim` takes them off both ends of a text.

A position is a line and a column, both counted from zero, the column in characters; messages show
both counted from one. A place adds the offset in bytes. `Place.after` moves a place over a text.
-/
namespace Abacus.Text

/-! ## Blanks -/

/-- The ranges of `White_Space`, by first and last code point: the characters that `trim` strips and
that the token pattern counts as white space. -/
def blankRanges : List (Nat × Nat) :=
  [(0x09, 0x0d), (0x20, 0x20), (0x85, 0x85), (0xa0, 0xa0), (0x1680, 0x1680), (0x2000, 0x200a),
    (0x2028, 0x2029), (0x202f, 0x202f), (0x205f, 0x205f), (0x3000, 0x3000)]

/-- Is the character a blank? Line ends are blanks too; what is no blank belongs to a word. -/
def isBlank (c : Char) : Bool :=
  blankRanges.any fun (first, last) => first ≤ c.toNat && c.toNat ≤ last

/-- A blank that does not end a line. A run of these is what the `whitespace` alternative of the
token pattern matches. -/
def isSpace (c : Char) : Bool :=
  isBlank c && c != '\n'

/-- The text without the blanks at its end, which is the second half of `trim`. -/
def trimEnd (text : List Char) : List Char :=
  (text.reverse.dropWhile isBlank).reverse

/-- The text without the blanks at its two ends. `tokenize` trims its source first, so that every
offset, line and column counts from the first character that is left. -/
def trim (text : List Char) : List Char :=
  trimEnd (text.dropWhile isBlank)

/-! ## Places -/

/-- A line and a column, both counted from zero: the `line` and `column` of the lexer's `Cursor`,
and either end of a `Span`. -/
structure Position where
  line : Nat
  column : Nat
  deriving DecidableEq

namespace Position

/-- The position behind a character, as `advance` moves the cursor: a line end opens a new line, any
other character is one column wide. -/
def next (p : Position) (c : Char) : Position :=
  if c = '\n' then { line := p.line + 1, column := 0 } else { p with column := p.column + 1 }

/-- How messages show a position: `line:column`, both counted from one. -/
def message (p : Position) : String :=
  s!"{p.line + 1}:{p.column + 1}"

end Position

/-- The stretch of a text between two positions together with that text, and nothing around it. A
token has one as its `position`. -/
structure Span where
  start : Position
  stop : Position
  text : String
  deriving DecidableEq

/-- Where a scan has got to in a text, in bytes and by line and column. It is the lexer's `Cursor`.
-/
structure Place where
  offset : Nat
  position : Position
  deriving DecidableEq

namespace Place

/-- The place before the first character: the `Cursor` with which `tokenize` starts. -/
def origin : Place :=
  { offset := 0, position := { line := 0, column := 0 } }

/-- The place behind a character. The offset grows by the bytes of the character in UTF-8, as in
`advance`. -/
def next (p : Place) (c : Char) : Place :=
  { offset := p.offset + c.utf8Size, position := p.position.next c }

/-- The place behind a text: `advance` over its characters, one after the other. -/
def after (p : Place) (text : List Char) : Place :=
  text.foldl next p

/-- The span of a text that starts here: the one `tokenize` makes of a match, from the cursor before
the match to the cursor behind it. -/
def span (p : Place) (text : List Char) : Span :=
  { start := p.position, stop := (p.after text).position, text := String.ofList text }

end Place

end Abacus.Text
