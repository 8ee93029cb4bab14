import Abacus.Decimal.Shortest

/-!
# Decimal text

`render` writes a float with the fewest digits that read back, always positionally: no exponent, no
fraction of a whole number, a sign for every negative number and for `-0`. `unsigned?` reads
`digits`, `digits.digits` and either of them with an exponent, rounding once, to nearest with ties
to even; `read?` also takes a sign and the names of the three floats that are no numbers.
-/
namespace Abacus.Decimal

/-! ## Writing -/

/-- The decimal digits of a natural number, the first one foremost and without leading zeros; zero
has the digit `0`. -/
def naturalDigits (n : Nat) : List Char :=
  Nat.toDigits 10 n

/-- `digits · 10 ^ power` written out in full. Zeros at the end of a fraction are dropped, and the
point with them if nothing is left behind it. -/
def positional (s : Scaled) : List Char :=
  let digits := naturalDigits s.digits
  if 0 ≤ s.power then
    digits ++ List.replicate s.power.toNat '0'
  else
    let places := (-s.power).toNat
    let padded := List.replicate (places + 1 - digits.length) '0' ++ digits
    let fraction := padded.drop (padded.length - places)
    let kept := (fraction.reverse.dropWhile (· == '0')).reverse
    let integer := padded.take (padded.length - places)
    if kept.isEmpty then integer else integer ++ '.' :: kept

/-- The text of a float without its sign: `inf`, `0`, or the shortest decimal written out. -/
def magnitude (x : Float) : List Char :=
  let d := Dyadic.ofFloat x
  if x.isFinite = false then
    ['i', 'n', 'f']
  else if d.mantissa = 0 then
    ['0']
  else
    positional (shortest d)

/-- The characters of a float's text: `NaN` without a sign, and a minus in front of every other
float whose sign bit is set. -/
def renderChars (x : Float) : List Char :=
  if x.isNaN then
    ['N', 'a', 'N']
  else if isNegative x then
    '-' :: magnitude x
  else
    magnitude x

/-- The text of a float, the one its `Display` gives. Formatted programs, listings, events and error
messages all show numbers this way. -/
def render (x : Float) : String :=
  String.ofList (renderChars x)

/-! ## Reading -/

/-- Is the character one of the ten decimal digits? The digits of other scripts are none. -/
def isDigit (c : Char) : Bool :=
  '0' ≤ c && c ≤ '9'

/-- The number that a run of decimal digits spells, the first digit foremost. -/
def naturalValue (digits : List Char) : Nat :=
  digits.foldl (fun n c => 10 * n + (c.toNat - 48)) 0

/-- A non-empty run of digits at the front, as long as it can be, and what follows it. -/
def digits? (text : List Char) : Option (List Char × List Char) :=
  match text.takeWhile isDigit with
  | [] => none
  | digits => some (digits, text.dropWhile isDigit)

/-- The digits of the fraction at the front, if a point stands there; a point needs digits behind
it. -/
def fraction? : List Char → Option (List Char × List Char)
  | '.' :: rest => digits? rest
  | text => some ([], text)

/-- The exponent that makes up the rest of a numeral, zero if there is no rest. It may have a minus,
though no literal of a program has one. -/
def exponent? : List Char → Option Int
  | [] => some 0
  | e :: '-' :: rest => power? e rest fun n => -(n : Int)
  | e :: rest => power? e rest fun n => (n : Int)
where
  power? (e : Char) (rest : List Char) (sign : Nat → Int) : Option Int :=
    match e == 'e' || e == 'E', digits? rest with
    | true, some (digits, []) => some (sign (naturalValue digits))
    | _, _ => none

/-- The float nearest to `digits · 10 ^ power`, rounded once, with ties to the even mantissa. -/
def nearest (s : Scaled) : Float :=
  Float.ofScientific s.digits (s.power < 0) s.power.natAbs

/-- Reads `digits`, `digits.digits` and either with an exponent. It is the `parse` that ends
`decimal_value`, which has dropped the commas of the literal by then. -/
def unsigned? (text : List Char) : Option Float := do
  let (whole, rest) ← digits? text
  let (fraction, rest) ← fraction? rest
  let exponent ← exponent? rest
  pure (nearest { digits := naturalValue (whole ++ fraction), power := exponent - fraction.length })

/-- Reads an unsigned numeral or `inf`, the text of every float that is no NaN and has no sign. -/
def magnitude? (text : List Char) : Option Float :=
  if text = ['i', 'n', 'f'] then some (1 / 0) else unsigned? text

/-- Reads every text that `render` writes, and numerals with an exponent besides. -/
def read? (text : String) : Option Float :=
  match text.toList with
  | ['N', 'a', 'N'] => some (0 / 0)
  | '-' :: rest => (magnitude? rest).map (- ·)
  | rest => magnitude? rest

end Abacus.Decimal
