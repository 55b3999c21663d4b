import RuleFlow.Number.Reader

/-!
# The number at the front of a text

`leadingFloat` reads as much of a text as makes a double and leaves the rest alone. Blanks and a sign may stand in
front; the number is decimal, hexadecimal with a power of two, an infinity or not-a-number, in either letter case. A
number beyond the largest double is infinite, and a text that starts with no number reads as zero.
-/

namespace RuleFlow.Number

/-- The decimal at the front. -/
def leadingDecimal? (t : Text) : Option Float := do
  let (m, rest) ← splitMantissa 10 t
  return (m.scaled (((splitExponent decimalMark rest).map (·.1)).getD 0)).toFloat

/-- The number `digits · 2 ^ power` as a decimal: where it is a fraction, a factor five goes with each half. -/
def Scaled.ofBinary (digits : Nat) (power : Int) : Scaled :=
  if 0 ≤ power then { digits := digits <<< power.toNat, power := 0 }
  else { digits := digits * Nat.pow 5 power.natAbs, power }

/-- The double nearest to `digits · 2 ^ power`, infinite beyond the largest one. -/
def floatOfBinary (digits : Nat) (power : Int) : Float :=
  let magnitude := digits.log2 + power
  if digits = 0 || magnitude < -1100 then 0
  else if 1100 < magnitude then infinity
  else (Scaled.ofBinary digits power).toFloat

/-- The letter in front of the digits of a hexadecimal number. -/
def hexadecimalMark : UInt8 := 120

/-- The letter in front of the exponent of a hexadecimal number, a power of two. -/
def binaryMark : UInt8 := 112

/-- The hexadecimal number at the front, which starts with `0x`. -/
def leadingHexadecimal? : Text → Option Float
  | 48 :: b :: t => do
    guard (Text.lowerByte b == hexadecimalMark)
    let (m, rest) ← splitMantissa 16 t
    let e := ((splitExponent binaryMark rest).map (·.1)).getD 0
    return floatOfBinary m.digits (e - 4 * m.places)
  | _ => none

/-- The infinity or not-a-number at the front. -/
def leadingWord? (t : Text) : Option Float :=
  ([("inf", infinity), ("nan", nan)] : List (Text × Float)).lookup (Text.lower (t.take 3))

/-- The double at the front of the text. -/
def leadingFloat (t : Text) : Float :=
  let (negative, unsigned) := splitSign (t.dropWhile Text.isBlankByte)
  ((leadingHexadecimal? unsigned <|> leadingDecimal? unsigned <|> leadingWord? unsigned).map (signed negative)).getD 0

end RuleFlow.Number
