import RuleFlow.Text.Basic
import RuleFlow.Number.Binary

/-!
# Reading numbers

A numeral starts at the first byte, with no blank in front, and only blanks may follow it. Integers take a sign and
the bases 16 (after `0x`), 8 (after a further zero) and 10. Doubles are decimal, or one of the spelled infinities and
not-a-numbers; a decimal beyond the largest double is refused.
-/

namespace RuleFlow.Number

/-- The value of a digit in bases up to 16. -/
def digitValue (b : UInt8) : Option Nat :=
  if 48 ≤ b && b ≤ 57 then some (b.toNat - 48)
  else if 97 ≤ b && b ≤ 102 then some (b.toNat - 87)
  else if 65 ≤ b && b ≤ 70 then some (b.toNat - 55)
  else none

/-- Whether the byte is a digit of the base. -/
def isDigitOf (base : Nat) (b : UInt8) : Bool := (digitValue b).any (· < base)

/-- The number that the digits stand for, most significant first. -/
def ofDigits (base : Nat) (ds : Text) : Nat := ds.foldl (fun n b => n * base + (digitValue b).getD 0) 0

/-- Splits off a sign; `true` stands for minus. -/
def splitSign : Text → Bool × Text
  | 45 :: rest => (true, rest)
  | 43 :: rest => (false, rest)
  | t => (false, t)

/-! ## Integers -/

/-- A base and the digits that are left to read. -/
def splitBase : Text → Nat × Text
  | 48 :: 120 :: rest => (16, rest)
  | 48 :: 88 :: rest => (16, rest)
  | 48 :: rest => (8, 48 :: rest)
  | t => (10, t)

/-- The integer that the text stands for. -/
def readInt? (t : Text) : Option Int :=
  let (negative, unsigned) := splitSign t
  let (base, body) := splitBase unsigned
  let (ds, rest) := body.span (isDigitOf base)
  if ds.isEmpty || !Text.isBlank rest then none
  else
    let n : Int := ofDigits base ds
    some (if negative then -n else n)

/-- The integer, if it has `bits` bits with its sign. -/
def readIntOfWidth? (bits : Nat) (t : Text) : Option Int :=
  let bound : Int := ((1 <<< (bits - 1) : Nat) : Int)
  (readInt? t).filter fun n => -bound ≤ n && n < bound

/-! ## Doubles -/

/-- The digits of an unsigned number as it is spelled, the last `places` of them behind the point. -/
structure Mantissa where
  digits : Nat
  places : Nat

/-- The digits after a point, if there is one. -/
def splitFraction (base : Nat) : Text → Text × Text
  | 46 :: rest => rest.span (isDigitOf base)
  | t => ([], t)

/-- The digits at the front with a point anywhere, and what follows; none without any digit. -/
def splitMantissa (base : Nat) (t : Text) : Option (Mantissa × Text) := do
  let (whole, t) := t.span (isDigitOf base)
  let (fraction, t) := splitFraction base t
  guard !(whole ++ fraction).isEmpty
  return ({ digits := ofDigits base (whole ++ fraction), places := fraction.length }, t)

/-- The decimal exponent after a small or capital letter, zero without one; none if the letter has no digits. -/
def splitExponent (letter : UInt8) : Text → Option (Int × Text)
  | b :: rest =>
    if Text.lowerByte b == letter then
      let (negative, body) := splitSign rest
      let (ds, rest) := body.span (isDigitOf 10)
      if ds.isEmpty then none
      else
        let n : Int := ofDigits 10 ds
        some (if negative then -n else n, rest)
    else some (0, b :: rest)
  | [] => some (0, [])

/-- The letter in front of the exponent of a decimal. -/
def decimalMark : UInt8 := 101

/-- A decimal: its digits as one number and the power of ten that it is scaled by. -/
structure Scaled where
  digits : Nat
  power : Int

/-- The decimal of a mantissa and an exponent. -/
def Mantissa.scaled (m : Mantissa) (exponent : Int) : Scaled := { digits := m.digits, power := exponent - m.places }

/-- The unsigned decimal that the text stands for: digits with a point anywhere, and an exponent. -/
def readScaled? (t : Text) : Option Scaled := do
  let (m, t) ← splitMantissa 10 t
  let (e, rest) ← splitExponent decimalMark t
  guard (Text.isBlank rest)
  return m.scaled e

def infinity : Float := 1.0 / 0.0

def nan : Float := 0.0 / 0.0

/-- The double nearest to the decimal, infinite beyond the largest one. -/
def Scaled.toFloat (s : Scaled) : Float :=
  let magnitude := (Text.ofNat s.digits).length + s.power
  if s.digits = 0 || magnitude < -400 then 0
  else if 400 < magnitude then infinity
  else Float.ofScientific s.digits (s.power < 0) s.power.natAbs

/-- The number with a sign in front. -/
def signed (negative : Bool) (x : Float) : Float := if negative then -x else x

/-- The spelled values: infinities with or without a sign, and not-a-number. -/
def spelledDoubles : List (Text × Float) :=
  [".inf", ".Inf", ".INF", "+.inf", "+.Inf", "+.INF"].map (fun s => (Text.ofString s, infinity)) ++
  ["-.inf", "-.Inf", "-.INF"].map (fun s => (Text.ofString s, -infinity)) ++
  [".nan", ".NaN", ".NAN"].map (fun s => (Text.ofString s, nan))

/-- The double that the text stands for. -/
def readFloat? (t : Text) : Option Float :=
  let (negative, unsigned) := splitSign t
  match readScaled? unsigned with
  | some s => if s.toFloat.isInf then none else some (signed negative s.toFloat)
  | none => spelledDoubles.lookup t

end RuleFlow.Number
