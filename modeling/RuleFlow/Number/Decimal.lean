import RuleFlow.Text.Basic
import RuleFlow.Number.Binary

/-!
# Decimal texts of doubles

`Decimal.fixed` writes a given number of places and `Decimal.significant` at most a given number of significant
digits. Both round the exact value of the double, a half to the even digit. Not-a-number is `nan` and the infinities
are `inf` and `-inf`; a negative number keeps its sign when it rounds to zero.
-/

namespace RuleFlow.Decimal

/-- A minus sign in front of a negative number. -/
def signed (negative : Bool) (t : Text) : Text := if negative then 45 :: t else t

/-- Zeros in front, up to `width` bytes. -/
def padLeft (width : Nat) (t : Text) : Text := List.replicate (width - t.length) 48 ++ t

/-- A power of ten. -/
def tenTo (e : Nat) : Nat := Nat.pow 10 e

/-- The numeral of `n / 10 ^ places` with all its places. -/
def withPlaces (places n : Nat) : Text :=
  if places = 0 then Text.ofNat n
  else
    let digits := padLeft (places + 1) (Text.ofNat n)
    digits.take (digits.length - places) ++ 46 :: digits.drop (digits.length - places)

/-! ## A fixed number of places -/

/-- The number with `places` digits after the point. -/
def fixed (places : Nat) (x : Float) : Text :=
  match Binary.ofFloat x with
  | .nan => "nan"
  | .infinite negative => signed negative "inf"
  | .finite negative m q =>
    signed negative
      (withPlaces places (roundDiv (Binary.numerator m q * tenTo places) (Binary.denominator q)))

/-! ## A number of significant digits -/

/-- The power `e` of ten with `10 ^ e ≤ n / d < 10 ^ (e + 1)`, for a positive `n`. -/
def magnitude (n d : Nat) : Int :=
  let guess : Int := (Text.ofNat n).length - (Text.ofNat d).length
  if d * tenTo guess.toNat ≤ n * tenTo (-guess).toNat then guess else guess - 1

/-- `n / d` as `count` digits and the power of ten of the first one. -/
def scientific (count n d : Nat) : Nat × Int :=
  let e := magnitude n d
  let shift : Int := count - 1 - e
  let digits := roundDiv (n * tenTo shift.toNat) (d * tenTo (-shift).toNat)
  if digits = tenTo count then (tenTo (count - 1), e + 1) else (digits, e)

/-- Drops the zeros at the end. -/
def stripZeros (t : Text) : Text := (t.reverse.dropWhile (· == 48)).reverse

/-- Digits after a point, if there are any. -/
def fraction (t : Text) : Text := if t.isEmpty then [] else 46 :: t

/-- An exponent of at least two digits with its sign. -/
def exponent (e : Int) : Text :=
  101 :: (if e < 0 then 45 else 43) :: padLeft 2 (Text.ofNat e.natAbs)

/-- The digits with their point: positional for exponents from -4 below `count`, else with an exponent. -/
def place (count : Nat) (digits : Text) (e : Int) : Text :=
  if -4 ≤ e ∧ e < count then
    if e < 0 then 48 :: fraction (stripZeros (List.replicate (e.natAbs - 1) 48 ++ digits))
    else digits.take (e.toNat + 1) ++ fraction (stripZeros (digits.drop (e.toNat + 1)))
  else digits.take 1 ++ fraction (stripZeros (digits.drop 1)) ++ exponent e

/-- The number with at most `count` significant digits; zeros at the end of the fraction are left out. -/
def significant (count : Nat) (x : Float) : Text :=
  match Binary.ofFloat x with
  | .nan => "nan"
  | .infinite negative => signed negative "inf"
  | .finite negative m q =>
    if m = 0 then signed negative [48]
    else
      let (digits, e) := scientific count (Binary.numerator m q) (Binary.denominator q)
      signed negative (place count (Text.ofNat digits) e)

end RuleFlow.Decimal
