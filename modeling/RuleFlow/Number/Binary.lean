/-!
# Doubles as sign, mantissa and exponent

`Binary.ofFloat` takes a double apart, so that its digits are found in exact arithmetic on natural numbers, and
`roundDiv` is the one place where a quotient is rounded.
-/

namespace RuleFlow

/-- What a double stands for. A finite one is `± mantissa · 2 ^ exponent`. -/
inductive Binary where
  | nan
  | infinite (negative : Bool)
  | finite (negative : Bool) (mantissa : Nat) (exponent : Int)
  deriving DecidableEq

namespace Binary

/-- The leading bit of a mantissa, which is not stored. -/
def hiddenBit : Nat := 1 <<< 52

/-- The fields of the 64 bits: a sign, 11 bits of exponent and 52 bits of fraction. -/
def ofFloat (x : Float) : Binary :=
  let bits : Nat := x.toBits.toNat
  let negative := bits >>> 63 == 1
  let biased : Nat := (bits >>> 52) % 2048
  let fraction : Nat := bits % hiddenBit
  if biased = 2047 then
    if fraction = 0 then .infinite negative else .nan
  else if biased = 0 then .finite negative fraction (-1074)
  else .finite negative (fraction + hiddenBit) (biased - 1075)

/-- The numerator of `mantissa · 2 ^ exponent`. -/
def numerator (mantissa : Nat) (exponent : Int) : Nat := mantissa <<< exponent.toNat

/-- The denominator of `mantissa · 2 ^ exponent`, a power of two. -/
def denominator (exponent : Int) : Nat := 1 <<< (-exponent).toNat

/-- The whole part of a finite number, rounded toward zero. -/
def truncate : Binary → Option Int
  | finite negative m q =>
    let whole : Int := numerator m q / denominator q
    some (if negative then -whole else whole)
  | _ => none

end Binary

/-- The natural number nearest to `n / d`; a half goes to the even neighbour. -/
def roundDiv (n d : Nat) : Nat :=
  let low := n / d
  let rest := n % d
  if 2 * rest < d then low
  else if d < 2 * rest then low + 1
  else if low % 2 = 0 then low else low + 1

end RuleFlow
