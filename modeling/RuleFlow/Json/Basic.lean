import RuleFlow.Text.Basic

/-!
# JSON values and their text

A number is kept as the token it is written with, and an object as the list of its members in order. `Json.render`
writes a value on one line; `Json.escape` writes the inside of a string, where only quotes, backslashes and bytes
below 32 need another spelling.
-/

namespace RuleFlow

/-- A JSON value. Numbers keep their spelling and objects the order of their members. -/
inductive Json where
  | null
  | bool (value : Bool)
  | number (token : Text)
  | string (value : Text)
  | array (items : List Json)
  | object (members : List (Text × Json))

namespace Json

/-! ## Strings -/

/-- The small hexadecimal digit of a number below 16. -/
def hexDigit (n : UInt8) : UInt8 := if n < 10 then n + 48 else n + 87

/-- How a byte is spelled inside a string. -/
def escapeByte (b : UInt8) : Text :=
  if b == 34 then "\\\""
  else if b == 92 then "\\\\"
  else if b == 10 then "\\n"
  else if b == 13 then "\\r"
  else if b == 9 then "\\t"
  else if b == 8 then "\\b"
  else if b == 12 then "\\f"
  else if b < 32 then "\\u00" ++ [hexDigit (b / 16), hexDigit (b % 16)]
  else [b]

/-- The inside of the string that stands for the text. -/
def escape (t : Text) : Text := t.flatMap escapeByte

/-- The text between quotes, escaped. -/
def quote (t : Text) : Text := 34 :: (escape t ++ [34])

/-! ## Values -/

/-- A string, or null in its absence. -/
def ofOption (t : Option Text) : Json := t.elim null string

/-- The array of the given strings. -/
def strings (ts : List Text) : Json := array (ts.map string)

/-- The number written with the decimal numeral of `n`. -/
def nat (n : Nat) : Json := number (Text.ofNat n)

def int (n : Int) : Json := number (Text.ofInt n)

mutual
/-- The text of a value on one line: commas are bare and a colon is followed by a space. -/
def render : Json → Text
  | null => "null"
  | bool b => Text.ofBool b
  | number token => token
  | string t => quote t
  | array items => 91 :: (renderItems items ++ [93])
  | object members => 123 :: (renderMembers members ++ [125])

def renderItems : List Json → Text
  | [] => []
  | [v] => render v
  | v :: w :: rest => render v ++ 44 :: renderItems (w :: rest)

def renderMembers : List (Text × Json) → Text
  | [] => []
  | [(k, v)] => quote k ++ ": " ++ render v
  | (k, v) :: m :: rest => quote k ++ ": " ++ render v ++ 44 :: renderMembers (m :: rest)
end

end Json

end RuleFlow
