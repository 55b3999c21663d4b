import RuleFlow.Json.Basic

/-!
# Reading JSON

`Json.parse` reads a whole text as one JSON value; blanks may stand around every token. Bytes from 128 on are taken as
they are, and an escape `\uXXXX` stands for the UTF-8 bytes of its character, a surrogate pair for one character.
The readers below take a value from the front of a text and return what follows it.
-/

namespace RuleFlow.Json

/-- Space, line feed, carriage return and tab may stand between tokens. -/
def isBlankByte (b : UInt8) : Bool := b == 32 || b == 10 || b == 13 || b == 9

def skipBlanks (t : Text) : Text := t.dropWhile isBlankByte

/-! ## Numbers -/

def isDigit (b : UInt8) : Bool := 48 ≤ b && b ≤ 57

/-- The digits at the front, at least one, and what follows. -/
def digits (t : Text) : Option (Text × Text) :=
  match t.span isDigit with
  | ([], _) => none
  | (ds, rest) => some (ds, rest)

/-- A zero alone, or digits that start with another one. -/
def integerPart : Text → Option (Text × Text)
  | 48 :: rest => some ([48], rest)
  | t => digits t

/-- A point and digits, if there is a point. -/
def fractionPart : Text → Option (Text × Text)
  | 46 :: rest => (digits rest).map fun (ds, rest) => (46 :: ds, rest)
  | t => some ([], t)

/-- The sign of an exponent, which may be left out. -/
def exponentSign : Text → Text × Text
  | 43 :: rest => ([43], rest)
  | 45 :: rest => ([45], rest)
  | t => ([], t)

/-- The letter e, a sign and digits, if there is such a letter. -/
def exponentPart : Text → Option (Text × Text)
  | b :: rest =>
    if b == 101 || b == 69 then
      let (sign, rest) := exponentSign rest
      (digits rest).map fun (ds, rest) => (b :: (sign ++ ds), rest)
    else some ([], b :: rest)
  | [] => some ([], [])

/-- The number token at the front, without a sign. -/
def unsignedToken (t : Text) : Option (Text × Text) := do
  let (whole, t) ← integerPart t
  let (fraction, t) ← fractionPart t
  let (exponent, t) ← exponentPart t
  return (whole ++ fraction ++ exponent, t)

/-- The number token at the front. -/
def numberToken : Text → Option (Text × Text)
  | 45 :: rest => (unsignedToken rest).map fun (token, rest) => (45 :: token, rest)
  | t => unsignedToken t

/-! ## Strings -/

/-- The value of a hexadecimal digit of either case. -/
def hexValue (b : UInt8) : Option Nat :=
  if 48 ≤ b && b ≤ 57 then some (b.toNat - 48)
  else if 97 ≤ b && b ≤ 102 then some (b.toNat - 87)
  else if 65 ≤ b && b ≤ 70 then some (b.toNat - 55)
  else none

/-- The number that four hexadecimal digits stand for. -/
def hexUnit (a b c d : UInt8) : Option Nat := do
  return 4096 * (← hexValue a) + 256 * (← hexValue b) + 16 * (← hexValue c) + (← hexValue d)

/-- The UTF-8 bytes of a code point below 1114112, surrogates written like their neighbours. -/
def encodeCodePoint (n : Nat) : Text :=
  if n < 128 then [n.toUInt8]
  else if n < 2048 then [(192 + n / 64).toUInt8, (128 + n % 64).toUInt8]
  else if n < 65536 then [(224 + n / 4096).toUInt8, (128 + n / 64 % 64).toUInt8, (128 + n % 64).toUInt8]
  else [(240 + n / 262144).toUInt8, (128 + n / 4096 % 64).toUInt8, (128 + n / 64 % 64).toUInt8,
    (128 + n % 64).toUInt8]

/-- The byte of an escape that is one letter long. -/
def shortEscape (b : UInt8) : Option UInt8 :=
  if b == 34 || b == 92 || b == 47 then some b
  else if b == 110 then some 10
  else if b == 114 then some 13
  else if b == 116 then some 9
  else if b == 98 then some 8
  else if b == 102 then some 12
  else none

/-- The first half of a surrogate pair. -/
def isHighSurrogate (n : Nat) : Bool := 0xD800 ≤ n && n < 0xDC00

/-- The second half of a surrogate pair. -/
def isLowSurrogate (n : Nat) : Bool := 0xDC00 ≤ n && n < 0xE000

/-- An element of a spelled string: a byte, or the UTF-16 unit of an escape. -/
inductive Piece where
  | byte (value : UInt8)
  | unit (value : Nat)

/-- The elements of a string after its opening quote, and what follows the closing one. -/
def pieces : Text → Option (List Piece × Text)
  | [] => none
  | 34 :: rest => some ([], rest)
  | 92 :: 117 :: a :: b :: c :: d :: rest =>
    match hexUnit a b c d with
    | none => none
    | some n => (pieces rest).map fun (ps, rest) => (.unit n :: ps, rest)
  | 92 :: b :: rest =>
    match shortEscape b with
    | none => none
    | some c => (pieces rest).map fun (ps, rest) => (.byte c :: ps, rest)
  | b :: rest => if b < 32 || b == 92 then none else (pieces rest).map fun (ps, rest) => (.byte b :: ps, rest)

/-- The bytes of the elements; `pending` is a high surrogate that waits for its other half. -/
def bytesOfPieces (pending : Option Nat) : List Piece → Text
  | [] => pending.elim [] encodeCodePoint
  | .byte b :: rest => pending.elim [] encodeCodePoint ++ b :: bytesOfPieces none rest
  | .unit n :: rest =>
    match pending with
    | some high =>
      if isLowSurrogate n then
        encodeCodePoint (0x10000 + (high - 0xD800) * 1024 + (n - 0xDC00)) ++ bytesOfPieces none rest
      else encodeCodePoint high ++
        if isHighSurrogate n then bytesOfPieces (some n) rest else encodeCodePoint n ++ bytesOfPieces none rest
    | none => if isHighSurrogate n then bytesOfPieces (some n) rest else encodeCodePoint n ++ bytesOfPieces none rest

/-- The rest of a string after its opening quote, and what follows the closing one. -/
def stringTail (t : Text) : Option (Text × Text) := (pieces t).map fun (ps, rest) => (bytesOfPieces none ps, rest)

/-! ## Values -/

/-- What follows `word` at the front of the text. -/
def keyword (word : Text) (t : Text) : Option Text :=
  if word.isPrefixOf t then some (t.drop word.length) else none

mutual
/-- The value at the front of the text. Each nested value uses up one unit of `fuel`. -/
def value : Nat → Text → Option (Json × Text)
  | 0, _ => none
  | fuel + 1, t =>
    match skipBlanks t with
    | 123 :: rest =>
      match skipBlanks rest with
      | 125 :: rest => some (object [], rest)
      | rest => (members fuel rest).map fun (ms, rest) => (object ms, rest)
    | 91 :: rest =>
      match skipBlanks rest with
      | 93 :: rest => some (array [], rest)
      | rest => (items fuel rest).map fun (vs, rest) => (array vs, rest)
    | 34 :: rest => (stringTail rest).map fun (s, rest) => (string s, rest)
    | 116 :: rest => (keyword "rue" rest).map fun rest => (bool true, rest)
    | 102 :: rest => (keyword "alse" rest).map fun rest => (bool false, rest)
    | 110 :: rest => (keyword "ull" rest).map fun rest => (null, rest)
    | rest => (numberToken rest).map fun (token, rest) => (number token, rest)

/-- The items of an array up to its closing bracket. -/
def items : Nat → Text → Option (List Json × Text)
  | 0, _ => none
  | fuel + 1, t => do
    let (v, rest) ← value fuel t
    match skipBlanks rest with
    | 93 :: rest => some ([v], rest)
    | 44 :: rest => (items fuel rest).map fun (vs, rest) => (v :: vs, rest)
    | _ => none

/-- The members of an object up to its closing brace. -/
def members : Nat → Text → Option (List (Text × Json) × Text)
  | 0, _ => none
  | fuel + 1, t =>
    match skipBlanks t with
    | 34 :: rest => do
      let (k, rest) ← stringTail rest
      match skipBlanks rest with
      | 58 :: rest => do
        let (v, rest) ← value fuel rest
        match skipBlanks rest with
        | 125 :: rest => some ([(k, v)], rest)
        | 44 :: rest => (members fuel rest).map fun (ms, rest) => ((k, v) :: ms, rest)
        | _ => none
      | _ => none
    | _ => none
end

/-- The value that the whole text stands for. -/
def parse (t : Text) : Option Json := do
  let (v, rest) ← value (t.length + 1) t
  guard (skipBlanks rest).isEmpty
  return v

end RuleFlow.Json
