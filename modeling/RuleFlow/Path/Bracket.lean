import RuleFlow.Text.Basic

/-!
# Bracket expressions

A bracket expression of a wildcard pattern stands for one byte out of a set: bytes, ranges `a-z`, classes `[:alpha:]`,
equivalences `[=a=]` and symbols `[.a.]`, all of them turned round by a `!` or `^` in front. A backslash takes away the
meaning of what follows, and a `]` in front is an ordinary byte. `Bracket.ofByte` decides about one byte; the elements
are read from the left until one of them holds the byte, and what follows that one is only skipped.
-/

namespace RuleFlow.Bracket

/-! ## Classes -/

def isUpperByte (b : UInt8) : Bool := 65 ≤ b && b ≤ 90

def isLowerByte (b : UInt8) : Bool := 97 ≤ b && b ≤ 122

def isDigitByte (b : UInt8) : Bool := 48 ≤ b && b ≤ 57

def isAlphaByte (b : UInt8) : Bool := isUpperByte b || isLowerByte b

def isAlnumByte (b : UInt8) : Bool := isAlphaByte b || isDigitByte b

/-- The named classes; no class holds a byte from 128 on. -/
def classes : List (Text × (UInt8 → Bool)) :=
  [("alnum", isAlnumByte),
   ("alpha", isAlphaByte),
   ("blank", fun b => b == 32 || b == 9),
   ("cntrl", fun b => b < 32 || b == 127),
   ("digit", isDigitByte),
   ("graph", fun b => 33 ≤ b && b ≤ 126),
   ("lower", isLowerByte),
   ("print", fun b => 32 ≤ b && b ≤ 126),
   ("punct", fun b => 33 ≤ b && b ≤ 126 && !isAlnumByte b),
   ("space", Text.isBlankByte),
   ("upper", isUpperByte),
   ("xdigit", fun b => isDigitByte b || (65 ≤ b && b ≤ 70) || (97 ≤ b && b ≤ 102))]

/-- What the opening `[:` of a class is followed by. -/
inductive ClassName where
  /-- A name up to its `:]`, and what follows. -/
  | name (name rest : Text)
  /-- Something else, so that the opening is a byte and another one. -/
  | none
  /-- More letters than a name may have. -/
  | tooLong

/-- The number of letters at which a name is too long. -/
def nameLimit : Nat := 2048

/-- Reads a name of a class, which is made of letters before z and shorter than `limit`. -/
def className (limit : Nat) (t : Text) : ClassName :=
  let letters := t.takeWhile fun c => 97 ≤ c && c < 122
  if limit ≤ letters.length then .tooLong
  else
    match t.drop letters.length with
    | 58 :: 93 :: rest => .name letters rest
    | _ => .none

/-- A symbol up to its `.]`, and what follows. -/
def symbol : Text → Option (Text × Text)
  | [] => none
  | c :: rest =>
    match c, rest with
    | 46, 93 :: rest => some ([], rest)
    | _, _ => (symbol rest).map fun (s, r) => (c :: s, r)

/-! ## Skipping -/

/-- What follows the bracket when the rest of it does not matter. -/
inductive Skipped where
  | closed (rest : Text)
  | unclosed
  /-- The bracket is not well formed and nothing matches it. -/
  | broken

/-- Skips to the closing bracket. The name of a class may have one letter less than where it is looked at. Each element
uses up one unit of `fuel`. -/
def skip : (fuel : Nat) → Text → Skipped
  | 0, _ => .unclosed
  | _ + 1, [] => .unclosed
  | _ + 1, 93 :: rest => .closed rest
  | _ + 1, [92] => .broken
  | fuel + 1, 92 :: _ :: rest => skip fuel rest
  | fuel + 1, 91 :: 58 :: rest =>
    match className (nameLimit - 1) rest with
    | .name _ rest => skip fuel rest
    | .none => skip fuel (58 :: rest)
    | .tooLong => .broken
  | fuel + 1, 91 :: 61 :: rest =>
    match rest with
    | _ :: 61 :: 93 :: rest => skip fuel rest
    | _ => .broken
  | fuel + 1, 91 :: 46 :: rest =>
    match symbol rest with
    | some (_, rest) => skip fuel rest
    | none => .broken
  | fuel + 1, _ :: rest => skip fuel rest

/-! ## Elements -/

/-- What a bracket says about a byte. -/
inductive Verdict where
  | holds (rest : Text)
  | lacks (rest : Text)
  | unclosed
  /-- The bracket is not well formed and nothing matches it. -/
  | broken

/-- The byte was found in an element before `rest`. -/
def found (rest : Text) : Verdict :=
  match skip (rest.length + 1) rest with
  | .closed rest => .holds rest
  | .unclosed => .unclosed
  | .broken => .broken

/-- The upper end of a range, and what follows; none where it is missing or not a single byte. -/
def rangeEnd : Text → Option (UInt8 × Text)
  | 91 :: 46 :: rest =>
    match symbol rest with
    | some ([c], rest) => some (c, rest)
    | _ => none
  | 92 :: c :: rest => some (c, rest)
  | [92] => none
  | c :: rest => some (c, rest)
  | [] => none

/-- The element is the lower end of a range rather than a byte of its own. -/
def startsRange : Text → Bool
  | 45 :: c :: _ => c != 93
  | _ => false

/-- The same after a symbol, where a closing bracket may follow the hyphen. -/
def startsRangeAfterSymbol : Text → Bool
  | 45 :: _ :: _ => true
  | _ => false

/-- The verdict on the byte of the elements at the front of the text. Each one uses up one unit of `fuel`. -/
def elements (b : UInt8) : (fuel : Nat) → Text → Verdict
  | 0, _ => .unclosed
  | fuel + 1, t =>
    let next : Text → Verdict
      | 93 :: rest => .lacks rest
      | rest => elements b fuel rest
    let upTo (low : UInt8) : Text → Verdict
      | 45 :: 93 :: rest => next (45 :: 93 :: rest)
      | 45 :: rest =>
        match rangeEnd rest with
        | none => .broken
        | some (high, rest) => if low ≤ b && b ≤ high then found rest else next rest
      | rest => next rest
    let single (c : UInt8) (rest : Text) : Verdict :=
      if !startsRange rest && c == b then found rest else upTo c rest
    match t with
    | [] => .unclosed
    | [92] => .broken
    | 92 :: c :: rest => single c rest
    | 91 :: 58 :: rest =>
      match className nameLimit rest with
      | .tooLong => .broken
      | .none => single 91 (58 :: rest)
      | .name name rest =>
        match classes.lookup name with
        | none => .broken
        | some holds => if holds b then found rest else next rest
    | 91 :: 61 :: c :: 61 :: 93 :: rest => if c == b then found rest else next rest
    | 91 :: 46 :: rest =>
      match symbol rest with
      | some ([c], rest) =>
        if !startsRangeAfterSymbol rest && c == b then found rest else upTo c rest
      | _ => .broken
    | c :: rest => single c rest

/-- Turns a verdict round. -/
def Verdict.not : Verdict → Verdict
  | holds rest => lacks rest
  | lacks rest => holds rest
  | v => v

/-- What the bracket expression says about the byte; the text starts after the opening bracket. -/
def ofByte (b : UInt8) : Text → Verdict
  | 33 :: rest => (elements b (rest.length + 1) rest).not
  | 94 :: rest => (elements b (rest.length + 1) rest).not
  | t => elements b (t.length + 1) t

end RuleFlow.Bracket
