import RuleFlow.Path.Bracket

/-!
# Wildcard patterns

In a pattern `*` stands for any bytes, `?` for one byte and a bracket expression for one byte out of a set; a backslash
takes away the meaning of the byte after it, and an unclosed bracket is an ordinary byte. A pattern is matched by
keeping all the ends of it that may still have to match the rest of the name.
-/

namespace RuleFlow.Wildcard

/-- The ends of the pattern that are reached by leaving out stars. -/
def reach : Text → List Text
  | 42 :: rest => (42 :: rest) :: reach rest
  | t => [t]

/-- The ends of the pattern that are left once its front has matched the byte. -/
def advance (b : UInt8) : Text → List Text
  | [] => []
  | 42 :: rest => reach (42 :: rest)
  | 63 :: rest => reach rest
  | 92 :: rest =>
    match rest with
    | [] => []
    | c :: rest => if c = b then reach rest else []
  | 91 :: rest =>
    match Bracket.ofByte b rest with
    | .holds rest => reach rest
    | .lacks _ => []
    | .broken => []
    | .unclosed => if b = 91 then reach rest else []
  | c :: rest => if c = b then reach rest else []

/-- One of the ends matches the name. -/
def anyMatches (ends : List Text) : Text → Bool
  | [] => ends.contains []
  | b :: name => anyMatches (ends.flatMap (advance b)).eraseDups name

/-- The name as a whole matches the pattern. -/
def isMatch (pattern name : Text) : Bool := anyMatches (reach pattern) name

/-- A pattern with a point and without a star is a file name and not a wildcard. -/
def isFileName (pattern : Text) : Bool := pattern.contains 46 && !pattern.contains 42

/-- The name of a file fits the pattern. A wildcard and a name compared with it both end at the first zero byte. -/
def fits (name pattern : Text) : Bool :=
  if isFileName pattern then name == pattern else isMatch (Text.untilZero pattern) (Text.untilZero name)

/-- The name of a file fits one of the patterns. -/
def fitsAny (name : Text) (patterns : List Text) : Bool := patterns.any (fits name)

end RuleFlow.Wildcard
