import RuleFlow.Text.Basic

/-!
# Paths

A path is a text with slashes; one that starts with a slash is absolute. Nothing here looks at files: the functions
take paths apart (`elements`, `fileName`, `extension`, `parent`), put them together (`append`) and bring them into
normal form (`normalize`).
-/

namespace RuleFlow.Path

/-- The byte between the names of a path. -/
def slash : UInt8 := 47

/-- The name of a directory itself. -/
def dot : Text := "."

/-- The name of the directory above. -/
def dotDot : Text := ".."

def isAbsolute (p : Text) : Bool := p.head? == some slash

/-- The root of a path, which is empty for a relative one. A path of nothing but slashes is a root as it stands. -/
def root (p : Text) : Text := if p.all (· == slash) then p else if isAbsolute p then [slash] else []

/-- The names between the slashes, in order. -/
def names (p : Text) : List Text := (p.splitOn slash).filter (· != [])

/-- The path goes on to a slash after its last name. -/
def endsInSlash (p : Text) : Bool := p.getLast? == some slash

/-- The root, if the path is absolute, then the names, and an empty name if the last one is followed by a slash. -/
def elements (p : Text) : List Text :=
  (if isAbsolute p then [[slash]] else []) ++ names p ++
    if endsInSlash p && !(names p).isEmpty then [[]] else []

/-- The path with these names after the root or from the directory at hand. -/
def ofNames (absolute : Bool) (ns : List Text) : Text :=
  (if absolute then [slash] else []) ++ Text.join [slash] ns

/-- The path with a single slash between any two names. -/
def generic (p : Text) : Text :=
  ofNames (isAbsolute p) (names p ++ if endsInSlash p && !(names p).isEmpty then [[]] else [])

/-! ## Parts -/

/-- What follows the last slash. -/
def fileName (p : Text) : Text := (p.reverse.takeWhile (· != slash)).reverse

/-- The file name from its last point on, unless that is its first byte or the name is `..`. -/
def extension (p : Text) : Text :=
  let name := fileName p
  let ending := name.reverse.takeWhile (· != 46)
  if name = dotDot || name.length ≤ ending.length + 1 then [] else 46 :: ending.reverse

/-- Drops the slashes at the end. -/
def dropSlashes (p : Text) : Text := (p.reverse.dropWhile (· == slash)).reverse

/-- The path without its last name and the slashes before it; the root is its own parent. -/
def parent (p : Text) : Text :=
  let front := (p.reverse.dropWhile (· != slash)).reverse
  if (names p).isEmpty then p
  else if (names front).isEmpty then front.take 1
  else dropSlashes front

/-! ## Combination -/

/-- The path `q` seen from the directory `p`. -/
def append (p q : Text) : Text :=
  if isAbsolute q || p.isEmpty then q
  else if (fileName p).isEmpty then p ++ q
  else p ++ slash :: q

/-! ## Normal form -/

/-- Takes a further name into the names read so far, the last one first: `.` changes nothing, and `..` takes away the
last name, if that is not `..` itself. Above the root there is only the root. -/
def pushName (absolute : Bool) (back : List Text) (name : Text) : List Text :=
  if name = [] || name = dot then back
  else if name = dotDot then
    match back with
    | [] => if absolute then [] else [dotDot]
    | last :: rest => if last = dotDot then dotDot :: last :: rest else rest
  else name :: back

/-- The names that are left in normal form. -/
def normalNames (p : Text) : List Text := ((names p).foldl (pushName (isAbsolute p)) []).reverse

/-- The path ends in a directory: in a slash, in `.` or in `..`. -/
def endsInDirectory (p : Text) : Bool := fileName p == [] || fileName p == dot || fileName p == dotDot

/-- The normal form of a path behind its root: single slashes, no `.`, no `..` after a name or the root, and a slash at
the end where a name is left that stands for a directory by its spelling. -/
def normalRest (p : Text) : Text :=
  let ns := normalNames p
  let trailing := !ns.isEmpty && endsInDirectory p && ns.getLast? != some dotDot
  ofNames false (ns ++ if trailing then [[]] else [])

/-- The normal form of a path with a given root; a path of which nothing else is left becomes a point. -/
def normalizeAt (root p : Text) : Text :=
  if p.isEmpty then []
  else
    let normal := root ++ normalRest p
    if normal.isEmpty then dot else normal

/-- The normal form of a path. -/
def normalize (p : Text) : Text := normalizeAt (root p) p

/-- `prior` is a leading part of `p`, element by element. -/
def isWithin (p prior : Text) : Bool := (elements prior).isPrefixOf (elements p)

end RuleFlow.Path
