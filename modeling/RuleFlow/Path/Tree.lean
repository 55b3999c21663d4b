import RuleFlow.Path.Basic

/-!
# File trees

A tree holds the files that a program can see: directories with entries, files with contents and symbolic links with
targets. A path is resolved as an operating system does it, name by name from the root or the working directory, and
through at most forty links. `Tree.weaklyCanonical` resolves as much of a path as exists.
-/

namespace RuleFlow

namespace Tree

/-- What a name in a directory stands for. -/
inductive Entry where
  | file (content : Text)
  | link (target : Text)
  | directory (entries : List (Text × Entry))

/-- Why a path cannot be resolved or written to. -/
inductive Fault where
  | notFound
  | notDirectory
  | tooManyLinks
  /-- A name, a path or the way to a directory is longer than a system allows. -/
  | tooLong
  | emptyPath
  | isDirectory

def Fault.message : Fault → Text
  | notFound => "No such file or directory"
  | notDirectory => "Not a directory"
  | tooManyLinks => "Too many levels of symbolic links"
  | tooLong => "File name too long"
  | emptyPath => "Invalid argument"
  | isDirectory => "Is a directory"

/-- Nothing is there, as opposed to something that cannot be looked at. -/
def Fault.isAbsence : Fault → Bool
  | notFound => true
  | notDirectory => true
  | _ => false

/-- The entry that the names lead to inside an entry, without looking through links. -/
def Entry.at? (e : Entry) : List Text → Option Entry
  | [] => some e
  | name :: rest =>
    match e with
    | .directory entries => (entries.lookup name).bind fun next => next.at? rest
    | _ => none

/-- The names on the way from the root to a place, each with the entry that it stands for, the last one first. -/
abbrev Trail := List (Text × Entry)

/-- The names from the root to the place at the end of the trail. -/
def Trail.place (w : Trail) : List Text := (w.map (·.1)).reverse

end Tree

/-- All files, and the names of the directories from the root to the working directory. -/
structure Tree where
  root : List (Text × Tree.Entry)
  workingDirectory : List Text

namespace Tree

/-- The entry that the names lead to from the root, without looking through links. -/
def entry? (t : Tree) (place : List Text) : Option Entry := (Entry.directory t.root).at? place

/-! ## Walking along a path -/

/-- The number of links that a path may lead through. -/
def linkLimit : Nat := 40

/-- The number of bytes that a name in a directory may have. -/
def nameLimit : Nat := 255

/-- The number of bytes that a path may have. -/
def pathLimit : Nat := 4095

/-- The entry at the end of a trail. -/
def entryAt (t : Tree) (w : Trail) : Entry := (w.head?.map (·.2)).getD (.directory t.root)

/-- The names that a path is walked along; a slash at the end goes on to an empty name. -/
def steps (p : Text) : List Text := Path.names p ++ if Path.endsInSlash p then [[]] else []

/-- Goes on from the end of a trail, which has no link on it, along the names. At most `links` links are followed. -/
def walk (t : Tree) (links : Nat) (w : Trail) (ns : List Text) : Except Fault Trail :=
  match ns with
  | [] => .ok w
  | name :: rest =>
    match t.entryAt w with
    | .directory entries =>
      if name = [] || name = Path.dot then t.walk links w rest
      else if name = Path.dotDot then t.walk links w.tail rest
      else if nameLimit < name.length then .error .tooLong
      else
        match entries.lookup name with
        | none => .error .notFound
        | some (.link target) =>
          match links with
          | 0 => .error .tooManyLinks
          | links + 1 => t.walk links (if Path.isAbsolute target then [] else w) (steps target ++ rest)
        | some e => t.walk links ((name, e) :: w) rest
    | _ => .error .notDirectory
termination_by (links, ns.length)

/-- The trail that a path is walked from: the root, or the working directory for a relative path. -/
def start (t : Tree) (p : Text) : Except Fault Trail :=
  if Path.isAbsolute p then .ok [] else t.walk linkLimit [] t.workingDirectory

/-- The path as a system reads it: up to the first zero byte, and neither empty nor too long. -/
def readPath (path : Text) : Except Fault Text :=
  let p := Text.untilZero path
  if p.isEmpty then .error .notFound else if pathLimit < p.length then .error .tooLong else .ok p

/-- The trail that a path leads to. -/
def follow (t : Tree) (path : Text) : Except Fault Trail := do
  let p ← readPath path
  t.walk linkLimit (← t.start p) (steps p)

/-- The place that a path leads to. -/
def locate (t : Tree) (p : Text) : Except Fault (List Text) := Trail.place <$> t.follow p

/-- The file or directory that a path leads to. -/
def status (t : Tree) (p : Text) : Except Fault Entry := t.entryAt <$> t.follow p

def isDirectory (t : Tree) (p : Text) : Bool :=
  match t.status p with
  | .ok (.directory _) => true
  | _ => false

def isFile (t : Tree) (p : Text) : Bool :=
  match t.status p with
  | .ok (.file _) => true
  | _ => false

/-- The content of the file that a path leads to. A directory reads as an empty file. -/
def read? (t : Tree) (p : Text) : Option Text :=
  match t.status p with
  | .ok (.file content) => some content
  | .ok (.directory _) => some []
  | _ => none

/-! ## Canonical paths -/

/-- The path of the working directory. -/
def workingPath (t : Tree) : Text := Path.ofNames true t.workingDirectory

/-- The path as seen from the root. -/
def absolute (t : Tree) (p : Text) : Text := Path.append t.workingPath p

/-- The absolute path without links that leads to the same place. -/
def canonical (t : Tree) (p : Text) : Except Fault Text := (Path.ofNames true ·) <$> t.locate p

/-- Puts elements together as long as something is there; `found` is the path up to then. -/
def existing (t : Tree) (found : Text) : List Text → Except Fault (Text × List Text)
  | [] => .ok (found, [])
  | e :: rest =>
    match t.status (Path.append found e) with
    | .ok _ => t.existing (Path.append found e) rest
    | .error fault => if fault.isAbsence then .ok (found, e :: rest) else .error fault

/-- The path with its existing part made canonical and the whole in normal form. A relative path of which nothing exists
stays relative. -/
def weaklyCanonical (t : Tree) (p : Text) : Except Fault Text :=
  match t.status p with
  | .ok _ => t.canonical p
  | .error fault =>
    if !fault.isAbsence then .error fault
    else do
      let (found, missing) ← t.existing [] (Path.elements p)
      let start ← if found.isEmpty then pure [] else t.canonical found
      return Path.normalize (missing.foldl Path.append start)

/-! ## Changes -/

/-- The entries with one of them put in place of what has its name, or at the end. -/
def putEntry (entries : List (Text × Entry)) (name : Text) (e : Entry) : List (Text × Entry) :=
  if entries.any (·.1 == name) then entries.map fun (n, old) => if n = name then (n, e) else (n, old)
  else entries ++ [(name, e)]

/-- Puts an entry where the names lead to, inside directories that are there. -/
def Entry.put (new : Entry) : (place : List Text) → Entry → Entry
  | [], _ => new
  | name :: rest, .directory entries =>
    .directory (putEntry entries name (Entry.put new rest ((entries.lookup name).getD (.directory []))))
  | _ :: _, e => e

/-- Puts an entry where the names lead to from the root. -/
def put (t : Tree) (place : List Text) (e : Entry) : Tree :=
  match Entry.put e place (.directory t.root) with
  | .directory root => { t with root }
  | _ => t

/-- Where the last of the names that are walked along is or would be: its directory has to be there, and at most `links`
links in its place are followed. -/
def target (t : Tree) (links : Nat) (w : Trail) (ns : List Text) : Except Fault (List Text) := do
  let name := ns.getLast?.getD []
  if name = [] || name = Path.dot || name = Path.dotDot then .error .isDirectory
  else
    let above ← t.walk linkLimit w ns.dropLast
    match t.entryAt above with
    | .directory entries =>
      if nameLimit < name.length then .error .tooLong
      else
        match entries.lookup name, links with
        | some (.link _), 0 => .error .tooManyLinks
        | some (.link next), links + 1 => t.target links (if Path.isAbsolute next then [] else above) (steps next)
        | _, _ => .ok (above.place ++ [name])
    | _ => .error .notDirectory

/-- Writes a file in a directory that is there. -/
def write (t : Tree) (path content : Text) : Except Fault Tree := do
  let p ← readPath path
  let place ← t.target linkLimit (← t.start p) (steps p)
  match t.entry? place with
  | some (.directory _) => .error .isDirectory
  | _ => return t.put place (.file content)

/-- Makes a directory if nothing is there, in a directory that is there. -/
def makeDirectory (t : Tree) (path : Text) : Except Fault Tree :=
  match t.status path with
  | .ok (.directory _) => .ok t
  | .ok _ => .error .notDirectory
  | .error .notFound => do
    let p ← readPath path
    let above ← t.walk linkLimit (← t.start p) (Path.names p).dropLast
    match t.entryAt above, (Path.names p).getLast? with
    | .directory entries, some name =>
      if (entries.lookup name).isSome then .error .notDirectory
      else return t.put (above.place ++ [name]) (.directory [])
    | _, _ => .error .notDirectory
  | .error fault => .error fault

/-- The number of directories that may be made for one path. -/
def missingLimit : Nat := 1000

/-- The directories that have to be made for a path, the outermost first, in front of those that are known to be
missing: the path and those above it up to the first that is there. Each step upwards uses up one unit of `fuel`. -/
def missingDirectories (t : Tree) : (fuel : Nat) → (missing : List Text) → Text → Except Fault (List Text)
  | 0, missing, _ => .ok missing
  | fuel + 1, missing, p =>
    let above := Path.parent p
    let missing := if Path.fileName p = Path.dot || Path.fileName p = Path.dotDot then missing else p :: missing
    if missingLimit < missing.length then .error .tooLong
    else if above.isEmpty then .ok missing
    else
      match t.status above with
      | .ok (.directory _) => .ok missing
      | .ok _ => .error .notDirectory
      | .error fault => if fault.isAbsence then t.missingDirectories fuel missing above else .error fault

/-- Makes a directory and those above it that are not there. -/
def makeDirectories (t : Tree) (p : Text) : Except Fault Tree :=
  if p.isEmpty then .error .emptyPath
  else
    match t.status p with
    | .ok (.directory _) => .ok t
    | .ok _ => .error .notDirectory
    | .error fault =>
      if fault.isAbsence then do
        let named := if (Path.fileName p).isEmpty && !(Path.names p).isEmpty then Path.parent p else p
        (← t.missingDirectories (named.length + 1) [] named).foldlM makeDirectory t
      else .error fault

end Tree

end RuleFlow
