import RuleFlow.Command.Run
import Std.Time.DateTime.Timestamp

/-!
# The program

The program takes a picture of the files that its arguments speak of, runs the command on the picture, and prints and
writes what the command leaves behind. A link to a regular file is pictured as that file.
-/

namespace RuleFlow.Program

/-- The string with these bytes, empty if they are no UTF-8. -/
def stringOf (t : Text) : String := (String.fromUTF8? ⟨t.toArray⟩).getD ""

/-- The content of a file, empty if it cannot be read. -/
def contentOf (e : IO.FS.DirEntry) : IO Text := do
  try return (← IO.FS.readBinFile e.path).toList
  catch _ => return []

/-- What a name in a directory stands for, if that can be seen. -/
def typeOf? (e : IO.FS.DirEntry) : IO (Option IO.FS.FileType) := do
  try return some (← e.path.symlinkMetadata).type
  catch _ => return none

/-- What the links of a path lead to, if they lead anywhere. -/
def realPath? (e : IO.FS.DirEntry) : IO (Option String) := do
  try return some (← IO.FS.realPath e.path).toString
  catch _ => return none

/-- The picture of a name in a directory with everything below it. -/
partial def picture (e : IO.FS.DirEntry) : IO (Option Tree.Entry) := do
  match ← typeOf? e with
  | some .file => return some (.file (← contentOf e))
  | some .dir =>
    let mut entries := #[]
    for child in ← e.path.readDir do
      if let some below ← picture child then entries := entries.push (Text.ofString child.fileName, below)
    return some (.directory entries.toList)
  | some .symlink =>
    if ← e.path.isDir then return (← realPath? e).map fun target => .link (Text.ofString target)
    else if ← e.path.pathExists then return some (.file (← contentOf e))
    else return none
  | _ => return none

/-- The name of a directory in the one above it. -/
def entryOf (place : List Text) (name : Text) : IO.FS.DirEntry :=
  { root := stringOf (Path.ofNames true place), fileName := stringOf name }

/-- Adds what is on the way from a place along the names, and with `deep` everything below the end of it. -/
partial def addWay (tree : Tree) (deep : Bool) (place : List Text) (ns : List Text) : IO Tree := do
  match ns with
  | [] =>
    if deep then return ((← picture (entryOf place Path.dot)).map (tree.put place)).getD tree else return tree
  | name :: rest =>
    if name = Path.dot then addWay tree deep place rest
    else if name = Path.dotDot then addWay tree deep place.dropLast rest
    else
      let here := place ++ [name]
      let e := entryOf place name
      match ← typeOf? e with
      | some .dir =>
        let known := (tree.entry? here).isSome
        addWay (if known then tree else tree.put here (.directory [])) deep here rest
      | some .symlink =>
        match ← realPath? e with
        | some target =>
          let real := Text.ofString target
          addWay (tree.put here (.link real)) deep [] (Path.names real ++ rest)
        | none => return tree
      | some .file => return tree.put here (.file (← contentOf e))
      | _ => return tree

/-- Adds what a path leads to. -/
def addPath (tree : Tree) (deep : Bool) (path : Text) : IO Tree :=
  addWay tree deep (if Path.isAbsolute path then [] else tree.workingDirectory) (Path.names path)

/-- Adds the paths that options speak of: everything below the root, and else what is on the way. -/
def addOptions (tree : Tree) (o : Options) : IO Tree := do
  let mut tree := tree
  for root in o.root.toList do
    tree ← addPath tree true root
    for path in (o.settings root).ignoredPaths do tree ← addPath tree false path
  for path in o.traces.toList do tree ← addPath tree false path
  for directory in o.out.toList do
    for name in [Command.analysisName, Command.validationName] do
      for ending in ([".md", ".json"] : List Text) do
        tree ← addPath tree false (Path.append directory (name ++ ending))
  return tree

/-- The picture of the files that the arguments of the program speak of. -/
def pictureFor (arguments : List Text) : IO Tree := do
  let here := Path.names (Text.ofString (← IO.FS.realPath ".").toString)
  let tree ← addWay { root := [], workingDirectory := here } false [] here
  match Command.select arguments with
  | .error _ => return tree
  | .ok (command, rest) =>
    match Arguments.parse command rest with
    | .error _ => return tree
    | .ok given =>
      let mut tree := tree
      for path in given.config.toList do tree ← addPath tree false path
      match Config.resolve tree given with
      | .error _ => return tree
      | .ok o => addOptions tree o

/-- The seconds since the start of 1970. -/
def now : IO Instant := return (← Std.Time.Timestamp.now).toSecondsSinceUnixEpoch.val

/-- Writes the files of an ending, up to the first that cannot be written. -/
def writeFiles : List (Text × Text) → IO (Option Command.Error)
  | [] => return none
  | (path, content) :: rest => do
    try
      IO.FS.createDirAll (stringOf (Path.parent path))
      IO.FS.writeBinFile (stringOf path) ⟨content.toArray⟩
      writeFiles rest
    catch _ => return some (.unwritable path)

/-- Prints an ending and gives the exit code. -/
def finish (time : Instant) (e : Command.Ending) : IO UInt32 := do
  (← IO.getStderr).write ⟨(e.log time.offsetStamp ++ e.errorOutput).toArray⟩
  (← IO.getStdout).write ⟨e.output.toArray⟩
  return e.exit.code.toUInt32

/-- Runs the program with its arguments. -/
def execute (arguments : List Text) : IO UInt32 := do
  let time ← now
  let ending := Command.run { tree := ← pictureFor arguments, time } arguments
  match ← writeFiles ending.files with
  | none => finish time ending
  | some error => finish time { ending with outcome := .error error, printed := [] }

end RuleFlow.Program

def main (arguments : List String) : IO UInt32 :=
  RuleFlow.Program.execute (arguments.map RuleFlow.Text.ofString)
