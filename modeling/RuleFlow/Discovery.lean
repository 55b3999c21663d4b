import RuleFlow.Log
import RuleFlow.Parser.Descriptor
import RuleFlow.Path.Tree
import RuleFlow.Path.Wildcard

/-!
# Finding the files of parsers

`discover` walks through a directory and leaves out ignored paths; `matchFiles` takes a list of files as given. Either
way a file belongs to a kind of parser when its name fits a pattern of the kind, and the files of a kind are listed in
byte order, each once.
-/

namespace RuleFlow.Discovery

open RuleFlow.Parser (Kind Descriptor FilesByKind)

/-- Why a directory cannot be searched. -/
inductive Error where
  | emptyRoot
  | unresolvedRoot (root : Text) (fault : Tree.Fault)
  | notDirectory (path : Text)
  | unresolvedPath (path : Text) (fault : Tree.Fault)

def Error.message : Error → Text
  | emptyRoot => "Repository root path must not be empty"
  | unresolvedRoot root fault => "Cannot resolve repository root " ++ root ++ ": " ++ fault.message
  | notDirectory path => "Repository root is not a directory: " ++ path
  | unresolvedPath path fault => "Cannot resolve path " ++ path ++ ": " ++ fault.message

/-! ## Grouping by kind -/

/-- The name of the file fits a pattern of a descriptor of the kind. -/
def belongsTo (descriptors : List Descriptor) (kind : Kind) (file : Text) : Bool :=
  descriptors.any fun d => d.kind = kind && Wildcard.fitsAny (Path.fileName file) d.patterns

/-- The files of each kind, in byte order and each once. -/
def group (descriptors : List Descriptor) (files : List Text) : FilesByKind := fun kind =>
  Text.sortUnique (files.filter (belongsTo descriptors kind))

/-! ## Walking through a directory -/

/-- The path in canonical form. -/
def canonical (tree : Tree) (path : Text) : Except Error Text :=
  match tree.weaklyCanonical path with
  | .ok p => .ok p
  | .error fault => .error (.unresolvedPath path fault)

/-- The path is an ignored one or lies inside of one. -/
def isIgnored (tree : Tree) (path : Text) : (ignored : List Text) → Except Error Bool
  | [] => .ok false
  | i :: rest => do
    if i.isEmpty then isIgnored tree path rest
    else
      let outer ← canonical tree i
      let inner ← canonical tree path
      if Path.isWithin inner outer then return true else isIgnored tree path rest

mutual
/-- The regular files at and below an entry whose path is `path`, ignored ones and links to directories left out. -/
def filesAt (tree : Tree) (ignored : List Text) (path : Text) : Tree.Entry → Except Error (List Text)
  | .file _ => do return if ← isIgnored tree path ignored then [] else [path]
  | .link _ => do return if (← isIgnored tree path ignored) || !tree.isFile path then [] else [path]
  | .directory entries => do
    if ← isIgnored tree path ignored then return [] else filesIn tree ignored path entries

/-- The regular files at and below the entries of the directory `parent`. -/
def filesIn (tree : Tree) (ignored : List Text) (parent : Text) : List (Text × Tree.Entry) →
    Except Error (List Text)
  | [] => .ok []
  | (name, entry) :: rest => do
    let here ← filesAt tree ignored (Path.append parent name) entry
    return here ++ (← filesIn tree ignored parent rest)
end

/-- The directory that a search starts from. -/
def resolveRoot (tree : Tree) (root : Text) : Except Error Text :=
  if root.isEmpty then .error .emptyRoot
  else
    match tree.weaklyCanonical root with
    | .error fault => .error (.unresolvedRoot root fault)
    | .ok path => if tree.isDirectory path then .ok path else .error (.notDirectory path)

/-- All regular files below a directory that are not ignored. -/
def filesBelow (tree : Tree) (ignored : List Text) (path : Text) : Except Error (List Text) :=
  match tree.status path with
  | .ok (.directory entries) => filesIn tree ignored path entries
  | _ => .error (.notDirectory path)

/-- What is reported of a search below `root`. -/
def entries (root : Text) (files : FilesByKind) : List Log.Entry :=
  files.toList.map (fun (kind, fs) =>
    (⟨.debug, "discovery.parser.files", [("parser", kind.name), ("count", Text.ofNat fs.length)]⟩ : Log.Entry)) ++
    [⟨.info, "discovery.complete", [("root", root), ("parser_types", Text.ofNat files.kinds.length)]⟩]

/-- The files below `root` by kind, with absolute paths, and what is reported. -/
def discover (tree : Tree) (descriptors : List Descriptor) (ignored : List Text) (root : Text) :
    Except Error (FilesByKind × List Log.Entry) := do
  let path ← resolveRoot tree root
  let files := group descriptors ((← filesBelow tree ignored path).map tree.absolute)
  return (files, entries path files)

/-! ## Files as listed -/

/-- The normal form of a file that is seen from `root`, itself seen from the directory `base`. A file that is seen from
an absolute path has the root of that path. -/
def resolve (base root file : Text) : Except Tree.Fault Text :=
  if Path.isAbsolute file then .ok (Path.normalize file)
  else
    let path := Path.append root file
    if path.isEmpty then .error .emptyPath
    else if Path.isAbsolute root then .ok (Path.normalizeAt (Path.root root) path)
    else .ok (Path.normalize (Path.append base path))

/-- The listed files by kind, and what is reported. No file has to be there. -/
def matchFiles (base : Text) (descriptors : List Descriptor) (root : Text) (files : List Text) :
    Except Tree.Fault (FilesByKind × List Log.Entry) := do
  let resolved ← files.mapM (resolve base root)
  let groups := group descriptors resolved
  return (groups,
    [⟨.debug, "discovery.files.matched",
      [("requested", Text.ofNat files.length), ("parser_types", Text.ofNat groups.kinds.length)]⟩])

end RuleFlow.Discovery
