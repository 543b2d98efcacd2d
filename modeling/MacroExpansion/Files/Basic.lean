import MacroExpansion.Fault

/-!
# A tree of files

The file system that rules, trees and settings are loaded from: its files and directories, each with
the names that lead to it from the root, and the working directory.  A path is followed name by
name, from the root or from the working directory, as far as each of its steps is a directory.

There are no links, so that a file or directory is in one place only, and whatever there is can be
read.
-/

namespace MacroExpansion

/-- What is found at a place. -/
inductive FileNode where
  | file (bytes : ByteArray)
  | directory

/-- The files and directories of a file system.  Those below the root are listed in the order in
which a walk comes across them. -/
structure FileTree where
  nodes : List (List String × FileNode)
  /-- The place where paths start that do not start at the root. -/
  workingDirectory : List String

namespace FileTree

/-- The names in a path, empty ones included. -/
def splitPath (path : String) : List String := (path.toList.splitOn '/').map String.ofList

/-- The node that some names lead to from the root; no name leads to the root itself. -/
def node? (files : FileTree) : List String → Option FileNode
  | [] => some .directory
  | names => files.nodes.lookup names

/-! ## Building -/

/-- Adds a node, unless there is one. -/
def add (files : FileTree) (names : List String) (node : FileNode) : FileTree :=
  match files.node? names with
  | some _ => files
  | none => { files with nodes := files.nodes ++ [(names, node)] }

/-- Adds the directories that lead from a place to a node, one below the other. -/
def addParents (files : FileTree) (reached : List String) : List String → FileTree
  | [] => files
  | [_] => files
  | name :: names =>
    addParents (files.add (reached ++ [name]) .directory) (reached ++ [name]) names

/-- Adds a node, with the directories that lead to it from the root. -/
def insert (files : FileTree) (names : List String) (node : FileNode) : FileTree :=
  (files.addParents [] names).add names node

/-- The names that a path goes through, if it does not go up. -/
def namesIn (path : String) : List String :=
  (splitPath path).filter fun name => name ≠ "" ∧ name ≠ "."

/-- The file system with a working directory and the files and directories at some paths below
it. -/
def ofList (workingDirectory : List String) (entries : List (String × FileNode)) : FileTree :=
  entries.foldl (fun files (path, node) => files.insert (workingDirectory ++ namesIn path) node)
    (insert ⟨[], workingDirectory⟩ workingDirectory .directory)

/-! ## Following paths -/

/-- Follows the names of a path from a place.  Each step starts in a directory; an empty name and a
dot stay there, and two dots go up, but not above the root. -/
def follow (files : FileTree) : (here : List String) → List String → Except FileFault (List String)
  | here, [] => .ok here
  | here, name :: names =>
    match files.node? here with
    | none => .error .notFound
    | some (.file _) => .error .notADirectory
    | some .directory =>
      if name = "" ∨ name = "." then files.follow here names
      else if name = ".." then files.follow here.dropLast names
      else if (files.node? (here ++ [name])).isSome then files.follow (here ++ [name]) names
      else .error .notFound

/-- The place that a path leads to. -/
def resolve (files : FileTree) (path : String) : Except FileFault (List String) :=
  if path.isEmpty then .error .notFound
  else if path.toList.head? = some '/' then files.follow [] (splitPath path)
  else files.follow files.workingDirectory (splitPath path)

/-- What a path leads to, and its place. -/
def find (files : FileTree) (path : String) : Except FileFault (List String × FileNode) :=
  match files.resolve path with
  | .error e => .error e
  | .ok names =>
    match files.node? names with
    | none => .error .notFound
    | some node => .ok (names, node)

/-- The text of the file at a path. -/
def readText (files : FileTree) (path : String) : Except FileFault String :=
  match files.find path with
  | .error e => .error e
  | .ok (_, .directory) => .error .isADirectory
  | .ok (_, .file bytes) =>
    match String.fromUTF8? bytes with
    | some text => .ok text
    | none => .error .notText

/-! ## Walking -/

/-- Whether a file name ends in the extension of JSON.  A leading dot begins no extension. -/
def isJsonName (name : String) : Bool :=
  match Text.splitLast? ['.'] name.toList with
  | some (stem, extension) => !stem.isEmpty && extension = ['j', 's', 'o', 'n']
  | none => false

/-- The JSON files below a directory, as the names that lead to them from there. -/
def jsonFiles (files : FileTree) (directory : List String) : List (List String) :=
  files.nodes.filterMap fun (names, node) =>
    match node, directory.isPrefixOf? names with
    | .file _, some below =>
      match below.getLast? with
      | some name => if isJsonName name then some below else none
      | none => none
    | _, _ => none

/-- A path below a root, which is kept as it was given. -/
def joinPath (root : String) (names : List String) : String :=
  let below := "/".intercalate names
  if root.toList.getLast? = some '/' then root ++ below else root ++ "/" ++ below

/-- Whether a path comes before another, or is the same: paths are ordered name by name. -/
def precedes : List String → List String → Bool
  | [], _ => true
  | _ :: _, [] => false
  | a :: as, b :: bs => a < b || (a == b && precedes as bs)

/-- The rule files that a path stands for: a file itself, or the JSON files below a directory in
the order of their names. -/
def ruleFiles (files : FileTree) (root : String) : Except FileFault (List String) :=
  match files.find root with
  | .error e => .error e
  | .ok (_, .file _) => .ok [root]
  | .ok (names, .directory) =>
    .ok (((files.jsonFiles names).mergeSort precedes).map (joinPath root))

end FileTree

end MacroExpansion
