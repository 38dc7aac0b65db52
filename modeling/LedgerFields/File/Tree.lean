import LedgerFields.File.Path

/-! The files and directories of a machine, and what a path leads to from the working directory. A
path is followed name by name from a directory to the one that holds its last name; whether that
name has to exist, and what a slash after it says, depends on what is done there. -/

namespace LedgerFields

/-- What a name in a directory stands for. -/
inductive FileNode where
  | file (bytes : List UInt8)
  | directory
  /-- A device holds nothing to read, and takes what is written to it one after the other. -/
  | device (taken : List UInt8)
  deriving DecidableEq, Repr

/-- The nodes of a machine by the names on the way to them from the root, and the working directory.
-/
structure FileTree where
  home : List String
  nodes : List (List String × FileNode)

namespace FileTree

/-- What lies at the end of these names. The root is a directory. -/
def node? (tree : FileTree) (names : List String) : Option FileNode :=
  if names = [] then some .directory else tree.nodes.lookup names

/-- Puts a node at the end of these names. -/
def set (tree : FileTree) (names : List String) (node : FileNode) : FileTree :=
  { tree with nodes := (names, node) :: tree.nodes.filter (·.1 != names) }

/-- The directory where a path starts. -/
def start (tree : FileTree) (path : String) : List String :=
  if Path.isAbsolute path then [] else tree.home

/-- The names of a path that are not empty, which only repeated slashes and those at the ends
leave. -/
def steps (path : String) : List String :=
  (Path.names path).filter (· != "")

/-! ### Building a tree -/

/-- Goes to a name from a directory, which is made if it is missing. -/
def makeDirectory (place : FileTree × List String) (name : String) : FileTree × List String :=
  let (tree, here) := place
  if name = "." then (tree, here)
  else if name = ".." then (tree, here.dropLast)
  else
    let there := here ++ [name]
    (if (tree.node? there).isNone then tree.set there .directory else tree, there)

/-- The tree that holds only the working directory and those on the way to it. -/
def empty (home : List String) : FileTree :=
  (home.foldl makeDirectory (⟨home, []⟩, [])).1

/-- Adds a node, and the directories on the way to it. -/
def add (tree : FileTree) (path : String) (node : FileNode) : FileTree :=
  match (steps path).reverse with
  | [] => tree
  | name :: outer =>
    let (tree, here) := outer.reverse.foldl makeDirectory (tree, tree.start path)
    tree.set (here ++ [name]) node

/-! ### Following a path -/

/-- The most bytes that a name may have. -/
def greatestName : Nat := 255

/-- The most bytes that a path may have. -/
def greatestPath : Nat := 4095

/-- What a name in a directory stands for, if it stands for something. -/
def entry? (tree : FileTree) (here : List String) (name : String) :
    Except FileFault (Option FileNode) :=
  if greatestName < name.utf8ByteSize then .error .nameTooLong
  else .ok (tree.node? (here ++ [name]))

/-- Goes from a directory to the one that a name in it stands for. -/
def descend (tree : FileTree) (here : List String) (name : String) :
    Except FileFault (List String) := do
  if name = "." then
    return here
  else if name = ".." then
    return here.dropLast
  else
    match ← tree.entry? here name with
    | none => throw .notFound
    | some .directory => return here ++ [name]
    | some _ => throw .notDirectory

/-- Where a path ends: the directory that holds its last name, that name, and whether a slash
follows it. -/
structure Target where
  directory : List String
  name : String
  slash : Bool
  deriving DecidableEq, Repr

/-- Whether the last name of a path always stands for a directory. -/
def Target.isDots (target : Target) : Bool :=
  target.name == "." || target.name == ".."

/-- Follows a path up to its last name. A path of slashes alone ends at the root itself. -/
def find (tree : FileTree) (path : String) : Except FileFault Target := do
  if path.toList.contains '\x00' then
    throw .nulInPath
  if path = "" then
    throw .notFound
  if greatestPath < path.utf8ByteSize then
    throw .nameTooLong
  match (steps path).reverse with
  | [] => return ⟨[], ".", true⟩
  | name :: outer =>
    let directory ← outer.reverse.foldlM tree.descend (tree.start path)
    return ⟨directory, name, path.toList.getLast? == some '/'⟩

/-- Reads a file. A slash after its name asks for a directory, which a file is not. -/
def read (tree : FileTree) (path : String) : FileContent := do
  let target ← tree.find path
  if target.isDots then
    throw .isDirectory
  match ← tree.entry? target.directory target.name with
  | none => throw .notFound
  | some .directory => throw .isDirectory
  | some (.file bytes) => if target.slash then throw .notDirectory else return bytes
  | some (.device _) => if target.slash then throw .notDirectory else return []

/-- Writes a file, which is made if its directory does not hold it. No file can be made whose name a
slash follows, whatever there is. -/
def write (tree : FileTree) (path : String) (bytes : List UInt8) : Except FileFault FileTree := do
  let target ← tree.find path
  if target.isDots || target.slash then
    throw .isDirectory
  let names := target.directory ++ [target.name]
  match ← tree.entry? target.directory target.name with
  | some .directory => throw .isDirectory
  | some (.device taken) => return tree.set names (.device (taken ++ bytes))
  | _ => return tree.set names (.file bytes)

/-- The files in the working directory whose bytes are not those that they had before. -/
def changedSince (tree before : FileTree) : List (String × List UInt8) :=
  tree.nodes.filterMap fun (names, node) =>
    match names.getLast?, node with
    | some name, .file bytes =>
      if names.dropLast = tree.home ∧ before.node? names ≠ some (.file bytes) then
        some (name, bytes)
      else
        none
    | _, _ => none

end FileTree

end LedgerFields
