/-! Files: what reading one gives, and paths as texts: the name of the file a path leads to, the
parts of that name, and the paths of its neighbours. Slashes that are repeated or end a path say
nothing, and neither do the names `.` after the first one. -/

namespace LedgerFields

/-- Why a file cannot be read or written. -/
inductive FileFault where
  | notFound
  | notDirectory
  | isDirectory
  /-- The path, or a name in it, has too many bytes. -/
  | nameTooLong
  /-- The path holds the character that ends a path for the operating system. -/
  | nulInPath
  /-- The bytes are not UTF-8. -/
  | notText
  | other (message : String)
  deriving DecidableEq, Repr

/-- The text of a file fault, with the number that the operating system gives it. -/
def FileFault.message : FileFault → String
  | .notFound => "No such file or directory (os error 2)"
  | .notDirectory => "Not a directory (os error 20)"
  | .isDirectory => "Is a directory (os error 21)"
  | .nameTooLong => "File name too long (os error 36)"
  | .nulInPath => "file name contained an unexpected NUL byte"
  | .notText => "stream did not contain valid UTF-8"
  | .other message => message

/-- The bytes of a file, or why they cannot be had. -/
abbrev FileContent := Except FileFault (List UInt8)

namespace Path

/-- The names between the slashes of a path. -/
def names (path : String) : List String :=
  (path.toList.splitOn '/').map String.ofList

/-- Whether a path starts at the root. -/
def isAbsolute (path : String) : Bool :=
  path.toList.head? == some '/'

/-- Drops the names that say nothing from the end of a path, which is given in reverse. A first name
`.` of a relative path stays. -/
def dropIdle (absolute : Bool) : List String → List String
  | "" :: rest => dropIdle absolute rest
  | "." :: rest => if rest = [] ∧ absolute = false then ["."] else dropIdle absolute rest
  | reversed => reversed

/-- The names of a path in reverse, from the last one that says something. -/
def reversed (path : String) : List String :=
  dropIdle (isAbsolute path) (names path).reverse

/-- The name of the file a path leads to. There is none when the path ends by going up. -/
def fileName? (path : String) : Option String :=
  match reversed path with
  | name :: _ => if name = "." ∨ name = ".." then none else some name
  | [] => none

/-- The parts of a name before and after its last point. A point at the start divides nothing. -/
def divideName (name : String) : String × Option String :=
  let after := (name.toList.reverse.takeWhile (· != '.')).reverse
  let before := name.toList.take (name.toList.length - after.length - 1)
  if after.length = name.toList.length ∨ before = [] then
    (name, none)
  else
    (String.ofList before, some (String.ofList after))

/-- The name of the file without its extension. -/
def stem? (path : String) : Option String :=
  (fileName? path).map fun name => (divideName name).1

/-- The extension of the file, which may be empty. -/
def extension? (path : String) : Option String :=
  (fileName? path).bind fun name => (divideName name).2

/-- The path of a file in the directory of another one. A path that leads to no file is itself taken
as the directory. -/
def withFileName (path name : String) : String :=
  let directory :=
    match fileName? path with
    | none => path
    | some _ =>
      let outer := "/".intercalate (dropIdle (isAbsolute path) ((reversed path).drop 1)).reverse
      if outer = "" ∧ isAbsolute path then "/" else outer
  if directory = "" ∨ directory.toList.getLast? = some '/' then
    directory ++ name
  else
    directory ++ "/" ++ name

end Path

end LedgerFields
