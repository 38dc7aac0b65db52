import LedgerFields.Command.Run

/-! The program on the files of this machine. -/

namespace LedgerFields

/-- The fault that an error of the operating system is. Its number may come negated. -/
def FileFault.ofError (error : IO.Error) : FileFault :=
  match error with
  | .noFileOrDirectory .. => .notFound
  | .inappropriateType _ code _ =>
    if code = 21 ∨ code = 0 - 21 then .isDirectory else .notDirectory
  | .invalidArgument _ code _ =>
    if code = 36 ∨ code = 0 - 36 then .nameTooLong else .other (toString error)
  | _ => .other (toString error)

/-- The files of this machine. -/
def machineDisk : Command.Disk IO where
  read path := do
    try
      return .ok (← IO.FS.readBinFile path).toList
    catch error =>
      return .error (.ofError error)
  write path text := do
    try
      IO.FS.writeFile path text
      return .ok ⟨⟩
    catch error =>
      return .error (.ofError error)

/-- The text of a line on the error output. -/
def Command.Line.text : Command.Line → String
  | .logged level text => s!"[{level.name}] {text}"
  | .plain text => text

end LedgerFields

open LedgerFields in
/-- Runs the program and prints what it says. -/
def main (arguments : List String) : IO UInt32 := do
  let result ← Command.run machineDisk arguments
  for line in result.errors do
    IO.eprintln line.text
  IO.print result.output
  return result.code.toUInt32
