import LedgerFields.Command.Arguments
import LedgerFields.File.Path
import LedgerFields.Report.Batch

/-! What the program does when it is run: the files it reads and writes, what it prints, and the
code with which it ends. -/

namespace LedgerFields.Command

/-- Reads and writes files by their paths. -/
structure Disk (m : Type → Type) where
  read : String → m FileContent
  write : String → String → m (Except FileFault PUnit)

/-- A line on the error output. The first line of a notice is logged with its level, and the others
are plain. -/
inductive Line where
  | logged (level : Level) (text : String)
  | plain (text : String)
  deriving DecidableEq, Repr

/-- How a run ends: its code, what it prints, and the lines on the error output. -/
structure Result where
  code : Nat
  output : String := ""
  errors : List Line := []

/-- The lines of a text. -/
def textLines (text : String) : List String :=
  (text.toList.splitOn '\n').map String.ofList

/-- The lines of a notice; those after the first one are indented. -/
def noticeLines (notice : Notice) : List Line :=
  match textLines notice.text with
  | [] => []
  | first :: rest => .logged notice.level first :: rest.map fun line => .plain ("    " ++ line)

/-- The text of a cause after `label`, which the lines after the first one leave room for. -/
def labelled (label cause : String) : String :=
  let room := String.ofList (List.replicate label.length ' ')
  label ++ ("\n" ++ room).intercalate (textLines cause)

/-- What is printed when a run fails: the context, and the chain of causes, which are numbered when
there are several. Numbers have room for five digits. -/
def failureText (context : String) (causes : List String) : String :=
  let number (n : Nat) : String :=
    String.ofList (List.replicate (5 - (toString n).length) ' ') ++ toString n ++ ": "
  let listed :=
    match causes with
    | [cause] => [labelled "    " cause]
    | _ => causes.zipIdx.map fun (cause, n) => labelled (number n) cause
  s!"Error: {context}\n\nCaused by:\n" ++ "\n".intercalate listed

/-- The run that fails in a context for a chain of causes. -/
def Result.failure (notices : List Notice) (context : String) (causes : List String) : Result :=
  { code := 1
    errors := notices.flatMap noticeLines ++ [.plain (failureText context causes)] }

/-- The file next to a field document that takes the results: its name says so before the extension.
-/
def defaultOutput (fields : String) : String :=
  let stem := (Path.stem? fields).getD ""
  let name :=
    match Path.extension? fields with
    | some extension => stem ++ "_output." ++ extension
    | none => stem ++ "_output"
  Path.withFileName fields name

/-- What is told about the entries that were computed. -/
def summary (entries : List Report.Entry) : String :=
  match entries with
  | [.aborted message] => s!"Error: {message}"
  | _ =>
    let failed := (entries.filter Report.Entry.isFailed).length
    s!"Computed {entries.length - failed} fields ({failed} with errors)"

/-- The text of an outcome. -/
def outcomeText (outcome : Outcome) : String :=
  let (value, error) : Json × Json :=
    match outcome with
    | .value x => (.real x, .null)
    | .failure message => (.null, .string message)
  (Json.object [("value", value), ("error", error)]).text

section

variable {m : Type → Type} [Monad m]

/-- Computes the fields of a document and writes the results. -/
def runCompute (disk : Disk m) (fields data output : String) (settings : Formula.Settings) :
    m Result := do
  let fieldsContent ← disk.read fields
  let dataContent ← disk.read data
  let batch := Report.computeFields { formula := settings } fieldsContent data dataContent
  match ← disk.write output (Report.resultText batch.value) with
  | .error fault => return .failure batch.notices s!"Failed to create '{output}'" [fault.message]
  | .ok _ => return {
      code := 0
      errors := batch.notices.flatMap noticeLines ++
        [.plain (summary batch.value), .plain s!"Wrote results to '{output}'"] }

/-- Evaluates a formula on the table of a data file. -/
def runEvaluate (disk : Disk m) (data formula keyColumn : String) (settings : Formula.Settings) :
    m Result := do
  let content ← disk.read data
  let opened := (Report.openTable {} data content).run
  match opened.value with
  | .error fault => return .failure opened.notices s!"Failed to open '{data}'" fault.chain
  | .ok t =>
    let outcome := (Formula.compute (Report.tableScope keyColumn settings) formula).run t
    return {
      code := 0
      output := outcomeText outcome.value.1 ++ "\n"
      errors := (opened.notices ++ outcome.notices).flatMap noticeLines }

/-- Carries a task out. -/
def Task.run (disk : Disk m) : Task → m Result
  | .compute fields data output settings =>
    runCompute disk fields data (output.getD (defaultOutput fields)) settings
  | .evaluate data formula keyColumn settings => runEvaluate disk data formula keyColumn settings

/-- The name and the version of the program. -/
def versionText : String := "microcalc 0.1.0"

/-- How the program is used. -/
def usageText : String :=
  "Compute report fields from tabular accounting data\n\n" ++
    "Usage: microcalc [-v] compute <FIELDS> <DATA> [-o <OUTPUT>] [FORMULA OPTIONS]\n" ++
    "       microcalc [-v] eval <DATA> <FORMULA> -k <KEY_COLUMN> [--flexi] [FORMULA OPTIONS]\n\n" ++
    "Formula options: --separator <CHAR>, --extra-chars <CHARS>, --max-depth <N>"

/-- Runs the program with its arguments. Wrong ones end it with code 2. -/
def run (disk : Disk m) (arguments : List String) : m Result :=
  match Request.ofArguments? arguments with
  | some (.run _ task) => task.run disk
  | some .help => return { code := 0, output := usageText ++ "\n" }
  | some .version => return { code := 0, output := versionText ++ "\n" }
  | none => return { code := 2, errors := [.plain usageText] }

end

end LedgerFields.Command
