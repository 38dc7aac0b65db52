import LedgerFields.Formula.Token
import LedgerFields.Number.Numeral

/-! The arguments of the program: options and positional values before and after the name of a
command, and what they ask for. -/

namespace LedgerFields.Command

/-- What the program is asked to do with files. -/
inductive Task where
  /-- Compute every field of a document and write the results. -/
  | compute (fields data : String) (output : Option String) (settings : Formula.Settings)
  /-- Evaluate one formula. -/
  | evaluate (data formula keyColumn : String) (settings : Formula.Settings)

/-- What the program is asked for. -/
inductive Request where
  | run (verbose : Bool) (task : Task)
  | help
  | version

/-- Reads a text of one character. -/
def readChar? (text : String) : Option Char :=
  match text.toList with
  | [c] => some c
  | _ => none

/-- The greatest limit of the depth that can be given. -/
def greatestMaxDepth : Nat := Nat.pow 2 64 - 1

/-- Reads a limit: digits that a plus may precede. -/
def readLimit? (text : String) : Option Nat :=
  let digits :=
    match text.toList with
    | '+' :: rest => rest
    | cs => cs
  if digits = [] ∨ !digits.all Char.isDigit then
    none
  else
    let n := Number.digitsValue digits
    if greatestMaxDepth < n then none else some n

/-- The options of the program. -/
inductive Flag where
  | verbose
  | help
  | version
  | output
  | keyColumn
  | flexible
  | separator
  | extraChars
  | maxDepth
  deriving DecidableEq, Repr

namespace Flag

/-- The name of an option after two hyphens. -/
def longName : Flag → String
  | verbose => "verbose"
  | help => "help"
  | version => "version"
  | output => "output"
  | keyColumn => "key-column"
  | flexible => "flexi"
  | separator => "separator"
  | extraChars => "extra-chars"
  | maxDepth => "max-depth"

/-- The letter of an option after one hyphen, if it has one. -/
def letter? : Flag → Option Char
  | verbose => some 'v'
  | help => some 'h'
  | version => some 'V'
  | output => some 'o'
  | keyColumn => some 'k'
  | _ => none

/-- Whether an option takes a value. -/
def takesValue : Flag → Bool
  | verbose | help | version | flexible => false
  | _ => true

/-- Whether a text can be the value of an option. One that takes no value has the empty one. -/
def accepts (flag : Flag) (value : String) : Bool :=
  match flag with
  | output => value != ""
  | separator => (readChar? value).isSome
  | maxDepth => (readLimit? value).isSome
  | _ => true

end Flag

/-- Why the arguments ask for no task. -/
inductive Stop where
  /-- They are wrong. -/
  | usage
  | help
  | version
  deriving DecidableEq, Repr

/-- The options and the positional values of a command, in the order in which they came. -/
structure Given where
  options : List (Flag × String) := []
  values : List String := []

namespace Given

/-- Takes an option in, once at most and only with a value that it accepts. Help and the version are
asked for at once. -/
def addOption (g : Given) (flag : Flag) (value : String) : Except Stop Given :=
  match flag with
  | .help => .error .help
  | .version => .error .version
  | _ =>
    if (g.options.lookup flag).isSome then .error .usage
    else if !flag.accepts value then .error .usage
    else .ok { g with options := g.options ++ [(flag, value)] }

/-- The value of an option. -/
def option? (g : Given) (flag : Flag) : Option String :=
  g.options.lookup flag

/-- Whether an option is given. -/
def has (g : Given) (flag : Flag) : Bool :=
  (g.option? flag).isSome

end Given

/-- What a command accepts: its options, and its positional values, for each of which the flag says
that it may be empty. -/
structure Signature where
  flags : List Flag
  values : List Bool

/-- Takes a positional value in, if there is a place for it. -/
def Signature.addValue (s : Signature) (g : Given) (value : String) : Except Stop Given :=
  match s.values[g.values.length]? with
  | none => .error .usage
  | some mayBeEmpty =>
    if value = "" ∧ mayBeEmpty = false then .error .usage
    else .ok { g with values := g.values ++ [value] }

/-- Whether an argument can be the value of the option before it: all can that do not look like
options themselves, which a single hyphen does not. -/
def isPlain (argument : String) : Bool :=
  argument = "-" || argument.toList.head? != some '-'

/-- What an argument does: it is taken in, or it is an option that waits for the next one as its
value. -/
inductive Effect where
  | taken (given : Given)
  | waits (given : Given) (flag : Flag)

/-- Reads an option from its long name with the value after an equals sign. -/
def Signature.readLong (s : Signature) (g : Given) (text : List Char) : Except Stop Effect := do
  let name := String.ofList (text.takeWhile (· != '='))
  match s.flags.find? (·.longName == name), text.dropWhile (· != '=') with
  | none, _ => throw .usage
  | some flag, [] =>
    if flag.takesValue then return .waits g flag else return .taken (← g.addOption flag "")
  | some flag, _ :: value =>
    if flag.takesValue then return .taken (← g.addOption flag (String.ofList value))
    else throw .usage

/-- Reads options from their letters. One that takes a value takes what is left. -/
def Signature.readLetters (s : Signature) (g : Given) : List Char → Except Stop Effect
  | [] => .ok (.taken g)
  | c :: rest => do
    match s.flags.find? (·.letter? == some c) with
    | none => throw .usage
    | some flag =>
      if flag.takesValue then
        match rest with
        | [] => return .waits g flag
        | '=' :: value => return .taken (← g.addOption flag (String.ofList value))
        | value => return .taken (← g.addOption flag (String.ofList value))
      else
        s.readLetters (← g.addOption flag "") rest

/-- Reads the arguments of a command. Two hyphens by themselves end the options. -/
def Signature.read (s : Signature) (g : Given) (waiting : Option Flag) :
    List String → Except Stop Given
  | [] => if waiting.isSome then .error .usage else .ok g
  | argument :: rest =>
    match waiting with
    | some flag =>
      if isPlain argument then do
        s.read (← g.addOption flag argument) none rest
      else
        .error .usage
    | none =>
      if argument = "--" then
        rest.foldlM s.addValue g
      else if isPlain argument then do
        s.read (← s.addValue g argument) none rest
      else do
        let effect ←
          match argument.toList with
          | '-' :: '-' :: text => s.readLong g text
          | text => s.readLetters g (text.drop 1)
        match effect with
        | .taken g => s.read g none rest
        | .waits g flag => s.read g (some flag) rest

/-- The settings of formulas that the options ask for. -/
def Given.settings (g : Given) : Formula.Settings :=
  let defaults : Formula.Settings := {}
  { separator := ((g.option? .separator).bind readChar?).getD defaults.separator
    extraChars := (g.option? .extraChars).getD defaults.extraChars
    maxDepth := ((g.option? .maxDepth).bind readLimit?).getD defaults.maxDepth
    strict := !g.has .flexible }

/-- The options of every command. -/
def commonFlags : List Flag :=
  [.verbose, .help, .separator, .extraChars, .maxDepth]

/-- Reads the arguments of the command that computes a document. -/
def readCompute (arguments : List String) : Except Stop (Bool × Task) := do
  let g ← Signature.read ⟨.output :: commonFlags, [false, false]⟩ {} none arguments
  match g.values with
  | [fields, data] => return (g.has .verbose, .compute fields data (g.option? .output) g.settings)
  | _ => throw .usage

/-- Reads the arguments of the command that evaluates a formula. -/
def readEvaluate (arguments : List String) : Except Stop (Bool × Task) := do
  let g ← Signature.read ⟨.keyColumn :: .flexible :: commonFlags, [false, true]⟩ {} none arguments
  match g.values, g.option? .keyColumn with
  | [data, formula], some keyColumn =>
    return (g.has .verbose, .evaluate data formula keyColumn g.settings)
  | _, _ => throw .usage

/-- The commands by name. -/
def commandNames : List String := ["compute", "eval", "help"]

/-- Reads the command that a name stands for from the arguments after it. -/
def readCommand (verbose : Bool) (name : String) (arguments : List String) :
    Except Stop Request := do
  match name with
  | "compute" =>
    let (more, task) ← readCompute arguments
    return .run (verbose || more) task
  | "eval" =>
    let (more, task) ← readEvaluate arguments
    return .run (verbose || more) task
  | "help" =>
    match arguments with
    | [] => return .help
    | [topic] => if commandNames.contains topic then return .help else throw .usage
    | _ => throw .usage
  | _ => throw .usage

/-- Reads all arguments. The options before the name of the command have no values. -/
def readRequest : List String → Except Stop Request :=
  go {}
where
  /-- Goes on after the options that are given. -/
  go (g : Given) : List String → Except Stop Request
    | [] => .error .usage
    | argument :: rest =>
      let signature : Signature := ⟨[.verbose, .help, .version], []⟩
      if argument = "--" then
        .error .usage
      else if isPlain argument then
        readCommand (g.has .verbose) argument rest
      else do
        let effect ←
          match argument.toList with
          | '-' :: '-' :: text => signature.readLong g text
          | text => signature.readLetters g (text.drop 1)
        match effect with
        | .taken g => go g rest
        | .waits _ _ => throw .usage

/-- What the arguments ask for; nothing when they are wrong. -/
def Request.ofArguments? (arguments : List String) : Option Request :=
  match readRequest arguments with
  | .ok request => some request
  | .error .help => some .help
  | .error .version => some .version
  | .error .usage => none

end LedgerFields.Command
