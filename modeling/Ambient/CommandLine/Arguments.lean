/-
  Arguments of the command line: one directory, options with a value, flags. Arguments are
  taken one by one; the value of an option that is given as an argument of its own is checked
  when the next argument, or the end, comes.
-/
import Ambient.Path.Basic
import Ambient.Text.Find

namespace Ambient.CommandLine

/-- What the command line asks for. -/
structure Arguments where
  database : Path
  output : Option Path
  settings : Option Path
  preamble : Option Path
  listClasses : Bool
  noBuiltinWords : Bool
  noBuiltinIgnored : Bool
  verbosity : Nat
deriving DecidableEq, Repr

/-- Why the command line asks for nothing to be generated. -/
inductive ArgumentError
  | missingDatabase
  | unknown
  | invalidValue
  | repeated
  | unexpectedValue
  | helpRequested
  | versionRequested
deriving DecidableEq, Repr

/-- The options with a value. -/
inductive ValueOption
  | output
  | settings
  | preamble
deriving DecidableEq, Repr

/-- The options without a value. -/
inductive Flag
  | listClasses
  | noBuiltinWords
  | noBuiltinIgnored
  | verbose
  | help
  | version
deriving DecidableEq, Repr

/-- An option. -/
inductive Switch
  | value (o : ValueOption)
  | flag (f : Flag)
deriving DecidableEq, Repr

/-- The option with a long name. -/
def Switch.long? (name : String) : Option Switch :=
  [("output", .value .output), ("config", .value .settings),
    ("base-declaration", .value .preamble), ("list-classes", .flag .listClasses),
    ("no-default-mappings", .flag .noBuiltinWords), ("no-default-ignores", .flag .noBuiltinIgnored),
    ("verbose", .flag .verbose), ("help", .flag .help), ("version", .flag .version)].lookup name

/-- The option with a one-letter name. -/
def Switch.short? (name : Char) : Option Switch :=
  [('o', .value .output), ('c', .value .settings), ('v', .flag .verbose), ('h', .flag .help),
    ('V', .flag .version)].lookup name

/-- An argument whose value is still to come or to be checked. -/
inductive Pending
  | database (value : String)
  | option (o : ValueOption) (value : Option String)
deriving DecidableEq, Repr

/-- The arguments taken so far. -/
structure Progress where
  database : Option String
  values : List (ValueOption × String)
  flags : List Flag
  verbosity : Nat
  pending : Option Pending

namespace Progress

/-- No argument taken. -/
def start : Progress := ⟨none, [], [], 0, none⟩

/-- The most that verbosity counts. -/
def maxVerbosity : Nat := 255

/-- The value of an option. -/
def value? (p : Progress) (o : ValueOption) : Option String := p.values.lookup o

/-- Takes the value of an option. An option has one value, which is not empty. -/
def setValue (p : Progress) (o : ValueOption) (value : String) : Except ArgumentError Progress :=
  if (p.value? o).isSome then .error .repeated
  else if value = "" then .error .invalidValue
  else .ok { p with values := (o, value) :: p.values }

/-- Checks the argument that was left to check. -/
def settle (p : Progress) : Except ArgumentError Progress :=
  let rest := { p with pending := none }
  match p.pending with
  | none => .ok p
  | some (.option _ none) => .error .invalidValue
  | some (.option o (some value)) => rest.setValue o value
  | some (.database value) =>
    if value = "" then .error .invalidValue else .ok { rest with database := some value }

/-- Takes a flag. -/
def setFlag (p : Progress) (f : Flag) : Except ArgumentError Progress := do
  let p ← p.settle
  match f with
  | .help => .error .helpRequested
  | .version => .error .versionRequested
  | .verbose => .ok { p with verbosity := min maxVerbosity (p.verbosity + 1) }
  | f => if f ∈ p.flags then .error .repeated else .ok { p with flags := f :: p.flags }

/-- Takes an option, with its value if one is attached to it. -/
def setOption (p : Progress) (o : ValueOption) (attached : Option String) :
    Except ArgumentError Progress := do
  let p ← p.settle
  match attached with
  | some value => p.setValue o value
  | none => .ok { p with pending := some (.option o none) }

/-- Takes an argument with a long name, cut at its first `=`. -/
def takeLong (p : Progress) (name : String) (attached : Option String) :
    Except ArgumentError Progress :=
  match Switch.long? name, attached with
  | none, _ => .error .unknown
  | some (.value o), attached => p.setOption o attached
  | some (.flag f), none => p.setFlag f
  | some (.flag _), some _ => .error .unexpectedValue

/-- Takes one-letter names in a row. What follows the name of an option with a value is the
value, a first `=` left out. -/
def takeShort (p : Progress) : List Char → Except ArgumentError Progress
  | [] => .ok p
  | c :: cs =>
    match Switch.short? c with
    | none => .error .unknown
    | some (.flag f) => do
      let p ← p.setFlag f
      p.takeShort cs
    | some (.value o) =>
      match cs with
      | [] => p.setOption o none
      | '=' :: value => p.setOption o (some (String.ofList value))
      | value => p.setOption o (some (String.ofList value))

/-- Takes an argument that is no option: the value that an option waits for, or the directory
of the database, unless options have ended. -/
def takePlain (p : Progress) (ended : Bool) (arg : String) : Except ArgumentError Progress :=
  match p.pending, ended with
  | some (.option o none), false => .ok { p with pending := some (.option o (some arg)) }
  | some (.database _), _ => .error .unknown
  | _, _ =>
    if p.database.isSome then .error .unknown
    else do
      let p ← p.settle
      .ok { p with pending := some (.database arg) }

/-- Takes an argument; `ended` tells whether an argument `--` came before. -/
def take (p : Progress) (ended : Bool) (arg : String) : Except ArgumentError Progress :=
  match ended, arg.toList with
  | false, '-' :: '-' :: name =>
    match Text.cut? ['='] name with
    | some (name, value) => p.takeLong (String.ofList name) (some (String.ofList value))
    | none => p.takeLong (String.ofList name) none
  | false, '-' :: c :: cs => p.takeShort (c :: cs)
  | _, _ => p.takePlain ended arg

/-- Takes all arguments. -/
def takeAll (p : Progress) (ended : Bool) : List String → Except ArgumentError Progress
  | [] => p.settle
  | arg :: args =>
    if !ended && arg = "--" then p.takeAll true args
    else do
      let p ← p.take ended arg
      p.takeAll ended args

/-- The arguments that were taken. -/
def finish (p : Progress) : Except ArgumentError Arguments :=
  match p.database with
  | none => .error .missingDatabase
  | some database =>
    .ok {
      database := .ofString database
      output := (p.value? .output).map .ofString
      settings := (p.value? .settings).map .ofString
      preamble := (p.value? .preamble).map .ofString
      listClasses := .listClasses ∈ p.flags
      noBuiltinWords := .noBuiltinWords ∈ p.flags
      noBuiltinIgnored := .noBuiltinIgnored ∈ p.flags
      verbosity := p.verbosity }

end Progress

/-- What a list of arguments asks for. -/
def Arguments.parse (args : List String) : Except ArgumentError Arguments := do
  let p ← Progress.start.takeAll false args
  p.finish

end Ambient.CommandLine
