/-
  Settings of the log: which messages are wanted, and in which form.
-/
import Ambient.Text.Blank

namespace Ambient.CommandLine

/-- The form of log messages. -/
inductive LogFormat
  | text
  | tree
  | json
deriving DecidableEq, Repr

/-- The form that a word names, in letters of any case; any other word stands for plain text.
No letter outside ASCII becomes a letter of these words in lower case. -/
def LogFormat.ofWord (word : String) : LogFormat :=
  let lower := (Text.trim word.toList).map Char.toLower
  if lower = "tree".toList then .tree
  else if lower = "json".toList then .json
  else .text

/-- The parts of the program that log messages. -/
def logTargets : List String := ["qxdts_cli", "qxdts_meta", "qxdts_emitter"]

/-- The filter that a value stands for: itself, if it has a `=` or a comma, or else a level
for each part of the program, which is `info` where none is named. -/
def logDirectives (value : String) : String :=
  let value := Text.trimmed value
  if value.toList.contains '=' || value.toList.contains ',' then value
  else
    let level := if value = "" then "info" else value
    ",".intercalate (logTargets.map fun target => target ++ "=" ++ level)

/-- Which messages are logged, and in which form. -/
structure LogSettings where
  filter : String
  format : LogFormat
deriving DecidableEq, Repr

/-- The settings that the environment and the verbosity ask for, if they ask for any: the
program's own variable comes first, then the general one, then the verbosity. -/
def LogSettings.resolve? (own general format : Option String) (verbosity : Nat) :
    Option LogSettings :=
  let filter? := match own, general, verbosity with
    | some value, _, _ => some (logDirectives value)
    | none, some value, _ => some value
    | none, none, 0 => none
    | none, none, 1 => some (logDirectives "debug")
    | none, none, _ => some (logDirectives "trace")
  filter?.map fun filter => ⟨filter, .ofWord (format.getD "")⟩

/-- The word for a form of log messages. -/
def LogFormat.word : LogFormat → String
  | .text => "text"
  | .tree => "tree"
  | .json => "json"

/-- The line that a log begins with: which messages are logged, and in which form. -/
def LogSettings.firstLine (s : LogSettings) : String :=
  "Logging " ++ s.filter ++ " as " ++ s.format.word ++ "\n"

end Ambient.CommandLine
