/-
  The settings of a run: the built-in ones, over them those of the settings file, over them
  those of the command line.
-/
import Ambient.CommandLine.Arguments
import Ambient.Settings.Builtin
import Ambient.Settings.File

namespace Ambient.Settings

open CommandLine

/-- The settings before any file is read. -/
def initial (args : Arguments) (cwd : Path) : Settings :=
  { builtin with
    workingDir := some cwd
    vocabulary := if args.noBuiltinWords then .empty else builtin.vocabulary
    ignored := if args.noBuiltinIgnored then .empty else builtin.ignored }

/-- The text of a preamble. -/
def readPreamble (t : FileTree) (p : Path) : Except Failure String :=
  (t.readText p).mapError fun f => ⟨[.readPreamble p], .fault f⟩

/-- Settings with the preamble at a path, if a path is given. -/
def withPreamble (s : Settings) (t : FileTree) (p : Option Path) : Except Failure Settings :=
  match p with
  | none => .ok s
  | some p => do
    let text ← readPreamble t p
    pure { s with preamble := text }

/-- Settings with an output, if one is given. -/
def withOutput (s : Settings) (p : Option Path) : Settings :=
  match p with
  | none => s
  | some p => { s with output := p }

/-- Settings with those of a file over them. -/
def withFile (s : Settings) (t : FileTree) (file : SettingsFile) : Except Failure Settings := do
  let s := s.withOutput (file.output.map file.resolve)
  let s ← s.withPreamble t (file.preamble.map file.resolve)
  let s := file.ignored.entries.foldl (fun s e => s.ignore e.1 e.2) s
  pure (file.vocabulary.entries.foldl (fun s e => s.define e.1 e.2) s)

/-- Settings whose output is the default one if it has the empty path. -/
def withNamedOutput (s : Settings) : Settings :=
  if s.output.chars.isEmpty then { s with output := defaultOutput } else s

/-- The settings of a run with a given settings file, or with none. -/
def resolveWith (t : FileTree) (args : Arguments) (file : Option SettingsFile) (cwd : Path) :
    Except Failure Settings := do
  let s := initial args cwd
  let s ← (match file with
    | some file => s.withFile t file
    | none => .ok s)
  let s ← (s.withOutput args.output).withPreamble t (args.preamble.map cwd.join)
  pure s.withNamedOutput

/-- The settings file of a run, if it has one. -/
def file? (t : FileTree) (args : Arguments) (cwd : Path) :
    Except Failure (Option SettingsFile) :=
  match SettingsFile.path? t args.settings cwd with
  | none => .ok none
  | some p => (SettingsFile.load t p).map some

/-- The settings of a run. -/
def resolve (t : FileTree) (args : Arguments) (cwd : Path) : Except Failure Settings := do
  let file ← file? t args cwd
  resolveWith t args file cwd

end Ambient.Settings
