/-
  The program: what its arguments make it do to the files, what it prints, and its exit code.
-/
import Ambient.Generation

namespace Ambient.CommandLine

/-- What a run of the program leaves behind: the exit code, the texts on the two outputs, and
the files. -/
structure Report where
  code : Nat
  out : String
  err : String
  files : FileTree

/-- The text that tells of an argument error. -/
def ArgumentError.message : ArgumentError → String
  | .missingDatabase => "the argument <META_DIR> is missing"
  | .unknown => "unexpected argument found"
  | .invalidValue => "a value is missing or empty"
  | .repeated => "an argument cannot be used multiple times"
  | .unexpectedValue => "an option takes no value"
  | .helpRequested => "help requested"
  | .versionRequested => "version requested"

/-- The lines of the help text. -/
def helpLines : List String :=
  ["Generate a TypeScript declaration file from qooxdoo class metadata",
   "",
   "Usage: qxdts [OPTIONS] <META_DIR>",
   "",
   "Arguments:",
   "  <META_DIR>  Meta-database directory (holds db.json and one JSON record per class)",
   "",
   "Options:",
   "  -o, --output <OUTPUT>          Path of the generated declaration file",
   "  -c, --config <CONFIG>          JSON configuration file; qxdts.json where none is given",
   "      --base-declaration <FILE>  File whose contents replace the built-in preamble",
   "      --list-classes             Print the class names and exit",
   "      --no-default-mappings      Start from an empty type vocabulary",
   "      --no-default-ignores       Start from an empty ignore list",
   "  -v, --verbose...               Log progress to stderr",
   "  -h, --help                     Print help",
   "  -V, --version                  Print version"]

/-- Lines of text, each with its end. -/
def unlines (lines : List String) : String := String.join (lines.map (· ++ "\n"))

/-- The causes of a failure, one a line, numbered if there are several. -/
def causeLines : List String → List String
  | [] => []
  | [cause] => ["", "Caused by:", "    " ++ cause]
  | causes =>
    ["", "Caused by:"] ++
      (causes.zipIdx.map fun (cause, i) => "    " ++ toString i ++ ": " ++ cause)

/-- The text that tells of a failure: the outermost task first. -/
def failureText (f : Failure) : String :=
  match f.messages with
  | [] => ""
  | first :: causes => unlines (("Error: " ++ first) :: causeLines causes)

/-- The text that tells of a run that has written its output. -/
def summaryText (s : Summary) : String :=
  "Generated " ++ s.output.text ++ " (" ++ toString s.stats.classes ++ " classes, " ++
    toString s.stats.skipped ++ " skipped)\n"

/-- The report of a run that lists the classes. -/
def listReport (t : FileTree) (args : Arguments) (cwd : Path) : Report :=
  match listClasses t args cwd with
  | .ok names => ⟨0, unlines names, "", t⟩
  | .error f => ⟨1, "", failureText f, t⟩

/-- The report of a run that generates declarations. -/
def generateReport (t : FileTree) (args : Arguments) (cwd : Path) (time : String) : Report :=
  let run := generate t args cwd time
  match run.result with
  | .ok s => ⟨0, "", summaryText s, run.files⟩
  | .error f => ⟨1, "", failureText f, run.files⟩

/-- The report of the program on files, started in a directory at a time. -/
def report (t : FileTree) (argv : List String) (cwd : Path) (time : String) : Report :=
  match Arguments.parse argv with
  | .error .helpRequested => ⟨0, unlines helpLines, "", t⟩
  | .error .versionRequested => ⟨0, "qxdts 0.1.0\n", "", t⟩
  | .error e => ⟨2, "", "error: " ++ e.message ++ "\n", t⟩
  | .ok args =>
    if args.listClasses then listReport t args cwd else generateReport t args cwd time

end Ambient.CommandLine
