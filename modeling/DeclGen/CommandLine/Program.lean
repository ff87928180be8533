import DeclGen.CommandLine.LogFilter
import DeclGen.CommandLine.Run

/-!
# The program

* `CommandLine.Outcome` : exit code and output of the program;
* `CommandLine.report` : the outcome of a run;
* `CommandLine.program` : the program on the words of its command line;
* `CommandLine.watched` : the paths whose entries decide what the program does.
-/

namespace DeclGen.CommandLine

/-- Exit code and output. -/
structure Outcome where
  code : Nat
  stdout : Text
  stderr : Text
  deriving DecidableEq, Repr

/-- The line that tells the version. -/
def versionLine : Text := "shapegen-cli 0.1.0\n".toList

/-- How the program is used. -/
def usage : Text :=
  ("Generate TypeScript declarations from entity documents\n\n" ++
    "Usage: shapegen [OPTIONS] <SOURCE>\n\n" ++
    "Arguments:\n" ++
    "  <SOURCE>  Source file, directory, or namespace pattern (e.g. \"App\\Dto\\*\")\n\n" ++
    "Options:\n" ++
    "  -o, --output <OUTPUT>                      Output directory [default: ./types]\n" ++
    "      --no-dependencies                      Do not generate referenced entities\n" ++
    "      --add-ts-extension-to-imports          Add the .ts extension to import paths\n" ++
    "  -b, --base-dir <BASE_DIR>                  Base directory for namespace resolution\n" ++
    "  -p, --namespace-prefix <NAMESPACE_PREFIX>  Namespace of the base directory\n" ++
    "      --log-level <LOG_LEVEL>                Log level [default: info]\n" ++
    "  -h, --help                                 Print help\n" ++
    "  -V, --version                              Print version\n").toList

/-- The wording of a usage error. -/
def UsageError.message : UsageError → Text
  | missingSource => "error: the argument <SOURCE> is missing\n".toList
  | unknownArgument => "error: unexpected argument\n".toList
  | invalidValue => "error: an option lacks its value\n".toList
  | repeated => "error: an option is given twice\n".toList
  | unexpectedValue => "error: an option takes no value\n".toList
  | help => usage
  | version => versionLine

/-- The outcome of words that mean nothing, or ask for something else. -/
def UsageError.outcome : UsageError → Outcome
  | help => ⟨0, usage, []⟩
  | version => ⟨0, versionLine, []⟩
  | e => ⟨2, [], e.message⟩

/-- The complaint about a log level that is no filter. -/
def logComplaint (level : Text) : Text :=
  if LogFilter.isFilter level then []
  else "Invalid log level: ".toList ++ level ++ ". Using 'warn' instead.\n".toList

/-- The line that tells how many files were written; none is not told. -/
def countLine (output : Text) (count : Nat) : Text :=
  if count = 0 then []
  else
    "Generated ".toList ++ Text.ofNat count ++ " TypeScript file(s) in ".toList ++ output ++ ['\n']

/-- The line that tells a failure. -/
def failureLine (f : Failure) : Text := " * ".toList ++ f.message ++ ['\n']

/-- The outcome of a run. What a run that ends early has to say goes to the log only. -/
def report (args : Arguments) : Except RunError Summary → Outcome
  | .ok summary =>
    ⟨0, countLine args.output summary.written.length,
      logComplaint args.logLevel ++ summary.failures.flatMap failureLine⟩
  | .error _ => ⟨1, [], logComplaint args.logLevel⟩

/-- The program on the words of its command line: the files afterwards, and the outcome. -/
def program (words : List Text) (fs : FileSystem) : FileSystem × Outcome :=
  match parse words with
  | .error error => (fs, error.outcome)
  | .ok args =>
    let (fs, result) := run args fs
    (fs, report args result)

/-- The paths whose entries, with those above and below them, decide what the program does. -/
def watched (words : List Text) : List Text :=
  match parse words with
  | .error _ => []
  | .ok args => [args.output, args.base.getD args.source]

end DeclGen.CommandLine
