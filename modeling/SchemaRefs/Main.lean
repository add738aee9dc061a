import SchemaRefs.Report.Render

/-!
# The command line

Reads a document, answers the requests of the arguments and writes a report. The exit status is 0
when all went well, 1 when a model error was recorded or the run was ended, and 2 for a command line
that is not accepted.
-/

namespace SchemaRefs.CommandLine

/-- The text shown on request or with a usage error. -/
def usageText : String :=
  "Resolve references in a compiled schema document\n\n" ++
  "Usage: [OPTIONS] <INPUT>\n\n" ++
  "  -p, --path <PATHS>             document path of a reference or member\n" ++
  "      --all                      inspect every reference\n" ++
  "  -d, --definition <DEFINITION>  restrict --all and --snapshot to one definition\n" ++
  "      --origin                   report the origin of each selected member\n" ++
  "      --effective-type           report the effective type of each selected member\n" ++
  "      --locations                report source and semantic locations\n" ++
  "      --snapshot                 show the cached facts of the selected definitions\n" ++
  "      --tolerate-partial         skip query columns without a result member\n" ++
  "      --format <FORMAT>          text or json\n" ++
  "  -h, --help                     show this text\n" ++
  "  -V, --version                  show the version\n"

/-- The words for a usage error. -/
def usageReason : UsageError → String
  | .unknownArgument => "unexpected argument"
  | .invalidValue => "invalid or missing value"
  | .missingArgument => "a document is required"
  | .tooManyValues => "unexpected value"
  | .conflict => "an argument cannot be used multiple times"
  | .help => ""
  | .version => ""

/-- Why a file could not be read. -/
def readReason : IO.Error → String
  | .noFileOrDirectory .. => "No such file or directory (os error 2)"
  | .permissionDenied .. => "Permission denied (os error 13)"
  | .inappropriateType _ 21 _ => "Is a directory (os error 21)"
  | .inappropriateType .. => "Not a directory (os error 20)"
  | error => toString error

/-- The text of a file, or why it could not be read. -/
def readText (name : String) : IO (Except String String) := do
  try
    match String.fromUTF8? (← IO.FS.readBinFile name) with
    | some text => return .ok text
    | none => return .error "stream did not contain valid UTF-8"
  catch error => return .error (readReason error)

/-- The reasons why a run was ended. -/
def reasonLines : List String → String
  | [] => ""
  | [reason] => "Error: " ++ reason
  | reason :: causes => "Error: " ++ reason ++ "\n\nCaused by:\n" ++
      "\n".intercalate (causes.map ("    " ++ ·))

/-- Runs a command line, without the name of the program; the result is the exit status. -/
def run (argv : List String) : IO UInt32 := do
  match Arguments.parse argv with
  | .error .help =>
    IO.print usageText
    return 0
  | .error .version =>
    IO.println "0.1.0"
    return 0
  | .error reason =>
    IO.eprintln ("error: " ++ usageReason reason ++ "\n\n" ++ usageText)
    return 2
  | .ok args =>
    let text ← readText args.input
    match Report.ofFile (fun _ => text) args with
    | .error reasons =>
      IO.eprintln (reasonLines reasons)
      return 1
    | .ok (doc, report) =>
      IO.print (report.render doc args.format)
      return if report.hasErrors then 1 else 0

end SchemaRefs.CommandLine

def main (argv : List String) : IO UInt32 :=
  SchemaRefs.CommandLine.run argv
