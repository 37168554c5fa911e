import Interlock.Command.Run

/-!
# The command

Reads arguments and files, writes the result, sets the exit code.
-/

namespace Interlock

/-- The lines of the help text. -/
def usage : List String := [
  "Find data races in programs exported by a front-end.",
  "",
  "Usage: race-driver [OPTIONS] <FILENAME>",
  "",
  "Options:",
  "      --strict-thread-context    Only code known to run in the background counts as concurrent",
  "      --per-method-budget <N>    Block visits the lock tracker may spend on a single method",
  "      --max-fixpoint-rounds <N>  Rounds recursive methods may take to stabilize",
  "      --min-confidence <LEVEL>   Hide findings below this confidence [low, high]",
  "      --config <FILE>            JSON file with analysis settings",
  "      --format <FORMAT>          How to write the report [text, json]",
  "      --dump-cfg                 Draw the control flow graph of every method",
  "      --dump-call-graph          Draw the condensed call graph",
  "  -h, --help                     Print help",
  "  -V, --version                  Print version"]

/-- What went wrong with the arguments. -/
def Halt.message : Halt → String
  | help => String.join (usage.map (· ++ "\n"))
  | version => versionLine
  | unknownArgument => "error: unexpected argument\n"
  | invalidValue => "error: invalid value for an option\n"
  | malformedNumber => "error: invalid number for an option\n"
  | unexpectedValue => "error: unexpected value for an option\n"
  | repeatedOption => "error: an option cannot be used multiple times\n"
  | missingFile => "error: the file name is missing\n"

/-- The fault behind an error of the file system. Opening a path fails where a file stands in for a
directory, and the error then names the path; a directory in place of a file shows only when it is
read. -/
def ReadFault.ofError (e : IO.Error) : ReadFault :=
  match e with
  | .noFileOrDirectory .. => .notFound
  | .inappropriateType (some _) .. => .notDirectory
  | .inappropriateType none .. => .isDirectory
  | _ => .other e.toString

/-- Read a file as text. -/
def readText (path : String) : IO (Except ReadFault String) := do
  try
    return decodeText (← IO.FS.readBinFile path)
  catch e =>
    return .error (.ofError e)

/-- Run the command with the given arguments. -/
def runCommand (args : List String) : IO UInt32 := do
  match Options.parse args with
  | .error halt =>
    if halt.exitCode = 0 then IO.print halt.message else IO.eprint halt.message
    return halt.exitCode
  | .ok options =>
    match ← (options.run readText).run with
    | .ok text =>
      IO.print text
      return 0
    | .error failure =>
      IO.eprintln ("error: " ++ failure.message)
      return 1

end Interlock

/-- The entry point. -/
def main (args : List String) : IO UInt32 := Interlock.runCommand args
