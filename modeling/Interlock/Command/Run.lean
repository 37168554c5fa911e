import Interlock.Command.Options
import Interlock.Report.Text

/-!
# Running the command

The settings file, if one is named, is read first, then the program; then everything
asked for is written. Reading is left to the caller, so that the run is the same
over real files and over files held in memory.
-/

namespace Interlock

/-- Why a file cannot be read. -/
inductive ReadFault where
  | notFound
  | isDirectory
  | notDirectory
  | notText
  | other (reason : String)
  deriving DecidableEq, Repr

/-- The reason as text. -/
def ReadFault.message : ReadFault → String
  | notFound => "No such file or directory (os error 2)"
  | isDirectory => "Is a directory (os error 21)"
  | notDirectory => "Not a directory (os error 20)"
  | notText => "stream did not contain valid UTF-8"
  | other reason => reason

/-- The text of a file. -/
def decodeText (bytes : ByteArray) : Except ReadFault String :=
  match String.fromUTF8? bytes with
  | some text => .ok text
  | none => .error .notText

/-- Why a run fails. -/
inductive Failure where
  | read (path : String) (fault : ReadFault)
  | malformedProgram
  | malformedConfig
  deriving DecidableEq, Repr

/-- The message for users. -/
def Failure.message : Failure → String
  | read path fault => "cannot read `" ++ path ++ "`: " ++ fault.message
  | malformedProgram => "malformed program"
  | malformedConfig => "malformed configuration"

/-- The name and version of the command, on a line. -/
def versionLine : String := "race-driver 0.1.0\n"

namespace Options

/-- The settings, given the text of the settings file if one is named. -/
def configure (o : Options) (text : Option String) : Except Failure Config :=
  match text with
  | none => .ok (o.apply {})
  | some text =>
    match Config.parse? text with
    | some config => .ok (o.apply config)
    | none => .error .malformedConfig

/-- Everything that is written about a program: drawings first, then the report. -/
def output (o : Options) (config : Config) (program : Program) : String :=
  let session := Session.of program config
  let bodies := if o.dumpBodies then program.methods.map (·.drawBody ++ "\n") else []
  let calls := if o.dumpCallGraph then [session.drawCallGraph ++ "\n"] else []
  let report := match o.format.getD .text with
    | .text => session.run.lines.map (· ++ "\n")
    | .json => [session.run.toJson.pretty ++ "\n"]
  String.join (bodies ++ calls ++ report)

/-- What is written about the program of a text. -/
def process (o : Options) (config : Config) (text : String) : Except Failure String :=
  match Program.parse? text with
  | some program => .ok (o.output config program)
  | none => .error .malformedProgram

variable {m : Type → Type} [Monad m]

/-- Read a file, or fail with its path. -/
def readOr (read : String → m (Except ReadFault String)) (path : String) : ExceptT Failure m String :=
  ExceptT.mk do return (← read path).mapError (Failure.read path)

/-- Run the command; `read` reads files. -/
def run (o : Options) (read : String → m (Except ReadFault String)) : ExceptT Failure m String := do
  let settings ← o.config.mapM (readOr read)
  let config ← MonadExcept.ofExcept (o.configure settings)
  let text ← readOr read (o.file.getD "")
  MonadExcept.ofExcept (o.process config text)

end Options

end Interlock
