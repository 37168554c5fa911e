import Interlock.Config

/-!
# Command-line options

The arguments are gone through from left to right. An option with a value takes it
from the same argument, after `=`, or from the next one. In the second case the
value is looked at only when the next option, the file name or the end is reached;
an argument that does not belong to the command is refused before that. After `--`
every argument is a file name.

- `Options`: what the arguments ask for.
- `Halt`: why there is nothing to run.
- `Options.parse`: the options of a list of arguments.
-/

namespace Interlock

/-- How a report is written. -/
inductive Format where
  | text
  | json
  deriving DecidableEq, Repr

/-- What the command line asks for. -/
structure Options where
  strictThreadContext : Bool := false
  perMethodBudget : Option UInt64 := none
  maxFixpointRounds : Option UInt64 := none
  minConfidence : Option Confidence := none
  /-- The file with settings. -/
  config : Option String := none
  format : Option Format := none
  /-- Draw the control-flow graph of every method. -/
  dumpBodies : Bool := false
  /-- Draw the condensed call graph. -/
  dumpCallGraph : Bool := false
  /-- The file with the program. -/
  file : Option String := none
  deriving DecidableEq, Repr

/-- Why there is nothing to run. -/
inductive Halt where
  | help
  | version
  /-- An argument that is neither an option nor the one file name. -/
  | unknownArgument
  /-- A value that is not among the possible ones, or is missing. -/
  | invalidValue
  /-- A value that is not a number of 64 bits. -/
  | malformedNumber
  /-- A value for an option that takes none. -/
  | unexpectedValue
  /-- The same option twice. -/
  | repeatedOption
  /-- No file name. -/
  | missingFile
  deriving DecidableEq, Repr

/-- Asking for help or the version is no error. -/
def Halt.exitCode : Halt → UInt32
  | help => 0
  | version => 0
  | _ => 2

/-! ## Arguments -/

/-- An argument by its shape. -/
inductive Argument where
  /-- The argument `--`. -/
  | separator
  /-- A long option, with what stands after `=`. -/
  | long (name : String) (value : Option String)
  /-- One or more short options, by the first letter. -/
  | short (letter : Char)
  | plain (text : String)
  deriving DecidableEq, Repr

/-- The shape of an argument. A single `-` is plain. -/
def Argument.ofString (s : String) : Argument :=
  match s.toList with
  | ['-', '-'] => .separator
  | '-' :: '-' :: rest =>
    match rest.dropWhile (· ≠ '=') with
    | [] => .long (String.ofList rest) none
    | _ :: value => .long (String.ofList (rest.takeWhile (· ≠ '='))) (some (String.ofList value))
  | '-' :: letter :: _ => .short letter
  | _ => .plain s

/-- The options that take a value. -/
inductive ValueOption where
  | perMethodBudget
  | maxFixpointRounds
  | minConfidence
  | config
  | format
  deriving DecidableEq, Repr

/-- The options that take none. -/
inductive Switch where
  | strictThreadContext
  | dumpBodies
  | dumpCallGraph
  | help
  | version
  deriving DecidableEq, Repr

/-- The option with the given long name. -/
def longOption? : String → Option (ValueOption ⊕ Switch)
  | "per-method-budget" => some (.inl .perMethodBudget)
  | "max-fixpoint-rounds" => some (.inl .maxFixpointRounds)
  | "min-confidence" => some (.inl .minConfidence)
  | "config" => some (.inl .config)
  | "format" => some (.inl .format)
  | "strict-thread-context" => some (.inr .strictThreadContext)
  | "dump-cfg" => some (.inr .dumpBodies)
  | "dump-call-graph" => some (.inr .dumpCallGraph)
  | "help" => some (.inr .help)
  | "version" => some (.inr .version)
  | _ => none

/-- The option with the given letter. -/
def shortOption? : Char → Option Switch
  | 'h' => some .help
  | 'V' => some .version
  | _ => none

/-- A number of 64 bits: digits, perhaps after a plus sign. -/
def parseWord? (s : String) : Option UInt64 :=
  let digits := match s.toList with
    | '+' :: rest => rest
    | all => all
  if digits.isEmpty || !digits.all Char.isDigit then none
  else
    let n := digits.foldl (fun n d => n * 10 + (d.toNat - '0'.toNat)) 0
    if n < UInt64.size then some (.ofNat n) else none

/-! ## Options one by one -/

namespace Options

/-- Set an option that was not set before. -/
def setNew {α : Type} (old : Option α) (new : Except Halt α) (build : Option α → Options) :
    Except Halt Options :=
  match old with
  | some _ => .error .repeatedOption
  | none => new.map fun a => build (some a)

/-- Set an option to a value. -/
def setValue (o : Options) (option : ValueOption) (value : String) : Except Halt Options :=
  let number : Except Halt UInt64 :=
    match parseWord? value with
    | some n => .ok n
    | none => .error .malformedNumber
  match option with
  | .perMethodBudget => setNew o.perMethodBudget number fun v => { o with perMethodBudget := v }
  | .maxFixpointRounds =>
    setNew o.maxFixpointRounds number fun v => { o with maxFixpointRounds := v }
  | .minConfidence =>
    let confidence : Except Halt Confidence :=
      if value = "low" then .ok .low else if value = "high" then .ok .high
      else .error .invalidValue
    setNew o.minConfidence confidence fun v => { o with minConfidence := v }
  | .config => setNew o.config (.ok value) fun v => { o with config := v }
  | .format =>
    let format : Except Halt Format :=
      if value = "text" then .ok .text else if value = "json" then .ok .json
      else .error .invalidValue
    setNew o.format format fun v => { o with format := v }

/-- Set an option without a value. -/
def setSwitch (o : Options) : Switch → Except Halt Options
  | .strictThreadContext =>
    if o.strictThreadContext then .error .repeatedOption
    else .ok { o with strictThreadContext := true }
  | .dumpBodies =>
    if o.dumpBodies then .error .repeatedOption else .ok { o with dumpBodies := true }
  | .dumpCallGraph =>
    if o.dumpCallGraph then .error .repeatedOption else .ok { o with dumpCallGraph := true }
  | .help => .error .help
  | .version => .error .version

end Options

/-! ## Going through the arguments -/

/-- An option that waits: for its value, or for its value to be looked at. -/
structure Pending where
  option : ValueOption
  value : Option String := none

/-- The arguments gone through so far. -/
structure Draft where
  options : Options := {}
  pending : Option Pending := none

namespace Draft

/-- Set the option that waits, if there is one. -/
def settle (d : Draft) : Except Halt Options :=
  match d.pending with
  | none => .ok d.options
  | some ⟨_, none⟩ => .error .invalidValue
  | some ⟨option, some value⟩ => d.options.setValue option value

/-- Take a file name. -/
def takeFile (d : Draft) (name : String) : Except Halt Draft :=
  match d.options.file with
  | some _ => .error .unknownArgument
  | none => d.settle.map fun options => { options := { options with file := some name } }

/-- Take an option by its long name. -/
def takeLong (d : Draft) (name : String) (value : Option String) : Except Halt Draft :=
  match longOption? name, value with
  | none, _ => .error .unknownArgument
  | some (.inr _), some _ => .error .unexpectedValue
  | some (.inr switch), none => do return { options := ← (← d.settle).setSwitch switch }
  | some (.inl option), some value => do return { options := ← (← d.settle).setValue option value }
  | some (.inl option), none => do return { options := ← d.settle, pending := some { option } }

/-- Take an argument that stands before `--`. -/
def take (d : Draft) (arg : Argument) : Except Halt Draft :=
  match arg with
  | .long name value => d.takeLong name value
  | .short letter =>
    match shortOption? letter with
    | none => .error .unknownArgument
    | some switch => do return { options := ← (← d.settle).setSwitch switch }
  | .plain text =>
    match d.pending with
    | some ⟨option, none⟩ => .ok { d with pending := some ⟨option, some text⟩ }
    | _ => d.takeFile text
  | .separator => .ok d

/-- Go through the remaining arguments. -/
def takeAll (d : Draft) : List String → Except Halt Draft
  | [] => .ok d
  | arg :: rest =>
    match Argument.ofString arg with
    | .separator => rest.foldlM takeFile d
    | shape => do (← d.take shape).takeAll rest

end Draft

namespace Options

/-- The options of a list of arguments, which must name a file. -/
def parse (args : List String) : Except Halt Options := do
  let draft ← Draft.takeAll {} args
  let options ← draft.settle
  if options.file.isNone then .error .missingFile else return options

/-- Settings with those of the command line on top. -/
def apply (o : Options) (c : Config) : Config where
  strictThreadContext := o.strictThreadContext || c.strictThreadContext
  perMethodBudget := o.perMethodBudget.or c.perMethodBudget
  minConfidence := o.minConfidence.getD c.minConfidence
  maxFixpointRounds := o.maxFixpointRounds.or c.maxFixpointRounds

end Options

end Interlock
