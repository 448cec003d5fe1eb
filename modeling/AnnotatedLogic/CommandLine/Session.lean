import AnnotatedLogic.CommandLine.Listing
import AnnotatedLogic.Exchange.Config
import AnnotatedLogic.Exchange.Program
/-!
# Carrying out a command line

`respond` says what a command line prints and how it ends. Files are read through a function that
is handed in, so the answer depends on the arguments and the files alone.

* A command line that asks for nothing ends with `2`, an error in the input with `1`; both print to
  the standard error only.
* The bounds of a query are looked at first, then the configuration, then the program.
-/

namespace AnnotatedLogic.CommandLine

/-- How a command line ends. -/
structure Completion where
  exitCode : Nat
  output : String
  /-- What is printed to the standard error. -/
  complaint : String
deriving DecidableEq

variable {m : Type → Type} [Monad m]

/-- The text of a file, or the error that it cannot be read. -/
def fileText (read : String → m (Option String)) (path : String) : ExceptT Error m String := do
  match ← read path with
  | some text => pure text
  | none => throw (.unreadableFile path)

/-- The configuration of a file; the standard one where no file is named. -/
def loadConfig (read : String → m (Option String)) : Option String → ExceptT Error m Config
  | none => pure .standard
  | some path => do ExceptT.mk (pure (Config.ofToml (← fileText read path)))

/-- The program of a file. -/
def loadProgram (read : String → m (Option String)) (path : String) : ExceptT Error m Program := do
  ExceptT.mk (pure (Program.ofJson (← fileText read path)))

/-- The configuration with what the command line says otherwise. -/
def RunOptions.apply (o : RunOptions) (c : Config) : Config :=
  { c with
    timesteps := o.timesteps.getD c.timesteps
    execution := if o.parallel then .parallel else c.execution
    threads := o.threads.or c.threads
    atomTrace := c.atomTrace || o.atomTrace }

/-- Runs a program. -/
def runProgram (read : String → m (Option String)) (config : Option String) (o : RunOptions) :
    ExceptT Error m Report := do
  let config := o.apply (← loadConfig read config)
  let program ← loadProgram read o.program
  let reasoner ← ExceptT.mk (pure (program.toReasoner config))
  ExceptT.mk (pure reasoner.reason.2)

/-- What a command prints. -/
def Invocation.perform (read : String → m (Option String)) (i : Invocation) :
    ExceptT Error m String :=
  match i.command with
  | .run options json trace => do
    let report ← runProgram read i.config options
    if json then pure (Document.Json.pretty (RunSummary.ofReport report).toDocument ++ "\n")
    else pure (unlines (report.listing trace))
  | .query options labels lower upper =>
    match Interval.closed? lower upper with
    | none => throw (.invalidInterval lower upper)
    | some bound => do
      let report ← runProgram read i.config options
      pure (unlines (report.matching labels bound))
  | .check path => do
    let config ← loadConfig read i.config
    let program ← loadProgram read path
    let reasoner ← ExceptT.mk (pure (program.toReasoner config))
    pure (unlines [reasoner.summary])

/-- An error as it is printed. -/
def complaintOf (e : Error) : String :=
  unlines [e.code, "  " ++ e.message?.getD "the document has not the expected form",
    "  help: " ++ e.help]

/-- What a command line prints and how it ends. -/
def respond (read : String → m (Option String)) (args : List String) : m Completion :=
  match Request.ofArguments args with
  | none => pure ⟨2, "", unlines ["The arguments make no command; see --help."]⟩
  | some .version => pure ⟨0, versionText, ""⟩
  | some (.help none) => pure ⟨0, overview, ""⟩
  | some (.help (some verb)) => pure ⟨0, verb.helpText, ""⟩
  | some (.perform invocation) => do
    match ← (invocation.perform read).run with
    | .ok output => pure ⟨0, output, ""⟩
    | .error e => pure ⟨1, "", complaintOf e⟩

end AnnotatedLogic.CommandLine
