import AnnotatedLogic.CommandLine.Options
import AnnotatedLogic.Decimal.Reading
import AnnotatedLogic.Degree
import AnnotatedLogic.Label
import AnnotatedLogic.Text.Blank
import AnnotatedLogic.Text.Fields
/-!
# What a command line asks for

* `Invocation`: a command with the files it works on.
* `Request.ofArguments`: what the arguments ask for; nothing, if they are not those of a command.

The configuration file may be named before and after the command; behind the command it counts.
-/

namespace AnnotatedLogic.CommandLine

/-- What is run, and what differs from the configuration file. -/
structure RunOptions where
  program : String
  timesteps : Option Nat
  parallel : Bool
  threads : Option Nat
  atomTrace : Bool
deriving DecidableEq

/-- What is to be done. -/
inductive Command where
  /-- Runs a program and prints the final worlds. -/
  | run (options : RunOptions) (json trace : Bool)
  /-- Runs a program and lists the atoms of some labels within two bounds. -/
  | query (options : RunOptions) (labels : List Label) (lower upper : Degree)
  /-- Loads a program. -/
  | check (program : String)
deriving DecidableEq

/-- A command and the configuration it works with. -/
structure Invocation where
  config : Option String
  command : Command
deriving DecidableEq

/-- The words for commands. -/
inductive Verb where
  | run
  | query
  | check
  | help
deriving DecidableEq

/-- What a command line asks for. -/
inductive Request where
  | perform (invocation : Invocation)
  /-- How to use the program, or one of its commands. -/
  | help (verb : Option Verb)
  | version
deriving DecidableEq

/-! ## Settings -/

/-- All that options can set. -/
structure Settings where
  config : Option String := none
  program : Option String := none
  timesteps : Option Nat := none
  parallel : Bool := false
  threads : Option Nat := none
  atomTrace : Bool := false
  json : Bool := false
  trace : Bool := false
  labels : Option String := none
  lower : Degree := 0
  upper : Degree := 1

/-- The name of a file; it may not be empty. -/
def filePath (s : String) : Option String := if s.isEmpty then none else some s

namespace Settings

/-- An option that takes a value of a type. -/
def valued {α : Type} (name : String) (read : String → Option α) (set : α → Settings → Settings) :
    CommandOption Settings :=
  ⟨name, .value fun s => (read s).map set⟩

/-- Names the configuration file. -/
def configOption : CommandOption Settings :=
  valued "config" filePath fun path s => { s with config := some path }

/-- Names the program file. -/
def programOption : CommandOption Settings :=
  valued "program" filePath fun path s => { s with program := some path }

/-- Asks how to use the program or the command it stands behind. -/
def helpOption : CommandOption Settings := ⟨"help", .ask 'h'⟩

/-- The options before the command. -/
def global : List (CommandOption Settings) :=
  [configOption, helpOption, ⟨"version", .ask 'V'⟩]

/-- The options of both commands that run a program. -/
def running : List (CommandOption Settings) :=
  [configOption,
   programOption,
   valued "timesteps" Decimal.readNat? fun n s => { s with timesteps := some n },
   ⟨"parallel", .flag fun s => { s with parallel := true }⟩,
   valued "threads" Decimal.readNat? fun n s => { s with threads := some n },
   ⟨"atom-trace", .flag fun s => { s with atomTrace := true }⟩,
   helpOption]

/-- The options behind a command. -/
def ofVerb : Verb → List (CommandOption Settings)
  | .run =>
    running
      ++ [⟨"json", .flag fun s => { s with json := true }⟩,
          ⟨"trace", .flag fun s => { s with trace := true }⟩]
  | .query =>
    running
      ++ [valued "labels" some fun text s => { s with labels := some text },
          valued "lower" Decimal.read? fun x s => { s with lower := x },
          valued "upper" Decimal.read? fun x s => { s with upper := x }]
  | .check => [configOption, programOption, helpOption]
  | .help => []

/-- The settings of a run. -/
def runOptions (s : Settings) (program : String) : RunOptions where
  program := program
  timesteps := s.timesteps
  parallel := s.parallel
  threads := s.threads
  atomTrace := s.atomTrace

/-- The labels of a list with commas, without the blanks around them. -/
def labelList (s : String) : List Label :=
  (((Text.pieces ',' s).map Text.trim).filter (!·.isEmpty)).map Label.mk

/-- The command that settings make, unless a setting that it needs is missing. -/
def command? (s : Settings) (verb : Verb) : Option Command :=
  match verb, s.program with
  | .run, some program => some (.run (s.runOptions program) s.json s.trace)
  | .query, some program =>
    s.labels.map fun labels => .query (s.runOptions program) (labelList labels) s.lower s.upper
  | .check, some program => some (.check program)
  | _, _ => none

end Settings

/-! ## Requests -/

/-- The word for a command. -/
def Verb.word : Verb → String
  | run => "run"
  | query => "query"
  | check => "check"
  | help => "help"

/-- The command of a word. -/
def Verb.ofWord? (s : String) : Option Verb :=
  [run, query, check, help].find? fun v => v.word == s

namespace Request

/-- What the words behind `help` ask for. -/
def ofHelp : List String → Option Request
  | [] => some (.help none)
  | [word] => (Verb.ofWord? word).map fun verb => .help (some verb)
  | _ => none

/-- What the arguments behind a command ask for. -/
def ofCommand (config : Option String) (verb : Verb) (args : List String) : Option Request :=
  match readOptions (Settings.ofVerb verb) [] {} args with
  | .ok (s, []) =>
    (s.command? verb).map fun command => .perform ⟨s.config.or config, command⟩
  | .ok _ => none
  | .error (.asked _) => some (.help (some verb))
  | .error .misuse => none

/-- What arguments ask for. -/
def ofArguments (args : List String) : Option Request :=
  match readOptions Settings.global [] {} args with
  | .ok (_, []) => none
  | .ok (s, word :: rest) =>
    match Verb.ofWord? word with
    | some .help => ofHelp rest
    | some verb => ofCommand s.config verb rest
    | none => none
  | .error (.asked name) => some (if name = "version" then .version else .help none)
  | .error .misuse => none

end Request

end AnnotatedLogic.CommandLine
