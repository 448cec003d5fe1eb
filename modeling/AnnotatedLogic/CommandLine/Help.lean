import AnnotatedLogic.CommandLine.Request
/-!
# How to use the command line

The texts for `help`, `--help` and `--version`. Options stand in a column of their own, which is as
wide as the widest of them.
-/

namespace AnnotatedLogic.CommandLine

/-- One line of help: what is written, and what it means. -/
structure HelpLine where
  form : String
  meaning : String

namespace HelpLine

/-- Lines in two columns, the second one two blanks behind the widest form. -/
def columns (lines : List HelpLine) : List String :=
  let width := (lines.map (·.form.length)).foldl max 0
  lines.map fun line => "  " ++ Text.padRight (width + 2) line.form ++ line.meaning

end HelpLine

/-- An option that takes a value, written in capitals after its name. -/
def valueLine (name placeholder meaning : String) : HelpLine :=
  ⟨"    --" ++ name ++ " <" ++ placeholder ++ ">", meaning⟩

/-- An option that takes no value. -/
def flagLine (name meaning : String) : HelpLine := ⟨"    --" ++ name, meaning⟩

/-- The line for the configuration file. -/
def configLine : HelpLine :=
  valueLine "config" "CONFIG" "Reasoner configuration (TOML). Defaults apply when omitted"

/-- The line for the program file. -/
def programLine : HelpLine := valueLine "program" "PROGRAM" "Program file (JSON)"

/-- The line for help. -/
def helpLine : HelpLine := ⟨"-h, --help", "Print help"⟩

/-- The options of both commands that run a program. -/
def runningLines : List HelpLine :=
  [configLine,
   programLine,
   valueLine "timesteps" "TIMESTEPS" "Last timestep to compute",
   flagLine "parallel" "Ground rules on the rayon thread pool",
   valueLine "threads" "THREADS" "Worker threads for parallel grounding",
   flagLine "atom-trace" "Record a trace entry for every change"]

namespace Verb

/-- What a command does. -/
def about : Verb → String
  | run => "Run a program and print the final worlds"
  | query => "Run a program and list atoms of the given labels within a bound"
  | check => "Load a program and configuration and report any errors"
  | help => "Print this message or the help of the given subcommand(s)"

/-- What stands behind a command. -/
def usage : Verb → String
  | run => "[OPTIONS] --program <PROGRAM>"
  | query => "[OPTIONS] --program <PROGRAM> --labels <LABELS>"
  | check => "[OPTIONS] --program <PROGRAM>"
  | help => "[COMMAND]..."

/-- The options of a command, and the arguments of `help`. -/
def lines : Verb → List HelpLine
  | run =>
    runningLines
      ++ [flagLine "json" "Print the full result (worlds, num_ga, trace) as JSON",
          flagLine "trace" "Also print the rule trace",
          helpLine]
  | query =>
    runningLines
      ++ [valueLine "labels" "LABELS" "Labels to report (comma-separated)",
          valueLine "lower" "LOWER" "Lower end of the bound atoms must lie within [default: 0]",
          valueLine "upper" "UPPER" "Upper end of the bound atoms must lie within [default: 1]",
          helpLine]
  | check => [configLine, programLine, helpLine]
  | help => [⟨"[COMMAND]...", "Print help for the subcommand(s)"⟩]

end Verb

/-- Lines as a text. -/
def unlines (lines : List String) : String := String.join (lines.map (· ++ "\n"))

/-- How to use the program. -/
def overview : String :=
  unlines
    (["Temporal logic inference over annotated graphs", "",
      "Usage: kairos [OPTIONS] <COMMAND>", "",
      "Commands:"]
    ++ HelpLine.columns ([Verb.run, .query, .check, .help].map fun v => ⟨v.word, v.about⟩)
    ++ ["", "Options:"]
    ++ HelpLine.columns [configLine, helpLine, ⟨"-V, --version", "Print version"⟩])

/-- How to use one command. -/
def Verb.helpText (v : Verb) : String :=
  let title := if v = .help then "Arguments:" else "Options:"
  unlines
    ([v.about, "", "Usage: kairos " ++ v.word ++ " " ++ v.usage, "", title]
    ++ HelpLine.columns v.lines)

/-- The name of the program and its version. -/
def versionText : String := "kairos 0.1.0\n"

end AnnotatedLogic.CommandLine
