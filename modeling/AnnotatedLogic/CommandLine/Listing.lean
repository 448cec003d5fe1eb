import AnnotatedLogic.CommandLine.Help
import AnnotatedLogic.Rows
/-!
# Results as lines of text

Names stand in columns, filled up to their width; a longer name moves what follows. Truth values
that say nothing are left out of the worlds.
-/

namespace AnnotatedLogic

/-- Two bounds in a listing. -/
def boundsText (lower upper : Degree) : String :=
  "[" ++ Decimal.plain lower ++ ", " ++ Decimal.plain upper ++ "]"

/-- Whether a row says anything. -/
def WorldRow.isInformative (r : WorldRow) : Bool := !(r.lower == 0 && r.upper == 1)

/-- The atom and the bounds of a row. -/
def WorldRow.atomLine (r : WorldRow) : String :=
  Text.padRight 16 r.component ++ " " ++ Text.padRight 16 r.label ++ " "
    ++ boundsText r.lower r.upper

/-- A row of the final worlds. -/
def WorldRow.line (r : WorldRow) : String :=
  "  " ++ Text.padRight 6 r.kind ++ " " ++ r.atomLine

/-- A row of the trace. -/
def TraceRow.line (r : TraceRow) : String :=
  "  t=" ++ toString r.time ++ " fp=" ++ toString r.iteration ++ " " ++ r.component ++ " "
    ++ r.label ++ " " ++ boundsText r.oldLower r.oldUpper ++ " -> "
    ++ boundsText r.newLower r.newUpper ++ " " ++ r.cause ++ " '" ++ r.name ++ "' " ++ r.message

namespace Report

/-- The final worlds, and the trace if it is asked for. -/
def listing (r : Report) (trace : Bool) : List String :=
  let early := if r.convergedEarly then " (converged early)" else ""
  let halted := match r.halted with
    | some conflict => ["halted: " ++ conflict.text]
    | none => []
  let counts := ", ".intercalate (r.atomCounts.toList.map toString)
  let worlds := ((worldRows r.finalSnapshot).filter (·.isInformative)).map (·.line)
  let traced := if trace then "trace:" :: (traceRows r.trace).map (·.line) else []
  ["timesteps: " ++ toString r.timesteps ++ early] ++ halted ++ ["num_ga: [" ++ counts ++ "]"]
    ++ worlds ++ traced

/-- The atoms of some labels within a bound. -/
def matching (r : Report) (labels : List Label) (bound : Interval) : List String :=
  match filterRows r.finalSnapshot labels bound with
  | [] => ["No atoms within " ++ bound.text ++ "."]
  | rows => rows.map (·.atomLine)

end Report

/-- What a program consists of, once it is loaded. -/
def Reasoner.summary (r : Reasoner) : String :=
  let g := r.interpretation.graph
  "ok: " ++ toString g.nodes.length ++ " nodes, " ++ toString g.edges.length ++ " edges, "
    ++ toString r.rules.length ++ " rules, " ++ toString r.facts.length ++ " facts"

end AnnotatedLogic
