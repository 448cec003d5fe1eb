import AnnotatedLogic.Document.Json.Parser
import AnnotatedLogic.Document.Json.Printer
import AnnotatedLogic.Exchange.Rule
import AnnotatedLogic.Program
import AnnotatedLogic.Rows
/-!
# Programs and results in documents

* `Program.ofJson`: the program of a JSON text. Of the faults in a text the first one is reported.
* `Program.toJson`: the text of a program, a field or item to a line.
* `WorldRow.toDocument`, `TraceRow.toDocument`, `RunSummary.toDocument`: what a run has led to.
-/

namespace AnnotatedLogic

namespace GraphAttribute

def toDocument (a : GraphAttribute) : Document :=
  .object
    [("component", a.component.toDocument),
     ("label", a.label.toDocument),
     ("bound", a.bound.toDocument)]

def reader : Reader GraphAttribute :=
  Reader.record 3 fun r =>
    GraphAttribute.mk
      <$> r.required 0 "component" Component.reader
      <*> r.required 1 "label" Label.reader
      <*> r.required 2 "bound" Interval.reader

end GraphAttribute

namespace GraphOutline

def toDocument (g : GraphOutline) : Document :=
  .object
    [("nodes", .list Node.toDocument g.nodes),
     ("edges", .list Edge.toDocument g.edges),
     ("directed", .bool g.directed),
     ("reverse", .bool g.reverse),
     ("attributes", .list GraphAttribute.toDocument g.attributes)]

def reader : Reader GraphOutline :=
  Reader.record 5 fun r =>
    GraphOutline.mk
      <$> r.defaulting 0 "nodes" [] (Reader.list Node.reader)
      <*> r.defaulting 1 "edges" [] (Reader.list Edge.reader)
      <*> r.defaulting 2 "directed" true Reader.boolean
      <*> r.defaulting 3 "reverse" false Reader.boolean
      <*> r.defaulting 4 "attributes" [] (Reader.list GraphAttribute.reader)

end GraphOutline

namespace Program

def toDocument (p : Program) : Document :=
  .object
    [("graph", p.graph.toDocument),
     ("labels", p.labels.toDocument),
     ("ipl", p.pairing.toDocument),
     ("facts", .list Fact.toDocument p.facts),
     ("rules", .list Rule.toDocument p.rules)]

def reader : Reader Program :=
  Reader.record 5 fun r =>
    Program.mk
      <$> r.defaulting 0 "graph" {} GraphOutline.reader
      <*> r.defaulting 1 "labels" {} Labelling.reader
      <*> r.defaulting 2 "ipl" {} Pairing.reader
      <*> r.defaulting 3 "facts" [] (Reader.list Fact.reader)
      <*> r.defaulting 4 "rules" [] (Reader.list (Rule.reader .text))

/-- The program of a JSON text. A defect in a value that stands before the place where the text
breaks off comes first. -/
def ofJson (s : String) : Except Error Program :=
  let (d, complete) := Document.Json.parse s
  match (reader d).toExcept with
  | .error defect => .error (.malformedProgram defect)
  | .ok p => if complete then .ok p else .error (.malformedProgram .form)

/-- The JSON text of a program. -/
def toJson (p : Program) : String := Document.Json.pretty p.toDocument

end Program

/-! ## Results -/

/-- The key of a cause in documents. -/
def Cause.key : Cause → String
  | rule => "Rule"
  | fact => "Fact"
  | pairing => "Ipl"

/-- A change as it is recorded. An empty support is left out. -/
def TraceEntry.toDocument (e : TraceEntry) : Document :=
  .object
    ([("t", .natural e.time),
      ("fp_op", .natural e.iteration),
      ("component", e.component.toDocument),
      ("label", e.label.toDocument),
      ("old_bound", e.old.toDocument),
      ("new_bound", e.new.toDocument),
      ("consistent", .bool e.consistent),
      ("triggered_by", .text e.cause.key),
      ("name", .text e.name),
      ("message", .text e.message)]
    ++ if e.support.isEmpty then [] else [("clause_groundings", .list Support.toDocument e.support)])

/-- A trace as it is recorded. -/
def Trace.toDocument (trace : Trace) : Document := .list TraceEntry.toDocument trace.toList

def WorldRow.toDocument (r : WorldRow) : Document :=
  .object
    [("t", .natural r.time),
     ("kind", .text r.kind),
     ("component", .text r.component),
     ("label", .text r.label),
     ("lower", .real r.lower),
     ("upper", .real r.upper)]

def TraceRow.toDocument (r : TraceRow) : Document :=
  .object
    [("t", .natural r.time),
     ("fp_op", .natural r.iteration),
     ("component", .text r.component),
     ("label", .text r.label),
     ("old_lower", .real r.oldLower),
     ("old_upper", .real r.oldUpper),
     ("new_lower", .real r.newLower),
     ("new_upper", .real r.newUpper),
     ("consistent", .bool r.consistent),
     ("triggered_by", .text r.cause),
     ("name", .text r.name),
     ("message", .text r.message),
     ("clause_groundings", .list (.list .text) r.support)]

def RunSummary.toDocument (r : RunSummary) : Document :=
  .object
    [("timesteps", .natural r.timesteps),
     ("converged_early", .bool r.convergedEarly),
     ("halted", .optional .text r.halted),
     ("num_ga", .list .natural r.atomCounts),
     ("worlds", .list WorldRow.toDocument r.worlds),
     ("trace", .list TraceRow.toDocument r.trace)]

end AnnotatedLogic
