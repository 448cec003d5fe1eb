import AnnotatedLogic.Reasoner.Basic
/-!
# Rows

What a run has led to, as flat rows of names and numbers for tables and documents.

* `worldRows`: the atoms of a snapshot, in its order.
* `filterRows`: those of some labels within a bound, the most certain first. Atoms with the same
  lower bound stay in the order of the snapshot.
* `traceRows`: the changes of a trace. `RunSummary.ofReport`: all of a run.
-/

namespace AnnotatedLogic

/-- One atom at one timestep. -/
structure WorldRow where
  time : Nat
  kind : String
  component : String
  label : String
  lower : Degree
  upper : Degree
deriving DecidableEq

/-- One change. -/
structure TraceRow where
  time : Nat
  iteration : Nat
  component : String
  label : String
  oldLower : Degree
  oldUpper : Degree
  newLower : Degree
  newUpper : Degree
  consistent : Bool
  cause : String
  name : String
  message : String
  /-- The members that qualify for each clause. -/
  support : List (List String)
deriving DecidableEq

/-- A run. -/
structure RunSummary where
  timesteps : Nat
  convergedEarly : Bool
  /-- The text of the conflict that stopped the run. -/
  halted : Option String
  atomCounts : List Nat
  worlds : List WorldRow
  trace : List TraceRow
deriving DecidableEq

/-- An atom at a timestep as a row. -/
def Atom.row (t : Nat) (a : Atom) : WorldRow where
  time := t
  kind := a.component.kind.word
  component := a.component.text
  label := a.label.name
  lower := a.bound.lower
  upper := a.bound.upper

/-- The atoms of a snapshot, in its order. -/
def worldRows (s : Snapshot) : List WorldRow := s.atoms.map (Atom.row s.time)

/-- Whether a row comes before another one, or they may stay as they are: the higher lower bound
comes first. -/
def WorldRow.before (a b : WorldRow) : Bool := decide (b.lower.rank ≤ a.lower.rank)

/-- The atoms of some labels whose intervals lie within a bound, the highest lower bound first. -/
def filterRows (s : Snapshot) (labels : List Label) (bound : Interval) : List WorldRow :=
  let atoms := s.atoms.filter fun a => decide (a.label ∈ labels) && decide (bound.Contains a.bound)
  (atoms.map (Atom.row s.time)).mergeSort WorldRow.before

/-- A change as a row. -/
def TraceEntry.row (e : TraceEntry) : TraceRow where
  time := e.time
  iteration := e.iteration
  component := e.component.text
  label := e.label.name
  oldLower := e.old.lower
  oldUpper := e.old.upper
  newLower := e.new.lower
  newUpper := e.new.upper
  consistent := e.consistent
  cause := e.cause.word
  name := e.name
  message := e.message
  support := e.support.map fun s => s.components.map Component.text

/-- The changes of a trace. -/
def traceRows (trace : Trace) : List TraceRow := trace.toList.map TraceEntry.row

/-- The state at the end of a run, at its last completed timestep. -/
def Report.finalSnapshot (r : Report) : Snapshot := r.interpretation.snapshot r.lastTime

/-- A run as rows. -/
def RunSummary.ofReport (r : Report) : RunSummary where
  timesteps := r.timesteps
  convergedEarly := r.convergedEarly
  halted := r.halted.map Conflict.text
  atomCounts := r.atomCounts.toList
  worlds := worldRows r.finalSnapshot
  trace := traceRows r.trace

end AnnotatedLogic
