import AnnotatedLogic.Interval
import AnnotatedLogic.Label
/-!
# Traces

The trace of a run lists every change of a truth value, in the order in which the changes were
made, with what caused it. `atTime`, `ofAtom` and `contradictions` select from it.
-/

namespace AnnotatedLogic

/-- What caused a change. -/
inductive Cause where
  | rule
  | fact
  /-- The change of an opposite label. -/
  | pairing
deriving DecidableEq, Inhabited

/-- The word for a cause in rows. -/
def Cause.word : Cause → String
  | rule => "Rule"
  | fact => "Fact"
  | pairing => "IPL"

/-- The members that qualify for one clause: nodes or edges, as the clause ranges over them. -/
inductive Support where
  | nodes (members : List Node)
  | edges (members : List Edge)
deriving DecidableEq

namespace Support

/-- The members as components. -/
def components : Support → List Component
  | nodes members => members.map .node
  | edges members => members.map .edge

/-- How many members qualify. -/
def size (s : Support) : Nat := s.components.length

/-- The nodes among the members: those of a node clause, none of an edge clause. -/
def nodeList : Support → List Node
  | nodes members => members
  | edges _ => []

end Support

/-- One change of a truth value. -/
structure TraceEntry where
  time : Nat
  /-- The iteration within the timestep; `0` for facts and delayed rules. -/
  iteration : Nat
  component : Component
  label : Label
  old : Interval
  new : Interval
  /-- Whether the change is not part of the resolution of a contradiction. -/
  consistent : Bool
  cause : Cause
  /-- The fact or rule that the change goes back to. -/
  name : String
  message : String
  support : List Support
deriving DecidableEq

/-- The changes of a run, in the order in which they were made. -/
abbrev Trace := Array TraceEntry

namespace Trace

/-- The changes of one timestep. -/
def atTime (trace : Trace) (t : Nat) : List TraceEntry :=
  trace.toList.filter fun e => e.time == t

/-- The changes of one atom. -/
def ofAtom (trace : Trace) (component : Component) (label : Label) : List TraceEntry :=
  trace.toList.filter fun e => decide (e.component = component ∧ e.label = label)

/-- The changes that resolved a contradiction. -/
def contradictions (trace : Trace) : List TraceEntry :=
  trace.toList.filter fun e => !e.consistent

end Trace

end AnnotatedLogic
