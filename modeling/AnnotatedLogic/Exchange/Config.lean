import AnnotatedLogic.Config
import AnnotatedLogic.Document.Reading
import AnnotatedLogic.Document.Toml.Parser
import AnnotatedLogic.Exchange.Basic
/-!
# Configurations in documents

A configuration is a record in which everything may be left out. It is written as JSON or as TOML;
the two differ in what an empty value is.

* `Convergence.reader`: the key `mode` names the criterion; its threshold stands beside it.
* `Config.ofToml`: the configuration of a TOML text, which has to be a usable one.
-/

namespace AnnotatedLogic

namespace Convergence

def toDocument : Convergence → Document
  | perfect => .object [("mode", .text "perfect_convergence")]
  | deltaInterpretation threshold =>
    .object [("mode", .text "delta_interpretation"), ("threshold", .natural threshold)]
  | deltaBound threshold =>
    .object [("mode", .text "delta_bound"), ("threshold", .real threshold)]

/-- The criterion of a name, from the record behind the name. -/
def ofMode (r : Record) : String → Reading Convergence
  | "perfect_convergence" =>
    match r with
    | .items (_ :: _) => .malformed
    | _ => .value perfect
  | "delta_interpretation" => deltaInterpretation <$> r.required 0 "threshold" Reader.natural
  | "delta_bound" => deltaBound <$> r.required 0 "threshold" Reader.number
  | _ => .malformed

/-- The name may stand anywhere in an object, and stands first in an array. -/
def reader : Reader Convergence
  | .object fields =>
    match (Record.fields fields).required 0 "mode" Reader.text with
    | .value mode => ofMode (.fields fields) mode
    | .fault f => .fault f
  | .array (.text mode :: rest) => if rest.length ≤ 1 then ofMode (.items rest) mode else .malformed
  | _ => .malformed

end Convergence

namespace Policy

/-- The word for a policy in documents. -/
def word : Policy → String
  | resolve => "resolve"
  | abort => "abort"
  | override => "override"

def reader (isEmpty : Document → Bool) : Reader Policy :=
  Reader.choice isEmpty ([resolve, abort, override].map fun p => (p.word, p))

end Policy

namespace FactMode

/-- The word for a way to write facts in documents. -/
def word : FactMode → String
  | intersection => "intersection"
  | override => "override"

def reader (isEmpty : Document → Bool) : Reader FactMode :=
  Reader.choice isEmpty ([intersection, override].map fun m => (m.word, m))

end FactMode

namespace Execution

/-- The word for an order of work in documents. -/
def word : Execution → String
  | sequential => "sequential"
  | parallel => "parallel"

def reader (isEmpty : Document → Bool) : Reader Execution :=
  Reader.choice isEmpty ([sequential, parallel].map fun e => (e.word, e))

end Execution

namespace Config

def toDocument (c : Config) : Document :=
  .object
    [("timesteps", .natural c.timesteps),
     ("convergence", c.convergence.toDocument),
     ("atom_trace", .bool c.atomTrace),
     ("graph_attribute_trace", .bool c.attributeTrace),
     ("inconsistency", .text c.policy.word),
     ("fact_update", .text c.factMode.word),
     ("persistent", .bool c.persistent),
     ("retain_history", .bool c.retainHistory),
     ("execution", .text c.execution.word),
     ("threads", .optional .natural c.threads),
     ("max_fixed_point_iterations", .natural c.maxIterations)]

/-- What is left out is as in the standard configuration. -/
def reader (isEmpty : Document → Bool) : Reader Config :=
  Reader.record 11 fun r =>
    Config.mk
      <$> r.defaulting 0 "timesteps" standard.timesteps Reader.natural
      <*> r.defaulting 1 "convergence" standard.convergence Convergence.reader
      <*> r.defaulting 2 "atom_trace" standard.atomTrace Reader.boolean
      <*> r.defaulting 3 "graph_attribute_trace" standard.attributeTrace Reader.boolean
      <*> r.defaulting 4 "inconsistency" standard.policy (Policy.reader isEmpty)
      <*> r.defaulting 5 "fact_update" standard.factMode (FactMode.reader isEmpty)
      <*> r.defaulting 6 "persistent" standard.persistent Reader.boolean
      <*> r.defaulting 7 "retain_history" standard.retainHistory Reader.boolean
      <*> r.defaulting 8 "execution" standard.execution (Execution.reader isEmpty)
      <*> r.defaulting 9 "threads" standard.threads (Reader.optional Reader.natural)
      <*> r.defaulting 10 "max_fixed_point_iterations" standard.maxIterations Reader.natural

/-- The configuration of a TOML text. -/
def ofToml (s : String) : Except Error Config :=
  match Document.Toml.parse? s with
  | none => .error .malformedConfig
  | some d =>
    match (reader Document.isEmpty d).toExcept with
    | .error _ => .error .malformedConfig
    | .ok config => config.validate.map fun _ => config

end Config

end AnnotatedLogic
