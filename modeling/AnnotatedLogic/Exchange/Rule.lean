import AnnotatedLogic.Exchange.Basic
import AnnotatedLogic.Fact
import AnnotatedLogic.Rule.Basic
/-!
# Facts and rules in documents

Facts and rules are records. What a record leaves out has the value that it has in a fact at time
`0` or in a rule with a delay of one timestep; names, labels, bounds and the head of a rule have to
be given.
-/

namespace AnnotatedLogic

namespace Fact

def toDocument (f : Fact) : Document :=
  .object
    [("name", .text f.name),
     ("target", f.target.toDocument),
     ("label", f.label.toDocument),
     ("bound", f.bound.toDocument),
     ("t_lower", .natural f.tLower),
     ("t_upper", .natural f.tUpper),
     ("static", .bool f.isStatic),
     ("graph_attribute", .bool f.fromAttribute)]

def reader : Reader Fact :=
  Reader.record 8 fun r =>
    Fact.mk
      <$> r.required 0 "name" Reader.text
      <*> r.required 1 "target" Component.reader
      <*> r.required 2 "label" Label.reader
      <*> r.required 3 "bound" Interval.reader
      <*> r.defaulting 4 "t_lower" 0 Reader.natural
      <*> r.defaulting 5 "t_upper" 0 Reader.natural
      <*> r.defaulting 6 "static" false Reader.boolean
      <*> r.defaulting 7 "graph_attribute" false Reader.boolean

end Fact

namespace Comparison

/-- The word for a comparison in documents. -/
def word : Comparison → String
  | greaterEqual => "greater_equal"
  | greater => "greater"
  | lessEqual => "less_equal"
  | less => "less"
  | equal => "equal"

def reader : Reader Comparison :=
  Reader.choice Document.isNull
    ([greaterEqual, greater, lessEqual, less, equal].map fun c => (c.word, c))

end Comparison

namespace Quantifier

/-- The key of a quantifier in documents. -/
def key : Quantifier → String
  | number => "number"
  | percent => "percent"

def reader : Reader Quantifier :=
  Reader.choice Document.isNull ([number, percent].map fun q => (q.key, q))

end Quantifier

namespace Subset

/-- The word for a subset in documents. -/
def word : Subset → String
  | total => "total"
  | available => "available"

def reader : Reader Subset :=
  Reader.choice Document.isNull ([total, available].map fun s => (s.word, s))

end Subset

namespace Threshold

def toDocument (t : Threshold) : Document :=
  .object
    [("comparison", .text t.comparison.word),
     ("quantifier", .text t.quantifier.key),
     ("subset", .text t.subset.word),
     ("value", .real t.value)]

def reader : Reader Threshold :=
  Reader.record 4 fun r =>
    Threshold.mk
      <$> r.required 0 "comparison" Comparison.reader
      <*> r.required 1 "quantifier" Quantifier.reader
      <*> r.required 2 "subset" Subset.reader
      <*> r.required 3 "value" Reader.number

end Threshold

namespace Clause

def toDocument (c : Clause) : Document :=
  .object
    [("kind", c.kind.toDocument),
     ("label", c.label.toDocument),
     ("bound", c.bound.toDocument),
     ("threshold", c.threshold.toDocument)]

def reader : Reader Clause :=
  Reader.record 4 fun r =>
    Clause.mk
      <$> r.required 0 "kind" ComponentKind.reader
      <*> r.required 1 "label" Label.reader
      <*> r.required 2 "bound" Interval.reader
      <*> r.defaulting 3 "threshold" (.atLeast 1) Threshold.reader

end Clause

namespace AnnotationFunction

def toDocument (f : AnnotationFunction) : Document := .text f.name

/-- The function of a name, or the defect that there is none. -/
def ofName (name : String) : Except Defect AnnotationFunction :=
  match named name with
  | .ok f => .ok f
  | .error _ => .error (.unknownFunction name)

def reader : Reader AnnotationFunction := fun d => (Reader.text d).check ofName

end AnnotationFunction

namespace Head

def toDocument : Head → Document
  | bound b => .object [("bound", b.toDocument)]
  | computed f => .object [("annotation", f.toDocument)]

/-- A head has one key only. Of a second key and a fault in the value of the first one, the delivery
decides which is met first. -/
def reader (delivery : Delivery) : Reader Head :=
  Reader.variant delivery
    [("bound", fun d => bound <$> Interval.reader d),
     ("annotation", fun d => computed <$> AnnotationFunction.reader d)]

end Head

namespace Endpoint

def toDocument : Endpoint → Document
  | target => .text "target"
  | clause index => .object [("clause", .natural index)]

/-- The node itself is a case that carries nothing, a clause one that carries its place. -/
def reader : Reader Endpoint
  | .object fields =>
    Reader.variant .text
      [("target", fun d => if d.isNull then .value target else .malformed),
       ("clause", fun d => clause <$> Reader.natural d)] (.object fields)
  | d => Reader.choice Document.isNull [("target", target)] d

end Endpoint

namespace EdgeInference

def toDocument (e : EdgeInference) : Document :=
  .object
    [("source", e.source.toDocument),
     ("target", e.target.toDocument),
     ("label", .optional Label.toDocument e.label)]

def reader : Reader EdgeInference :=
  Reader.record 3 fun r =>
    EdgeInference.mk
      <$> r.required 0 "source" Endpoint.reader
      <*> r.required 1 "target" Endpoint.reader
      <*> r.defaulting 2 "label" none (Reader.optional Label.reader)

end EdgeInference

namespace Rule

def toDocument (r : Rule) : Document :=
  .object
    [("name", .text r.name),
     ("kind", r.kind.toDocument),
     ("target", r.target.toDocument),
     ("target_criteria",
       .list (fun c => .array [c.1.toDocument, c.2.toDocument]) r.criteria),
     ("delta_t", .natural r.delay),
     ("clauses", .list Clause.toDocument r.clauses),
     ("head", r.head.toDocument),
     ("weights", .list .real r.weights),
     ("edge_to_add", .optional EdgeInference.toDocument r.inference),
     ("immediate", .bool r.immediate),
     ("static", .bool r.isStatic)]

def reader (delivery : Delivery) : Reader Rule :=
  Reader.record 11 fun r =>
    Rule.mk
      <$> r.required 0 "name" Reader.text
      <*> r.required 1 "kind" ComponentKind.reader
      <*> r.required 2 "target" Label.reader
      <*> r.defaulting 3 "target_criteria" []
        (Reader.list (Reader.pair Label.reader Interval.reader))
      <*> r.defaulting 4 "delta_t" 1 Reader.natural
      <*> r.defaulting 5 "clauses" [] (Reader.list Clause.reader)
      <*> r.required 6 "head" (Head.reader delivery)
      <*> r.defaulting 7 "weights" [] (Reader.list Reader.number)
      <*> r.defaulting 8 "edge_to_add" none (Reader.optional EdgeInference.reader)
      <*> r.defaulting 9 "immediate" false Reader.boolean
      <*> r.defaulting 10 "static" false Reader.boolean

end Rule

end AnnotatedLogic
