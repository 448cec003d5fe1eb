import AnnotatedLogic.Component
import AnnotatedLogic.Decimal.Layout
import AnnotatedLogic.Rule.Threshold
/-!
# Errors

What can be wrong with the input: a bound, a rule, a fact, the configuration, a document. A bound
that contradicts what is known is no error; the reasoner has a policy for that.

* `Error.message?`: the text of an error. A document that has not the expected form is reported
  without one, unless a bound or a function name in it is to blame.
* `Error.code`, `Error.help`: a stable name for each cause, and what to do about it.
-/

namespace AnnotatedLogic

/-- Why a document does not say what it should. -/
inductive Defect where
  /-- It is not well formed, or a part is missing, repeated or of another kind than expected. -/
  | form
  /-- A pair of bounds is no truth interval. -/
  | interval (lower upper : Degree)
  /-- A rule names an annotation function that does not exist. -/
  | unknownFunction (name : String)
deriving DecidableEq

/-- What makes a rule unusable. -/
inductive RuleFault where
  | delayedImmediate (delay : Nat)
  | thresholdOutOfRange (clause : Nat) (value : Float) (quantifier : Quantifier)
  | edgesFromEdgeRule
  | endpointNotNodeClause (clause : Nat)
deriving DecidableEq

/-- What makes a configuration unusable. -/
inductive ConfigFault where
  | noIterations
  | noThreads
  | thresholdOutsideUnit
deriving DecidableEq

/-- Everything that can be wrong with the input. -/
inductive Error where
  | invalidInterval (lower upper : Degree)
  | unknownComponent (component : Component)
  | unknownNode (node : Node)
  | invalidRule (rule : String) (fault : RuleFault)
  | unknownFunction (name : String)
  | weightMismatch (rule : String) (weights clauses : Nat)
  | invalidFact (fact : String) (tLower tUpper : Nat)
  | invalidConfig (fault : ConfigFault)
  | malformedConfig
  | unreadableFile (path : String)
  | malformedProgram (defect : Defect)
deriving DecidableEq

/-- The word for what a threshold measures. -/
def Quantifier.word : Quantifier → String
  | number => "Number"
  | percent => "Percent"

/-- The text that says that two bounds make no truth interval. -/
def intervalMessage (lower upper : Degree) : String :=
  "invalid interval [" ++ Decimal.plain lower ++ ", " ++ Decimal.plain upper
    ++ "]: bounds must satisfy 0 <= lower <= upper <= 1"

/-- The text that says that there is no annotation function of a name. -/
def annotationMessage (name : String) : String :=
  "unknown annotation function '" ++ name ++ "'"

/-- What is wrong with a rule. -/
def RuleFault.message : RuleFault → String
  | delayedImmediate delay =>
    "immediate rules must have delta_t = 0, got " ++ toString delay
  | thresholdOutOfRange clause value quantifier =>
    "clause " ++ toString clause ++ " threshold " ++ Decimal.plain value
      ++ " is out of range for " ++ quantifier.word
  | edgesFromEdgeRule => "only node rules may infer edges"
  | endpointNotNodeClause clause =>
    "edge endpoint refers to clause " ++ toString clause ++ ", which is not a node clause"

/-- What is wrong with a configuration. -/
def ConfigFault.message : ConfigFault → String
  | noIterations => "max_fixed_point_iterations must be > 0"
  | noThreads => "threads must be > 0 when set"
  | thresholdOutsideUnit => "delta_bound threshold must lie in [0, 1]"

/-- The text of a defect that has one. -/
def Defect.message? : Defect → Option String
  | form => none
  | interval lower upper => some (intervalMessage lower upper)
  | unknownFunction name => some (annotationMessage name)

namespace Error

/-- The text of an error. -/
def message? : Error → Option String
  | invalidInterval lower upper => some (intervalMessage lower upper)
  | unknownComponent component => some ("unknown component: " ++ component.text)
  | unknownNode node => some ("unknown node: " ++ node.name)
  | invalidRule rule fault => some ("invalid rule '" ++ rule ++ "': " ++ fault.message)
  | unknownFunction name => some (annotationMessage name)
  | weightMismatch rule weights clauses =>
    some ("rule '" ++ rule ++ "' has " ++ toString weights ++ " weight(s) but "
      ++ toString clauses ++ " clause(s)")
  | invalidFact fact tLower tUpper =>
    some ("invalid fact '" ++ fact ++ "': t_lower (" ++ toString tLower
      ++ ") is after t_upper (" ++ toString tUpper ++ ")")
  | invalidConfig fault => some ("invalid configuration: " ++ fault.message)
  | malformedConfig => none
  | unreadableFile path => some ("cannot read " ++ path)
  | malformedProgram defect => defect.message?

/-- The stable name of an error's cause. -/
def code : Error → String
  | invalidInterval .. => "kairos::interval::invalid"
  | unknownComponent _ => "kairos::graph::unknown_component"
  | unknownNode _ => "kairos::graph::unknown_node"
  | invalidRule .. => "kairos::rule::invalid"
  | unknownFunction _ => "kairos::rule::unknown_annotation_fn"
  | weightMismatch .. => "kairos::rule::weight_mismatch"
  | invalidFact .. => "kairos::rule::invalid_fact"
  | invalidConfig _ => "kairos::config::invalid"
  | malformedConfig => "kairos::config::parse"
  | unreadableFile _ => "kairos::program::io"
  | malformedProgram _ => "kairos::program::json"

/-- What to do about an error. -/
def help : Error → String
  | invalidInterval .. =>
    "Interval bounds are truth degrees in [0, 1] and the lower bound may not "
      ++ "exceed the upper bound. Check the fact or rule that supplied this bound."
  | unknownComponent _ =>
    "An update referenced a node or edge that is not part of the graph. "
      ++ "Rule groundings may only target components the graph knows about; "
      ++ "add the node or edge to the graph before reasoning."
  | unknownNode _ => "Edges may only connect nodes that were added to the graph first."
  | invalidRule .. => "Check the rule's clauses, thresholds and head definition."
  | unknownFunction _ =>
    "Valid annotation functions are: average, average_lower, maximum, "
      ++ "minimum, weighted_sum."
  | weightMismatch .. =>
    "Provide one weight per clause, optionally followed by a trailing bias "
      ++ "weight, or omit the weights to use 1.0 per clause and a bias of 0."
  | invalidFact .. => "A fact's time window must satisfy t_lower <= t_upper."
  | invalidConfig fault => "Check the ReasonerConfig fields. " ++ fault.message
  | malformedConfig => "The configuration must be valid TOML matching the ReasonerConfig layout."
  | unreadableFile _ => "Check that the program file exists and is readable."
  | malformedProgram _ =>
    "Programs are JSON documents with `graph`, `labels`, `facts`, "
      ++ "`rules` and `ipl` sections. Re-check the offending field."

end Error

end AnnotatedLogic
