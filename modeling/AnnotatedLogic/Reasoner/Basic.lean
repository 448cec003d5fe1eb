import AnnotatedLogic.Reasoner.Effect
/-!
# The reasoner

A reasoner holds an interpretation with the rules, facts and opposite labels that work on it, and
what the runs so far have left: the trace, the history and the firings still to come.

* `create`: a reasoner without rules and facts; the configuration has to be valid.
* `addRule`, `addFact`: one more rule or fact, if it is valid.
* `addFacts`: facts whose windows count from the next timestep, one after the other. Those before an
  invalid one are kept.
* `report`: what the runs so far have led to.

Timesteps are natural numbers, without a largest one. On a machine they are words of 64 bits; the windows
of facts that are shifted and the timesteps at which firings are due are taken to stay below `2 ^ 64`.
-/

namespace AnnotatedLogic

/-- A grounding of a delayed rule that waits for its timestep. -/
structure Firing where
  due : Nat
  rule : Rule
  grounding : Grounding
deriving DecidableEq

/-- An interpretation and all that works on it. -/
structure Reasoner where
  config : Config
  interpretation : Interpretation
  rules : List Rule
  facts : List Fact
  pairing : Pairing
  trace : Trace
  /-- The state after each completed timestep, if it is retained. -/
  history : Array Snapshot
  /-- The number of atoms after each completed timestep. -/
  atomCounts : Array Nat
  /-- The firings to come, in the order in which they were scheduled. -/
  pending : List Firing
  /-- The first timestep that is not completed. -/
  nextTime : Nat
deriving DecidableEq

/-- What the runs so far have led to. -/
structure Report where
  interpretation : Interpretation
  history : Array Snapshot
  trace : Trace
  atomCounts : Array Nat
  /-- How many timesteps have been completed. -/
  timesteps : Nat
  /-- Whether the last run ended before its horizon because nothing was left to do. -/
  convergedEarly : Bool
  /-- The conflict that stopped the last run. -/
  halted : Option Conflict
deriving DecidableEq

/-- The last completed timestep, or `0` if there is none. -/
def Report.lastTime (r : Report) : Nat := r.timesteps - 1

namespace Reasoner

/-- A reasoner over a graph, without rules and facts. -/
def create (graph : Graph) (labelling : Labelling) (config : Config) : Except Error Reasoner :=
  match config.validate with
  | .error error => .error error
  | .ok () =>
    .ok
      { config := config
        interpretation := .ofGraph graph labelling
        rules := []
        facts := []
        pairing := {}
        trace := #[]
        history := #[]
        atomCounts := #[]
        pending := []
        nextTime := 0 }

/-- One more rule, if it is valid. -/
def addRule (r : Reasoner) (rule : Rule) : Except Error Reasoner :=
  match rule.validate with
  | .error error => .error error
  | .ok () => .ok { r with rules := r.rules ++ [rule] }

/-- One more fact, if it is valid. -/
def addFact (r : Reasoner) (fact : Fact) : Except Error Reasoner :=
  match fact.validate with
  | .error error => .error error
  | .ok () => .ok { r with facts := r.facts ++ [fact] }

/-- Other opposite labels. -/
def setPairing (r : Reasoner) (pairing : Pairing) : Reasoner := { r with pairing := pairing }

/-- More facts, whose windows count from the next timestep. The first invalid fact is the error; the
facts before it stay. -/
def addFacts (r : Reasoner) : List Fact → Reasoner × Option Error
  | [] => (r, none)
  | fact :: facts =>
    match r.addFact (fact.shift r.nextTime) with
    | .error error => (r, some error)
    | .ok r => r.addFacts facts

/-- What the runs so far have led to. -/
def report (r : Reasoner) (convergedEarly : Bool) (halted : Option Conflict) : Report where
  interpretation := r.interpretation
  history := r.history
  trace := r.trace
  atomCounts := r.atomCounts
  timesteps := r.atomCounts.size
  convergedEarly := convergedEarly
  halted := halted

end Reasoner

end AnnotatedLogic
