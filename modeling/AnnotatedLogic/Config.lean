import AnnotatedLogic.Error
/-!
# Configuration

How a run goes: how far, when the iteration within a timestep stops, what happens to contradictions
and facts, and what is recorded.

* `Convergence`: when an iteration has changed so little that the timestep is done.
* `Config.validate`: the limits of a usable configuration; the first one exceeded is reported.
-/

namespace AnnotatedLogic

/-- When the iteration within a timestep stops. -/
inductive Convergence where
  /-- When an iteration changes nothing. -/
  | perfect
  /-- When an iteration changes at most so many atoms. -/
  | deltaInterpretation (threshold : Nat)
  /-- When no bound that an iteration changed has moved further than this since the last reset. -/
  | deltaBound (threshold : Float)
deriving DecidableEq

/-- What happens when a bound contradicts the stored value or an opposite label. -/
inductive Policy where
  /-- The label and its opposites become unknown. -/
  | resolve
  /-- The run stops. -/
  | abort
  /-- The new bound is written without regard to the stored one. -/
  | override
deriving DecidableEq, Inhabited

/-- How facts are written. -/
inductive FactMode where
  /-- The stored value narrows to the meet. -/
  | intersection
  /-- The stored value is replaced. -/
  | override
deriving DecidableEq, Inhabited

/-- In which order the candidates of a rule are looked at. The result does not depend on it. -/
inductive Execution where
  | sequential
  | parallel
deriving DecidableEq, Inhabited

/-- How a run goes. -/
structure Config where
  /-- The last timestep to compute, counted from where the run starts. -/
  timesteps : Nat
  convergence : Convergence
  /-- Whether each change is traced. -/
  atomTrace : Bool
  /-- Whether changes by attributes of the graph are traced as well. -/
  attributeTrace : Bool
  policy : Policy
  factMode : FactMode
  /-- Whether values stay from one timestep to the next instead of being reset. -/
  persistent : Bool
  /-- Whether the state after each timestep is kept. -/
  retainHistory : Bool
  execution : Execution
  /-- Among how many workers the candidates are shared out. -/
  threads : Option Nat
  /-- How many iterations a timestep may take. -/
  maxIterations : Nat
deriving DecidableEq

/-- The word for a convergence criterion. -/
def Convergence.name : Convergence → String
  | perfect => "perfect_convergence"
  | deltaInterpretation _ => "delta_interpretation"
  | deltaBound _ => "delta_bound"

namespace Config

/-- Ten timesteps, each up to its fixed point; nothing is recorded. -/
def standard : Config where
  timesteps := 10
  convergence := .perfect
  atomTrace := false
  attributeTrace := false
  policy := .resolve
  factMode := .intersection
  persistent := false
  retainHistory := false
  execution := .sequential
  threads := none
  maxIterations := 1000

instance : Inhabited Config := ⟨standard⟩

/-- Whether a criterion compares with a movement that bounds in `[0, 1]` cannot make. -/
def thresholdOutsideUnit : Convergence → Bool
  | .deltaBound threshold => !Degree.inUnit threshold
  | _ => false

/-- What has to hold of a configuration before it is used. -/
def validate (c : Config) : Except Error Unit :=
  if c.maxIterations = 0 then .error (.invalidConfig .noIterations)
  else if c.threads = some 0 then .error (.invalidConfig .noThreads)
  else if thresholdOutsideUnit c.convergence then .error (.invalidConfig .thresholdOutsideUnit)
  else .ok ()

end Config

end AnnotatedLogic
