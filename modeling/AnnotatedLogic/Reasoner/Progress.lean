import AnnotatedLogic.Interpretation.Assertion
/-!
# Progress

How much a stretch of work has changed: the number of changes and the largest movement of a bound.
A convergence criterion compares one of the two with its threshold.

* `converged`: an iteration has changed so little that the timestep is done.
* `settled`: a timestep has changed so little that the run may end if nothing is left to come.
-/

namespace AnnotatedLogic

/-- How much a stretch of work has changed. -/
structure Progress where
  changedAtoms : Nat
  movement : Degree
deriving DecidableEq

namespace Progress

/-- Nothing has changed. -/
def nothing : Progress := ⟨0, 0⟩

instance : Inhabited Progress := ⟨nothing⟩

/-- Takes the outcome of one more assertion into account. -/
def absorb (p : Progress) (o : Outcome) : Progress :=
  ⟨p.changedAtoms + o.changedAtoms, p.movement.larger o.movement⟩

/-- Two stretches of work taken together. -/
def merge (p q : Progress) : Progress :=
  ⟨p.changedAtoms + q.changedAtoms, p.movement.larger q.movement⟩

/-- Whether an iteration has reached its fixed point, as the criterion sees it. -/
def converged (p : Progress) : Convergence → Bool
  | .perfect => p.changedAtoms == 0
  | .deltaInterpretation threshold => decide (p.changedAtoms ≤ threshold)
  | .deltaBound threshold => decide (p.movement ≤ threshold)

/-- Whether a run may end after a timestep, once nothing is pending. Where a timestep goes up to
its fixed point, the next one would only repeat it. -/
def settled (p : Progress) : Convergence → Bool
  | .perfect => true
  | criterion => p.converged criterion

end Progress

end AnnotatedLogic
