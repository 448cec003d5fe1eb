import AnnotatedLogic.Error
import AnnotatedLogic.Interval
import AnnotatedLogic.Label
/-!
# Facts

A fact asserts a bound of an atom during a window of timesteps, both ends included. A static fact
has no last timestep, and the value it gives outlives timesteps.

* `isActive`: when a fact is asserted.
* `validate`: the window must not end before it starts, unless the fact is static.
-/

namespace AnnotatedLogic

/-- A bound asserted of an atom during a window of timesteps. -/
structure Fact where
  name : String
  target : Component
  label : Label
  bound : Interval
  tLower : Nat
  tUpper : Nat
  isStatic : Bool
  /-- Whether the fact comes from an attribute of the graph. -/
  fromAttribute : Bool
deriving DecidableEq

namespace Fact

/-- A fact during one window. -/
def during (f : Fact) (tLower tUpper : Nat) : Fact :=
  { f with tLower := tLower, tUpper := tUpper }

/-- The fact moved to a later window. -/
def shift (f : Fact) (steps : Nat) : Fact :=
  f.during (f.tLower + steps) (f.tUpper + steps)

/-- Whether the fact is asserted at a timestep. -/
def isActive (f : Fact) (t : Nat) : Bool :=
  decide (f.tLower ≤ t) && (f.isStatic || decide (t ≤ f.tUpper))

/-- The last timestep of the window; a static fact has none. -/
def lastTime? (f : Fact) : Option Nat :=
  if f.isStatic then none else some f.tUpper

/-- Refuses a window that ends before it starts. -/
def validate (f : Fact) : Except Error Unit :=
  if f.tUpper < f.tLower ∧ f.isStatic = false then
    .error (.invalidFact f.name f.tLower f.tUpper)
  else .ok ()

end Fact

end AnnotatedLogic
